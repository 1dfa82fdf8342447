import Cicode.Parse.Run
import Cicode.Proofs.Lex.Places

/-!
# What a parse takes from its text

A parser looks at its text only to read the next token.  Every other step commutes with a change of the
text (`Parser.on`).  So a parse depends on the tokens that can be read, in every state and at every
position, and on the size of the text (`parse_congr`).
-/

namespace Cicode.Parse

open Grammar Text Cicode.Lex

namespace Parser

/-- The parser at the same point, in another text. -/
def on (parser : Parser) (source : Source) : Parser := { parser with source }

@[simp] theorem on_source (parser : Parser) (source : Source) : (parser.on source).source = source := rfl
@[simp] theorem on_stack (parser : Parser) (source : Source) : (parser.on source).stack = parser.stack := rfl
@[simp] theorem on_isSettled (parser : Parser) (source : Source) (least : Option Nat) :
    (parser.on source).isSettled least = parser.isSettled least := rfl
@[simp] theorem on_finished (parser : Parser) (source : Source) :
    (parser.on source).finished = parser.finished := rfl

theorem on_withStack (parser : Parser) (source : Source) (stack : Stack) :
    { parser.on source with stack } = Parser.on { parser with stack } source := rfl

variable (parser : Parser) (source : Source)

/-! ## Steps that do not look at the text -/

theorem accept_on (version : Version) (lookahead : Subtree) :
    (parser.on source).accept version lookahead = (parser.accept version lookahead).on source := by
  have hfold : ∀ (step : Parser → Slice → Parser) (stack : Stack) (slices : List Slice),
      (∀ parser slice, step (on parser source) slice = on (step parser slice) source) →
        slices.foldl step (on { parser with stack } source) =
          on (slices.foldl step { parser with stack }) source :=
    fun step stack slices hstep => List.foldl_hom (on · source) hstep
  rw [accept, accept, on_stack]
  generalize (parser.stack.push version (some lookahead) 1).popAll version = popped
  obtain ⟨stack, slices⟩ := popped
  cases slices with
  | nil => rfl
  | cons slice rest =>
    refine congrArg (fun accepted : Parser =>
      { accepted with stack := (accepted.stack.remove slice.version).halt version })
      (hfold _ stack (slice :: rest) fun parser slice => ?_)
    cases rootOf slice.subtrees <;> rfl

theorem betterVersionExists_on (version : Version) (cost : Nat) :
    (parser.on source).betterVersionExists version cost =
      (parser.betterVersionExists version cost).map (on · source) id := by
  rw [betterVersionExists, betterVersionExists, on_finished]
  split <;> rfl

theorem tryLandmarks_on (version : Version) (lookahead : Subtree) (position : Extent)
    (before cost : Nat) (progressed : Bool) (landmarks : List Landmark) :
    tryLandmarks version lookahead position before cost progressed landmarks (parser.on source) =
      (tryLandmarks version lookahead position before cost progressed landmarks parser).map
        (on · source) id := by
  induction landmarks generalizing parser with
  | nil => rfl
  | cons landmark rest ih =>
    simp only [tryLandmarks, betterVersionExists_on, on_stack, on_withStack, Prod.map_fst, Prod.map_snd,
      id, ih]
    simp only [apply_ite (Prod.map (on · source) id)]
    rfl

theorem recover_on (version : Version) (lookahead : Subtree) :
    (parser.on source).recover version lookahead = (parser.recover version lookahead).on source := by
  simp only [recover, on_stack, on_withStack, tryLandmarks_on, betterVersionExists_on, accept_on,
    Prod.map, id]
  simp only [apply_ite (on · source)]
  rfl

theorem handleError_on (version : Version) (lookahead : Subtree) :
    (parser.on source).handleError version lookahead =
      (parser.handleError version lookahead).on source := by
  dsimp only [handleError, on_stack, on_withStack]
  exact recover_on _ source version lookahead

/-- What became of a version, in another text. -/
def Turn.on (source : Source) : Turn → Turn
  | .done parser => .done (parser.on source)
  | .reduced parser made => .reduced (parser.on source) made
  | .stuck parser => .stuck (parser.on source)

theorem act_on (version : Version) (lookahead : Subtree) (actions : List Action) (reduced : Bool)
    (made : Option Version) : act version lookahead actions reduced made (parser.on source) =
      (act version lookahead actions reduced made parser).on source := by
  induction actions generalizing reduced made parser with
  | nil => cases reduced <;> rfl
  | cons action rest ih =>
    cases action with
    | shiftRepeat target => exact ih _ _ _
    | shift target => rfl
    | shiftExtra => rfl
    | reduce symbol count production =>
      simp only [act, on_stack, on_withStack, ih]
    | accept => exact congrArg Turn.done (accept_on parser source version lookahead)
    | recover => exact congrArg Turn.done (recover_on parser source version lookahead)

theorem consume_on (version : Version) (fuel : Nat) (lookahead : Subtree) :
    consume version fuel lookahead (parser.on source) =
      (consume version fuel lookahead parser).on source := by
  induction fuel generalizing lookahead parser with
  | zero => rfl
  | succ fuel ih =>
    rw [consume, consume, on_stack, act_on]
    cases act version lookahead (actionsAt (parser.stack.state version) lookahead.symbol) false none
      parser with
    | done parser => rfl
    | reduced parser made =>
      cases made with
      | none => rfl
      | some made => exact ih { parser with stack := parser.stack.renumber made version } _
    | stuck parser' =>
      simp only [Turn.on]
      split
      · exact ih _ _
      · rfl

theorem resumePaused_on (fuel : Nat) (version : Version) (count : Nat) (unpaused : Bool)
    (least : Option Nat) :
    resumePaused fuel version count unpaused least (parser.on source) =
      (resumePaused fuel version count unpaused least parser).map (on · source) id := by
  induction fuel generalizing version count unpaused least parser with
  | zero => rfl
  | succ fuel ih =>
    simp only [resumePaused, on_stack, on_withStack, handleError_on]
    split
    · split
      · split
        · split
          · exact ih _ _ _ _ _
          · rename_i h h'
            exact absurd h h'
        · split
          · rename_i h h'
            exact absurd h' h
          · exact ih _ _ _ _ _
      · exact ih _ _ _ _ _
    · rfl

theorem condense_on : (parser.on source).condense = parser.condense.map (on · source) id := by
  simp only [condense, on_stack, on_withStack, resumePaused_on]

/-! ## Reading tokens -/

/-- The same token is read in the parser's text and in another one, whatever the state and the place. -/
def ReadsAs : Prop :=
  ∀ state position, nextToken parser.source state position = nextToken source state position

variable {parser source}

/-- A step that commutes with a change of the text leaves the text as it is. -/
theorem source_eq_of_commutes {parser' : Parser} (h : parser' = parser'.on parser.source) :
    parser'.source = parser.source := by
  rw [h, on_source]

theorem advance_source (version : Version) : (parser.advance version).source = parser.source := by
  have h := consume_on parser parser.source version parser.reductionBound
    (.ofToken (nextToken parser.source (parser.stack.state version) (parser.stack.position version)))
  exact source_eq_of_commutes h

theorem condense_source : parser.condense.1.source = parser.source := by
  have h := condense_on parser parser.source
  exact source_eq_of_commutes (congrArg Prod.fst h)

theorem advance_on (h : parser.ReadsAs source) (version : Version) :
    (parser.on source).advance version = (parser.advance version).on source := by
  rw [advance, advance, on_stack, on_source, ← h]
  exact consume_on parser source version _ _

/-- An advance leaves what can be read. -/
theorem ReadsAs.advance (h : parser.ReadsAs source) (version : Version) :
    (parser.advance version).ReadsAs source := by
  rw [ReadsAs, advance_source]
  exact h

theorem advancePast_on (h : parser.ReadsAs source) (version : Version) (fuel reached : Nat) :
    advancePast version fuel reached (parser.on source) =
      (advancePast version fuel reached parser).map id (on · source) ∧
    (advancePast version fuel reached parser).2.ReadsAs source := by
  induction fuel generalizing parser with
  | zero => exact ⟨rfl, h⟩
  | succ fuel ih =>
    simp only [advancePast, advance_on h, on_stack]
    split
    · split
      · exact ⟨rfl, h.advance version⟩
      · exact ih (h.advance version)
    · exact ⟨rfl, h⟩

theorem advanceAll_on (h : parser.ReadsAs source) (fuel steps : Nat) (version : Version) (reached : Nat) :
    advanceAll fuel steps version reached (parser.on source) =
      (advanceAll fuel steps version reached parser).map id (on · source) ∧
    (advanceAll fuel steps version reached parser).2.ReadsAs source := by
  induction fuel generalizing version reached parser with
  | zero => exact ⟨rfl, h⟩
  | succ fuel ih =>
    obtain ⟨hon, hreads⟩ := advancePast_on h version steps reached
    simp only [advanceAll, hon, on_stack, Prod.map, id]
    split
    · exact ih hreads _ _
    · exact ⟨rfl, h⟩

/-- A whole run depends on the text by the tokens that can be read. -/
theorem run_on (h : parser.ReadsAs source) (fuel reached : Nat) :
    run fuel reached (parser.on source) = (run fuel reached parser).on source := by
  induction fuel generalizing reached parser with
  | zero => rfl
  | succ fuel ih =>
    obtain ⟨hon, hreads⟩ := advanceAll_on h (fuel + 1) (fuel + 1) 0 reached
    have hreads' : (advanceAll (fuel + 1) (fuel + 1) 0 reached parser).2.condense.1.ReadsAs source := by
      rw [ReadsAs, condense_source]
      exact hreads
    simp only [run, hon, Prod.map, condense_on, on_stack, on_isSettled, id, ih hreads']
    exact (apply_ite (on · source) ..).symm

end Parser

/-- **A parse depends on the tokens that can be read, and on the extent of the text.** -/
theorem parse_congr {a b : List Char} (hextent : Extent.of a = Extent.of b)
    (htokens : ∀ state position,
      nextToken (.ofList a) state position = nextToken (.ofList b) state position) :
    parse a = parse b := by
  have hfinished : ∀ bound,
      (Parser.run bound 0 { source := .ofList b, stack := .initial }).finished =
        (Parser.run bound 0 { source := .ofList a, stack := .initial }).finished := by
    intro bound
    have hreads : Parser.ReadsAs { source := .ofList a, stack := .initial } (.ofList b) := htokens
    have hrun := Parser.run_on hreads bound 0
    rw [Parser.on] at hrun
    rw [hrun, Parser.on_finished]
  have hbound : roundBound (.ofList b) = roundBound (.ofList a) := by
    simp only [roundBound, Source.size, Source.ofList, List.size_toArray, length_suffixesOf,
      ← Extent.bytes_of, hextent]
  rw [parse, parse]
  simp only [hbound, hfinished, unread, hextent]

end Cicode.Parse
