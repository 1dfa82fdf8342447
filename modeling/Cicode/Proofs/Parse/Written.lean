import Cicode.Proofs.Grammar.Implementation
import Cicode.Proofs.Lex.Words
import Cicode.Proofs.Parse.Straight

/-!
# Parsing a row of words

A row of words is written with a blank before each word and one at the end (`written`).  If each word
spells its terminal, the parser reads the words one by one and does with them what the shift-reduce
automaton of the table does: wherever the automaton has a derivation on its stack, the parser has a
tree that *represents* it (`Represents`).

Main statement (`parse_written`): for a row of words with a resolved derivation the parser finds a tree
that represents what the automaton builds, and so dissolves into the derivation.
-/

namespace Cicode.Parse

open Grammar Text Cicode.Lex Grammar.ShiftReduce

/-! ## Words with blanks -/

/-- Words with a blank before each of them. -/
def spaced (words : List (Symbol × List Char)) : List Char := words.flatMap fun word => ' ' :: word.2

/-- Words with a blank before each of them and one at the end. -/
def written (words : List (Symbol × List Char)) : List Char := spaced words ++ [' ']

@[simp] theorem spaced_nil : spaced [] = [] := rfl

@[simp] theorem spaced_cons (word : Symbol × List Char) (words : List (Symbol × List Char)) :
    spaced (word :: words) = ' ' :: (word.2 ++ spaced words) := rfl

@[simp] theorem spaced_append (a b : List (Symbol × List Char)) :
    spaced (a ++ b) = spaced a ++ spaced b :=
  List.flatMap_append

/-- What comes after a blank, a word and the blank after it. -/
theorem written_cons (word : Symbol × List Char) (words : List (Symbol × List Char)) :
    ∃ post, written (word :: words) = ' ' :: (word.2 ++ ' ' :: post) := by
  cases words with
  | nil => exact ⟨[], by simp [written]⟩
  | cons next words => exact ⟨next.2 ++ spaced words ++ [' '], by simp [written]⟩

/-! ## Trees that represent derivations -/

/-- The facts of a token that was read from a word after a blank. -/
structure IsLeaf (symbol : Symbol) (word : List Char) (facts : Facts) : Prop where
  symbol_eq : facts.symbol = symbol
  padding : facts.padding.bytes = 1
  size : facts.size.bytes = byteLength word
  extra : facts.extra = false
  present : facts.missing = false
  free : facts.errorCost = 0

/-- The tree that the parser builds for a derivation. -/
inductive Represents : Derivation (List Char) → Subtree → Prop
  | leaf {symbol : Symbol} {word : List Char} {facts : Facts} : IsLeaf symbol word facts →
      Represents (.leaf symbol word) (.node facts [])
  | node {symbol : Symbol} {children : List (Derivation (List Char))} {trees : List Subtree} :
      symbol.isSkipped = false → List.Forall₂ Represents children trees →
      Represents (.node symbol children)
        (.ofChildren symbol (productionNumber symbol (children.map Derivation.symbol)) trees)

/-- What is known of the tree of a derivation. -/
structure Subtree.IsClean (tree : Subtree) (symbol : Symbol) (bytes : Nat) : Prop where
  symbol_eq : tree.symbol = symbol
  extra : tree.isExtra = false
  present : tree.facts.missing = false
  free : tree.errorCost = 0
  size : tree.totalSize.bytes = bytes

mutual

theorem Represents.isClean : ∀ (d : Derivation (List Char)) {tree : Subtree}, Represents d tree →
    tree.IsClean d.symbol (byteLength (spaced d.yield))
  | .leaf symbol word, _, .leaf hl => by
    refine ⟨hl.symbol_eq, hl.extra, hl.present, hl.free, ?_⟩
    have hblank : (' ' : Char).utf8Size = 1 := rfl
    rw [Subtree.totalSize, Extent.bytes_add]
    simp only [Subtree.facts, hl.padding, hl.size, Derivation.yield, spaced_cons, spaced_nil,
      List.append_nil, byteLength_cons, hblank]
  | .node symbol children, _, .node hs hall => by
    obtain ⟨hfree, hsize⟩ := Represents.isClean_all children hall
    refine ⟨Subtree.symbol_ofChildren .., Subtree.isExtra_ofChildren .., Subtree.missing_ofChildren ..,
      ?_, ?_⟩
    · rw [Subtree.errorCost_ofChildren_eq_zero hs]
      exact fun c hc => .inr (hfree c hc).2
    · rw [Subtree.totalSize_ofChildren, hsize]
      rfl

theorem Represents.isClean_all : ∀ (ds : List (Derivation (List Char))) {trees : List Subtree},
    List.Forall₂ Represents ds trees → (∀ t ∈ trees, t.isExtra = false ∧ t.errorCost = 0) ∧
      (extentOf trees).bytes = byteLength (spaced (Derivation.yieldAll ds))
  | [], _, .nil => ⟨by simp, rfl⟩
  | d :: ds, _, .cons h hs => by
    have hclean := Represents.isClean d h
    obtain ⟨hall, hbytes⟩ := Represents.isClean_all ds hs
    refine ⟨List.forall_mem_cons.mpr ⟨⟨hclean.extra, hclean.free⟩, hall⟩, ?_⟩
    rw [extentOf_cons, Extent.bytes_add, hclean.size, hbytes, Derivation.yieldAll, spaced_append,
      byteLength_append]

end

/-! ## Floors that represent frames -/

/-- A floor holds the state of a frame and a tree that represents its derivation. -/
structure Floor.Holds (frame : Frame (List Char)) (floor : Floor) : Prop where
  state_eq : floor.state = frame.state
  represents : Represents frame.tree floor.tree

/-- The floors hold the frames of a stack. -/
abbrev Stands (stack : List (Frame (List Char))) (floors : List Floor) : Prop :=
  List.Forall₂ Floor.Holds stack floors

namespace Stands

variable {stack : List (Frame (List Char))} {floors : List Floor}

theorem top_eq (h : Stands stack floors) : Floor.top floors = stateOf stack := by
  cases h with
  | nil => rfl
  | cons hfloor _ => exact hfloor.state_eq

theorem plain (h : Stands stack floors) : ∀ floor ∈ floors, floor.tree.isExtra = false := by
  induction h with
  | nil => simp
  | cons hfloor _ ih =>
    exact List.forall_mem_cons.mpr ⟨(hfloor.represents.isClean _).extra, ih⟩

theorem reach_eq (h : Stands stack floors) :
    (Floor.reach floors).bytes = byteLength (spaced (stackYield stack)) := by
  induction h with
  | nil => rfl
  | cons hfloor _ ih =>
    rw [Floor.reach, Extent.bytes_add, ih, (hfloor.represents.isClean _).size, stackYield_cons,
      spaced_append, byteLength_append]

/-- The topmost floors represent the topmost frames, the lowest of them first. -/
theorem take_reverse (h : Stands stack floors) (count : Nat) :
    List.Forall₂ Represents ((stack.take count).reverse.map Frame.tree)
      ((floors.take count).map Floor.tree).reverse := by
  rw [← List.map_reverse, List.forall₂_map_left_iff, List.forall₂_map_right_iff,
    List.forall₂_reverse_iff]
  exact (List.forall₂_take count h).imp fun _ _ hfloor => hfloor.represents

end Stands

namespace Floor

/-- Without extras as many floors are taken off as are asked for. -/
theorem takeOff_plain {floors : List Floor} (h : ∀ floor ∈ floors, floor.tree.isExtra = false)
    {count : Nat} (hc : count ≤ floors.length) :
    takeOff count floors = some (((floors.take count).map Floor.tree).reverse, floors.drop count) := by
  induction floors generalizing count with
  | nil =>
    obtain rfl : count = 0 := Nat.le_zero.mp hc
    rfl
  | cons floor below ih =>
    obtain ⟨hfloor, hbelow⟩ := List.forall_mem_cons.mp h
    cases count with
    | zero => rfl
    | succ count =>
      rw [takeOff, hfloor]
      simp only [Bool.false_eq_true, if_false]
      rw [ih hbelow (Nat.le_of_succ_le_succ hc)]
      simp

/-- Without extras a reduction puts the parent in the place of its children. -/
theorem reduce_plain {floors : List Floor} (h : ∀ floor ∈ floors, floor.tree.isExtra = false)
    {count : Nat} (hc : count ≤ floors.length) (symbol : Symbol) (production : Nat) :
    reduce symbol count production floors = some
      (⟨nextState (top (floors.drop count)) symbol,
        .ofChildren symbol production ((floors.take count).map Floor.tree).reverse⟩ ::
        floors.drop count) := by
  have hnone : ∀ t ∈ ((floors.take count).map Floor.tree).reverse, t.isExtra = false := by
    intro t ht
    obtain ⟨floor, hfloor, rfl⟩ := List.mem_map.mp (List.mem_reverse.mp ht)
    exact h floor (List.mem_of_mem_take hfloor)
  rw [reduce, takeOff_plain h hc, Option.map_some, putParent]
  generalize ((floors.take count).map Floor.tree).reverse = trees at hnone
  obtain ⟨hparts, hextras⟩ := splitTrailingExtras_spec trees
  have hempty : (Subtree.splitTrailingExtras trees).2 = [] := by
    refine List.eq_nil_iff_forall_not_mem.mpr fun t ht => ?_
    have htrue := hextras t ht
    rw [hnone t (by rw [hparts]; exact List.mem_append_right _ ht)] at htrue
    cases htrue
  have hall : (Subtree.splitTrailingExtras trees).1 = trees := by
    rw [hempty, List.append_nil] at hparts
    exact hparts.symm
  rw [hempty, hall]
  rfl

theorem Reductions.tail {terminal : Symbol} {floors mid last : List Floor}
    (h : Reductions terminal floors mid) {symbol : Symbol} {count production : Nat}
    (hc : chosen (actionsAt (top mid) terminal) = some (.reduce symbol count production))
    (hr : reduce symbol count production mid = some last) : Reductions terminal floors last := by
  induction h with
  | done => exact .step hc hr .done
  | step hc' hr' _ ih => exact .step hc' hr' (ih hc hr)

end Floor

/-- The root of a text without extras but its end. -/
theorem rootOf_pair {tree final : Subtree} (hx : tree.isExtra = false) (hf : final.isExtra = true) :
    Parser.rootOf [tree, final] =
      some (.ofChildren tree.symbol tree.facts.production (tree.children ++ [final])) := by
  have hspan : ([tree, final].reverse.span Subtree.isExtra) = ([final], [tree]) := by
    simp [List.span, List.span.loop, hx, hf]
  rw [Parser.rootOf, hspan]
  rfl

/-! ## Reading along with the automaton -/

theorem not_skipped_of_rightSide {symbol : Symbol} {rhs : List Symbol} (h : rhs ∈ rightSides symbol) :
    symbol.isSkipped = false := by
  cases hs : symbol.isSkipped with
  | false => rfl
  | true =>
    have hnone : rightSides symbol = [] := by
      revert hs
      cases symbol <;> decide
    rw [hnone] at h
    cases h

/-- The parser has read what the automaton has: `before` are the floors on which the next token was
read, `floors` what reductions have made of them. -/
structure Follows (word : List (Symbol × List Char)) (c : Config (List Char))
    (before floors : List Floor) : Prop where
  sound : ShiftReduce.Sound word c
  arrives : Floor.Arrives (written word) before
  reductions : Floor.Reductions (Floor.next (written word) before).symbol before floors
  stands : Stands c.stack floors
  symbol_eq : (Floor.next (written word) before).symbol = lookahead c.input
  leaf : ∀ x rest, c.input = x :: rest →
    IsLeaf x.1 x.2 ((Floor.next (written word) before).withExtra false).facts

variable {word : List (Symbol × List Char)} {c : Config (List Char)} {before floors : List Floor}

/-- The next token is the next word, if the state has a use for it. -/
theorem follows_start (hspelled : ∀ x ∈ word, Spelled x.1 x.2) (hsound : ShiftReduce.Sound word c)
    (harrives : Floor.Arrives (written word) floors) (hstands : Stands c.stack floors)
    (hchosen : chosen (actionsAt (stateOf c.stack) (lookahead c.input)) ≠ none) :
    Follows word c floors floors := by
  have hact : hasActions (Floor.top floors) (lookahead c.input) = true := by
    rw [hstands.top_eq, hasActions, Bool.not_eq_true', List.isEmpty_eq_false_iff]
    intro hnil
    rw [hnil] at hchosen
    exact hchosen rfl
  have hzero := harrives.linked.top_ne_zero
  have hrest : ((Source.ofList (written word)).cursorAt (Floor.reach floors)).rest =
      written c.input := by
    have htext : written word = spaced (stackYield c.stack) ++ written c.input := by
      rw [← hsound.yields, written, spaced_append, List.append_assoc, ← written]
    rw [htext]
    exact rest_cursorAt _ _ hstands.reach_eq
  cases hinput : c.input with
  | nil =>
    rw [hinput] at hact hrest
    refine ⟨hsound, harrives, .done, hstands, ?_, ?_⟩
    · rw [hinput]
      exact nextToken_at_end hzero hact (.inl rfl) hrest
    · intro x rest heq
      rw [hinput] at heq
      cases heq
  | cons x rest =>
    rw [hinput] at hact hrest
    have hx : Spelled x.1 x.2 := hspelled x (by rw [← hsound.yields, hinput]; simp)
    obtain ⟨post, hpost⟩ := written_cons x rest
    obtain ⟨hsymbol, hpadding, hsize⟩ := nextToken_of_spelled hx hzero hact
      (.inr rfl) (blank_mem_enders x.1) (hrest.trans hpost)
    refine ⟨hsound, harrives, .done, hstands, ?_, ?_⟩
    · rw [hinput]
      exact hsymbol
    · intro y rest' heq
      rw [hinput] at heq
      cases heq
      exact ⟨hsymbol, hpadding, hsize, rfl, rfl, rfl⟩

/-- A reduction of the automaton is one of the parser. -/
theorem Follows.reduce (h : Follows word c before floors) {symbol : Symbol} {count production : Nat}
    (hc : chosen (actionsAt (stateOf c.stack) (lookahead c.input)) =
      some (.reduce symbol count production)) {c' : Config (List Char)}
    (hstep : step c = .next c') (hsound : ShiftReduce.Sound word c') :
    ∃ floors', Follows word c' before floors' := by
  obtain ⟨hle, hrhs, hp, hnon, hgoto⟩ := h.sound.linked.reduction (.of_mem (mem_of_chosen hc))
  have hle' : count ≤ floors.length := by
    rw [← h.stands.length_eq]
    exact hle
  have hreduce := Floor.reduce_plain h.stands.plain hle' symbol production
  have hbelow : Stands (c.stack.drop count) (floors.drop count) :=
    List.forall₂_drop count h.stands
  rw [step, hc] at hstep
  simp only [Nat.not_lt.mpr hle, hgoto, or_self, if_false] at hstep
  cases hstep
  refine ⟨_, hsound, h.arrives, h.reductions.tail ?_ hreduce, ?_, h.symbol_eq, h.leaf⟩
  · rw [h.stands.top_eq, h.symbol_eq]
    exact hc
  · refine .cons ⟨?_, ?_⟩ hbelow
    · rw [Stack.nextState_nonterminal hnon, hbelow.top_eq]
    · subst hp
      have hsymbols : ((c.stack.take count).reverse.map fun frame => frame.tree.symbol) =
          ((c.stack.take count).reverse.map Frame.tree).map Derivation.symbol := by
        rw [List.map_map]
        rfl
      rw [hsymbols]
      exact .node (not_skipped_of_rightSide hrhs) (h.stands.take_reverse count)

/-- A shift of the automaton reads the token. -/
theorem Follows.shift (h : Follows word c before floors) {x : Symbol × List Char}
    {rest : List (Symbol × List Char)} (hinput : c.input = x :: rest) {target : StateId}
    (hc : chosen (actionsAt (stateOf c.stack) (lookahead c.input)) = some (.shift target)) :
    ∃ floors', Floor.Arrives (written word) floors' ∧
      Stands (⟨target, .leaf x.1 x.2⟩ :: c.stack) floors' := by
  have hleaf := h.leaf x rest hinput
  have htarget : chosen (actionsAt (Floor.top floors) (Floor.next (written word) before).symbol) =
      some (.shift target) := by
    rw [h.stands.top_eq, h.symbol_eq]
    exact hc
  exact ⟨_, .read h.arrives ⟨floors, h.reductions, .tree htarget⟩,
    .cons ⟨rfl, .leaf hleaf⟩ h.stands⟩

/-- What the parser has found when the automaton accepts. -/
theorem Follows.accept (h : Follows word c before floors) {frame : Frame (List Char)}
    (hstack : c.stack = [frame])
    (hc : chosen (actionsAt (stateOf c.stack) (lookahead c.input)) = some .accept) :
    ∃ children trees final, frame.tree = .node .sourceFile children ∧
      List.Forall₂ Represents children trees ∧ final.symbol = .endOfInput ∧
      Floor.Accepts (written word) (.ofChildren .sourceFile 0 (trees ++ [.ofToken final])) := by
  obtain ⟨hstate, hend⟩ := accept_of_chosen hc
  have hlinked := h.sound.linked
  have hfollows := h.sound.follows frame (by rw [hstack]; exact List.mem_singleton_self _)
  have hstands := h.stands
  rw [hstack] at hstate hlinked hstands
  have hsymbol : frame.tree.symbol = .sourceFile := ((target_of_arrow hlinked.1).2 hstate).2
  obtain ⟨floor, rfl, hfloor⟩ : ∃ floor, floors = [floor] ∧ Floor.Holds frame floor := by
    cases hstands with
    | cons hfloor hnil =>
      cases hnil
      exact ⟨_, rfl, hfloor⟩
  obtain ⟨state, sub⟩ := floor
  have hrep : Represents frame.tree sub := hfloor.represents
  generalize frame.tree = tree at hsymbol hfollows hrep
  have hextra := (hrep.isClean _).extra
  cases hrep with
  | leaf hl =>
    obtain rfl : _ = Symbol.sourceFile := hsymbol
    cases hfollows
  | @node symbol children trees hs hall =>
    obtain rfl : symbol = .sourceFile := hsymbol
    have hfinal : (Floor.next (written word) before).isExtra = true := by
      have hsym := h.symbol_eq.trans hend
      simpa [Floor.next, Subtree.ofToken, Subtree.isExtra, Subtree.symbol, Subtree.facts] using hsym
    refine ⟨children, trees, nextToken (.ofList (written word)) (Floor.top before) (Floor.reach before), rfl,
      hall, h.symbol_eq.trans hend, before, _, h.arrives, h.reductions, ?_, ?_⟩
    · rw [h.stands.top_eq, h.symbol_eq]
      exact hc
    · have hroot := rootOf_pair hextra hfinal
      rw [Subtree.symbol_ofChildren, Subtree.production_ofChildren, Subtree.children_ofChildren] at hroot
      exact hroot

/-- The automaton goes on only where the table has an action. -/
theorem chosen_of_accepted {steps : Nat} {tree : Derivation (List Char)}
    (h : ShiftReduce.run steps c = .accepted tree) :
    chosen (actionsAt (stateOf c.stack) (lookahead c.input)) ≠ none := by
  intro hnone
  cases steps with
  | zero => cases h
  | succ steps =>
    have hstep : step c = .rejected := by rw [step, hnone]
    rw [ShiftReduce.run, hstep] at h
    cases h

/-- A step that goes on is a shift or a reduction. -/
theorem step_next {c' : Config (List Char)} (h : step c = .next c') :
    (∃ target x rest, c.input = x :: rest ∧ c' = ⟨⟨target, .leaf x.1 x.2⟩ :: c.stack, rest⟩ ∧
      chosen (actionsAt (stateOf c.stack) (lookahead c.input)) = some (.shift target)) ∨
    ∃ symbol count production, chosen (actionsAt (stateOf c.stack) (lookahead c.input)) =
      some (.reduce symbol count production) := by
  have hstep := h
  rw [step] at hstep
  split at hstep
  · rename_i target hc
    split at hstep
    · rename_i terminal token rest hinput
      cases hstep
      exact .inl ⟨target, (terminal, token), rest, hinput, rfl, hc⟩
    · cases hstep
  · rename_i symbol count production hc
    exact .inr ⟨symbol, count, production, hc⟩
  · split at hstep <;> cases hstep
  · cases hstep

/-- A step that accepts finds a single tree on the stack. -/
theorem step_accepted {tree : Derivation (List Char)} (h : step c = .accepted tree) :
    ∃ frame, c.stack = [frame] ∧ tree = frame.tree ∧
      chosen (actionsAt (stateOf c.stack) (lookahead c.input)) = some .accept := by
  rw [step] at h
  split at h
  · split at h <;> cases h
  · simp only at h
    split at h <;> cases h
  · rename_i hc
    split at h
    · rename_i frame hstack
      cases h
      exact ⟨frame, hstack, rfl, hc⟩
    · cases h
  · cases h

/-- **The parser does what the automaton does.** -/
theorem Follows.run (hspelled : ∀ x ∈ word, Spelled x.1 x.2) (steps : Nat) {tree : Derivation (List Char)}
    (h : Follows word c before floors) (hrun : ShiftReduce.run steps c = .accepted tree) :
    ∃ children trees final, tree = .node .sourceFile children ∧
      List.Forall₂ Represents children trees ∧ final.symbol = .endOfInput ∧
      Floor.Accepts (written word) (.ofChildren .sourceFile 0 (trees ++ [.ofToken final])) := by
  have hword : ∀ x ∈ word, x.1.isTerminal = true := fun x hx =>
    spellable_terminal x.1 (hspelled x hx).spellable
  induction steps generalizing c before floors with
  | zero => cases hrun
  | succ steps ih =>
    rw [ShiftReduce.run] at hrun
    cases hstep : step c with
    | next c' =>
      have hsound := (h.sound.step hword).2 c' hstep
      rw [hstep] at hrun
      rcases step_next hstep with ⟨target, x, rest, hinput, rfl, hc⟩ | ⟨symbol, count, production, hc⟩
      · obtain ⟨floors', harrives, hstands⟩ := h.shift hinput hc
        exact ih (follows_start hspelled hsound harrives hstands (chosen_of_accepted hrun)) hrun
      · obtain ⟨floors', hfollows⟩ := h.reduce hc hstep hsound
        exact ih hfollows hrun
    | accepted found =>
      rw [hstep] at hrun
      cases hrun
      obtain ⟨frame, hstack, rfl, hc⟩ := step_accepted hstep
      exact h.accept hstack hc
    | rejected | broken =>
      rw [hstep] at hrun
      cases hrun

/-- **The tree of a row of words** represents what the automaton builds, which dissolves into the
resolved derivation of the words. -/
theorem parse_written (hspelled : ∀ x ∈ word, Spelled x.1 x.2) {d : Derivation (List Char)}
    (h : d.Derives .sourceFile word) (hr : d.Resolved) :
    ∃ children trees final, (Derivation.node .sourceFile children).FollowsTable ∧
      (Derivation.node .sourceFile children).dissolve = [d] ∧
      (Derivation.node .sourceFile children).yield = word ∧
      List.Forall₂ Represents children trees ∧ final.symbol = .endOfInput ∧
      parse (written word) = .ofChildren .sourceFile 0 (trees ++ [.ofToken final]) := by
  obtain ⟨steps, tree, hrun, hdissolve⟩ := accepted_of_resolved h hr
  have hstart : Follows word (start word) [] [] :=
    follows_start hspelled (sound_start word) .start .nil (chosen_of_accepted hrun)
  obtain ⟨children, trees, final, rfl, hall, hsymbol, haccepts⟩ := hstart.run hspelled steps hrun
  have hword : ∀ x ∈ word, x.1.isTerminal = true ∧ x.1 ≠ .endOfInput := by
    intro x hx
    have hx := (hspelled x hx).spellable
    refine ⟨spellable_terminal x.1 hx, fun hend => ?_⟩
    rw [hend] at hx
    exact absurd hx (by decide)
  obtain ⟨hfollows, -, hyield⟩ := followsTable_of_accepted hword hrun
  exact ⟨children, trees, final, hfollows, hdissolve, hyield, hall, hsymbol,
    parse_of_accepts haccepts⟩

end Cicode.Parse
