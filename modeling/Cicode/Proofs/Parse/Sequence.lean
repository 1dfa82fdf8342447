import Cicode.Proofs.Lex.Row
import Cicode.Proofs.Parse.Derived

/-!
# Parsing rows of words

A text that reads as a row of words (`ReadsRow`) is parsed as the shift-reduce automaton does it: wherever
the automaton has a frame on its stack, the parser has a floor (`Tracks`).  Such a text holds no comments.

Main statement (`parse_row`): the tree of a text that reads as a row of words has the derivation that the
automaton builds, which dissolves into the resolved derivation of the words.
-/

namespace Cicode.Parse

open Grammar Text Cicode.Lex Grammar.ShiftReduce

/-! ## Trees without extras -/

/-- The tree holds no extra and no comment. -/
inductive Plain : Subtree → Prop
  | mk {facts : Facts} {children : List Subtree} : facts.extra = false → facts.symbol ≠ .comment →
      (∀ c ∈ children, Plain c) → Plain (.node facts children)

theorem Plain.extra {tree : Subtree} (h : Plain tree) : tree.isExtra = false := by
  cases h
  assumption

theorem Plain.children {tree : Subtree} (h : Plain tree) : ∀ c ∈ tree.children, Plain c := by
  cases h
  assumption

theorem productive_plain : Floor.Productive Plain := by
  intro symbol production children hrhs _ _ hc
  have hextra := Subtree.isExtra_ofChildren symbol production children
  have hsymbol := Subtree.symbol_ofChildren symbol production children
  have hchildren := Subtree.children_ofChildren symbol production children
  generalize Subtree.ofChildren symbol production children = tree at hextra hsymbol hchildren
  obtain ⟨facts, trees⟩ := tree
  obtain rfl : trees = children := hchildren
  refine .mk hextra ?_ hc
  rw [show facts.symbol = symbol from hsymbol]
  rintro rfl
  cases hrhs

/-! ## Reading along with the automaton -/

/-- The parser has read what the automaton has: `before` are the floors on which the next token was
read, `floors` what reductions have made of them. -/
structure Tracks (chars : List Char) (c : Config (List Char)) (before floors : List Floor) : Prop where
  arrives : Floor.Arrives chars before
  reductions : Floor.Reductions (Floor.next chars before).symbol before floors
  plain : ∀ floor ∈ floors, Plain floor.tree
  frames_eq : Floor.framesIn (.ofList chars) floors = c.stack
  symbol_eq : (Floor.next chars before).symbol = lookahead c.input
  /-- The next word is the next token, and behind it come the others. -/
  word : ∀ x rest, c.input = x :: rest →
    (Floor.next chars before).derivation (.ofList chars) (Floor.reach before) = .leaf x.1 x.2 ∧
    LeavesRow (some x.1) chars (Floor.reach before + (Floor.next chars before).totalSize).bytes rest

variable {chars : List Char} {c : Config (List Char)} {before floors : List Floor}

theorem Tracks.linked (h : Tracks chars c before floors) : Floor.Linked floors :=
  h.arrives.linked.reductions h.reductions

theorem Tracks.stateOf_eq (h : Tracks chars c before floors) : stateOf c.stack = Floor.top floors := by
  rw [← h.frames_eq, h.linked.stateOf_framesIn]

/-- The next token is the next word, if the state has a use for it. -/
theorem tracks_start (harrives : Floor.Arrives chars floors) (hplain : ∀ floor ∈ floors, Plain floor.tree)
    (hframes : Floor.framesIn (.ofList chars) floors = c.stack) {latest : Option Symbol}
    (hled : LedTo latest (Floor.top floors))
    (hrow : LeavesRow latest chars (Floor.reach floors).bytes c.input)
    (hchosen : chosen (actionsAt (stateOf c.stack) (lookahead c.input)) ≠ none) :
    Tracks chars c floors floors := by
  have hstate : stateOf c.stack = Floor.top floors := by
    rw [← hframes, harrives.linked.stateOf_framesIn]
  have hact : hasActions (Floor.top floors) (lookahead c.input) = true := by
    rw [← hstate, hasActions, Bool.not_eq_true', List.isEmpty_eq_false_iff]
    intro hnil
    rw [hnil] at hchosen
    exact hchosen rfl
  have hzero := harrives.linked.top_ne_zero
  cases hinput : c.input with
  | nil =>
    rw [hinput] at hact hrow
    have hend := hrow.at_end hzero hact
    exact ⟨harrives, .done, hplain, hframes, by rw [hinput]; exact hend, by simp [hinput]⟩
  | cons x rest =>
    rw [hinput] at hact hrow
    have hterm : x.1.isTerminal = true := by
      obtain ⟨pre, post, -, -, hreads⟩ := hrow
      cases hreads with
      | word hspelled => exact hspelled.terminal
    obtain ⟨hsymbol, hslice, hrest⟩ := hrow.at_word hzero hled hact
    refine ⟨harrives, .done, hplain, hframes, by rw [hinput]; exact hsymbol, ?_⟩
    intro y rest' heq
    rw [hinput] at heq
    cases heq
    refine ⟨?_, hrest⟩
    rw [Floor.next, Subtree.derivation_ofToken (by rw [hsymbol]; exact hterm), hslice, hsymbol]

/-- A reduction of the automaton is one of the parser. -/
theorem Tracks.reduce (h : Tracks chars c before floors) {symbol : Symbol} {count production : Nat}
    (hc : chosen (actionsAt (stateOf c.stack) (lookahead c.input)) =
      some (.reduce symbol count production)) {c' : Config (List Char)} (hstep : step c = .next c') :
    ∃ floors', Tracks chars c' before floors' := by
  have hreduces : Reduces (stateOf c.stack) symbol count production := .of_mem (mem_of_chosen hc)
  rw [h.stateOf_eq] at hreduces
  obtain ⟨floors', hreduce, hreduced⟩ := Floor.exists_reduce h.linked hreduces
  have hlinked : ShiftReduce.Linked c.stack := h.frames_eq ▸ h.linked.framesIn_linked
  obtain ⟨hle, -, -, -, hgoto⟩ := hlinked.reduction (.of_mem (mem_of_chosen hc))
  have hframes : Floor.framesIn (.ofList chars) floors' = _ := Floor.framesIn_reduce h.linked hreduces hreduce
  rw [h.frames_eq] at hframes
  rw [step, hc] at hstep
  simp only [Nat.not_lt.mpr hle, hgoto, or_self, if_false] at hstep
  cases hstep
  refine ⟨floors', h.arrives, h.reductions.tail ?_ hreduce,
    hreduced.forall_mem productive_plain h.plain, hframes, h.symbol_eq, h.word⟩
  rw [← h.stateOf_eq, h.symbol_eq]
  exact hc

/-- A shift of the automaton reads the token. -/
theorem Tracks.shift (h : Tracks chars c before floors) {x : Symbol × List Char}
    {rest : List (Symbol × List Char)} (hinput : c.input = x :: rest) {target : StateId}
    (hc : chosen (actionsAt (stateOf c.stack) (lookahead c.input)) = some (.shift target))
    (hgoes : chosen (actionsAt target (lookahead rest)) ≠ none) :
    ∃ floors', Tracks chars ⟨⟨target, .leaf x.1 x.2⟩ :: c.stack, rest⟩ floors' floors' := by
  obtain ⟨hderivation, hrest⟩ := h.word x rest hinput
  have htarget : chosen (actionsAt (Floor.top floors) (Floor.next chars before).symbol) =
      some (.shift target) := by
    rw [← h.stateOf_eq, h.symbol_eq]
    exact hc
  have hshifts : Floor.Shifts (Floor.next chars before) floors _ := .tree htarget
  have hreach := h.reductions.reach_eq h.arrives.linked
  have hled : LedTo (some x.1) target := by
    have hsymbol := h.symbol_eq
    rw [hinput] at hsymbol
    rintro _ ⟨⟩
    exact ⟨_, arrow_of_chosen (hsymbol ▸ htarget)⟩
  have hplain : Plain ((Floor.next chars before).withExtra false) := by
    have hsymbol : (Floor.next chars before).symbol ≠ .comment := (arrow_of_chosen htarget).tested.2.2.2.2.1
    exact .mk rfl hsymbol (by simp)
  refine ⟨_, tracks_start (.read h.arrives ⟨floors, h.reductions, hshifts⟩)
    (List.forall_mem_cons.mpr ⟨hplain, h.plain⟩) ?_ hled ?_ hgoes⟩
  · rw [Floor.framesIn_cons_tree hplain.extra, h.frames_eq, Subtree.derivation_withExtra, hreach, hderivation]
  · rw [hshifts.reach_eq, hreach]
    exact hrest

/-- **The parser does what the automaton does.** -/
theorem Tracks.run (steps : Nat) {tree : Derivation (List Char)} (h : Tracks chars c before floors)
    (hrun : ShiftReduce.run steps c = .accepted tree) : ∃ before last, Floor.Ends chars before last ∧
      (∀ floor ∈ last, Plain floor.tree) ∧
      (Floor.framesIn (.ofList chars) last).map Frame.tree = [tree] := by
  induction steps generalizing c before floors with
  | zero => cases hrun
  | succ steps ih =>
    rw [ShiftReduce.run] at hrun
    cases hstep : step c with
    | next c' =>
      rw [hstep] at hrun
      rcases step_next hstep with ⟨target, x, rest, hinput, rfl, hc⟩ | ⟨symbol, count, production, hc⟩
      · obtain ⟨floors', htracks⟩ := h.shift hinput hc (chosen_of_accepted hrun)
        exact ih htracks hrun
      · obtain ⟨floors', htracks⟩ := h.reduce hc hstep
        exact ih htracks hrun
    | accepted found =>
      rw [hstep] at hrun
      cases hrun
      obtain ⟨frame, hstack, rfl, hc⟩ := step_accepted hstep
      refine ⟨before, floors, ⟨h.arrives, h.reductions, ?_⟩, h.plain, ?_⟩
      · rw [← h.stateOf_eq, h.symbol_eq]
        exact hc
      · rw [h.frames_eq, hstack]
        rfl
    | rejected | broken =>
      rw [hstep] at hrun
      cases hrun

/-- **A text that reads as a row of words is parsed as the automaton does it.**  The tree of the text
holds no comments, and the derivation of its children dissolves into the resolved derivation of the words. -/
theorem parse_row {words : List (Symbol × List Char)} (hrow : ReadsRow none chars words)
    {d : Derivation (List Char)} (h : d.Derives .sourceFile words) (hr : d.Resolved) :
    ∃ cs, parse chars = .ofChildren .sourceFile 0 cs ∧ (∀ c ∈ cs, Floor.Clean c) ∧
      (∀ c ∈ cs, Plain c ∨ c.isExtra = true ∧ c.symbol = .endOfInput) ∧ spelling cs ∈ rightSides .sourceFile ∧
      (Derivation.node .sourceFile (Subtree.derivations (.ofList chars) 0 cs)).dissolve = [d] := by
  obtain ⟨steps, tree, hrun, hdissolve⟩ := accepted_of_resolved h hr
  have hstart : Tracks chars (start words) [] [] :=
    tracks_start .start (by simp) rfl (by simp [LedTo]) ⟨[], chars, rfl, rfl, hrow⟩ (chosen_of_accepted hrun)
  obtain ⟨before, last, hends, hplain, hframes⟩ := hstart.run steps hrun
  obtain ⟨cs, hparse, hclean, hmem, hrhs, hlast⟩ := hends.exists_root
  rw [hlast] at hframes
  obtain rfl : .node .sourceFile (Subtree.derivations (.ofList chars) 0 cs) = tree := by simpa using hframes
  refine ⟨cs, hparse, hclean, fun c hc => ?_, hrhs, hdissolve⟩
  rcases hmem c hc with rfl | ⟨floor, hfloor, rfl | hchild⟩
  · have hend := (accept_of_chosen hends.accept).2
    exact .inr ⟨beq_iff_eq.mpr hend, hend⟩
  · exact .inl (hplain floor hfloor)
  · exact .inl ((hplain floor hfloor).children c hchild)

end Cicode.Parse
