import Cicode.Proofs.Grammar.Disambiguation
import Cicode.Proofs.Grammar.Lookahead

/-!
# The table implements the rules

The shift-reduce automaton of the table accepts a word exactly if the rules derive it, no reduction
ever fails, and what it builds is, its hidden repetitions dissolved, the one resolved derivation of
the word (`table_implements_rules`).

Soundness is what the stack keeps, completeness that the automaton recognises whatever fits, and
uniqueness follows from both: another resolved derivation would be built as well, and the automaton
builds one tree only.
-/

namespace Cicode.Grammar.ShiftReduce

variable {α : Type}

/-- The terminals of a word that the rules speak of: comments may stand anywhere, and the end of
the input comes after the word. -/
def IsSignificant (terminal : Symbol) : Prop :=
  terminal.isTerminal = true ∧ terminal ≠ .comment ∧ terminal ≠ .endOfInput

instance (terminal : Symbol) : Decidable (IsSignificant terminal) :=
  inferInstanceAs (Decidable (_ ∧ _ ∧ _))

/-- The end of the input may follow a whole text that begins in the initial state. -/
theorem follow_sourceFile :
    (follow 1 { symbol := .sourceFile }).testBit Symbol.endOfInput.index = true := by
  decide +kernel

theorem gotoAt_sourceFile : gotoAt 1 .sourceFile = 2 := by
  rw [gotoAt_nonterminal 1 (by decide)]
  decide +kernel

theorem accepts_sourceFile : chosen (actionsAt 2 .endOfInput) = some .accept := by
  rw [actionsAt_terminal 2 rfl]
  decide +kernel

/-- **A tree that fits a whole text is accepted.** -/
theorem accepted_of_fits {tree : Derivation α} (h : tree.Fits { symbol := .sourceFile }) :
    ∃ steps, run steps (start tree.yield) = .accepted tree := by
  have hstart : (follow (stateOf ([] : List (Frame α))) { symbol := .sourceFile }).testBit
      (lookahead ([] : List (Symbol × α))).index = true := follow_sourceFile
  obtain ⟨steps, hsteps⟩ := reaches_of_fits tree h rfl (by decide) rfl hstart
  refine ⟨steps + 1, ?_⟩
  rw [List.append_nil] at hsteps
  rw [start, run_add, hsteps]
  simp only [run, step, stateOf, lookahead, gotoAt_sourceFile, accepts_sourceFile]

/-- **A resolved derivation of a whole text is built from its word.** -/
theorem accepted_of_resolved {word : List (Symbol × α)} {d : Derivation α}
    (h : d.Derives .sourceFile word) (hr : d.Resolved) :
    ∃ steps tree, run steps (start word) = .accepted tree ∧ tree.dissolve = [d] := by
  obtain ⟨tree, hfits, hdis⟩ := d.exists_fits h.follows hr
  rw [h.symbol_eq] at hfits
  obtain ⟨steps, hsteps⟩ := accepted_of_fits hfits
  refine ⟨steps, tree, ?_, hdis⟩
  have hy := Derivation.yieldAll_dissolve tree
  rw [hdis] at hy
  rw [← hsteps, ← hy, ← h.yield_eq]
  simp [Derivation.yieldAll]

/-- **What is accepted dissolves into a derivation of the word.** -/
theorem derives_of_accepted {word : List (Symbol × α)} (hword : ∀ x ∈ word, IsSignificant x.1)
    {steps : Nat} {tree : Derivation α} (h : run steps (start word) = .accepted tree) :
    ∃ d, tree.dissolve = [d] ∧ d.Derives .sourceFile word := by
  obtain ⟨hfollows, hsym, hyield⟩ :=
    followsTable_of_accepted (fun x hx => ⟨(hword x hx).1, (hword x hx).2.2⟩) h
  obtain ⟨hrules, -⟩ := tree.followsRules_dissolve hfollows
  obtain ⟨d, hdis, hd⟩ : ∃ d, tree.dissolve = [d] ∧ d.symbol = .sourceFile := by
    cases tree with
    | leaf s a => exact ⟨_, rfl, hsym⟩
    | node s children =>
      obtain rfl : s = .sourceFile := hsym
      exact ⟨_, rfl, rfl⟩
  rw [hdis] at hrules
  have hy := Derivation.yieldAll_dissolve tree
  rw [hdis, hyield] at hy
  exact ⟨d, hdis, hrules.1, hd, by simpa [Derivation.yieldAll] using hy⟩

/-- **The table implements the rules.**  No reduction fails on any word; a word is accepted exactly
if it has a derivation; and what is built is the one derivation of it that is resolved. -/
theorem table_implements_rules (word : List (Symbol × α)) (hword : ∀ x ∈ word, IsSignificant x.1) :
    (∀ steps, run steps (start word) ≠ .broken) ∧
    ((∃ steps tree, run steps (start word) = .accepted tree) ↔
      ∃ d : Derivation α, d.Derives .sourceFile word) ∧
    ∀ steps tree, run steps (start word) = .accepted tree →
      ∃ d, tree.dissolve = [d] ∧ d.Derives .sourceFile word ∧ d.Resolved ∧
        ∀ d' : Derivation α, d'.Derives .sourceFile word → d'.Resolved → d' = d := by
  refine ⟨run_ne_broken fun x hx => (hword x hx).1, ⟨?_, ?_⟩, ?_⟩
  · rintro ⟨steps, tree, h⟩
    obtain ⟨d, -, hd⟩ := derives_of_accepted hword h
    exact ⟨d, hd⟩
  · rintro ⟨d, hd⟩
    obtain ⟨d', hd', hr⟩ := d.exists_resolved hd (by decide)
    obtain ⟨steps, tree, h, -⟩ := accepted_of_resolved hd' hr
    exact ⟨steps, tree, h⟩
  · intro steps tree h
    -- Every resolved derivation is what the one accepted tree dissolves into.
    have hsame : ∀ d' : Derivation α, d'.Derives .sourceFile word → d'.Resolved →
        tree.dissolve = [d'] := by
      intro d' hd' hr'
      obtain ⟨steps', tree', h', hdis'⟩ := accepted_of_resolved hd' hr'
      rw [accepted_unique h h', hdis']
    obtain ⟨d, -, hd⟩ := derives_of_accepted hword h
    obtain ⟨d', hd', hr'⟩ := d.exists_resolved hd (by decide)
    refine ⟨d', hsame d' hd' hr', hd', hr', fun d'' hd'' hr'' => ?_⟩
    have heq := hsame d'' hd'' hr''
    rw [hsame d' hd' hr'] at heq
    exact (List.cons.inj heq).1.symm

/-- The function `FUNCTION f() IF (a) < b - c * d OR NOT (e) THEN END END` as a word. -/
def sampleWord : List (Symbol × Unit) :=
  [.kwFunction, .identifier, .lparen, .rparen, .lineFeed, .kwIf, .lparen, .identifier, .rparen,
    .less, .identifier, .minus, .identifier, .star, .identifier, .kwOr, .kwNot, .lparen,
    .identifier, .rparen, .kwThen, .kwEnd, .kwEnd].map (·, ())

theorem sampleWord_has_one_resolved_derivation :
    (∀ x ∈ sampleWord, IsSignificant x.1) ∧ ∃ d : Derivation Unit, d.Derives .sourceFile sampleWord ∧
      d.Resolved ∧ ∀ d' : Derivation Unit, d'.Derives .sourceFile sampleWord → d'.Resolved → d' = d := by
  have hword : ∀ x ∈ sampleWord, IsSignificant x.1 := by decide
  have haccepted : (run 100 (start sampleWord)).tree?.isSome = true := by decide +kernel
  cases hrun : run 100 (start sampleWord) with
  | accepted tree =>
    obtain ⟨d, -, hd⟩ := (table_implements_rules sampleWord hword).2.2 100 tree hrun
    exact ⟨hword, d, hd⟩
  | next | rejected | broken =>
    rw [hrun] at haccepted
    cases haccepted

end Cicode.Grammar.ShiftReduce
