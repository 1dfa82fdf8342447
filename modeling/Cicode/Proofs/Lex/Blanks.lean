import Cicode.Proofs.Lex.Pieces

/-!
# Blanks and comments in front of tokens

All start states of the lexical automaton pass over the same characters, but for the line feed, which is a
token in some of them.  So characters that were passed over before a token may be taken away and others may
be put there, and the piece changes by them only (`pieceAt_after`, `skips_of_pieceAt`); and in between a
comment in asterisks may be put, which is read as such in every state (`pieceAt_comment`).
-/

namespace Cicode.Lex

open Grammar Text

/-! ## What start states pass over -/

/-- The characters that an edge is taken on, as far as they are listed. -/
def listedOn (edge : Edge) : List Char :=
  match edge.on with
  | .within ranges => membersOf ranges
  | _ => []

/-- The characters that the start state of recovery passes over. -/
def blanks : List Char := ((stateOf lexStates 0).edges.filter (·.skips)).flatMap listedOn

/-- What is tested of a start state: it passes over blanks only and stays the same, it passes over the space,
and a blank that it does not pass over completes a token. -/
def blanksTested (number : Nat) : Bool :=
  ((stateOf lexStates number).edges.all fun edge => !edge.skips ||
    edge.target == number && (edge.on matches .within _) && (listedOn edge).all blanks.contains) &&
  skips lexStates number ' ' &&
  blanks.all fun c => skips lexStates number c || match (stateOf lexStates number).edgeOn c with
    | some edge => !edge.skips && (complete edge.target).isSome
    | none => false

theorem blanksTested_lexStarts : (lexStarts.all blanksTested) = true ∧
    (blanks.all (skips lexStates 0)) = true ∧ lexStarts.contains 0 = true := by
  decide +kernel

theorem lexStartAt_mem (state : StateId) : lexStartAt state ∈ lexStarts := by
  rcases List.mem_cons.mp (mem_lexStarts state) with h | h
  · rw [h]
    exact List.contains_iff_mem.mp blanksTested_lexStarts.2.2
  · exact h

section

variable {number : Nat} {c : Char} {text blank : List Char} {p : Piece}

theorem skips_recovery (h : c ∈ blanks) : skips lexStates 0 c = true :=
  List.all_eq_true.mp blanksTested_lexStarts.2.1 c h

/-- An edge that passes over a character is taken on a blank and leads back. -/
theorem skips_of_edgeOn (hn : number ∈ lexStarts) {edge : Edge}
    (h : (stateOf lexStates number).edgeOn c = some edge) (hs : edge.skips = true) :
    c ∈ blanks ∧ edge.target = number := by
  have htest := List.all_eq_true.mp blanksTested_lexStarts.1 number hn
  rw [blanksTested, Bool.and_eq_true, Bool.and_eq_true, List.all_eq_true] at htest
  have hedge := htest.1.1 edge (List.mem_of_find?_eq_some h)
  simp only [hs, Bool.not_true, Bool.false_or, Bool.and_eq_true, beq_iff_eq, List.all_eq_true,
    List.contains_iff_mem] at hedge
  obtain ⟨⟨htarget, hwithin⟩, hlisted⟩ := hedge
  refine ⟨hlisted c ?_, htarget⟩
  have hon := contains_of_edgeOn h
  split at hwithin
  · rename_i ranges heq
    rw [heq] at hon
    rw [listedOn, heq]
    exact mem_membersOf hon
  · cases hwithin

theorem exists_edge_of_skips (h : skips lexStates number c = true) :
    ∃ edge, (stateOf lexStates number).edgeOn c = some edge ∧ edge.skips = true ∧ edge.target = number := by
  rw [skips] at h
  split at h
  · rename_i edge hedge
    rw [Bool.and_eq_true, beq_iff_eq] at h
    exact ⟨edge, hedge, h⟩
  · cases h

theorem mem_blanks (hn : number ∈ lexStarts) (h : skips lexStates number c = true) : c ∈ blanks := by
  obtain ⟨edge, hedge, hs, -⟩ := exists_edge_of_skips h
  exact (skips_of_edgeOn hn hedge hs).1

theorem skips_space (hn : number ∈ lexStarts) : skips lexStates number ' ' = true := by
  have htest := List.all_eq_true.mp blanksTested_lexStarts.1 number hn
  rw [blanksTested, Bool.and_eq_true, Bool.and_eq_true] at htest
  exact htest.1.2

/-- **Blanks come in front of the piece.** -/
theorem piece?_after (h : ∀ c ∈ blank, skips lexStates number c = true) :
    piece? number (blank ++ text) = (piece? number text).map (Piece.after blank) := by
  induction blank with
  | nil => exact (Option.map_id' (x := piece? number text)).symm
  | cons c blank ih =>
    obtain ⟨hc, hblank⟩ := List.forall_mem_cons.mp h
    obtain ⟨edge, hedge, hs, htarget⟩ := exists_edge_of_skips hc
    rw [List.cons_append, piece?_skip hedge hs, htarget, ih hblank, Option.map_map]
    rfl

/-- What comes in front of a piece is passed over. -/
theorem skips_of_piece? (hn : number ∈ lexStarts) (h : piece? number text = some p) :
    ∀ c ∈ p.blank, skips lexStates number c = true := by
  induction text generalizing p with
  | nil =>
    obtain ⟨_, -, rfl⟩ := Option.map_eq_some_iff.mp h
    exact fun c hc => absurd hc List.not_mem_nil
  | cons d rest ih =>
    cases hedge : (stateOf lexStates number).edgeOn d with
    | none =>
      rw [piece?_stop hedge] at h
      cases h
    | some edge =>
      cases hs : edge.skips with
      | false =>
        rw [piece?_go hedge hs] at h
        obtain ⟨_, -, rfl⟩ := Option.map_eq_some_iff.mp h
        exact fun c hc => absurd hc List.not_mem_nil
      | true =>
        obtain ⟨-, htarget⟩ := skips_of_edgeOn hn hedge hs
        rw [piece?_skip hedge hs, htarget] at h
        obtain ⟨q, hq, rfl⟩ := Option.map_eq_some_iff.mp h
        refine List.forall_mem_cons.mpr ⟨?_, ih hq⟩
        rw [skips, hedge]
        simp [hs, htarget]

/-- A state that finds nothing after blanks has passed over them. -/
theorem skips_of_none (hn : number ∈ lexStarts) (hb : ∀ c ∈ blank, c ∈ blanks)
    (h : piece? number (blank ++ text) = none) : ∀ c ∈ blank, skips lexStates number c = true := by
  induction blank with
  | nil => exact fun c hc => absurd hc List.not_mem_nil
  | cons d blank ih =>
    obtain ⟨hd, hblank⟩ := List.forall_mem_cons.mp hb
    have htest := List.all_eq_true.mp blanksTested_lexStarts.1 number hn
    rw [blanksTested, Bool.and_eq_true, List.all_eq_true] at htest
    rcases Bool.or_eq_true_iff.mp (htest.2 d hd) with hskip | hcomplete
    · obtain ⟨edge, hedge, hs, htarget⟩ := exists_edge_of_skips hskip
      rw [List.cons_append, piece?_skip hedge hs, htarget, Option.map_eq_none_iff] at h
      exact List.forall_mem_cons.mpr ⟨hskip, ih hblank h⟩
    · -- The blank is a token of its own here.
      split at hcomplete
      · rename_i edge hedge
        rw [Bool.and_eq_true, Bool.not_eq_true', Option.isSome_iff_exists] at hcomplete
        obtain ⟨hs, found, hfound⟩ := hcomplete
        rw [List.cons_append, piece?_go hedge hs, Option.map_eq_none_iff] at h
        have hsome : longest edge.target (blank ++ text) ≠ none := by
          cases blank ++ text with
          | nil => rw [longest, hfound]; exact Option.some_ne_none _
          | cons e rest =>
            rw [longest]
            split
            · rw [hfound]; exact Option.some_ne_none _
            · rw [hfound]; simp
        exact absurd h hsome
      · cases hcomplete

/-- **Comments in asterisks are read in every start state.** -/
theorem piece?_comment (hn : number ∈ lexStarts) {body : List Char} (hnul : '\x00' ∉ body)
    (hbody : ¬ ['*', '/'] <:+: body) (post : List Char) :
    piece? number ('/' :: '*' :: (body ++ '*' :: '/' :: post)) =
      some ⟨.comment, [], '/' :: '*' :: (body ++ ['*', '/'])⟩ := by
  obtain ⟨slash, hedge, hstar, -⟩ := (starts_of_mem hn).slash
  have hblock := (longest_of_block hnul post).1 23 (by decide) hbody
  rw [piece?_go hedge rfl, Edge.go, longest_go_some hstar hblock]
  rfl

end

/-! ## The pieces of parser states -/

section

variable {state : StateId} {text blank : List Char} {p : Piece}

theorem pieceAt_outside (hdoc : docBodyAt state = none) :
    pieceAt state text = (piece? (lexStartAt state) text).or (piece? 0 text) := by
  rw [pieceAt, hdoc, Option.bind_none, Option.none_or]

/-- **Blanks come in front of the piece**, outside of the bodies of documentation tags. -/
theorem pieceAt_after (hdoc : docBodyAt state = none)
    (h : ∀ c ∈ blank, skips lexStates (lexStartAt state) c = true) :
    pieceAt state (blank ++ text) = (pieceAt state text).map (Piece.after blank) := by
  have hrecovery : ∀ c ∈ blank, skips lexStates 0 c = true :=
    fun c hc => skips_recovery (mem_blanks (lexStartAt_mem state) (h c hc))
  rw [pieceAt_outside hdoc, pieceAt_outside hdoc, piece?_after h, piece?_after hrecovery]
  cases piece? (lexStartAt state) text <;> rfl

/-- What comes in front of a piece is passed over in the state's own lexical state. -/
theorem skips_of_pieceAt (hdoc : docBodyAt state = none) (h : pieceAt state text = some p) :
    ∀ c ∈ p.blank, skips lexStates (lexStartAt state) c = true := by
  have hn := lexStartAt_mem state
  rw [pieceAt_outside hdoc, Option.or_eq_some_iff] at h
  rcases h with h | ⟨hnone, h⟩
  · exact skips_of_piece? hn h
  · have hzero : 0 ∈ lexStarts := List.contains_iff_mem.mp blanksTested_lexStarts.2.2
    have hblank : ∀ c ∈ p.blank, c ∈ blanks := fun c hc => mem_blanks hzero (skips_of_piece? hzero h c hc)
    obtain ⟨post, htext⟩ := exists_post h
    rw [htext] at hnone
    exact skips_of_none hn hblank hnone

/-- **Comments in asterisks are read in every parser state** that does not read documentation. -/
theorem pieceAt_comment (hdoc : docBodyAt state = none) {body : List Char} (hnul : '\x00' ∉ body)
    (hbody : ¬ ['*', '/'] <:+: body) (post : List Char) :
    pieceAt state ('/' :: '*' :: (body ++ '*' :: '/' :: post)) =
      some ⟨.comment, [], '/' :: '*' :: (body ++ ['*', '/'])⟩ := by
  rw [pieceAt_outside hdoc, piece?_comment (lexStartAt_mem state) hnul hbody, Option.some_or]

end

end Cicode.Lex
