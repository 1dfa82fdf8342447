import Cicode.Proofs.Lex.Longest

/-!
# Where strings and comments in asterisks end

A string ends at the first quotation mark that is not escaped, and there must be one before the line feed;
a comment in asterisks ends at the first asterisk that a slash follows.

The tokens of the automaton are described by equivalences (`longest_string`, `longest_block`).  In one
direction the induction is on what stands between the marks, in the other one on the text.
-/

namespace Cicode.Lex

open Grammar Text

/-! ## Strings -/

/-- The text is that of a string after its first quotation mark, up to the first one that is not escaped:
the token is a string, and this is its word. -/
def EndsString (text : List Char) (symbol : Symbol) (word : List Char) : Prop :=
  ∃ body post, text = body ++ '"' :: post ∧ IsBody body ∧ symbol = .string ∧ word = body ++ ['"']

/-- The states in a string, those after a quotation mark, after a character and after an escaped one; the
state after `^`; and the one after the string. -/
theorem stringStates_tested : ([3, 20, 32].all fun n => (stateOf lexStates n).accepts.isNone &&
      leaves n ['\x00', '\n', '"', '^'] 20 && after n '"' == some 21 && after n '^' == some 22 &&
      after n '\x00' == none && after n '\n' == none) = true ∧
    ((stateOf lexStates 22).accepts.isNone && leaves 22 ['\x00', '\n'] 32 &&
      after 22 '\x00' == none && after 22 '\n' == none) = true ∧
    stateOf lexStates 21 = { accepts := some .string } := by
  decide +kernel

/-- What is tested of the states in a string. -/
structure InString (n : Nat) : Prop where
  accepts : (stateOf lexStates n).accepts = none
  plain : ∀ c ∉ ['\x00', '\n', '"', '^'], after n c = some 20
  quote : after n '"' = some 21
  escape : after n '^' = some 22
  barrier : ∀ c ∈ ['\x00', '\n'], after n c = none

theorem inString {n : Nat} (hn : n ∈ [3, 20, 32]) : InString n := by
  have h := List.all_eq_true.mp stringStates_tested.1 n hn
  simp only [Bool.and_eq_true, beq_iff_eq, Option.isNone_iff_eq_none] at h
  obtain ⟨⟨⟨⟨⟨h1, h2⟩, h3⟩, h4⟩, h5⟩, h6⟩ := h
  exact ⟨h1, fun c hc => after_of_leaves h2 hc, h3, h4, by simp [h5, h6]⟩

theorem accepts_escape : (stateOf lexStates 22).accepts = none := by
  have h := stringStates_tested.2.1
  simp only [Bool.and_eq_true, Option.isNone_iff_eq_none] at h
  exact h.1.1.1

theorem after_escape (c : Char) : after 22 c = if c ∈ ['\x00', '\n'] then none else some 32 := by
  have h := stringStates_tested.2.1
  simp only [Bool.and_eq_true, beq_iff_eq] at h
  obtain ⟨⟨⟨-, h2⟩, h3⟩, h4⟩ := h
  split
  · rename_i hc
    rcases List.mem_cons.mp hc with rfl | hc
    · exact h3
    · rw [List.mem_singleton.mp hc, h4]
  · rename_i hc
    exact after_of_leaves h2 hc

/-- At the end of a string nothing more is read. -/
theorem longest_closed (rest : List Char) : longest 21 rest = some (.string, []) := by
  rw [longest_of_no_edges (by rw [stringStates_tested.2.2]), complete, stringStates_tested.2.2]
  rfl

theorem longest_of_body {body : List Char} (h : IsBody body) (post : List Char) : ∀ n ∈ [3, 20, 32],
    longest n (body ++ '"' :: post) = some (.string, body ++ ['"']) := by
  induction h with
  | nil => exact fun n hn => longest_go_some (inString hn).quote (longest_closed post)
  | plain hc _ ih => exact fun n hn => longest_go_some ((inString hn).plain _ hc) (ih 20 (by decide))
  | @escaped c _ hc _ ih =>
    intro n hn
    have hnext := after_escape c
    rw [if_neg hc] at hnext
    exact longest_go_some (inString hn).escape (longest_go_some hnext (ih 32 (by decide)))

/-- A token from within a string is a string that ends; so is one from behind `^`, together with it. -/
theorem endsString_of_longest (text : List Char) {symbol : Symbol} {word : List Char} :
    (∀ n ∈ [3, 20, 32], longest n text = some (symbol, word) → EndsString text symbol word) ∧
      (longest 22 text = some (symbol, word) → EndsString ('^' :: text) symbol ('^' :: word)) := by
  induction text generalizing word with
  | nil =>
    refine ⟨fun n hn h => ?_, fun h => ?_⟩
    · rw [longest, complete, (inString hn).accepts] at h
      cases h
    · rw [longest, complete, accepts_escape] at h
      cases h
  | cons c rest ih =>
    refine ⟨fun n hn h => ?_, fun h => ?_⟩
    · obtain ⟨next, w, hafter, hw, rfl⟩ := longest_eq_some (inString hn).accepts h
      by_cases hc : c ∈ ['\x00', '\n', '"', '^']
      · simp only [List.mem_cons, List.not_mem_nil, or_false] at hc
        rcases hc with rfl | rfl | rfl | rfl
        · rw [(inString hn).barrier _ (by decide)] at hafter
          cases hafter
        · rw [(inString hn).barrier _ (by decide)] at hafter
          cases hafter
        · rw [(inString hn).quote] at hafter
          cases hafter
          rw [longest_closed] at hw
          cases hw
          exact ⟨[], rest, rfl, .nil, rfl, rfl⟩
        · rw [(inString hn).escape] at hafter
          cases hafter
          exact ih.2 hw
      · rw [(inString hn).plain c hc] at hafter
        cases hafter
        obtain ⟨body, post, rfl, hbody, rfl, rfl⟩ := ih.1 20 (by decide) hw
        exact ⟨c :: body, post, rfl, .plain hc hbody, rfl, rfl⟩
    · obtain ⟨next, w, hafter, hw, rfl⟩ := longest_eq_some accepts_escape h
      rw [after_escape] at hafter
      split at hafter
      · cases hafter
      · rename_i hc
        cases hafter
        obtain ⟨body, post, rfl, hbody, rfl, rfl⟩ := ih.1 32 (by decide) hw
        exact ⟨'^' :: c :: body, post, rfl, .escaped hc hbody, rfl, rfl⟩

/-- **Strings end at the first quotation mark that is not escaped.** -/
theorem longest_string {n : Nat} (hn : n ∈ [3, 20, 32]) {text : List Char} {symbol : Symbol}
    {word : List Char} : longest n text = some (symbol, word) ↔ EndsString text symbol word := by
  constructor
  · exact (endsString_of_longest text).1 n hn
  · rintro ⟨body, post, rfl, hbody, rfl, rfl⟩
    exact longest_of_body hbody post n hn

/-! ## Comments in asterisks -/

/-- The text is that of a comment after its slash and asterisk, up to the first asterisk that a slash
follows: the token is a comment, and this is its word. -/
def EndsBlock (text : List Char) (symbol : Symbol) (word : List Char) : Prop :=
  ∃ body post, text = body ++ '*' :: '/' :: post ∧ ¬ ['*', '/'] <:+: body ∧ symbol = .comment ∧
    word = body ++ ['*', '/']

/-- The states in a comment after anything but an asterisk; those after an asterisk; and the one after
the comment. -/
theorem blockStates_tested : ([23, 33, 44, 55].all fun n => (stateOf lexStates n).accepts.isNone &&
      ([33, 55].any fun m => leaves n ['\x00', '*'] m) &&
      ([34, 56].any fun m => after n '*' == some m)) = true ∧
    ([34, 56].all fun n => (stateOf lexStates n).accepts.isNone && leaves n ['\x00', '*', '/'] 44 &&
      after n '*' == some n && after n '/' == some 45) = true ∧
    stateOf lexStates 45 = { accepts := some .comment } := by
  decide +kernel

/-- What is tested of a state in a comment after anything but an asterisk. -/
structure InBlock (n : Nat) : Prop where
  accepts : (stateOf lexStates n).accepts = none
  plain : ∀ c ∉ ['\x00', '*'], ∃ m ∈ [23, 33, 44, 55], after n c = some m
  star : ∃ m ∈ [34, 56], after n '*' = some m

/-- What is tested of a state in a comment after an asterisk. -/
structure AfterStar (n : Nat) : Prop where
  accepts : (stateOf lexStates n).accepts = none
  plain : ∀ c ∉ ['\x00', '*', '/'], after n c = some 44
  star : after n '*' = some n
  slash : after n '/' = some 45

theorem inBlock {n : Nat} (hn : n ∈ [23, 33, 44, 55]) : InBlock n := by
  have h := List.all_eq_true.mp blockStates_tested.1 n hn
  simp only [Bool.and_eq_true, List.any_eq_true, beq_iff_eq, Option.isNone_iff_eq_none] at h
  obtain ⟨⟨h1, m, hm, h2⟩, h3⟩ := h
  have hsub : m ∈ [23, 33, 44, 55] := (by decide : [33, 55] ⊆ [23, 33, 44, 55]) hm
  exact ⟨h1, fun c hc => ⟨m, hsub, after_of_leaves h2 hc⟩, h3⟩

theorem afterStar {n : Nat} (hn : n ∈ [34, 56]) : AfterStar n := by
  have h := List.all_eq_true.mp blockStates_tested.2.1 n hn
  simp only [Bool.and_eq_true, beq_iff_eq, Option.isNone_iff_eq_none] at h
  obtain ⟨⟨⟨h1, h2⟩, h3⟩, h4⟩ := h
  exact ⟨h1, fun c hc => after_of_leaves h2 hc, h3, h4⟩

theorem longest_closed_block (rest : List Char) : longest 45 rest = some (.comment, []) := by
  rw [longest_of_no_edges (by rw [blockStates_tested.2.2]), complete, blockStates_tested.2.2]
  rfl

theorem not_infix_cons {c : Char} {body : List Char} (h : ¬ ['*', '/'] <:+: c :: body) :
    ¬ ['*', '/'] <:+: body := fun hin => h (List.infix_cons hin)

/-- The first end of a comment is reached, also from behind an asterisk that does not end it. -/
theorem longest_of_block {body : List Char} (hnul : '\x00' ∉ body) (post : List Char) :
    (∀ n ∈ [23, 33, 44, 55], ¬ ['*', '/'] <:+: body →
      longest n (body ++ '*' :: '/' :: post) = some (.comment, body ++ ['*', '/'])) ∧
    (∀ n ∈ [34, 56], ¬ ['*', '/'] <:+: '*' :: body →
      longest n (body ++ '*' :: '/' :: post) = some (.comment, body ++ ['*', '/'])) := by
  have hclose : ∀ n ∈ [34, 56], longest n ('/' :: post) = some (.comment, ['/']) :=
    fun n hn => longest_go_some (afterStar hn).slash (longest_closed_block post)
  induction body with
  | nil =>
    refine ⟨fun n hn _ => ?_, fun n hn _ => ?_⟩
    · obtain ⟨m, hm, hafter⟩ := (inBlock hn).star
      exact longest_go_some hafter (hclose m hm)
    · exact longest_go_some (afterStar hn).star (hclose n hn)
  | cons c body ih =>
    rw [List.mem_cons, not_or] at hnul
    obtain ⟨hblock, hstar⟩ := ih hnul.2
    refine ⟨fun n hn h => ?_, fun n hn h => ?_⟩
    · by_cases hc : c = '*'
      · obtain ⟨m, hm, hafter⟩ := (inBlock hn).star
        subst hc
        exact longest_go_some hafter (hstar m hm h)
      · obtain ⟨m, hm, hafter⟩ := (inBlock hn).plain c (by simp [hc, Ne.symm hnul.1])
        exact longest_go_some hafter (hblock m hm (not_infix_cons h))
    · by_cases hc : c = '*'
      · subst hc
        exact longest_go_some (afterStar hn).star (hstar n hn (not_infix_cons h))
      · have hslash : c ≠ '/' := by
          rintro rfl
          exact h ⟨[], body, rfl⟩
        have hafter := (afterStar hn).plain c (by simp [hc, hslash, Ne.symm hnul.1])
        exact longest_go_some hafter (hblock 44 (by decide) (not_infix_cons (not_infix_cons h)))

/-- One character more, unless it makes an end of the comment with the next one. -/
theorem EndsBlock.cons {c : Char} {text word : List Char} {symbol : Symbol} (h : EndsBlock text symbol word)
    (hc : c ≠ '*' ∨ text.head? ≠ some '/') : EndsBlock (c :: text) symbol (c :: word) := by
  obtain ⟨body, post, rfl, hbody, rfl, rfl⟩ := h
  refine ⟨c :: body, post, rfl, fun hin => ?_, rfl, rfl⟩
  rcases List.infix_cons_iff.mp hin with ⟨rest, heq⟩ | hin
  · obtain ⟨rfl, rfl⟩ := List.cons.inj heq
    exact hc.elim (· rfl) (· rfl)
  · exact hbody hin

/-- A token from within a comment is a comment that ends; so is one from behind an asterisk, together with
the asterisk. -/
theorem endsBlock_of_longest (text : List Char) (hnul : '\x00' ∉ text) {symbol : Symbol} {word : List Char} :
    (∀ n ∈ [23, 33, 44, 55], longest n text = some (symbol, word) → EndsBlock text symbol word) ∧
      (∀ n ∈ [34, 56], longest n text = some (symbol, word) →
        EndsBlock ('*' :: text) symbol ('*' :: word)) := by
  induction text generalizing word with
  | nil =>
    refine ⟨fun n hn h => ?_, fun n hn h => ?_⟩
    · rw [longest, complete, (inBlock hn).accepts] at h
      cases h
    · rw [longest, complete, (afterStar hn).accepts] at h
      cases h
  | cons c rest ih =>
    rw [List.mem_cons, not_or] at hnul
    refine ⟨fun n hn h => ?_, fun n hn h => ?_⟩
    · obtain ⟨next, w, hafter, hw, rfl⟩ := longest_eq_some (inBlock hn).accepts h
      by_cases hc : c = '*'
      · subst hc
        obtain ⟨m, hm, hstar⟩ := (inBlock hn).star
        rw [hstar] at hafter
        cases hafter
        exact (ih hnul.2).2 _ hm hw
      · obtain ⟨m, hm, hplain⟩ := (inBlock hn).plain c (by simp [hc, Ne.symm hnul.1])
        rw [hplain] at hafter
        cases hafter
        exact ((ih hnul.2).1 _ hm hw).cons (.inl hc)
    · obtain ⟨next, w, hafter, hw, rfl⟩ := longest_eq_some (afterStar hn).accepts h
      by_cases hc : c = '*'
      · subst hc
        rw [(afterStar hn).star] at hafter
        cases hafter
        exact ((ih hnul.2).2 n hn hw).cons (.inr (by simp))
      · by_cases hslash : c = '/'
        · subst hslash
          rw [(afterStar hn).slash] at hafter
          cases hafter
          rw [longest_closed_block] at hw
          cases hw
          exact ⟨[], rest, rfl, by decide, rfl, rfl⟩
        · rw [(afterStar hn).plain c (by simp [hc, hslash, Ne.symm hnul.1])] at hafter
          cases hafter
          exact (((ih hnul.2).1 44 (by decide) hw).cons (.inl hc)).cons (.inr (by simpa using hslash))

/-- **Comments in asterisks end at the first asterisk that a slash follows.** -/
theorem longest_block {text : List Char} (hnul : '\x00' ∉ text) {symbol : Symbol} {word : List Char} :
    longest 23 text = some (symbol, word) ↔ EndsBlock text symbol word := by
  constructor
  · exact (endsBlock_of_longest text hnul).1 23 (by decide)
  · rintro ⟨body, post, rfl, hbody, rfl, rfl⟩
    rw [List.mem_append, not_or] at hnul
    exact (longest_of_block hnul.1 post).1 23 (by decide) hbody

end Cicode.Lex
