import Cicode.Proofs.Program.Reading
import Cicode.Program.Symbols

/-!
# Strings as outlines display them

An outline displays a string with escapes that begin with a backslash; the language knows only escapes
that begin with `^`, and a backslash stands for itself.  So a displayed string is a string of the language
with the same value exactly if nothing had to be escaped and no `^` is in it (`Literal.Verbatim`).

Main statements: `quoted_of_verbatim`, and `misread_of_not_verbatim` for all other strings.
-/

namespace Cicode.Program

open Text Cicode.Lex

/-- The literal is displayed as it is written in a program: it is a number, or a string of characters that
stand for themselves on both sides. -/
def Literal.Verbatim : Literal → Prop
  | .number _ => True
  | .string value => ∀ c ∈ value.toList, c ∉ ['^', '"', '\\'] ∧ isPlain c = true

/-- The characters that a string is displayed with, between its quotation marks. -/
def displayed (s : List Char) : List Char := s.flatMap fun c => (escapeChar c).toList

theorem displayed_cons (c : Char) (s : List Char) :
    displayed (c :: s) = (escapeChar c).toList ++ displayed s := List.flatMap_cons

theorem toList_quoted (value : String) :
    (Text.quoted value).toList = '"' :: (displayed value.toList ++ ['"']) := by
  rw [Text.quoted, String.toList_append, String.toList_append, String.toList_join, List.flatMap_map]
  rfl

/-- A character that needs no escape. -/
theorem escapeChar_of_plain {c : Char} (hmarks : c ∉ ['"', '\\']) (hplain : isPlain c = true) :
    (escapeChar c).toList = [c] := by
  have hne : ∀ special : Char, isPlain special = false → c ≠ special := by
    rintro special hspecial rfl
    rw [hspecial] at hplain
    cases hplain
  simp only [List.mem_cons, List.not_mem_nil, or_false, not_or] at hmarks
  rw [escapeChar, if_neg (hne '\x00' (by decide)), if_neg (hne '\t' (by decide)),
    if_neg (hne '\r' (by decide)), if_neg (hne '\n' (by decide)), if_neg hmarks.1, if_neg hmarks.2,
    if_pos hplain]
  simp

/-- A character is displayed as itself, or with an escape that begins with a backslash. -/
theorem escapeChar_cases (c : Char) :
    (escapeChar c).toList = [c] ∧ c ∉ ['"', '\\'] ∧ isPlain c = true ∨
      ∃ rest, (escapeChar c).toList = '\\' :: rest ∧ (c = '\\' → rest = ['\\']) := by
  by_cases h : c ∉ ['"', '\\'] ∧ isPlain c = true
  · exact .inl ⟨escapeChar_of_plain h.1 h.2, h⟩
  refine .inr ?_
  have hescape : ∀ (special : Char) (name : String), special ≠ '\\' → c = special →
      ∃ rest, ("\\" ++ name).toList = '\\' :: rest ∧ (c = '\\' → rest = ['\\']) :=
    fun special name hne hc => ⟨name.toList, by rw [String.toList_append]; rfl,
      fun hback => absurd (hc.symm.trans hback) hne⟩
  rw [escapeChar]
  split
  · exact hescape '\x00' "0" (by decide) ‹_›
  split
  · exact hescape '\t' "t" (by decide) ‹_›
  split
  · exact hescape '\r' "r" (by decide) ‹_›
  split
  · exact hescape '\n' "n" (by decide) ‹_›
  split
  · exact hescape '"' "\"" (by decide) ‹_›
  split
  · exact ⟨['\\'], rfl, fun _ => rfl⟩
  rename_i hquote hback
  split
  · exact absurd ⟨by simp [hquote, hback], ‹_›⟩ h
  · refine ⟨("u\x7b" ++ hexadecimal c.toNat ++ "\x7d").toList, ?_, fun h => absurd h hback⟩
    simp [String.toList_append]

/-- A text in which a displayed string begins with `^` has `^` there. -/
theorem caret_of_displayed {s post rest : List Char} (h : displayed s ++ '"' :: post = '^' :: rest) :
    ∃ s', s = '^' :: s' ∧ displayed s' ++ '"' :: post = rest := by
  cases s with
  | nil =>
    rw [displayed, List.flatMap_nil, List.nil_append, List.cons.injEq] at h
    exact absurd h.1 (by decide)
  | cons c s =>
    rw [displayed_cons] at h
    obtain ⟨hself, -⟩ | ⟨escape, hescape, -⟩ := escapeChar_cases c
    · rw [hself, List.append_assoc, List.singleton_append, List.cons.injEq] at h
      exact ⟨s, by rw [h.1], h.2⟩
    · rw [hescape, List.append_assoc, List.cons_append, List.cons.injEq] at h
      exact absurd h.1 (by decide)

/-- What an escape stands for is `^` only if it is doubled. -/
theorem unescape_escaped (c : Char) (rest : List Char) :
    ∃ meant, unescape ('^' :: c :: rest) = meant :: unescape rest ∧ (meant = '^' → c = '^') := by
  rw [unescape.eq_def]
  split <;> rename_i heq <;> cases heq
  · exact ⟨'\n', rfl, by decide⟩
  · exact ⟨'\t', rfl, by decide⟩
  · exact ⟨'\r', rfl, by decide⟩
  · exact ⟨c, rfl, id⟩
  · rename_i hother
    exact absurd rfl (hother c rest rfl)

/-! ## What a displayed string is read as

The body of a string that begins where a displayed one does is compared with it from the left.  Up to the
first character that is not verbatim they are the same; from there on the value read is behind, by a
number of `^` or of backslashes that never gets smaller. -/

section

variable {body post post' : List Char}

/-- Each two `^` are read as one, so that the value is ahead of what is read. -/
theorem unescape_ne_of_carets (hbody : IsBody body) {s : List Char}
    (h : displayed s ++ '"' :: post = body ++ '"' :: post') (ahead : Nat) :
    unescape body ≠ List.replicate (ahead + 1) '^' ++ s := by
  induction hbody generalizing s ahead with
  | nil => simp [unescape, List.replicate_succ]
  | @plain c rest hc _ _ =>
    simp only [List.mem_cons, List.not_mem_nil, or_false, not_or] at hc
    rw [unescape_cons hc.2.2.2, List.replicate_succ, List.cons_append, ne_eq, List.cons.injEq]
    exact fun heq => hc.2.2.2 heq.1
  | @escaped c rest _ _ ih =>
    intro heq
    obtain ⟨meant, hmeant, hcaret⟩ := unescape_escaped c rest
    rw [hmeant, List.replicate_succ, List.cons_append, List.cons.injEq] at heq
    obtain ⟨hhead, htail⟩ := heq
    obtain rfl := hcaret hhead
    obtain ⟨s, rfl, hs⟩ := caret_of_displayed h
    obtain ⟨s, rfl, hs'⟩ := caret_of_displayed hs
    refine ih hs' (ahead + 1) (htail.trans ?_)
    rw [List.replicate_succ', List.append_assoc, List.replicate_succ', List.append_assoc]
    rfl

/-- Each backslash is displayed twice and read twice, so that what is read is ahead of the value. -/
theorem unescape_ne_of_backslashes (hbody : IsBody body) {s : List Char} (ahead : Nat)
    (h : List.replicate (ahead + 1) '\\' ++ (displayed s ++ '"' :: post) = body ++ '"' :: post') :
    unescape body ≠ s := by
  rw [List.replicate_succ, List.cons_append] at h
  induction hbody generalizing s ahead with
  | nil =>
    rw [List.nil_append, List.cons.injEq] at h
    exact absurd h.1 (by decide)
  | @plain c rest hc _ ih =>
    rw [List.cons_append, List.cons.injEq] at h
    obtain ⟨rfl, h⟩ := h
    rw [unescape_cons (by decide)]
    rintro rfl
    rw [displayed_cons] at h
    have hdouble : (escapeChar '\\').toList = ['\\', '\\'] := by decide
    refine ih (ahead + 1) ?_ rfl
    rw [← h, hdouble, ← List.cons_append, ← List.replicate_succ, List.replicate_succ',
      List.replicate_succ', List.append_assoc, List.append_assoc, List.append_assoc]
    rfl
  | escaped _ _ _ =>
    rw [List.cons_append, List.cons.injEq] at h
    exact absurd h.1 (by decide)

/-- A string that begins where a displayed one does, one of whose characters is not verbatim, is not read
as its value. -/
theorem unescape_ne (hbody : IsBody body) {s : List Char}
    (h : displayed s ++ '"' :: post = body ++ '"' :: post')
    (hs : ¬∀ c ∈ s, c ∉ ['^', '"', '\\'] ∧ isPlain c = true) : unescape body ≠ s := by
  induction s generalizing body with
  | nil => exact absurd (List.forall_mem_nil _) hs
  | cons c s ih =>
    rw [displayed_cons, List.append_assoc] at h
    obtain ⟨hself, hmarks, hplain⟩ | ⟨escape, hescape, hback⟩ := escapeChar_cases c
    · rw [hself, List.singleton_append] at h
      cases hbody with
      | nil =>
        rw [List.nil_append, List.cons.injEq] at h
        exact absurd (h.1 ▸ List.mem_cons_self) hmarks
      | @plain c' rest hc' hrest =>
        rw [List.cons_append, List.cons.injEq] at h
        obtain ⟨rfl, h⟩ := h
        have hcaret : c ≠ '^' := by
          rintro rfl
          exact hc' (by decide)
        rw [unescape_cons hcaret, ne_eq, List.cons.injEq, not_and]
        refine fun _ => ih hrest h fun hall => hs (List.forall_mem_cons.mpr ⟨⟨?_, hplain⟩, hall⟩)
        rw [List.mem_cons, not_or]
        exact ⟨hcaret, hmarks⟩
      | @escaped c' rest _ hrest =>
        rw [List.cons_append, List.cons.injEq] at h
        obtain ⟨rfl, h⟩ := h
        obtain ⟨meant, hmeant, hcaret⟩ := unescape_escaped c' rest
        rw [hmeant, ne_eq, List.cons.injEq, not_and]
        intro hhead
        obtain rfl := hcaret hhead
        obtain ⟨s, rfl, hs'⟩ := caret_of_displayed h
        exact unescape_ne_of_carets hrest hs' 0
    · rw [hescape, List.cons_append] at h
      cases hbody with
      | nil =>
        rw [List.nil_append, List.cons.injEq] at h
        exact absurd h.1 (by decide)
      | plain _ hrest =>
        rw [List.cons_append, List.cons.injEq] at h
        obtain ⟨rfl, h⟩ := h
        rw [unescape_cons (by decide), ne_eq, List.cons.injEq, not_and]
        rintro rfl
        rw [hback rfl] at h
        exact unescape_ne_of_backslashes hrest 0 h
      | escaped _ _ =>
        rw [List.cons_append, List.cons.injEq] at h
        exact absurd h.1 (by decide)

/-- **What is not verbatim is misread**: a string of the language that begins where it is displayed has
another value. -/
theorem misread_of_not_verbatim {value : String} (h : ¬(Literal.string value).Verbatim)
    (hbody : IsBody body)
    (htext : (Text.quoted value).toList ++ post = '"' :: (body ++ '"' :: post')) :
    stringOf ('"' :: body ++ ['"']) ≠ value := by
  rw [toList_quoted, List.cons_append, List.append_assoc, List.cons.injEq] at htext
  intro heq
  refine unescape_ne hbody htext.2 h ?_
  rw [← heq, stringOf_enclosed, String.toList_ofList]

end

/-! ## Verbatim literals -/

theorem displayed_of_verbatim {s : List Char} (h : ∀ c ∈ s, c ∉ ['^', '"', '\\'] ∧ isPlain c = true) :
    displayed s = escape s := by
  induction s with
  | nil => rfl
  | cons c s ih =>
    obtain ⟨⟨hmarks, hplain⟩, hs⟩ := List.forall_mem_cons.mp h
    rw [List.mem_cons, not_or] at hmarks
    have hfeed : c ≠ '\n' := by
      rintro rfl
      exact absurd hplain (by decide)
    have hquote : c ≠ '"' := fun hc => hmarks.2 (hc ▸ List.mem_cons_self)
    rw [displayed_cons, escapeChar_of_plain hmarks.2 hplain, ih hs, List.singleton_append]
    exact (escape_cons hfeed hquote hmarks.1 s).symm

/-- A verbatim literal is displayed as the word that is printed for it. -/
theorem toList_display {value : Literal} (h : value.Verbatim) : value.display.toList = value.word := by
  cases value with
  | number value => exact Nat.toList_repr ..
  | string value =>
    rw [Literal.display, toList_quoted, displayed_of_verbatim h]
    rfl

/-- A number is in range. -/
def Literal.InRange : Literal → Prop
  | .number value => value ≤ maxNumber
  | .string _ => True

theorem Literal.Verbatim.printable {value : Literal} (h : value.Verbatim) (hr : value.InRange) :
    value.Printable := by
  cases value with
  | number value => exact hr
  | string value => exact fun hmem => absurd (h _ hmem).2 (by decide)

end Cicode.Program
