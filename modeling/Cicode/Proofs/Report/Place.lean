import Cicode.Proofs.Text.Extent
import Cicode.Report.Draw

/-!
# Which spans have a place

The lines of a report make up the text, so that a span that lies in the text has a place in them
exactly if it begins and ends at boundaries (`isSome_ofSpan?`).

Before a span is drawn it is made wider if it is empty, by one byte.  A span between boundaries is
drawn unless this byte is a part of a wider character (`isSome_draw?`).
-/

namespace Cicode.Report

open Text Program

/-! ## Lines -/

theorem flatten_consHead (c : Char) (pieces : List (List Char)) :
    (consHead c pieces).flatten = c :: pieces.flatten := by
  cases pieces <;> rfl

/-- The lines make up the text. -/
theorem flatten_splitAtEnds (text : List Char) : (splitAtEnds text).flatten = text := by
  induction text with
  | nil => rfl
  | cons c rest ih =>
    rw [splitAtEnds]
    split
    · rw [flatten_consHead, ih]
    · split
      · rw [List.flatten_cons, ih]
        rfl
      · rw [flatten_consHead, ih]

/-- The line takes up a part of the text, which holds the byte. -/
structure SourceLine.Holds (text : List Char) (line : SourceLine) (offset : Nat) : Prop where
  part : ∃ pre post, text = pre ++ line.chars ++ post ∧ byteLength pre = line.byteStart
  low : line.byteStart ≤ offset
  high : offset < line.byteStart + byteLength line.chars

/-- Of the lines from some place on, the last one that begins before a byte holds it. -/
theorem lineOfByte?_placeLines (before : List Char) (lines : List (List Char)) (number start : Nat)
    {offset : Nat} (hlow : byteLength before ≤ offset)
    (hhigh : offset < byteLength (before ++ lines.flatten)) :
    ∃ line, lineOfByte? (placeLines number start (byteLength before) lines) offset = some line ∧
      line.Holds (before ++ lines.flatten) offset := by
  induction lines generalizing before number start with
  | nil =>
    rw [List.flatten_nil, List.append_nil] at hhigh
    omega
  | cons chars rest ih =>
    rw [placeLines, lineOfByte?, List.takeWhile_cons_of_pos (by simpa using hlow)]
    have hflat : before ++ (chars :: rest).flatten = (before ++ chars) ++ rest.flatten := by simp
    rw [hflat] at hhigh ⊢
    by_cases hnext : byteLength (before ++ chars) ≤ offset
    · obtain ⟨line, hline, hholds⟩ := ih (before ++ chars) (number + 1) (start + chars.length) hnext hhigh
      refine ⟨line, ?_, hholds⟩
      rw [lineOfByte?, byteLength_append] at hline
      rw [List.getLast?_cons, hline]
      rfl
    · refine ⟨⟨number, start, byteLength before, chars⟩, ?_, ⟨⟨before, rest.flatten, rfl, rfl⟩, hlow, ?_⟩⟩
      · cases rest with
        | nil => rfl
        | cons other rest =>
          rw [placeLines, List.takeWhile_cons_of_neg]
          · rfl
          · rw [← byteLength_append]
            simpa using hnext
      · rw [byteLength_append] at hnext
        exact Nat.lt_of_not_le hnext

theorem exists_lineOfByte? {text : List Char} {offset : Nat} (h : offset < byteLength text) :
    ∃ line, lineOfByte? (sourceLines text) offset = some line ∧ line.Holds text offset := by
  have hne : text.isEmpty = false := by
    cases text with
    | nil => cases h
    | cons => rfl
  have hlines := lineOfByte?_placeLines [] (splitAtEnds text) 0 0 (Nat.zero_le offset)
    (by simpa [flatten_splitAtEnds] using h)
  rw [List.nil_append, flatten_splitAtEnds] at hlines
  simpa [sourceLines, hne] using hlines

/-- Characters make up the first bytes of a text exactly if there is a boundary behind them. -/
theorem isSome_charsOfBytes? (bytes : Nat) (text : List Char) :
    (charsOfBytes? bytes text).isSome ↔ IsBoundary text bytes := by
  induction text generalizing bytes with
  | nil =>
    cases bytes with
    | zero => exact ⟨fun _ => .zero [], fun _ => rfl⟩
    | succ bytes => exact ⟨(fun h => by cases h), fun h => absurd h.le (by simp)⟩
  | cons c rest ih =>
    cases bytes with
    | zero => exact ⟨fun _ => .zero _, fun _ => rfl⟩
    | succ bytes =>
      rw [charsOfBytes?.eq_3 _ _ _ (Nat.succ_ne_zero bytes)]
      by_cases hc : c.utf8Size ≤ bytes + 1
      · rw [if_pos hc, Option.isSome_map, ih]
        constructor
        · rintro ⟨pre, post, rfl, hlength⟩
          exact ⟨c :: pre, post, rfl, by rw [byteLength_cons, hlength]; omega⟩
        · rintro ⟨pre, post, heq, hlength⟩
          cases pre with
          | nil => cases hlength
          | cons d pre =>
            obtain ⟨rfl, rfl⟩ := List.cons.inj heq
            refine ⟨pre, post, rfl, ?_⟩
            rw [byteLength_cons] at hlength
            omega
      · rw [if_neg hc]
        refine ⟨(fun h => by cases h), ?_⟩
        rintro ⟨pre, post, heq, hlength⟩
        cases pre with
        | nil => cases hlength
        | cons d pre =>
          obtain ⟨rfl, -⟩ := List.cons.inj heq
          rw [byteLength_cons] at hlength
          omega

instance (text : List Char) (offset : Nat) : Decidable (IsBoundary text offset) :=
  decidable_of_iff _ (isSome_charsOfBytes? offset text)

/-! ## Spans -/

/-- A boundary at or behind the beginning of a line is found in it. -/
theorem SourceLine.Holds.isSome_chars {text : List Char} {line : SourceLine} {offset stop : Nat}
    (h : line.Holds text offset) (hlow : offset ≤ stop) (hhigh : stop ≤ offset + 1) :
    (charsOfBytes? (stop - line.byteStart) line.chars).isSome ↔ IsBoundary text stop := by
  obtain ⟨⟨pre, post, rfl, hpre⟩, hl, hh⟩ := h
  rw [isSome_charsOfBytes?, ← hpre, IsBoundary.middle_iff (by omega) (by omega)]

/-- **A span in the text has a place exactly if it begins and ends at boundaries.** -/
theorem isSome_ofSpan? {text : List Char} {span : Span} (hlt : span.start < span.stop)
    (hle : span.stop ≤ byteLength text) : (Place.ofSpan? (sourceLines text) span).isSome ↔
      IsBoundary text span.start ∧ IsBoundary text span.stop := by
  obtain ⟨first, hfirst, hf⟩ := exists_lineOfByte? (Nat.lt_of_lt_of_le hlt hle)
  obtain ⟨last, hlast, hl⟩ := exists_lineOfByte? (show span.stop - 1 < byteLength text by omega)
  rw [← hf.isSome_chars (Nat.le_refl _) (Nat.le_succ _), ← hl.isSome_chars (by omega) (by omega),
    Place.ofSpan?, hfirst, hlast]
  simp only [Option.bind_eq_bind, Option.bind_some]
  generalize charsOfBytes? (span.start - first.byteStart) first.chars = column
  generalize charsOfBytes? (span.stop - last.byteStart) last.chars = endColumn
  cases column <;> cases endColumn <;> simp

/-- The span is empty, and where it is drawn there is a character of several bytes: the one behind it,
or at the end of the text the one before it. -/
def PointsAtWide (text : List Char) (span : Span) : Prop :=
  span.start = span.stop ∧ ∃ pre c post, text = pre ++ c :: post ∧ 1 < c.utf8Size ∧
    (span.start = byteLength pre ∨ post = [] ∧ span.start = byteLength text)

/-- What is drawn for a span of a text lies in the text and is not empty. -/
theorem normalize_bounds {text : List Char} (hne : text ≠ []) (span : Span) :
    (span.normalize (byteLength text)).start < (span.normalize (byteLength text)).stop ∧
      (span.normalize (byteLength text)).stop ≤ byteLength text := by
  have := byteLength_pos hne
  simp only [Span.normalize]
  omega

/-- **Between boundaries a span is drawn at boundaries unless it points at a wide character.** -/
theorem boundaries_normalize {text : List Char} (hne : text ≠ []) {span : Span}
    (hle : span.start ≤ span.stop) (hstart : IsBoundary text span.start)
    (hstop : IsBoundary text span.stop) :
    (IsBoundary text (span.normalize (byteLength text)).start ∧
      IsBoundary text (span.normalize (byteLength text)).stop) ↔ ¬PointsAtWide text span := by
  have hlast := hstop.le
  rcases Nat.lt_or_eq_of_le hle with hlt | heq
  · have hsame : span.normalize (byteLength text) = span := by
      ext <;> simp only [Span.normalize] <;> omega
    rw [hsame]
    exact iff_of_true ⟨hstart, hstop⟩ fun h => absurd h.1 (Nat.ne_of_lt hlt)
  constructor
  · rintro ⟨hfirst, hsecond⟩ ⟨-, pre, c, post, rfl, hwide, hplace | ⟨rfl, hplace⟩⟩
    · -- The span is made wider to the right, into the character.
      have hshown : (span.normalize (byteLength (pre ++ c :: post))).stop = byteLength pre + 1 := by
        simp only [Span.normalize, byteLength_append, byteLength_cons]
        omega
      rw [hshown] at hsecond
      exact IsBoundary.not_inside pre post (by omega) (by omega) hsecond
    · -- The span is made wider to the left, into the character.
      have hshown : (span.normalize (byteLength (pre ++ [c]))).start =
          byteLength pre + c.utf8Size - 1 := by
        simp only [byteLength_append, byteLength_cons, byteLength_nil] at hplace
        simp only [Span.normalize, byteLength_append, byteLength_cons, byteLength_nil]
        omega
      rw [hshown] at hfirst
      exact IsBoundary.not_inside pre [] (by omega) (by omega) hfirst
  · intro h
    obtain ⟨pre, post, rfl, hpre⟩ := hstart
    cases post with
    | cons c post =>
      have hc : c.utf8Size = 1 := by
        have hpos := Char.utf8Size_pos c
        have hnarrow : ¬1 < c.utf8Size := fun hwide => h ⟨heq, pre, c, post, rfl, hwide, .inl hpre.symm⟩
        omega
      have hshown : span.normalize (byteLength (pre ++ c :: post)) =
          ⟨byteLength pre, byteLength (pre ++ [c])⟩ := by
        ext <;> simp only [Span.normalize, byteLength_append, byteLength_cons, byteLength_nil] <;> omega
      rw [hshown]
      exact ⟨⟨pre, _, rfl, rfl⟩, ⟨pre ++ [c], post, by simp, rfl⟩⟩
    | nil =>
      rw [List.append_nil] at hne hlast h ⊢
      obtain ⟨before, c, rfl⟩ := pre.eq_nil_or_concat.resolve_left hne
      rw [List.concat_eq_append] at *
      have hc : c.utf8Size = 1 := by
        have hpos := Char.utf8Size_pos c
        have hnarrow : ¬1 < c.utf8Size := fun hwide =>
          h ⟨heq, before, c, [], rfl, hwide, .inr ⟨rfl, hpre.symm⟩⟩
        omega
      have hlength : byteLength (before ++ [c]) = byteLength before + 1 := by simp [hc]
      have hshown : span.normalize (byteLength (before ++ [c])) =
          ⟨byteLength before, byteLength (before ++ [c])⟩ := by
        ext <;> simp only [Span.normalize] <;> omega
      rw [hshown]
      exact ⟨⟨before, [c], rfl, rfl⟩, .last _⟩

/-- **A diagnostic between boundaries is drawn unless it points at a wide character.** -/
theorem isSome_draw? {text : List Char} (hne : text ≠ []) (path : String) {d : Diagnostic}
    (hle : d.span.start ≤ d.span.stop) (hstart : IsBoundary text d.span.start)
    (hstop : IsBoundary text d.span.stop) :
    (draw? path text d).isSome ↔ ¬PointsAtWide text d.span := by
  obtain ⟨hlt, hin⟩ := normalize_bounds hne d.span
  rw [← boundaries_normalize hne hle hstart hstop, ← isSome_ofSpan? hlt hin, draw?]
  cases Place.ofSpan? (sourceLines text) (d.span.normalize (byteLength text)) <;> simp

end Cicode.Report
