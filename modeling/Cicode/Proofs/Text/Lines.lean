import Cicode.Proofs.Lex.Places
import Cicode.Proofs.Text.LineIndex

/-!
# The lines of a text

Lines are counted twice: an extent counts the line feeds as the text is measured, part by part, and a
`LineIndex` cuts the whole text at its line feeds and looks an offset up.  A place is *on its line*
(`OnLine`) if both find the line that it has in the text: the number of line feeds before it, with the
bytes since the last of them as column.  Every place of a text is (`IsPlace.onLine`).
-/

namespace Cicode.Text

/-- The position is where it says: some whole lines are before it, then the beginning of its own.  The
index of the text finds the same line. -/
def OnLine (chars : List Char) (position : Extent) : Prop :=
  ∃ whole line post, chars = whole ++ line ++ post ∧ (whole = [] ∨ whole.getLast? = some '\n') ∧
    '\n' ∉ line ∧ position.bytes = byteLength (whole ++ line) ∧
    position.rows = (whole ++ line).count '\n' ∧ position.columns = position.bytes - byteLength whole ∧
    ((LineIndex.ofText chars).lineCol position.bytes).1 = position.rows

namespace Extent

theorem rows_of (chars : List Char) : (of chars).rows = chars.count '\n' := by
  induction chars with
  | nil => rfl
  | cons c chars ih =>
    rw [of_cons, rows_add, ih, List.count_cons, ofChar, Nat.add_comm]
    by_cases h : c = '\n' <;> simp [h]

/-- A stretch without line feeds is as wide as it is long. -/
theorem columns_of_line {line : List Char} (h : '\n' ∉ line) : (of line).columns = byteLength line := by
  induction line with
  | nil => rfl
  | cons c line ih =>
    rw [List.mem_cons, not_or] at h
    have hrows : (of line).rows = 0 := by rw [rows_of, List.count_eq_zero_of_not_mem h.2]
    rw [of_cons, columns_add, if_pos hrows, ih h.2, byteLength_cons, ofChar, if_neg (Ne.symm h.1)]

/-- Behind whole lines the columns begin again. -/
theorem columns_of_whole {whole : List Char} (h : whole = [] ∨ whole.getLast? = some '\n') :
    (of whole).columns = 0 := by
  rcases h with rfl | h
  · rfl
  · obtain ⟨before, rfl⟩ := List.getLast?_eq_some_iff.mp h
    rw [of_append]
    rfl

end Extent

/-- **The index of a text finds the line of a place.** -/
theorem lineCol_fst (pre post : List Char) :
    ((LineIndex.ofText (pre ++ post)).lineCol (byteLength pre)).1 = pre.count '\n' := by
  obtain ⟨whole, line, rfl, hwhole, hline⟩ := exists_line pre
  rw [LineIndex.lineCol_of_find (LineIndex.findLineCol_behind post hwhole hline), List.count_append,
    List.count_eq_zero_of_not_mem hline, Nat.add_zero]

/-- **Every place of a text is on its line.** -/
theorem IsPlace.onLine {chars : List Char} {position : Extent} (h : IsPlace chars position) :
    OnLine chars position := by
  obtain ⟨pre, post, rfl, rfl⟩ := h
  obtain ⟨whole, line, rfl, hwhole, hline⟩ := exists_line pre
  have hrows : (Extent.of line).rows = 0 := by
    rw [Extent.rows_of, List.count_eq_zero_of_not_mem hline]
  refine ⟨whole, line, post, rfl, hwhole, hline, Extent.bytes_of _, Extent.rows_of _, ?_, ?_⟩
  · rw [Extent.bytes_of, byteLength_append, Nat.add_sub_cancel_left, Extent.of_append,
      Extent.columns_add, if_pos hrows, Extent.columns_of_whole hwhole, Extent.columns_of_line hline,
      Nat.zero_add]
  · rw [Extent.bytes_of, Extent.rows_of, lineCol_fst]

end Cicode.Text
