import Mathlib
import Cicode.Text.Extent
import Cicode.Text.LineIndex

/-!
# The arithmetic of extents

Extents are added as the texts are that they measure: addition is associative, the extent of the
empty text is neutral, and a summand on the left can be taken away again.  The extent of a text is
the sum of those of its parts.

A *boundary* of a text is an offset between two of its characters, or at one of its ends.
-/

namespace Cicode.Text

namespace Extent

variable (a b c : Extent)

@[simp] theorem zero_add : 0 + a = a := by
  ext
  · simp
  · simp
  · rw [columns_add]
    split <;> simp

@[simp] theorem add_zero : a + 0 = a := by
  ext
  · simp
  · simp
  · simp [columns_add]

theorem add_assoc : a + b + c = a + (b + c) := by
  ext
  · simp [Nat.add_assoc]
  · simp [Nat.add_assoc]
  · simp only [columns_add, rows_add]
    split
    · split <;> split <;> omega
    · rw [if_neg (by omega)]

/-- The way from a position to a later one. -/
theorem add_sub_cancel_left : a + b - a = b := by
  ext
  · exact Nat.add_sub_cancel_left ..
  · exact Nat.add_sub_cancel_left ..
  · show (if (a + b).rows > a.rows then (a + b).columns else (a + b).columns - a.columns) = b.columns
    rw [columns_add, rows_add]
    by_cases h : b.rows = 0
    · simp [h]
    · rw [if_pos (by omega), if_neg h]

theorem add_left_cancel {a b c : Extent} (h : a + b = a + c) : b = c := by
  rw [← add_sub_cancel_left a b, h, add_sub_cancel_left]

/-! ## The extent of a text -/

@[simp] theorem of_nil : of [] = 0 := rfl

theorem foldl_ofChar (chars : List Char) (start : Extent) :
    chars.foldl (fun extent c => extent + ofChar c) start = start + of chars := by
  induction chars generalizing start with
  | nil => simp
  | cons c chars ih =>
    rw [of, List.foldl_cons, List.foldl_cons, ih, ih, add_assoc, zero_add]

theorem of_cons (c : Char) (chars : List Char) : of (c :: chars) = ofChar c + of chars := by
  rw [of, List.foldl_cons, foldl_ofChar, zero_add]

theorem of_append (s t : List Char) : of (s ++ t) = of s + of t := by
  rw [of, List.foldl_append, foldl_ofChar]
  rfl

@[simp] theorem bytes_ofChar (c : Char) : (ofChar c).bytes = c.utf8Size := by
  unfold ofChar
  split
  · rename_i h
    rw [h]
    decide
  · rfl

end Extent

/-! ## The bytes of a text -/

@[simp] theorem byteLength_nil : byteLength [] = 0 := rfl

@[simp] theorem byteLength_cons (c : Char) (rest : List Char) :
    byteLength (c :: rest) = c.utf8Size + byteLength rest := rfl

@[simp] theorem byteLength_append (a b : List Char) :
    byteLength (a ++ b) = byteLength a + byteLength b := by
  induction a with
  | nil => simp
  | cons c a ih => rw [List.cons_append, byteLength_cons, byteLength_cons, ih, Nat.add_assoc]

theorem byteLength_pos {s : List Char} (h : s ≠ []) : 0 < byteLength s := by
  cases s with
  | nil => exact absurd rfl h
  | cons c s =>
    have := Char.utf8Size_pos c
    rw [byteLength_cons]
    omega

@[simp] theorem Extent.bytes_of (chars : List Char) : (Extent.of chars).bytes = byteLength chars := by
  induction chars with
  | nil => rfl
  | cons c chars ih => rw [of_cons, bytes_add, ih, bytes_ofChar, byteLength_cons]

/-- Of two beginnings of a text the one with fewer bytes is a beginning of the other. -/
theorem prefix_of_byteLength_le {a b rest rest' : List Char} (h : a ++ rest = b ++ rest')
    (hb : byteLength a ≤ byteLength b) : a <+: b := by
  rcases List.prefix_or_prefix_of_prefix (List.prefix_append a rest) (h ▸ List.prefix_append b rest')
    with hp | ⟨more, rfl⟩
  · exact hp
  · cases more with
    | nil => simp
    | cons c more =>
      have := Char.utf8Size_pos c
      simp at hb
      omega

/-- A part of a text that has all its bytes is the whole text. -/
theorem eq_of_byteLength {a b rest rest' : List Char} (h : a ++ rest = b ++ rest')
    (hb : byteLength a = byteLength b) : a = b := by
  obtain ⟨more, rfl⟩ := prefix_of_byteLength_le h (Nat.le_of_eq hb)
  by_cases hm : more = []
  · simp [hm]
  · have := byteLength_pos hm
    simp at hb
    omega

/-! ## Boundaries -/

/-- The offset lies between two parts of the text. -/
def IsBoundary (chars : List Char) (offset : Nat) : Prop :=
  ∃ pre post, chars = pre ++ post ∧ byteLength pre = offset

namespace IsBoundary

variable {chars pre mid post : List Char} {offset : Nat}

theorem zero (chars : List Char) : IsBoundary chars 0 := ⟨[], chars, rfl, rfl⟩

theorem last (chars : List Char) : IsBoundary chars (byteLength chars) := ⟨chars, [], by simp, rfl⟩

theorem le (h : IsBoundary chars offset) : offset ≤ byteLength chars := by
  obtain ⟨pre, post, rfl, rfl⟩ := h
  simp

/-- A boundary of a text that falls into a part of it is a boundary of the part. -/
theorem middle_iff (hlow : byteLength pre ≤ offset) (hhigh : offset ≤ byteLength pre + byteLength mid) :
    IsBoundary (pre ++ mid ++ post) offset ↔ IsBoundary mid (offset - byteLength pre) := by
  constructor
  · rintro ⟨before, after, heq, rfl⟩
    have hin : before <+: pre ++ mid :=
      prefix_of_byteLength_le heq.symm (by rw [byteLength_append]; exact hhigh)
    obtain ⟨rest, hrest⟩ := hin
    obtain ⟨inner, rfl⟩ : pre <+: before := prefix_of_byteLength_le hrest.symm hlow
    rw [List.append_assoc] at hrest
    refine ⟨inner, rest, (List.append_cancel_left hrest).symm, ?_⟩
    rw [byteLength_append, Nat.add_sub_cancel_left]
  · rintro ⟨before, after, rfl, hlength⟩
    refine ⟨pre ++ before, after ++ post, by simp, ?_⟩
    rw [byteLength_append, hlength]
    omega

/-- Inside a character there is no boundary. -/
theorem not_inside (pre post : List Char) {c : Char} (hlow : byteLength pre < offset)
    (hhigh : offset < byteLength pre + c.utf8Size) : ¬IsBoundary (pre ++ c :: post) offset := by
  rintro ⟨before, after, heq, rfl⟩
  obtain ⟨more, rfl⟩ := prefix_of_byteLength_le heq (Nat.le_of_lt hlow)
  rw [List.append_assoc] at heq
  have hmore := List.append_cancel_left heq
  cases more with
  | nil => simp at hlow
  | cons d more =>
    obtain ⟨rfl, -⟩ := List.cons.inj hmore
    rw [byteLength_append, byteLength_cons] at hhigh
    omega

end IsBoundary

end Cicode.Text
