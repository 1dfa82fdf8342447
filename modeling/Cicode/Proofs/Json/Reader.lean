import Cicode.Json.Basic
import Mathlib.Data.List.Basic
import Mathlib.Tactic.Common

/-!
# Reading JSON

A reader for the whole of JSON: white space, literal words, numbers with a sign, a fraction and an
exponent, and strings with all their escapes, in which two escapes may form one character.

Main statement (`read_compact`): what is written on one line is read back.
-/

namespace Cicode.Json

/-- A value as it is read.  A number is given by all its digits and the power of ten they count. -/
inductive Value where
  | null
  | bool (value : Bool)
  | number (negative : Bool) (digits : Nat) (exponent : Int)
  | string (value : String)
  | array (items : List Value)
  | object (fields : List (String × Value))
  deriving Inhabited

/-- The characters that may stand between the parts of a value. -/
def isSpace (c : Char) : Bool := c == ' ' || c == '\t' || c == '\n' || c == '\r'

/-- Pass over white space. -/
def skipSpace (s : List Char) : List Char := s.dropWhile isSpace

/-! ## Strings -/

/-- The value of a hexadecimal digit. -/
def hexValue? (c : Char) : Option Nat :=
  if '0' ≤ c && c ≤ '9' then some (c.toNat - '0'.toNat)
  else if 'a' ≤ c && c ≤ 'f' then some (c.toNat - 'a'.toNat + 10)
  else if 'A' ≤ c && c ≤ 'F' then some (c.toNat - 'A'.toNat + 10)
  else none

/-- Four hexadecimal digits. -/
def readUnit : List Char → Option (Nat × List Char)
  | a :: b :: c :: d :: rest =>
    (hexValue? a).bind fun a => (hexValue? b).bind fun b => (hexValue? c).bind fun c =>
      (hexValue? d).map fun d => (((a * 16 + b) * 16 + c) * 16 + d, rest)
  | _ => none

/-- The character behind `\u`: one unit, or two that stand for one character. -/
def readUnicode (s : List Char) : Option (Char × List Char) :=
  (readUnit s).bind fun (unit, rest) =>
    if 0xd800 ≤ unit ∧ unit < 0xdc00 then
      match rest with
      | '\\' :: 'u' :: rest => (readUnit rest).bind fun (low, rest) =>
        if 0xdc00 ≤ low ∧ low < 0xe000 then
          some (Char.ofNat (0x10000 + (unit - 0xd800) * 0x400 + (low - 0xdc00)), rest)
        else none
      | _ => none
    else if 0xdc00 ≤ unit ∧ unit < 0xe000 then none
    else some (Char.ofNat unit, rest)

/-- What a letter stands for behind a backslash. -/
def escaped? : Char → Option Char
  | '"' => some '"'
  | '\\' => some '\\'
  | '/' => some '/'
  | 'b' => some '\x08'
  | 'f' => some '\x0c'
  | 'n' => some '\n'
  | 'r' => some '\r'
  | 't' => some '\t'
  | _ => none

/-- The character behind a backslash. -/
def readEscape : List Char → Option (Char × List Char)
  | [] => none
  | c :: rest => if c = 'u' then readUnicode rest else (escaped? c).map fun c => (c, rest)

/-- A string behind its opening quotation mark.  Each character of it takes at least one of the text. -/
def readChars : Nat → List Char → Option (List Char × List Char)
  | 0, _ => none
  | _ + 1, [] => none
  | fuel + 1, c :: rest =>
    if c = '"' then some ([], rest)
    else if c = '\\' then
      (readEscape rest).bind fun (c, rest) => (readChars fuel rest).map fun (cs, rest) => (c :: cs, rest)
    else if c.toNat < 0x20 then none
    else (readChars fuel rest).map fun (cs, rest) => (c :: cs, rest)

/-- A string. -/
def readString : List Char → Option (String × List Char)
  | [] => none
  | c :: rest =>
    if c = '"' then (readChars rest.length rest).map fun (cs, rest) => (String.ofList cs, rest) else none

/-! ## Numbers -/

/-- Some digits, at least one. -/
def readDigits (s : List Char) : Option (List Char × List Char) :=
  if s.takeWhile Char.isDigit = [] then none else some (s.takeWhile Char.isDigit, s.dropWhile Char.isDigit)

/-- The digits before the point; a zero at the beginning is the only one. -/
def readWhole (s : List Char) : Option (List Char × List Char) :=
  if s.head? = some '0' then some (['0'], s.tail) else readDigits s

/-- The digits behind the point. -/
def readFraction (s : List Char) : Option (List Char × List Char) :=
  if s.head? = some '.' then readDigits s.tail else some ([], s)

/-- A sign: whether it is negative, and what follows. -/
def readSign (s : List Char) : Bool × List Char :=
  if s.head? = some '-' then (true, s.tail) else if s.head? = some '+' then (false, s.tail) else (false, s)

/-- The exponent. -/
def readExponent (s : List Char) : Option (Int × List Char) :=
  if s.head? = some 'e' ∨ s.head? = some 'E' then
    (readDigits (readSign s.tail).2).map fun (digits, rest) =>
      let size : Int := Nat.ofDigitChars 10 digits 0
      (if (readSign s.tail).1 then -size else size, rest)
  else some (0, s)

/-- A number without its sign. -/
def readUnsigned (negative : Bool) (s : List Char) : Option (Value × List Char) :=
  (readWhole s).bind fun (whole, s) => (readFraction s).bind fun (fraction, s) =>
    (readExponent s).map fun (exponent, s) =>
      (.number negative (Nat.ofDigitChars 10 (whole ++ fraction) 0) (exponent - fraction.length), s)

/-- A number. -/
def readNumber (s : List Char) : Option (Value × List Char) :=
  if s.head? = some '-' then readUnsigned true s.tail else readUnsigned false s

/-! ## Values -/

/-- A value that is written as a word. -/
def readWord (word : String) (value : Value) (s : List Char) : Option (Value × List Char) :=
  if word.toList <+: s then some (value, s.drop word.length) else none

mutual

/-- A value.  Each step takes at least one character, so that the length of the text bounds them. -/
def readValue : Nat → List Char → Option (Value × List Char)
  | 0, _ => none
  | fuel + 1, s =>
    match skipSpace s with
    | [] => none
    | c :: rest =>
      if c = '"' then (readString (c :: rest)).map fun (s, rest) => (.string s, rest)
      else if c = '[' then
        if (skipSpace rest).head? = some ']' then some (.array [], (skipSpace rest).tail)
        else (readItems fuel rest).map fun (items, rest) => (.array items, rest)
      else if c = '\x7b' then
        if (skipSpace rest).head? = some '\x7d' then some (.object [], (skipSpace rest).tail)
        else (readFields fuel rest).map fun (fields, rest) => (.object fields, rest)
      else if c = 'n' then readWord "null" .null (c :: rest)
      else if c = 't' then readWord "true" (.bool true) (c :: rest)
      else if c = 'f' then readWord "false" (.bool false) (c :: rest)
      else readNumber (c :: rest)

/-- The items of an array up to its closing bracket, at least one. -/
def readItems : Nat → List Char → Option (List Value × List Char)
  | 0, _ => none
  | fuel + 1, s =>
    (readValue fuel s).bind fun (item, rest) =>
      match skipSpace rest with
      | ']' :: rest => some ([item], rest)
      | ',' :: rest => (readItems fuel rest).map fun (items, rest) => (item :: items, rest)
      | _ => none

/-- The fields of an object up to its closing brace, at least one. -/
def readFields : Nat → List Char → Option (List (String × Value) × List Char)
  | 0, _ => none
  | fuel + 1, s =>
    (readString (skipSpace s)).bind fun (key, rest) =>
      match skipSpace rest with
      | ':' :: rest => (readValue fuel rest).bind fun (value, rest) =>
        match skipSpace rest with
        | '\x7d' :: rest => some ([(key, value)], rest)
        | ',' :: rest => (readFields fuel rest).map fun (fields, rest) => ((key, value) :: fields, rest)
        | _ => none
      | _ => none

end

/-- The value that a text is. -/
def read (text : String) : Option Value :=
  (readValue text.toList.length text.toList).bind fun (value, rest) =>
    if skipSpace rest = [] then some value else none

/-! ## Strings are read back -/

theorem hexValue?_hexDigit : ∀ n < 16, hexValue? (hexDigit n) = some n := by decide

/-- A control character is read back from its code. -/
theorem readEscape_code {c : Char} (h : c.toNat < 0x20) (rest : List Char) :
    readEscape (['u', '0', '0', hexDigit (c.toNat / 16), hexDigit (c.toNat % 16)] ++ rest) =
      some (c, rest) := by
  have hzero : hexValue? '0' = some 0 := by decide
  have hhigh := hexValue?_hexDigit (c.toNat / 16) (by omega)
  have hlow := hexValue?_hexDigit (c.toNat % 16) (by omega)
  have hcode : ((0 * 16 + 0) * 16 + c.toNat / 16) * 16 + c.toNat % 16 = c.toNat := by omega
  have hunit : readUnit (['0', '0', hexDigit (c.toNat / 16), hexDigit (c.toNat % 16)] ++ rest) =
      some (c.toNat, rest) := by
    simp only [List.cons_append, List.nil_append, readUnit, hzero, hhigh, hlow, Option.bind_some,
      Option.map_some, hcode]
  change readUnicode (['0', '0', hexDigit (c.toNat / 16), hexDigit (c.toNat % 16)] ++ rest) = _
  rw [readUnicode, hunit, Option.bind_some]
  simp only
  rw [if_neg (by omega), if_neg (by omega), Char.ofNat_toNat]

/-- A character is read back from how it is written, in one step. -/
theorem readChars_escapeChar (c : Char) (fuel : Nat) (rest : List Char) :
    readChars (fuel + 1) (escapeChar c ++ rest) =
      (readChars fuel rest).map fun (cs, rest) => (c :: cs, rest) := by
  have hescape {tail : List Char} (h : readEscape (tail ++ rest) = some (c, rest)) :
      readChars (fuel + 1) ('\\' :: tail ++ rest) =
        (readChars fuel rest).map fun (cs, rest) => (c :: cs, rest) := by
    rw [List.cons_append, readChars, if_neg (by decide), if_pos rfl, h, Option.bind_some]
  rw [escapeChar]
  split_ifs with hquote hslash hback hfeed hline hreturn htab hcontrol
  · exact hescape (by rw [hquote]; rfl)
  · exact hescape (by rw [hslash]; rfl)
  · exact hescape (by rw [hback]; rfl)
  · exact hescape (by rw [hfeed]; rfl)
  · exact hescape (by rw [hline]; rfl)
  · exact hescape (by rw [hreturn]; rfl)
  · exact hescape (by rw [htab]; rfl)
  · exact hescape (readEscape_code hcontrol rest)
  · rw [List.singleton_append, readChars, if_neg hquote, if_neg hslash, if_neg hcontrol]

theorem readChars_chars (cs rest : List Char) {fuel : Nat} (h : cs.length < fuel) :
    readChars fuel (cs.flatMap escapeChar ++ '"' :: rest) = some (cs, rest) := by
  induction cs generalizing fuel with
  | nil =>
    obtain ⟨fuel, rfl⟩ := Nat.exists_eq_add_of_lt h
    rfl
  | cons c cs ih =>
    obtain ⟨fuel, rfl⟩ : ∃ k, fuel = k + 1 := ⟨fuel - 1, by omega⟩
    rw [List.flatMap_cons, List.append_assoc, readChars_escapeChar, ih (by simpa using h), Option.map_some]

theorem escapeChar_ne_nil (c : Char) : escapeChar c ≠ [] := by
  rw [escapeChar]
  split_ifs <;> exact List.cons_ne_nil _ _

theorem length_le_flatMap (cs : List Char) : cs.length ≤ (cs.flatMap escapeChar).length := by
  induction cs with
  | nil => exact Nat.le_refl 0
  | cons c cs ih =>
    have hpos := List.length_pos_of_ne_nil (escapeChar_ne_nil c)
    rw [List.flatMap_cons, List.length_append, List.length_cons]
    omega

/-- A string is read back. -/
theorem readString_writeString (s : String) (rest : List Char) :
    readString (writeString s ++ rest) = some (s, rest) := by
  have hlength := length_le_flatMap s.toList
  rw [writeString, List.cons_append, readString, if_pos rfl, List.append_assoc, List.singleton_append,
    readChars_chars _ _ (by rw [List.length_append, List.length_cons]; omega), Option.map_some]
  exact congrArg (fun text => some (text, rest)) String.ofList_toList

/-! ## Numbers are read back -/

/-- Where a value ends: at the end of the text, or before a comma or a closing bracket. -/
def Ends (rest : List Char) : Prop := ∀ c ∈ rest.head?, c = ',' ∨ c = ']' ∨ c = '\x7d'

theorem Ends.not_digit {rest : List Char} (h : Ends rest) : ∀ c ∈ rest.head?, c.isDigit = false := by
  intro c hc
  rcases h c hc with rfl | rfl | rfl <;> decide

theorem digitChar_ne_zero : ∀ n < 10, n ≠ 0 → Nat.digitChar n ≠ '0' := by decide

/-- A number but zero does not begin with a zero. -/
theorem head?_toDigits {n : Nat} (h : n ≠ 0) : (Nat.toDigits 10 n).head? ≠ some '0' := by
  induction n using Nat.strongRecOn with
  | _ n ih =>
    by_cases hless : n < 10
    · rw [Nat.toDigits_of_lt_base hless]
      exact fun hhead => digitChar_ne_zero n hless h (Option.some.inj hhead)
    · rw [Nat.toDigits_of_base_le (by decide) (by omega), List.head?_append_of_ne_nil _ Nat.toDigits_ne_nil]
      exact ih (n / 10) (by omega) (by omega)

theorem readDigits_toDigits (n : Nat) {rest : List Char} (h : Ends rest) :
    readDigits (Nat.toDigits 10 n ++ rest) = some (Nat.toDigits 10 n, rest) := by
  have hdigits : ∀ c ∈ Nat.toDigits 10 n, c.isDigit = true :=
    fun c hc => Nat.isDigit_of_mem_toDigits (by decide) (Nat.le_refl _) hc
  have htake : (Nat.toDigits 10 n ++ rest).takeWhile Char.isDigit = Nat.toDigits 10 n := by
    rw [List.takeWhile_append_of_pos hdigits]
    cases rest with
    | nil => exact List.append_nil _
    | cons c rest => rw [List.takeWhile_cons_of_neg (by simp [h.not_digit c rfl]), List.append_nil]
  have hdrop : (Nat.toDigits 10 n ++ rest).dropWhile Char.isDigit = rest := by
    rw [List.dropWhile_append_of_pos hdigits]
    cases rest with
    | nil => rfl
    | cons c rest => rw [List.dropWhile_cons_of_neg (by simp [h.not_digit c rfl])]
  rw [readDigits, htake, hdrop, if_neg Nat.toDigits_ne_nil]

theorem readWhole_writeNumber (n : Nat) {rest : List Char} (h : Ends rest) :
    readWhole (writeNumber n ++ rest) = some (writeNumber n, rest) := by
  rw [writeNumber, readWhole]
  by_cases hn : n = 0
  · subst hn
    rfl
  · rw [if_neg, readDigits_toDigits n h]
    rw [List.head?_append_of_ne_nil _ Nat.toDigits_ne_nil]
    exact head?_toDigits hn

theorem readNumber_writeNumber (n : Nat) {rest : List Char} (h : Ends rest) :
    readNumber (writeNumber n ++ rest) = some (.number false n 0, rest) := by
  have hsign : (writeNumber n ++ rest).head? ≠ some '-' := by
    rw [writeNumber, List.head?_append_of_ne_nil _ Nat.toDigits_ne_nil]
    intro hhead
    have hdigit := Nat.isDigit_of_mem_toDigits (by decide) (Nat.le_refl _) (List.mem_of_head? hhead)
    exact absurd hdigit (by decide)
  have hfraction : readFraction rest = some ([], rest) := by
    refine if_neg fun hhead => ?_
    rcases h '.' hhead with h | h | h <;> exact absurd h (by decide)
  have hexponent : readExponent rest = some (0, rest) := by
    refine if_neg fun hhead => ?_
    rcases hhead with hhead | hhead
    · rcases h 'e' hhead with h | h | h <;> exact absurd h (by decide)
    · rcases h 'E' hhead with h | h | h <;> exact absurd h (by decide)
  have hvalue : Nat.ofDigitChars 10 (writeNumber n) 0 = n :=
    Nat.ofDigitChars_toDigits (by decide) (Nat.le_refl 10)
  rw [readNumber, if_neg hsign, readUnsigned, readWhole_writeNumber n h, Option.bind_some]
  simp only [hfraction, Option.bind_some, hexponent, Option.map_some, List.append_nil, hvalue]
  rfl

/-! ## Values are read back -/

mutual

/-- What a value is read as. -/
def toValue : Json → Value
  | .number value => .number false value 0
  | .string value => .string value
  | .array items => .array (toValues items)
  | .object fields => .object (toFields fields)

/-- What the items of an array are read as. -/
def toValues : List Json → List Value
  | [] => []
  | item :: rest => item.toValue :: toValues rest

/-- What the fields of an object are read as. -/
def toFields : List (String × Json) → List (String × Value)
  | [] => []
  | (key, value) :: rest => (key, value.toValue) :: toFields rest

end

theorem skipSpace_cons {c : Char} (h : isSpace c = false) (s : List Char) : skipSpace (c :: s) = c :: s :=
  List.dropWhile_cons_of_neg (by simp [h])

theorem isSpace_of_isDigit {c : Char} (h : c.isDigit = true) : isSpace c = false := by
  rw [isSpace]
  simp only [Bool.or_eq_false_iff, beq_eq_false_iff_ne]
  refine ⟨⟨⟨?_, ?_⟩, ?_⟩, ?_⟩ <;> exact fun heq => absurd (heq ▸ h) (by decide)

/-- A number begins with a digit. -/
theorem exists_writeNumber (n : Nat) (rest : List Char) :
    ∃ c t, writeNumber n ++ rest = c :: t ∧ c.isDigit = true := by
  obtain ⟨c, t, heq⟩ := List.exists_cons_of_ne_nil (Nat.toDigits_ne_nil (n := n) (b := 10))
  refine ⟨c, t ++ rest, by rw [writeNumber, heq, List.cons_append], ?_⟩
  exact Nat.isDigit_of_mem_toDigits (b := 10) (n := n) (by decide) (Nat.le_refl _)
    (heq ▸ List.mem_cons_self)

/-- A value begins with no white space and with no closing bracket. -/
theorem exists_compactChars (value : Json) :
    ∃ c t, value.compactChars = c :: t ∧ isSpace c = false ∧ c ≠ ']' := by
  cases value with
  | number n =>
    obtain ⟨c, t, heq, hdigit⟩ := exists_writeNumber n []
    rw [List.append_nil] at heq
    refine ⟨c, t, by rw [compactChars, heq], isSpace_of_isDigit hdigit, ?_⟩
    exact fun h => absurd (h ▸ hdigit) (by decide)
  | string s => exact ⟨'"', _, by rw [compactChars, writeString], by decide, by decide⟩
  | array items => exact ⟨'[', _, by rw [compactChars], by decide, by decide⟩
  | object fields => exact ⟨'\x7b', _, by rw [compactChars], by decide, by decide⟩

theorem length_compactChars_pos (value : Json) : 0 < value.compactChars.length := by
  obtain ⟨c, t, heq, -⟩ := exists_compactChars value
  rw [heq, List.length_cons]
  exact Nat.succ_pos _

theorem ends_cons {c : Char} (h : c = ',' ∨ c = ']' ∨ c = '\x7d') (rest : List Char) : Ends (c :: rest) := by
  intro d hd
  cases hd
  exact h

theorem readValue_number (n : Nat) (fuel : Nat) {rest : List Char} (h : Ends rest) :
    readValue (fuel + 1) (writeNumber n ++ rest) = some (.number false n 0, rest) := by
  obtain ⟨c, t, heq, hdigit⟩ := exists_writeNumber n rest
  have hne {d : Char} (hd : d.isDigit = false) : c ≠ d := by
    rintro rfl
    exact absurd (hdigit.symm.trans hd) (by decide)
  have hnumber := readNumber_writeNumber n h
  rw [heq] at hnumber ⊢
  rw [readValue, skipSpace_cons (isSpace_of_isDigit hdigit)]
  simp only
  rw [if_neg (hne (by decide)), if_neg (hne (by decide)), if_neg (hne (by decide)),
    if_neg (hne (by decide)), if_neg (hne (by decide)), if_neg (hne (by decide)), hnumber]

theorem readValue_string (s : String) (fuel : Nat) (rest : List Char) :
    readValue (fuel + 1) (writeString s ++ rest) = some (.string s, rest) := by
  have hstring := readString_writeString s rest
  rw [writeString, List.cons_append] at hstring ⊢
  rw [readValue, skipSpace_cons (by decide)]
  simp only [if_true, hstring, Option.map_some]

theorem compactItems_more (item next : Json) (items : List Json) :
    compactItems (item :: next :: items) = item.compactChars ++ ',' :: compactItems (next :: items) := rfl

theorem compactFields_more (key : String) (value : Json) (next : String × Json)
    (fields : List (String × Json)) : compactFields ((key, value) :: next :: fields) =
      writeString key ++ ':' :: (value.compactChars ++ ',' :: compactFields (next :: fields)) := rfl

theorem skipSpace_compactItems {items : List Json} (h : items ≠ []) (rest : List Char) :
    ∃ c t, compactItems items ++ rest = c :: t ∧ isSpace c = false ∧ c ≠ ']' := by
  match items, h with
  | [item], _ =>
    obtain ⟨c, t, heq, hspace, hclose⟩ := exists_compactChars item
    exact ⟨c, _, by rw [compactItems, heq]; rfl, hspace, hclose⟩
  | item :: next :: items, _ =>
    obtain ⟨c, t, heq, hspace, hclose⟩ := exists_compactChars item
    exact ⟨c, _, by rw [compactItems_more, heq]; rfl, hspace, hclose⟩

/-- An array is read if its items are. -/
theorem readValue_array {items : List Json} (hne : items ≠ []) {fuel : Nat} {rest : List Char}
    (h : readItems fuel (compactItems items ++ rest) = some (toValues items, rest)) :
    readValue (fuel + 1) ('[' :: compactItems items ++ rest) = some (.array (toValues items), rest) := by
  obtain ⟨c, t, heq, hspace, hclose⟩ := skipSpace_compactItems hne rest
  have hopen : (skipSpace (compactItems items ++ rest)).head? ≠ some ']' := by
    rw [heq, skipSpace_cons hspace]
    exact fun hhead => hclose (Option.some.inj hhead)
  rw [List.cons_append, readValue, skipSpace_cons (by decide)]
  simp only
  rw [if_neg (by decide), if_pos trivial, if_neg hopen, h, Option.map_some]

/-- An object is read if its fields are. -/
theorem readValue_object {fields : List (String × Json)} (hne : fields ≠ []) {fuel : Nat} {rest : List Char}
    (h : readFields fuel (compactFields fields ++ rest) = some (toFields fields, rest)) :
    readValue (fuel + 1) ('\x7b' :: compactFields fields ++ rest) =
      some (.object (toFields fields), rest) := by
  have hopen : (skipSpace (compactFields fields ++ rest)).head? = some '"' := by
    match fields, hne with
    | [field], _ => rfl
    | field :: next :: fields, _ => rfl
  rw [List.cons_append, readValue, skipSpace_cons (by decide)]
  simp only
  rw [if_neg (by decide), if_neg (by decide), if_pos trivial, if_neg (by rw [hopen]; decide), h,
    Option.map_some]

section

variable {fuel : Nat} {s rest : List Char}

theorem readItems_last {item : Value} (h : readValue fuel s = some (item, ']' :: rest)) :
    readItems (fuel + 1) s = some ([item], rest) := by
  rw [readItems, h, Option.bind_some]
  rfl

theorem readItems_more {item : Value} {items : List Value} {next : List Char}
    (h : readValue fuel s = some (item, ',' :: next)) (hnext : readItems fuel next = some (items, rest)) :
    readItems (fuel + 1) s = some (item :: items, rest) := by
  rw [readItems, h, Option.bind_some]
  change (readItems fuel next).map _ = _
  rw [hnext, Option.map_some]

theorem readFields_key {key : String} {value : Value} {next : List Char}
    (h : readValue fuel s = some (value, next)) :
    readFields (fuel + 1) (writeString key ++ ':' :: s) =
      match skipSpace next with
      | '\x7d' :: rest => some ([(key, value)], rest)
      | ',' :: rest => (readFields fuel rest).map fun (fields, rest) => ((key, value) :: fields, rest)
      | _ => none := by
  have hskip : skipSpace (writeString key ++ ':' :: s) = writeString key ++ ':' :: s := by
    rw [writeString, List.cons_append, skipSpace_cons (by decide)]
  rw [readFields, hskip, readString_writeString, Option.bind_some]
  change (readValue fuel s).bind _ = _
  rw [h, Option.bind_some]

end

mutual

/-- A value is read back up to where it ends. -/
theorem readValue_compactChars : ∀ (value : Json) (fuel : Nat) (rest : List Char),
    value.compactChars.length ≤ fuel → Ends rest →
    readValue fuel (value.compactChars ++ rest) = some (value.toValue, rest)
  | value, 0, rest, hfuel, _ => absurd hfuel (Nat.not_le.mpr (length_compactChars_pos value))
  | .number n, fuel + 1, rest, _, hends => by
    rw [compactChars, toValue]
    exact readValue_number n fuel hends
  | .string s, fuel + 1, rest, _, _ => by
    rw [compactChars, toValue]
    exact readValue_string s fuel rest
  | .array [], fuel + 1, rest, _, _ => rfl
  | .array (item :: items), fuel + 1, rest, hfuel, _ => by
    rw [compactChars, List.length_cons] at hfuel
    rw [compactChars, toValue]
    exact readValue_array (List.cons_ne_nil _ _)
      (readItems_compactItems (item :: items) fuel rest (List.cons_ne_nil _ _) (Nat.le_of_succ_le_succ hfuel))
  | .object [], fuel + 1, rest, _, _ => rfl
  | .object (field :: fields), fuel + 1, rest, hfuel, _ => by
    rw [compactChars, List.length_cons] at hfuel
    rw [compactChars, toValue]
    exact readValue_object (List.cons_ne_nil _ _)
      (readFields_compactFields (field :: fields) fuel rest (List.cons_ne_nil _ _)
        (Nat.le_of_succ_le_succ hfuel))

/-- The items of an array are read back. -/
theorem readItems_compactItems : ∀ (items : List Json) (fuel : Nat) (rest : List Char), items ≠ [] →
    (compactItems items).length ≤ fuel →
    readItems fuel (compactItems items ++ rest) = some (toValues items, rest)
  | [], _, _, hne, _ => absurd rfl hne
  | [item], fuel, rest, _, hfuel => by
    rw [compactItems, List.length_append, List.length_singleton] at hfuel
    obtain ⟨fuel, rfl⟩ : ∃ k, fuel = k + 1 := ⟨fuel - 1, by omega⟩
    rw [compactItems, List.append_assoc, toValues, toValues]
    exact readItems_last (readValue_compactChars item fuel (']' :: rest) (by omega) (ends_cons (by simp) rest))
  | item :: next :: items, fuel, rest, _, hfuel => by
    rw [compactItems_more, List.length_append, List.length_cons] at hfuel
    obtain ⟨fuel, rfl⟩ : ∃ k, fuel = k + 1 := ⟨fuel - 1, by omega⟩
    rw [compactItems_more, List.append_assoc, toValues]
    exact readItems_more
      (readValue_compactChars item fuel _ (by omega) (ends_cons (by simp) _))
      (readItems_compactItems (next :: items) fuel rest (List.cons_ne_nil _ _) (by omega))

/-- The fields of an object are read back. -/
theorem readFields_compactFields : ∀ (fields : List (String × Json)) (fuel : Nat) (rest : List Char),
    fields ≠ [] → (compactFields fields).length ≤ fuel →
    readFields fuel (compactFields fields ++ rest) = some (toFields fields, rest)
  | [], _, _, hne, _ => absurd rfl hne
  | [(key, value)], fuel, rest, _, hfuel => by
    rw [compactFields, List.length_append, List.length_cons, List.length_append] at hfuel
    obtain ⟨fuel, rfl⟩ : ∃ k, fuel = k + 1 := ⟨fuel - 1, by omega⟩
    have hvalue := readValue_compactChars value fuel ('\x7d' :: rest) (by omega) (ends_cons (by simp) rest)
    rw [compactFields, List.append_assoc, List.cons_append, List.append_assoc, toFields, toFields]
    exact readFields_key hvalue
  | (key, value) :: next :: fields, fuel, rest, _, hfuel => by
    rw [compactFields_more, List.length_append, List.length_cons, List.length_append,
      List.length_cons] at hfuel
    obtain ⟨fuel, rfl⟩ : ∃ k, fuel = k + 1 := ⟨fuel - 1, by omega⟩
    have hvalue := readValue_compactChars value fuel (',' :: (compactFields (next :: fields) ++ rest))
      (by omega) (ends_cons (by simp) _)
    have hnext := readFields_compactFields (next :: fields) fuel rest (List.cons_ne_nil _ _) (by omega)
    rw [compactFields_more, List.append_assoc, List.cons_append, List.append_assoc, List.cons_append,
      toFields]
    refine (readFields_key hvalue).trans ?_
    change (readFields fuel (compactFields (next :: fields) ++ rest)).map _ = _
    rw [hnext, Option.map_some]

end

/-- **What is written on one line is read back.** -/
theorem read_compact (value : Json) : read value.compact = some value.toValue := by
  have h := readValue_compactChars value value.compactChars.length [] (Nat.le_refl _) (fun c hc => nomatch hc)
  rw [List.append_nil] at h
  rw [read, compact, String.toList_ofList, h, Option.bind_some]
  rfl

end Cicode.Json
