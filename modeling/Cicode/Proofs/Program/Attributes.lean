import Cicode.Program.Doc
import Cicode.Proofs.Program.Breaches

/-!
# Attributes of a tag

The attributes of a tag are read in turns, each of which consumes an attribute.  `LooksUp` follows the
turns in which an attribute is looked up without a bound on their number; `SpellsAll` says how a list of
attributes may be written.

Main statement (`attributes_read_whole`): looking up an attribute comes to an end on every text, and a
parameter tag with a list of attributes in it describes the parameter that the first valued attribute
`name` gives, if there is one.
-/

namespace Cicode.Program.Doc

open Text

/-- A character that can stand in a key. -/
def inKey (c : Char) : Bool := !(c == '=' || isBlank c)

/-- The attribute at the beginning of a text that does not begin with white space, and what follows it;
`none` if its quotation mark is not closed. -/
def attributeAt (s : List Char) : Option (Attribute × List Char) :=
  match trimStart (s.dropWhile inKey) with
  | '=' :: after => (attributeValue after).map fun (value, rest) => ((s.takeWhile inKey, some value), rest)
  | after => some ((s.takeWhile inKey, none), after)

theorem attributeAt_valued {s after : List Char} (h : trimStart (s.dropWhile inKey) = '=' :: after) :
    attributeAt s =
      (attributeValue after).map fun (value, rest) => ((s.takeWhile inKey, some value), rest) := by
  rw [attributeAt, h]
  rfl

theorem attributeAt_valueless {s : List Char} (h : ∀ after, trimStart (s.dropWhile inKey) ≠ '=' :: after) :
    attributeAt s = some ((s.takeWhile inKey, none), trimStart (s.dropWhile inKey)) := by
  rw [attributeAt]
  split
  · rename_i after heq
    exact absurd heq (h after)
  · rfl

/-! ## Turns -/

theorem attributesAux_succ (fuel : Nat) (s : List Char) : attributesAux (fuel + 1) s =
    if trimStart s = [] then [] else
      match attributeAt (trimStart s) with
      | none => []
      | some (a, rest) => a :: attributesAux fuel rest := by
  rw [attributesAux]
  cases trimStart s with
  | nil => rfl
  | cons c t =>
    rw [if_neg (List.cons_ne_nil c t), attributeAt]
    change (match trimStart ((c :: t).dropWhile inKey) with
      | '=' :: after => _
      | after => _) = _
    split
    · rename_i after _
      cases attributeValue after <;> rfl
    · rfl

theorem length_trimStart_le (s : List Char) : (trimStart s).length ≤ s.length :=
  (List.dropWhile_sublist _).length_le

theorem length_takeWhile_add (p : Char → Bool) (s : List Char) :
    (s.takeWhile p).length + (s.dropWhile p).length = s.length := by
  rw [← List.length_append, List.takeWhile_append_dropWhile]

/-- What follows a quoted value is shorter than what follows its first quotation mark. -/
theorem length_quoted {mark : Char} {body value rest : List Char}
    (h : attributeValue.quoted mark body = some (value, rest)) : rest.length < body.length := by
  have hsplit := length_takeWhile_add (· != mark) body
  rw [attributeValue.quoted] at h
  split at h
  · cases h
  · rename_i last heq
    cases h
    rw [heq, List.length_cons] at hsplit
    omega

theorem length_attributeValue {s value rest : List Char} (h : attributeValue s = some (value, rest)) :
    rest.length ≤ s.length := by
  have htrim := length_trimStart_le s
  rw [attributeValue] at h
  split at h
  · rename_i heq
    have := length_quoted h
    rw [heq, List.length_cons] at htrim
    omega
  · rename_i heq
    have := length_quoted h
    rw [heq, List.length_cons] at htrim
    omega
  · cases h
    have := (List.dropWhile_sublist (l := trimStart s) (!isBlank ·)).length_le
    omega

/-- A turn consumes something: the equals sign, or else the key, which is not empty then. -/
theorem length_attributeAt {s rest : List Char} {a : Attribute} (hs : trimStart s ≠ [])
    (h : attributeAt (trimStart s) = some (a, rest)) : rest.length < s.length := by
  have htrim := length_trimStart_le s
  have hsplit := length_takeWhile_add inKey (trimStart s)
  have hafter := length_trimStart_le ((trimStart s).dropWhile inKey)
  rw [attributeAt] at h
  split at h
  · rename_i after heq
    obtain ⟨⟨value, rest'⟩, hvalue, hpair⟩ := Option.map_eq_some_iff.mp h
    cases hpair
    have := length_attributeValue hvalue
    rw [heq, List.length_cons] at hafter
    omega
  · rename_i hno
    cases h
    cases hcase : trimStart s with
    | nil => exact absurd hcase hs
    | cons c t =>
      by_cases hc : inKey c = true
      · rw [hcase, List.takeWhile_cons_of_pos hc, List.length_cons] at hsplit
        rw [hcase] at hafter htrim
        omega
      · -- The first character is neither white space nor in a key, so it is an equals sign.
        have hblank : isBlank c = false := by
          have := List.head?_dropWhile_not isBlank s
          rw [show s.dropWhile isBlank = c :: t from hcase] at this
          simpa using this
        have heq : c = '=' := by
          simpa [inKey, hblank] using hc
        refine absurd ?_ (hno t)
        rw [hcase, List.dropWhile_cons_of_neg hc, trimStart,
          List.dropWhile_cons_of_neg (by simp [hblank]), heq]

/-- More turns than there are characters make no difference. -/
theorem attributesAux_congr {s : List Char} {n m : Nat} (hn : s.length ≤ n) (hm : s.length ≤ m) :
    attributesAux n s = attributesAux m s := by
  induction n generalizing s m with
  | zero =>
    have hnil : s = [] := List.length_eq_zero_iff.mp (Nat.le_zero.mp hn)
    cases m with
    | zero => rfl
    | succ m =>
      rw [attributesAux_succ, hnil]
      rfl
  | succ n ih =>
    cases m with
    | zero =>
      have hnil : s = [] := List.length_eq_zero_iff.mp (Nat.le_zero.mp hm)
      rw [attributesAux_succ, hnil]
      rfl
    | succ m =>
      rw [attributesAux_succ, attributesAux_succ]
      split
      · rfl
      · rename_i hs
        cases h : attributeAt (trimStart s) with
        | none => rfl
        | some next =>
          obtain ⟨a, rest⟩ := next
          have hless := length_attributeAt hs h
          exact congrArg (a :: ·) (ih (by omega) (by omega))

/-- The attributes of a text: the first one, then those of the rest. -/
theorem attributes_eq (s : List Char) : attributes s =
    if trimStart s = [] then [] else
      match attributeAt (trimStart s) with
      | none => []
      | some (a, rest) => a :: attributes rest := by
  rw [attributes, attributesAux_congr (Nat.le_refl _) (Nat.le_succ _), attributesAux_succ]
  split
  · rfl
  · rename_i hs
    cases h : attributeAt (trimStart s) with
    | none => rfl
    | some next =>
      obtain ⟨a, rest⟩ := next
      have hless := length_attributeAt hs h
      exact congrArg (a :: ·) (attributesAux_congr (by omega) (Nat.le_refl _))

section

variable {s after value rest : List Char}

theorem attributes_exhausted (hs : trimStart s = []) : attributes s = [] := by
  rw [attributes_eq, if_pos hs]

theorem attributes_unclosed (hs : trimStart s ≠ [])
    (heq : trimStart ((trimStart s).dropWhile inKey) = '=' :: after)
    (hvalue : attributeValue after = none) : attributes s = [] := by
  rw [attributes_eq, if_neg hs, attributeAt_valued heq, hvalue]
  rfl

theorem attributes_valued (hs : trimStart s ≠ [])
    (heq : trimStart ((trimStart s).dropWhile inKey) = '=' :: after)
    (hvalue : attributeValue after = some (value, rest)) :
    attributes s = ((trimStart s).takeWhile inKey, some value) :: attributes rest := by
  rw [attributes_eq, if_neg hs, attributeAt_valued heq, hvalue]
  rfl

theorem attributes_valueless (hs : trimStart s ≠ [])
    (hno : ∀ after, trimStart ((trimStart s).dropWhile inKey) ≠ '=' :: after) :
    attributes s = ((trimStart s).takeWhile inKey, none) ::
      attributes (trimStart ((trimStart s).dropWhile inKey)) := by
  rw [attributes_eq, if_neg hs, attributeAt_valueless hno]

end

/-! ## Looking up an attribute -/

/-- A key is a name, in any case. -/
def IsKey (key : List Char) (name : String) : Prop := SameName (String.ofList key) name

/-- Looking up the value of an attribute in a text comes to an end with a result. -/
inductive LooksUp (name : String) : List Char → Option String → Prop
  /-- No attribute is left. -/
  | exhausted {s : List Char} : trimStart s = [] → LooksUp name s none
  /-- The quotation mark of a value is not closed. -/
  | unclosed {s after : List Char} :
    trimStart s ≠ [] → trimStart ((trimStart s).dropWhile inKey) = '=' :: after →
    attributeValue after = none → LooksUp name s none
  /-- The attribute has a value and the name that is looked for. -/
  | found {s after value rest : List Char} :
    trimStart s ≠ [] → trimStart ((trimStart s).dropWhile inKey) = '=' :: after →
    attributeValue after = some (value, rest) → IsKey ((trimStart s).takeWhile inKey) name →
    LooksUp name s (some (String.ofList value))
  /-- The attribute has a value and another name. -/
  | passed {s after value rest : List Char} {result : Option String} :
    trimStart s ≠ [] → trimStart ((trimStart s).dropWhile inKey) = '=' :: after →
    attributeValue after = some (value, rest) → ¬IsKey ((trimStart s).takeWhile inKey) name →
    LooksUp name rest result → LooksUp name s result
  /-- The attribute has no value. -/
  | valueless {s : List Char} {result : Option String} :
    trimStart s ≠ [] → (∀ after, trimStart ((trimStart s).dropWhile inKey) ≠ '=' :: after) →
    LooksUp name (trimStart ((trimStart s).dropWhile inKey)) result → LooksUp name s result

theorem isKey_iff {key : List Char} {name : String} :
    (key.map Char.toLower == folded name) = true ↔ IsKey key name := by
  rw [IsKey, ← sameName_iff, sameName, folded, folded, String.toList_ofList]

/-- The value of the first attribute of some name that has one. -/
def valueOf (name : String) (as : List Attribute) : Option String :=
  (as.find? fun a => a.1.map Char.toLower == folded name && a.2.isSome).bind fun a =>
    a.2.map String.ofList

theorem attribute?_eq (s : List Char) (name : String) :
    attribute? s name = valueOf name (attributes s) := rfl

theorem valueOf_valueless (name : String) (key : List Char) (as : List Attribute) :
    valueOf name ((key, none) :: as) = valueOf name as := by
  rw [valueOf, List.find?_cons_of_neg (by simp)]
  rfl

theorem valueOf_found {name : String} {key : List Char} (value : List Char) (as : List Attribute)
    (h : IsKey key name) : valueOf name ((key, some value) :: as) = some (String.ofList value) := by
  rw [valueOf, List.find?_cons_of_pos (by simp [isKey_iff.mpr h])]
  rfl

theorem valueOf_passed {name : String} {key : List Char} (value : List Char) (as : List Attribute)
    (h : ¬IsKey key name) : valueOf name ((key, some value) :: as) = valueOf name as := by
  rw [valueOf, List.find?_cons_of_neg]
  · rfl
  · rw [Bool.and_eq_true, isKey_iff]
    exact fun hboth => h hboth.1

/-- Looking up ends on every text. -/
theorem looksUp_attribute? (name : String) (s : List Char) : LooksUp name s (attribute? s name) := by
  induction hn : s.length using Nat.strong_induction_on generalizing s with
  | _ n ih =>
    subst hn
    rw [attribute?_eq]
    by_cases hs : trimStart s = []
    · rw [attributes_exhausted hs]
      exact .exhausted hs
    by_cases hno : ∀ after, trimStart ((trimStart s).dropWhile inKey) ≠ '=' :: after
    · rw [attributes_valueless hs hno, valueOf_valueless]
      exact .valueless hs hno (ih _ (length_attributeAt hs (attributeAt_valueless hno)) _ rfl)
    · push Not at hno
      obtain ⟨after, heq⟩ := hno
      cases hvalue : attributeValue after with
      | none =>
        rw [attributes_unclosed hs heq hvalue]
        exact .unclosed hs heq hvalue
      | some pair =>
        obtain ⟨value, rest⟩ := pair
        rw [attributes_valued hs heq hvalue]
        by_cases hkey : IsKey ((trimStart s).takeWhile inKey) name
        · rw [valueOf_found _ _ hkey]
          exact .found hs heq hvalue hkey
        · rw [valueOf_passed _ _ hkey]
          have hat := attributeAt_valued heq
          rw [hvalue] at hat
          exact .passed hs heq hvalue hkey (ih _ (length_attributeAt hs hat) _ rfl)

/-- **Looking up an attribute comes to an end on every text**, and its result is determined. -/
theorem looksUp_iff {name : String} {s : List Char} {result : Option String} :
    LooksUp name s result ↔ result = attribute? s name := by
  constructor
  · intro h
    induction h with
    | exhausted hs => rw [attribute?_eq, attributes_exhausted hs]; rfl
    | unclosed hs heq hvalue => rw [attribute?_eq, attributes_unclosed hs heq hvalue]; rfl
    | found hs heq hvalue hkey =>
      rw [attribute?_eq, attributes_valued hs heq hvalue, valueOf_found _ _ hkey]
    | passed hs heq hvalue hkey _ ih =>
      rw [ih, attribute?_eq, attribute?_eq, attributes_valued hs heq hvalue, valueOf_passed _ _ hkey]
    | valueless hs hno _ ih =>
      rw [ih, attribute?_eq, attribute?_eq, attributes_valueless hs hno, valueOf_valueless]
  · rintro rfl
    exact looksUp_attribute? name s

/-! ## How attributes are written -/

/-- A text of white space only. -/
def AllBlank (s : List Char) : Prop := ∀ c ∈ s, isBlank c = true

/-- A text can stand as a key. -/
def SpellsKey (key : List Char) : Prop := key ≠ [] ∧ ∀ c ∈ key, isBlank c = false ∧ c ≠ '='

/-- A text can stand as a value without quotation marks. -/
def SpellsBare (value : List Char) : Prop :=
  value ≠ [] ∧ (∀ c ∈ value, isBlank c = false) ∧ value.head? ≠ some '"' ∧ value.head? ≠ some '\''

/-- How an attribute may be written. -/
inductive Spells : Attribute → List Char → Prop
  | valueless {key : List Char} : SpellsKey key → Spells (key, none) key
  | quoted {key before after value : List Char} {mark : Char} :
    SpellsKey key → AllBlank before → AllBlank after → (mark = '"' ∨ mark = '\'') → mark ∉ value →
    Spells (key, some value) (key ++ before ++ '=' :: after ++ mark :: value ++ [mark])
  | bare {key before after value : List Char} :
    SpellsKey key → AllBlank before → AllBlank after → SpellsBare value →
    Spells (key, some value) (key ++ before ++ '=' :: after ++ value)

/-- How a list of attributes may be written: there is white space between two of them. -/
inductive SpellsAll : List Attribute → List Char → Prop
  | nil {blanks : List Char} : AllBlank blanks → SpellsAll [] blanks
  | cons {a : Attribute} {as : List Attribute} {blanks s rest : List Char} :
    AllBlank blanks → Spells a s → SpellsAll as rest → (∀ c ∈ rest.head?, isBlank c = true) →
    SpellsAll (a :: as) (blanks ++ s ++ rest)

section

variable {s rest key value : List Char}

theorem trimStart_append (h : AllBlank s) (rest : List Char) : trimStart (s ++ rest) = trimStart rest :=
  List.dropWhile_append_of_pos h

theorem trimStart_of_allBlank (h : AllBlank s) : trimStart s = [] := List.dropWhile_eq_nil_iff.mpr h

theorem trimStart_cons {c : Char} (h : isBlank c = false) (s : List Char) : trimStart (c :: s) = c :: s :=
  List.dropWhile_cons_of_neg (by simp [h])

theorem trimStart_trimStart (s : List Char) : trimStart (trimStart s) = trimStart s :=
  List.dropWhile_idempotent ..

/-- White space in front of the attributes does not count. -/
theorem attributes_trimStart (s : List Char) : attributes (trimStart s) = attributes s := by
  rw [attributes_eq, attributes_eq s, trimStart_trimStart]

/-- A stretch is taken up to the first character that does not belong to it. -/
theorem span_append {p : Char → Bool} (hs : ∀ c ∈ s, p c = true) (hrest : ∀ c ∈ rest.head?, p c = false) :
    (s ++ rest).takeWhile p = s ∧ (s ++ rest).dropWhile p = rest := by
  rw [List.takeWhile_append_of_pos hs, List.dropWhile_append_of_pos hs]
  cases rest with
  | nil => exact ⟨List.append_nil s, rfl⟩
  | cons c rest =>
    have hc : ¬p c = true := by simp [hrest c rfl]
    rw [List.takeWhile_cons_of_neg hc, List.dropWhile_cons_of_neg hc, List.append_nil]
    exact ⟨rfl, rfl⟩

theorem SpellsKey.inKey (h : SpellsKey key) : ∀ c ∈ key, Doc.inKey c = true := by
  intro c hc
  simp [Doc.inKey, h.2 c hc]

theorem inKey_of_blank {c : Char} (h : isBlank c = true) : inKey c = false := by
  simp [inKey, h]

/-- A text that begins with a key begins with no white space and no equals sign. -/
theorem SpellsKey.exists_cons (h : SpellsKey key) (rest : List Char) :
    ∃ c t, key ++ rest = c :: t ∧ isBlank c = false ∧ c ≠ '=' := by
  cases key with
  | nil => exact absurd rfl h.1
  | cons c key => exact ⟨c, key ++ rest, rfl, h.2 c List.mem_cons_self⟩

theorem Spells.exists_cons {a : Attribute} (h : Spells a s) (rest : List Char) :
    ∃ c t, s ++ rest = c :: t ∧ isBlank c = false ∧ c ≠ '=' := by
  cases h with
  | valueless hkey => exact hkey.exists_cons rest
  | quoted hkey | bare hkey =>
    simp only [List.append_assoc]
    exact hkey.exists_cons _

theorem Spells.trimStart_append {a : Attribute} (h : Spells a s) (rest : List Char) :
    trimStart (s ++ rest) = s ++ rest := by
  obtain ⟨c, t, heq, hblank, -⟩ := h.exists_cons rest
  rw [heq, trimStart_cons hblank]

/-- No attribute begins with an equals sign. -/
theorem SpellsAll.no_equals {as : List Attribute} (h : SpellsAll as s) (after : List Char) :
    trimStart s ≠ '=' :: after := by
  cases h with
  | nil hblanks =>
    rw [trimStart_of_allBlank hblanks]
    exact (List.cons_ne_nil _ _).symm
  | cons hblanks ha =>
    rw [List.append_assoc, Doc.trimStart_append hblanks, ha.trimStart_append]
    obtain ⟨c, t, heq, -, hne⟩ := ha.exists_cons _
    rw [heq]
    exact fun h => hne (List.cons.inj h).1

/-- A quoted value is read up to its second quotation mark. -/
theorem quoted_append {mark : Char} (h : mark ∉ value) (rest : List Char) :
    attributeValue.quoted mark (value ++ mark :: rest) = some (value, rest) := by
  have hvalue : ∀ c ∈ value, (c != mark) = true := by
    intro c hc
    exact bne_iff_ne.mpr fun heq => h (heq ▸ hc)
  obtain ⟨htake, hdrop⟩ := span_append hvalue (show ∀ c ∈ (mark :: rest).head?, (c != mark) = false by simp)
  rw [attributeValue.quoted, htake, hdrop]

theorem attributeValue_quoted {blanks : List Char} {mark : Char} (hblanks : AllBlank blanks)
    (hmark : mark = '"' ∨ mark = '\'') (hvalue : mark ∉ value) (rest : List Char) :
    attributeValue (blanks ++ mark :: (value ++ mark :: rest)) = some (value, rest) := by
  rw [attributeValue, trimStart_append hblanks]
  rcases hmark with rfl | rfl <;>
    rw [trimStart_cons (by decide)] <;> exact quoted_append hvalue rest

theorem attributeValue_bare {blanks : List Char} (hblanks : AllBlank blanks) (hvalue : SpellsBare value)
    (hrest : ∀ c ∈ rest.head?, isBlank c = true) :
    attributeValue (blanks ++ (value ++ rest)) = some (value, rest) := by
  obtain ⟨hne, hplain, hdouble, hsingle⟩ := hvalue
  have hinside : ∀ c ∈ value, (!isBlank c) = true := fun c hc => by simp [hplain c hc]
  have houtside : ∀ c ∈ rest.head?, (!isBlank c) = false := fun c hc => by simp [hrest c hc]
  obtain ⟨htake, hdrop⟩ := span_append hinside houtside
  rw [attributeValue, trimStart_append hblanks]
  cases value with
  | nil => exact absurd rfl hne
  | cons c value =>
    rw [List.cons_append, trimStart_cons (hplain c List.mem_cons_self), ← List.cons_append]
    split
    · rename_i heq
      exact absurd (congrArg some (List.cons.inj heq).1) hdouble
    · rename_i heq
      exact absurd (congrArg some (List.cons.inj heq).1) hsingle
    · rw [htake, hdrop]

/-- An attribute with a value is read whole. -/
theorem attributes_of_value {before after tail : List Char} (hkey : SpellsKey key)
    (hbefore : AllBlank before) (hvalue : attributeValue after = some (value, tail)) :
    attributes (key ++ (before ++ '=' :: after)) = (key, some value) :: attributes tail := by
  have hhead : ∀ c ∈ (before ++ '=' :: after).head?, inKey c = false := by
    cases before with
    | nil => simp [inKey]
    | cons b before =>
      intro c hc
      exact inKey_of_blank (hbefore c (by simp_all))
  obtain ⟨htake, hdrop⟩ := span_append hkey.inKey hhead
  obtain ⟨c, t, hcons, hblank, -⟩ := hkey.exists_cons (before ++ '=' :: after)
  have htrim : trimStart (key ++ (before ++ '=' :: after)) = key ++ (before ++ '=' :: after) := by
    rw [hcons, trimStart_cons hblank]
  have heq : trimStart (before ++ '=' :: after) = '=' :: after := by
    rw [trimStart_append hbefore, trimStart_cons (by decide)]
  rw [attributes_valued (by rw [htrim, hcons]; exact List.cons_ne_nil c t) (by rw [htrim, hdrop, heq]) hvalue,
    htrim, htake]

/-- The first of some attributes is read whole. -/
theorem attributes_of_spells {a : Attribute} {as : List Attribute} (ha : Spells a s)
    (hrest : SpellsAll as rest) (hblank : ∀ c ∈ rest.head?, isBlank c = true) :
    attributes (s ++ rest) = a :: attributes rest := by
  cases ha with
  | valueless hkey =>
    obtain ⟨htake, hdrop⟩ := span_append hkey.inKey fun c hc => inKey_of_blank (hblank c hc)
    have htrim := (Spells.valueless hkey).trimStart_append rest
    obtain ⟨c, t, hcons, -⟩ := hkey.exists_cons rest
    rw [attributes_valueless (by rw [htrim, hcons]; exact List.cons_ne_nil c t)
      (by rw [htrim, hdrop]; exact hrest.no_equals), htrim, htake, hdrop, attributes_trimStart]
  | quoted hkey hbefore hafter hmark hvalue =>
    have h := attributes_of_value hkey hbefore (attributeValue_quoted hafter hmark hvalue rest)
    simpa only [List.append_assoc, List.cons_append, List.nil_append] using h
  | bare hkey hbefore hafter hvalue =>
    have h := attributes_of_value hkey hbefore (attributeValue_bare hafter hvalue hblank)
    simpa only [List.append_assoc, List.cons_append, List.nil_append] using h

/-- A list of attributes is read whole. -/
theorem SpellsAll.attributes_eq {as : List Attribute} (h : SpellsAll as s) : attributes s = as := by
  induction h with
  | nil hblanks => exact attributes_exhausted (trimStart_of_allBlank hblanks)
  | cons hblanks ha hrest hblank ih =>
    rw [← attributes_trimStart, List.append_assoc, Doc.trimStart_append hblanks, attributes_trimStart,
      attributes_of_spells ha hrest hblank, ih]

end

/-! ## Parameter tags -/

/-- The attributes of a tag stand between its name and its end. -/
theorem tagAttributes_tag {s : List Char} (h : '>' ∉ s) :
    tagAttributes ("// <param ".toList ++ s ++ ['>']) = ' ' :: s := by
  have hafter : after? "<param".toList ("// <param ".toList ++ s ++ ['>']) = some (' ' :: s ++ ['>']) := rfl
  have hlast : ∀ c ∈ (' ' :: s).reverse.head?, (c == '>') = false := by
    intro c hc
    rw [List.head?_reverse] at hc
    have hmem : c ∈ ' ' :: s := List.mem_of_getLast? hc
    rcases List.mem_cons.mp hmem with rfl | hmem
    · decide
    · exact beq_eq_false_iff_ne.mpr fun heq => h (heq ▸ hmem)
  obtain ⟨-, hdrop⟩ := span_append (p := (· == '>')) (s := ['>']) (by simp) hlast
  rw [tagAttributes, hafter]
  change ((' ' :: s ++ ['>']).reverse.dropWhile (· == '>')).reverse = _
  rw [List.reverse_append, List.reverse_singleton, hdrop, List.reverse_reverse]

theorem SpellsAll.blank_cons {as : List Attribute} {s : List Char} (h : SpellsAll as s) :
    SpellsAll as (' ' :: s) := by
  have hspace {blanks : List Char} (h : AllBlank blanks) : AllBlank (' ' :: blanks) := by
    intro c hc
    rcases List.mem_cons.mp hc with rfl | hc
    · decide
    · exact h c hc
  cases h with
  | nil hblanks => exact .nil (hspace hblanks)
  | cons hblanks ha hrest hblank => exact .cons (hspace hblanks) ha hrest hblank

/-- The value of the first attribute of a name that has one. -/
theorem valueOf_eq_some {name : String} {before after : List Attribute} {key value : List Char}
    (hkey : IsKey key name) (hbefore : ∀ a ∈ before, a.2 ≠ none → ¬IsKey a.1 name) :
    valueOf name (before ++ (key, some value) :: after) = some (String.ofList value) := by
  induction before with
  | nil => exact valueOf_found value after hkey
  | cons a before ih =>
    have hrest := ih fun b hb => hbefore b (List.mem_cons_of_mem a hb)
    obtain ⟨other, _ | text⟩ := a
    · rw [List.cons_append, valueOf_valueless, hrest]
    · have hother := hbefore (other, some text) List.mem_cons_self (Option.some_ne_none text)
      rw [List.cons_append, valueOf_passed _ _ hother, hrest]

theorem valueOf_eq_none {name : String} {as : List Attribute}
    (h : ∀ a ∈ as, a.2 ≠ none → ¬IsKey a.1 name) : valueOf name as = none := by
  induction as with
  | nil => rfl
  | cons a as ih =>
    have hrest := ih fun b hb => h b (List.mem_cons_of_mem a hb)
    obtain ⟨other, _ | text⟩ := a
    · rw [valueOf_valueless, hrest]
    · have hother := h (other, some text) List.mem_cons_self (Option.some_ne_none text)
      rw [valueOf_passed _ _ hother, hrest]

theorem addParam_tag {as : List Attribute} {s : List Char} (hs : SpellsAll as s) (hno : '>' ∉ s)
    (doc : Doc) (content : String) (span : Span) :
    doc.addParam (String.ofList ("// <param ".toList ++ s ++ ['>'])) content span =
      match valueOf "name" as with
      | none => doc
      | some name => { doc with params := doc.params ++ [⟨name, clean content, span⟩] } := by
  have hname : attribute? (tagAttributes ("// <param ".toList ++ s ++ ['>'])) "name" = valueOf "name" as := by
    rw [tagAttributes_tag hno, attribute?_eq, hs.blank_cons.attributes_eq]
  cases hvalue : valueOf "name" as with
  | none => simp only [addParam, String.toList_ofList, hname, hvalue]
  | some name => simp only [addParam, String.toList_ofList, hname, hvalue]

/-- **Attribute lists are read whole.**  Looking up an attribute comes to an end on every text.  A
parameter tag in which a list of attributes is written adds one entry, whose name is the value of the first
attribute `name` that has one, and leaves everything else as it was; without such an attribute it adds
nothing. -/
theorem attributes_read_whole {as : List Attribute} {s : List Char} (hs : SpellsAll as s) (hno : '>' ∉ s)
    (doc : Doc) (content : String) (span : Span) :
    (∀ name text result, LooksUp name text result ↔ result = attribute? text name) ∧
    (∀ before key value after, as = before ++ (key, some value) :: after → IsKey key "name" →
      (∀ a ∈ before, a.2 ≠ none → ¬IsKey a.1 "name") →
      doc.addParam (String.ofList ("// <param ".toList ++ s ++ ['>'])) content span =
        { doc with params := doc.params ++ [⟨String.ofList value, clean content, span⟩] }) ∧
    ((∀ a ∈ as, a.2 ≠ none → ¬IsKey a.1 "name") →
      doc.addParam (String.ofList ("// <param ".toList ++ s ++ ['>'])) content span = doc) := by
  refine ⟨fun _ _ _ => looksUp_iff, ?_, ?_⟩
  · rintro before key value after rfl hkey hbefore
    rw [addParam_tag hs hno, valueOf_eq_some hkey hbefore]
  · intro hnone
    rw [addParam_tag hs hno, valueOf_eq_none hnone]

theorem spellsKey_of_all {key : List Char} (hne : key ≠ []) (h : key.all inKey = true) : SpellsKey key := by
  refine ⟨hne, fun c hc => ?_⟩
  have hc := List.all_eq_true.mp h c hc
  simpa [inKey, and_comm] using hc

/-- Of the attributes `Name`, `x = 'name=b'` and `NAME="a"` the last one names the parameter. -/
theorem attributes_read_whole_lookalikes :
    SpellsAll [(['N', 'a', 'm', 'e'], none), (['x'], some ['n', 'a', 'm', 'e', '=', 'b']),
      (['N', 'A', 'M', 'E'], some ['a'])]
      (['N', 'a', 'm', 'e', ' '] ++ ['x', ' ', '=', ' ', '\'', 'n', 'a', 'm', 'e', '=', 'b', '\''] ++
        [' ', 'N', 'A', 'M', 'E', '=', '"', 'a', '"']) ∧
    addParam {} "// <param Name x = 'name=b' NAME=\"a\">" " First. " ⟨3, 35⟩ =
      { params := [⟨"a", clean " First. ", ⟨3, 35⟩⟩] } := by
  have hone : AllBlank [' '] := by
    intro c hc
    rw [List.mem_singleton.mp hc]
    decide
  have hnone : AllBlank [] := fun c hc => nomatch hc
  have hlower : SpellsKey ['N', 'a', 'm', 'e'] := spellsKey_of_all (by decide) (by decide)
  have hx : SpellsKey ['x'] := spellsKey_of_all (by decide) (by decide)
  have hupper : SpellsKey ['N', 'A', 'M', 'E'] := spellsKey_of_all (by decide) (by decide)
  have hfirst := Spells.valueless hlower
  have hsecond : Spells (['x'], some ['n', 'a', 'm', 'e', '=', 'b']) _ :=
    Spells.quoted hx hone hone (.inr rfl) (by decide)
  have hthird : Spells (['N', 'A', 'M', 'E'], some ['a']) _ :=
    Spells.quoted hupper hnone hnone (.inl rfl) (by decide)
  have hspace (rest : List Char) : ∀ c ∈ (' ' :: rest).head?, isBlank c = true := by
    intro c hc
    cases hc
    decide
  have hs := SpellsAll.cons hnone hfirst
    (.cons hone hsecond (.cons hone hthird (.nil hnone) (by simp)) (hspace _)) (hspace _)
  refine ⟨hs, ?_⟩
  refine (attributes_read_whole hs (by decide) {} " First. " ⟨3, 35⟩).2.1
    [(['N', 'a', 'm', 'e'], none), (['x'], some ['n', 'a', 'm', 'e', '=', 'b'])] ['N', 'A', 'M', 'E'] ['a'] []
    rfl ?_ ?_
  · rw [IsKey, ← sameName_iff]
    decide
  · intro a ha hvalue
    rw [IsKey, ← sameName_iff]
    rcases List.mem_pair.mp ha with rfl | rfl
    · exact absurd rfl hvalue
    · decide

end Cicode.Program.Doc
