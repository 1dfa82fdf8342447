import Cicode.Proofs.Tree.Shapes

/-!
# The one child of a kind

Some symbols occur only once in all that a rule matches (`Rule.once`), so that a node without repairs has
one child of that kind at most (`Portrayed.unique`).  Where the symbols of a rule say the fields, the node
that a field refers to is known by its kind (`Portrayed.child?_spec`), and it is there if the rule needs its
symbol (`Portrayed.exists_child?`).
-/

namespace Cicode.Grammar.Rule

/-- Whether a symbol occurs at most once in what a rule matches. -/
def once (s : Symbol) : Rule → Bool
  | .never | .empty | .symbol _ => true
  | .seq a b => a.once s && !b.symbols.contains s || !a.symbols.contains s && b.once s
  | .choice a b => a.once s && b.once s
  | .many _ r => !r.symbols.contains s

theorem count_eq_zero {r : Rule} {s : Symbol} {xs : List Symbol} (hm : r.Matches xs)
    (h : r.symbols.contains s = false) : xs.count s = 0 := by
  refine List.count_eq_zero.mpr fun hs => ?_
  rw [List.contains_iff_mem.mpr (mem_symbols_of_matches hm _ hs)] at h
  cases h

theorem count_le_one {r : Rule} {s : Symbol} {xs : List Symbol} (hm : r.Matches xs)
    (h : r.once s = true) : xs.count s ≤ 1 := by
  induction hm with
  | empty => simp
  | symbol x => exact List.count_le_length
  | @seq a b xs ys ha hb iha ihb =>
    simp only [once, Bool.or_eq_true, Bool.and_eq_true, Bool.not_eq_true'] at h
    rw [List.count_append]
    rcases h with ⟨h1, h2⟩ | ⟨h1, h2⟩
    · rw [count_eq_zero hb h2]
      exact iha h1
    · rw [count_eq_zero ha h1, Nat.zero_add]
      exact ihb h2
  | first _ ih =>
    rw [once, Bool.and_eq_true] at h
    exact ih h.1
  | second _ ih =>
    rw [once, Bool.and_eq_true] at h
    exact ih h.2
  | done => simp
  | @more hidden r xs ys hr hrest _ ih =>
    have hzero : r.symbols.contains s = false := by simpa [once] using h
    rw [List.count_append, count_eq_zero hr hzero, Nat.zero_add]
    exact ih h

end Cicode.Grammar.Rule

namespace Cicode.Tree.Portrayed

open Grammar Text Cicode.Lex

variable {source : Source} {node : Node}

/-- **A node has one child of a kind** that its rule has only once. -/
theorem unique (h : Portrayed source node) {kind : Symbol} (honce : (rowRule node.kind).once kind = true)
    {a b : Node} (ha : a ∈ node.code) (hb : b ∈ node.code) (hka : a.kind = kind) (hkb : b.kind = kind) :
    a = b := by
  have hcount := Rule.count_le_one h.row_matches honce
  rw [Node.row, List.count_eq_countP, List.countP_map, List.countP_eq_length_filter] at hcount
  have hmem : ∀ {n : Node}, n ∈ node.code → n.kind = kind →
      n ∈ node.code.filter ((· == kind) ∘ Node.kind) :=
    fun hn hk => List.mem_filter.mpr ⟨hn, by simp [hk]⟩
  have hma := hmem ha hka
  have hmb := hmem hb hkb
  generalize node.code.filter ((· == kind) ∘ Node.kind) = found at hcount hma hmb
  obtain _ | ⟨x, _ | ⟨y, rest⟩⟩ := found
  · cases hma
  · rw [List.mem_singleton.mp hma, List.mem_singleton.mp hmb]
  · simp at hcount

/-- The one child of a kind is the first one. -/
theorem find?_eq (h : Portrayed source node) (kind : Symbol) (hnamed : kind.isNamed = true)
    (honce : (rowRule node.kind).once kind = true) {child : Node} (hchild : child ∈ node.code)
    (hk : child.kind = kind) : node.significant.find? (·.kind == kind) = some child := by
  have hsignificant : child ∈ node.significant := by
    rw [Node.significant_eq]
    exact List.mem_filter.mpr ⟨hchild, by rw [Node.isNamed, hk, hnamed]⟩
  cases hfind : node.significant.find? (·.kind == kind) with
  | none =>
    rw [List.find?_eq_none] at hfind
    exact absurd (beq_iff_eq.mpr hk) (hfind child hsignificant)
  | some found =>
    have hkind : found.kind = kind := by simpa using List.find?_some hfind
    have hfound := List.mem_of_find?_eq_some hfind
    rw [Node.significant_eq] at hfound
    rw [h.unique honce (List.mem_of_mem_filter hfound) hchild hkind hk]

/-! ## Fields -/

/-- Whether a field of a kind is that of a single symbol: all symbols of the rule are shown, and no other
symbol has the field or is shown in the same way. -/
def isFieldOf (kind symbol : Symbol) (field : Field) : Bool :=
  match rule kind with
  | some r => sources kind == [kind] && labelOf kind symbol == some field && r.symbols.all fun x =>
      showsIn kind x && (x == symbol || labelOf kind x != some field && kindIn kind x != kindIn kind symbol)
  | none => false

/-- The field of a child and its kind say the same. -/
theorem field_iff (h : Portrayed source node) {symbol : Symbol} {field : Field}
    (hf : isFieldOf node.kind symbol field = true) {child : Node} (hchild : child ∈ node.code) :
    child.label.field = some field ↔ child.kind = kindIn node.kind symbol := by
  rw [isFieldOf] at hf
  split at hf
  · rename_i r hr
    simp only [Bool.and_eq_true, beq_iff_eq, List.all_eq_true, Bool.or_eq_true, bne_iff_ne] at hf
    obtain ⟨⟨hsources, hlabel⟩, hall⟩ := hf
    obtain ⟨x, hx, hk, hlx⟩ := h.field_eq hr hsources (fun x hx => (hall x hx).1) hchild
    rw [hk, hlx]
    rcases (hall x hx).2 with rfl | ⟨hfield, hkind⟩
    · exact ⟨fun _ => rfl, fun _ => hlabel⟩
    · exact ⟨fun heq => absurd heq hfield, fun heq => absurd heq hkind⟩
  · cases hf

/-- The node that a field refers to. -/
theorem child?_spec (h : Portrayed source node) (symbol : Symbol) {field : Field}
    (hf : isFieldOf node.kind symbol field = true) {child : Node} (hchild : node.child? field = some child) :
    child ∈ node.code ∧ child.kind = kindIn node.kind symbol := by
  have hmem : child ∈ node.children := List.mem_of_find?_eq_some hchild
  have hlabel : child.label.field = some field := by simpa using List.find?_some hchild
  have hcode : child ∈ node.code := by
    refine List.mem_filter.mpr ⟨hmem, ?_⟩
    by_contra hc
    rw [h.tidy.field child hmem (by simpa using hc)] at hlabel
    cases hlabel
  exact ⟨hcode, (h.field_iff hf hcode).mp hlabel⟩

/-- The node that a field refers to is there if there is one of its kind. -/
theorem child?_isSome (h : Portrayed source node) {symbol : Symbol} {field : Field}
    (hf : isFieldOf node.kind symbol field = true) {other : Node} (hother : other ∈ node.code)
    (hk : other.kind = kindIn node.kind symbol) : ∃ child, node.child? field = some child := by
  have hlabel := (h.field_iff hf hother).mpr hk
  cases hfind : node.child? field with
  | none =>
    rw [Node.child?, List.find?_eq_none] at hfind
    exact absurd (beq_iff_eq.mpr hlabel) (hfind other (List.mem_of_mem_filter hother))
  | some child => exact ⟨child, rfl⟩

/-- The node that a field refers to is there if it is needed. -/
theorem exists_child? (h : Portrayed source node) (symbol : Symbol) (field : Field)
    (hf : isFieldOf node.kind symbol field = true)
    (hneeds : (rowRule node.kind).needs (kindIn node.kind symbol) = true) :
    ∃ child, node.child? field = some child ∧ child.kind = kindIn node.kind symbol ∧
      Portrayed source child := by
  obtain ⟨other, hother, hk⟩ := h.exists_child _ hneeds
  obtain ⟨child, hchild⟩ := h.child?_isSome hf hother hk
  obtain ⟨hcode, hkc⟩ := h.child?_spec symbol hf hchild
  exact ⟨child, hchild, hkc, h.child hcode⟩

end Cicode.Tree.Portrayed
