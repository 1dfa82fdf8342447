import Mathlib

/-!
# What a list tells

An *address* is a row of numbers, and addresses are ordered as words in a dictionary are: the address
of a part begins with that of the whole, and comes after it.

A list *tells* a relation between addresses and things (`Tells`) if it holds what the relation has at
the addresses, in their order and once for each of them.  There is only one such list, so that this
says everything about it: what is in it, how often and in which order.  The lemmas say which relation a
list tells that is built from others (`Tells.append`, `Tells.filterMap`), or that goes over another list
and looks at what came before (`Tells.passed`).
-/

namespace Cicode.Program

/-- A place in something, as the row of the numbers of its parts that lead there. -/
abbrev Address := List Nat

/-- What stands in an earlier part comes first. -/
theorem Address.cons_lt_cons {m n : Nat} (h : m < n) (p q : Address) : m :: p < n :: q :=
  List.cons_lt_cons_iff.mpr (.inl h)

/-- The list holds what the relation has at its addresses, in their order. -/
def Tells {α : Type} (due : Address → α → Prop) (list : List α) : Prop :=
  ∃ placed : List (Address × α), placed.Pairwise (fun a b => a.1 < b.1) ∧
    (∀ p a, (p, a) ∈ placed ↔ due p a) ∧ list = placed.map (·.2)

namespace Tells

variable {α β : Type} {due due' : Address → α → Prop} {list list' : List α}

/-- A relation tells which things are in the list. -/
theorem mem_iff (h : Tells due list) {a : α} : a ∈ list ↔ ∃ p, due p a := by
  obtain ⟨placed, -, hmem, rfl⟩ := h
  simp only [List.mem_map, Prod.exists, exists_eq_right, hmem]

theorem congr (h : Tells due list) (hdue : ∀ p a, due p a ↔ due' p a) : Tells due' list := by
  obtain ⟨placed, hsorted, hmem, rfl⟩ := h
  exact ⟨placed, hsorted, fun p a => (hmem p a).trans (hdue p a), rfl⟩

/-- **There is only one list that tells a relation.** -/
theorem unique (h : Tells due list) (h' : Tells due list') : list = list' := by
  obtain ⟨placed, hsorted, hmem, rfl⟩ := h
  obtain ⟨placed', hsorted', hmem', rfl⟩ := h'
  have : Std.Irrefl fun a b : Address × α => a.1 < b.1 := ⟨fun a => List.lt_irrefl a.1⟩
  have : Std.Antisymm fun a b : Address × α => a.1 < b.1 := ⟨fun _ _ hab hba => absurd hba (lt_asymm hab)⟩
  rw [hsorted.eq_of_mem_iff hsorted' fun x => (hmem _ _).trans (hmem' _ _).symm]

/-- Where nothing is due the list is empty. -/
theorem nil (h : ∀ p a, ¬due p a) : Tells due [] :=
  ⟨[], .nil, fun p a => iff_of_false List.not_mem_nil (h p a), rfl⟩

/-- A list of a single thing, which stands at the address of the whole. -/
theorem one (a : α) : Tells (fun p b => p = [] ∧ b = a) [a] :=
  ⟨[([], a)], List.pairwise_singleton .., fun p b => by simp, rfl⟩

/-- A list that holds something under a condition. -/
theorem guarded {c : Prop} [Decidable c] (a : α) :
    Tells (fun p b => p = [] ∧ b = a ∧ c) (if c then [a] else []) := by
  by_cases hc : c
  · rw [if_pos hc]
    exact (one a).congr fun p b => by simp [hc]
  · rw [if_neg hc]
    exact nil fun p b h => hc h.2.2

/-- One list after another tells both relations if all addresses of the first come before those of the
second. -/
theorem append (h : Tells due list) (h' : Tells due' list')
    (hlt : ∀ p a q b, due p a → due' q b → p < q) :
    Tells (fun p a => due p a ∨ due' p a) (list ++ list') := by
  obtain ⟨placed, hsorted, hmem, rfl⟩ := h
  obtain ⟨placed', hsorted', hmem', rfl⟩ := h'
  refine ⟨placed ++ placed', ?_, fun p a => ?_, by simp⟩
  · refine List.pairwise_append.mpr ⟨hsorted, hsorted', ?_⟩
    rintro ⟨p, a⟩ hpa ⟨q, b⟩ hqb
    exact hlt p a q b ((hmem p a).mp hpa) ((hmem' q b).mp hqb)
  · rw [List.mem_append, hmem, hmem']

/-- The addresses may be changed if they keep their order. -/
theorem moved (h : Tells due list) {g : Address → Address} (hg : ∀ p q, p < q → g p < g q) :
    Tells (fun p a => ∃ q, p = g q ∧ due q a) list := by
  obtain ⟨placed, hsorted, hmem, rfl⟩ := h
  refine ⟨placed.map fun x => (g x.1, x.2), ?_, fun p a => ?_, by simp⟩
  · exact List.pairwise_map.mpr (hsorted.imp fun hab => hg _ _ hab)
  · simp only [List.mem_map, Prod.mk.injEq, Prod.exists, hmem]
    constructor
    · rintro ⟨q, b, hdue, rfl, rfl⟩
      exact ⟨q, rfl, hdue⟩
    · rintro ⟨q, rfl, hdue⟩
      exact ⟨q, a, hdue, rfl, rfl⟩

/-- The list of a part of something. -/
theorem under (h : Tells due list) (number : Nat) :
    Tells (fun p a => ∃ q, p = number :: q ∧ due q a) list :=
  h.moved fun _ _ hlt => List.cons_lt_cons_iff.mpr (.inr ⟨rfl, hlt⟩)

/-- What is made of the things in a list, at their addresses. -/
theorem filterMap (h : Tells due list) (f : α → Option β) :
    Tells (fun p b => ∃ a, due p a ∧ f a = some b) (list.filterMap f) := by
  obtain ⟨placed, hsorted, hmem, rfl⟩ := h
  refine ⟨placed.filterMap fun x => (f x.2).map fun b => (x.1, b), ?_, fun p b => ?_, ?_⟩
  · refine List.pairwise_filterMap.mpr (hsorted.imp fun {x y} hxy c hc d hd => ?_)
    obtain ⟨-, -, rfl⟩ := Option.map_eq_some_iff.mp hc
    obtain ⟨-, -, rfl⟩ := Option.map_eq_some_iff.mp hd
    exact hxy
  · simp only [List.mem_filterMap, Prod.exists, Option.map_eq_some_iff, Prod.mk.injEq, hmem]
    constructor
    · rintro ⟨q, a, hdue, c, hc, rfl, rfl⟩
      exact ⟨a, hdue, hc⟩
    · rintro ⟨a, hdue, hb⟩
      exact ⟨p, a, hdue, b, hb, rfl, rfl⟩
  · rw [List.map_filterMap, List.filterMap_map]
    refine List.filterMap_congr fun x _ => ?_
    cases hf : f x.2 <;> simp [hf]

theorem map (h : Tells due list) (f : α → β) :
    Tells (fun p b => ∃ a, due p a ∧ b = f a) (list.map f) := by
  rw [← List.filterMap_eq_map]
  exact (h.filterMap (some ∘ f)).congr fun p b => by simp [eq_comm]

end Tells

/-! ## Going over a list -/

/-- The same address in a list with one more member at the beginning. -/
def further : Address → Address
  | [] => []
  | number :: inside => (number + 1) :: inside

theorem further_lt {p q : Address} (h : p < q) : further p < further q := by
  cases q with
  | nil => exact absurd h (List.not_lt_nil p)
  | cons n q =>
    cases p with
    | nil => exact List.nil_lt_cons ..
    | cons m p =>
      rcases List.cons_lt_cons_iff.mp h with hlt | ⟨rfl, hlt⟩
      · exact Address.cons_lt_cons (Nat.succ_lt_succ hlt) ..
      · exact List.cons_lt_cons_iff.mpr (.inr ⟨rfl, hlt⟩)

/-- What is said of a member of a list, which may depend on those before it. -/
def AtMember {α β : Type} (due : List α → α → Address → β → Prop) (list : List α) (p : Address)
    (b : β) : Prop :=
  ∃ pre a post q, list = pre ++ a :: post ∧ p = pre.length :: q ∧ due pre a q b

section

variable {α β : Type} {due : List α → α → Address → β → Prop} {a : α} {list : List α}

theorem atMember_nil {p : Address} {b : β} : ¬AtMember due [] p b := by
  rintro ⟨pre, a, post, -, h, -⟩
  simp at h

/-- Something is said of the first member, or of a later one. -/
theorem atMember_cons {p : Address} {b : β} : AtMember due (a :: list) p b ↔
    (∃ q, p = 0 :: q ∧ due [] a q b) ∨
      ∃ q, p = further q ∧ AtMember (fun pre => due (a :: pre)) list q b := by
  constructor
  · rintro ⟨pre, c, post, q, hlist, rfl, hdue⟩
    cases pre with
    | nil =>
      obtain ⟨rfl, -⟩ := List.cons.inj hlist
      exact .inl ⟨q, rfl, hdue⟩
    | cons d pre =>
      obtain ⟨rfl, rfl⟩ := List.cons.inj hlist
      exact .inr ⟨pre.length :: q, rfl, pre, c, post, q, rfl, rfl, hdue⟩
  · rintro (⟨q, rfl, hdue⟩ | ⟨-, rfl, pre, c, post, q, rfl, rfl, hdue⟩)
    · exact ⟨[], a, list, q, rfl, rfl, hdue⟩
    · exact ⟨a :: pre, c, post, q, rfl, rfl, hdue⟩

/-- What is said of the first member comes before what is said of the others. -/
theorem Tells.member_cons {first rest : List β} (h : Tells (due [] a) first)
    (h' : Tells (AtMember (fun pre => due (a :: pre)) list) rest) :
    Tells (AtMember due (a :: list)) (first ++ rest) := by
  refine ((h.under 0).append (h'.moved fun _ _ => further_lt) ?_).congr fun p b => atMember_cons.symm
  rintro _ _ _ _ ⟨p, rfl, -⟩ ⟨-, rfl, pre, c, post, q, -, rfl, -⟩
  exact Address.cons_lt_cons (Nat.succ_pos _) ..

/-- What is said of the members of a list one after the other, with those before at hand. -/
def passing (say : List α → α → List β) : List α → List α → List β
  | _, [] => []
  | before, a :: rest => say before a ++ passing say (before ++ [a]) rest

theorem passing_append (say : List α → α → List β) (before list list' : List α) :
    passing say before (list ++ list') = passing say before list ++ passing say (before ++ list) list' := by
  induction list generalizing before with
  | nil => rw [List.nil_append, List.append_nil, passing, List.nil_append]
  | cons a list ih =>
    rw [List.cons_append, passing, passing, ih, List.append_assoc, List.append_assoc, List.singleton_append]

/-- **Going over a list**, what is said of each member comes in the order of the members. -/
theorem Tells.passed {say : List α → α → List β} (h : ∀ pre a, Tells (due pre a) (say pre a))
    (before list : List α) :
    Tells (AtMember (fun pre => due (before ++ pre)) list) (passing say before list) := by
  induction list generalizing before with
  | nil => exact .nil fun _ _ => atMember_nil
  | cons a rest ih =>
    refine .member_cons (by simpa using h before a) ?_
    simpa using ih (before ++ [a])

/-- To filter a list is to go over it. -/
theorem passing_eq_filter (c : α → Bool) (before list : List α) :
    passing (fun _ a => if c a then [a] else []) before list = list.filter c := by
  induction list generalizing before with
  | nil => rfl
  | cons a rest ih =>
    rw [passing, ih, List.filter_cons]
    by_cases h : c a = true
    · rw [if_pos h, if_pos h, List.singleton_append]
    · rw [if_neg h, if_neg h, List.nil_append]

theorem passing_eq_flatMap (say : α → List β) (before list : List α) :
    passing (fun _ => say) before list = list.flatMap say := by
  induction list generalizing before with
  | nil => rfl
  | cons a rest ih => rw [passing, ih, List.flatMap_cons]

end

end Cicode.Program
