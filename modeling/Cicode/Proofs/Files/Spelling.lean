import Mathlib
import Cicode.Files.Workspace

/-!
# The spelling that paths share

A workspace takes two paths for the same file if they share their spelling.  This is right on a disk
where files with the same spelling have the same content (`Coherent`), and the directories of a
`FileStore` are such a disk: no name in a path has a slash in it, so that the spelling of a place tells
the place (`coherent_locate`).
-/

namespace Cicode.Files

/-- Paths that share their spelling find the same content. -/
def Coherent (disk : Disk) : Prop :=
  ∀ path other found found', disk path = .ok found → disk other = .ok found' →
    found.path = found'.path → found.content = found'.content

/-- What a separator splits does not hold it. -/
theorem not_mem_of_mem_splitOn {α : Type} [BEq α] [LawfulBEq α] {x : α} {xs part : List α}
    (h : part ∈ xs.splitOn x) : x ∉ part := by
  induction xs generalizing part with
  | nil =>
    rw [List.splitOn_nil, List.mem_singleton] at h
    simp [h]
  | cons y ys ih =>
    rw [List.splitOn_cons_eq_if_modifyHead] at h
    split at h
    · rcases List.mem_cons.mp h with rfl | h
      · exact List.not_mem_nil
      · exact ih h
    · rename_i hy
      cases hs : ys.splitOn x with
      | nil => exact absurd hs (List.splitOn_ne_nil _ _)
      | cons first rest =>
        rw [hs, List.modifyHead_cons] at h
        have hparts : ∀ part ∈ first :: rest, x ∉ part := fun part hmem => ih (hs ▸ hmem)
        rcases List.mem_cons.mp h with rfl | h
        · rw [List.mem_cons, not_or]
          refine ⟨fun heq => hy ?_, hparts first List.mem_cons_self⟩
          rw [heq, beq_self_eq_true]
        · exact hparts part (List.mem_cons_of_mem _ h)

namespace FileStore

/-- No name has a slash in it. -/
def Plain (place : List String) : Prop := ∀ name ∈ place, '/' ∉ name.toList

variable {store : FileStore} {place found : Place}

theorem plain_names (path : String) : Plain (names path) := by
  intro name hname
  obtain ⟨part, hpart, rfl⟩ := List.mem_map.mp hname
  rw [String.toList_ofList]
  exact not_mem_of_mem_splitOn hpart

/-- The names of the place that is found are names of the path. -/
theorem plain_follow {path : List String} (h : store.follow place path = .ok found)
    (hplace : Plain place) (hpath : Plain path) : Plain found := by
  induction path generalizing place with
  | nil =>
    cases h
    exact hplace
  | cons name rest ih =>
    obtain ⟨hname, hrest⟩ := List.forall_mem_cons.mp hpath
    rw [follow] at h
    split at h
    · cases h
    · cases h
    · split at h
      · exact ih h hplace hrest
      · split at h
        · exact ih h (fun inner hin => hplace inner (List.mem_of_mem_tail hin)) hrest
        · split at h
          · exact ih h (List.forall_mem_cons.mpr ⟨hname, hplace⟩) hrest
          · cases h

/-- Names without slashes are known from their spelling. -/
theorem spelled_injective {first second : List String} (hfirst : Plain first) (hsecond : Plain second)
    (hne : first ≠ []) (hne' : second ≠ [])
    (h : String.intercalate "/" first = String.intercalate "/" second) : first = second := by
  have hsplit : ∀ {names : List String}, Plain names → names ≠ [] →
      (String.intercalate "/" names).toList.splitOn '/' = names.map String.toList := by
    intro names hplain hnames
    rw [String.toList_intercalate]
    refine List.splitOn_intercalate '/' ?_ (by simpa using hnames)
    simpa [Plain] using hplain
  have hlists : first.map String.toList = second.map String.toList := by
    rw [← hsplit hfirst hne, ← hsplit hsecond hne', h]
  exact List.map_injective_iff.mpr (fun _ _ => String.toList_inj.mp) hlists

/-- The spelling of a place tells the place. -/
theorem spell_injective {place other : Place} (hplace : Plain place) (hother : Plain other)
    (h : store.spell place = store.spell other) : place = other := by
  have hreverse : ∀ {place : Place}, Plain place → Plain place.reverse :=
    fun hplain name hname => hplain name (List.mem_reverse.mp hname)
  have hspell : ∀ {place : Place}, place ≠ [] →
      (store.spell place).toList = store.root.toList ++ '/' :: (String.intercalate "/" place.reverse).toList := by
    intro place hne
    rw [spell, String.intercalate_cons_of_ne_nil (by simpa using hne)]
    simp
  have hroot : store.spell [] = store.root := String.intercalate_singleton
  by_cases hp : place = [] <;> by_cases ho : other = []
  · rw [hp, ho]
  · have hlength := congrArg String.toList h
    rw [hp, hroot, hspell ho, List.self_eq_append_right] at hlength
    cases hlength
  · have hlength := congrArg String.toList h
    rw [ho, hroot, hspell hp, List.append_right_eq_self] at hlength
    cases hlength
  · have hnames := congrArg String.toList h
    rw [hspell hp, hspell ho] at hnames
    have hsame := (List.cons.inj (List.append_cancel_left hnames)).2
    refine List.reverse_injective ?_
    exact spelled_injective (hreverse hplace) (hreverse hother) (by simpa using hp) (by simpa using ho)
      (String.toList_inj.mp hsame)

theorem locate_ok {path : String} {entry : Found} (h : store.locate path = .ok entry) :
    ∃ place, Plain place ∧ entry.path = store.spell place ∧
      entry.content = match store.entry? place with
        | some (.file content) => .ok content
        | some .directory => .error .isDirectory
        | none => .error .notFound := by
  rw [locate] at h
  cases hfollow : store.follow [] (names path) with
  | error error =>
    rw [hfollow] at h
    cases h
  | ok place =>
    rw [hfollow] at h
    cases h
    exact ⟨place, plain_follow hfollow (by simp [Plain]) (plain_names path), rfl, rfl⟩

/-- **In a store, paths that share their spelling find the same content.** -/
theorem coherent_locate (store : FileStore) : Coherent store.locate := by
  intro _ _ found found' h h' hpath
  obtain ⟨place, hplain, hspell, hcontent⟩ := locate_ok h
  obtain ⟨place', hplain', hspell', hcontent'⟩ := locate_ok h'
  obtain rfl := spell_injective hplain hplain' (hspell.symm.trans (hpath.trans hspell'))
  rw [hcontent, hcontent']

end FileStore

end Cicode.Files
