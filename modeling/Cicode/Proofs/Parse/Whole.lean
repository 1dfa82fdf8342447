import Cicode.Proofs.Parse.Reduce

/-!
# Trees of the whole text

A version that comes to the end of the text, or gives it up there, has a tree of the whole text on its
way down.  Such trees are *roots* (`IsRoot`); they take up the whole text (`lies_rootOf`), and a tree on
whose way something was paid has a price (`price_rootOf`).
-/

namespace Cicode.Parse

open Grammar Text

variable {chars : List Char}

/-- A tree of the whole text.  In a source file, text that was skipped and not wrapped up stands
beside a tree of skipped text that has its price. -/
inductive IsRoot : Subtree → Prop
  | whole {cs : List Subtree} : (∀ c ∈ cs, Grown c) →
      ((∃ c ∈ cs, c.symbol.isSkipped = true) → ∃ c ∈ cs, c.symbol = .error ∧ 0 < c.errorCost) →
      IsRoot (.ofChildren .sourceFile 0 cs)
  | gaveUp {cs : List Subtree} : (∀ c ∈ cs, Grown c) → IsRoot (.ofChildren .error 0 cs)

namespace Way

variable {limit : Nat} {upper q : StateId} {ts : List Subtree} {d : Nat}

theorem price_of_error (h : Way limit upper q ts d) {t : Subtree} (ht : t ∈ ts)
    (hs : t.symbol = .error) : 0 < t.errorCost := by
  induction h with
  | start => cases ht
  | @tree q m u ts d _ hg hj _ ih =>
    rcases List.mem_cons.mp ht with rfl | ht
    · cases hj with
      | arrow ha =>
        rw [hs] at ha
        rcases ha.tested.2.2.1 with h | h
        · cases h
        · exact absurd h (by decide)
      | stray he =>
        rcases hg.cases_extra he with h | h | ⟨-, h⟩
        · rw [hs] at h; cases h
        · rw [hs] at h; cases h
        · exact h
      | skipping hr => rw [hs] at hr; cases hr
      | gaveUp _ hcost => exact hcost
      | ending hend => rw [hs] at hend; cases hend
    · exact ih ht
  | mark _ _ ih => exact ih ht

/-- A way up from the recovery state leads past a tree of skipped text, unless it stays there. -/
theorem skipped_of_skipping (h : Way limit upper q ts d) (hu : upper ≠ 0)
    (hs : q = 0 ∨ ∃ t ∈ ts, t.symbol = .errorRepeat) :
    ∃ t ∈ ts, t.symbol = .error ∧ 0 < t.errorCost := by
  induction h with
  | start =>
    rcases hs with hs | ⟨t, ht, -⟩
    · exact absurd hs hu
    · cases ht
  | @tree q m t ts d _ hg hj _ ih =>
    have hup : m = 0 ∨ (∃ u ∈ ts, u.symbol = .errorRepeat) ∨ t.symbol = .error ∧ 0 < t.errorCost := by
      cases hj with
      | arrow ha =>
        rcases hs with hs | ⟨u, hu, hsym⟩
        · exact absurd hs ha.tested.2.1
        · rcases List.mem_cons.mp hu with rfl | hu
          · rw [hsym] at ha
            rcases ha.tested.2.2.1 with h | h
            · cases h
            · exact absurd h (by decide)
          · exact .inr (.inl ⟨u, hu, hsym⟩)
      | stray he =>
        rcases hs with hs | ⟨u, hu, hsym⟩
        · exact .inl hs
        · rcases List.mem_cons.mp hu with rfl | hu
          · rcases hg.cases_extra he with h | h | ⟨h, -⟩ <;> rw [hsym] at h <;> cases h
          · exact .inr (.inl ⟨u, hu, hsym⟩)
      | skipping => exact .inl rfl
      | gaveUp hsym hcost => exact .inr (.inr ⟨hsym, hcost⟩)
      | ending hend _ hq =>
        rcases hs with hs | ⟨u, hu, hsym⟩
        · subst hs
          rcases hq with hq | hq <;> cases hq
        · rcases List.mem_cons.mp hu with rfl | hu
          · rw [hsym] at hend
            cases hend
          · exact .inr (.inl ⟨u, hu, hsym⟩)
    rcases hup with hm | hts | ht
    · obtain ⟨u, hu, h⟩ := ih (.inl hm)
      exact ⟨u, by simp [hu], h⟩
    · obtain ⟨u, hu, h⟩ := ih (.inr hts)
      exact ⟨u, by simp [hu], h⟩
    · exact ⟨t, by simp, ht⟩
  | mark _ _ ih => exact ih (.inl rfl)

/-- Skipped text on a way has its price, and so has a tree beside it. -/
theorem skipped_of_skipped (h : Way limit upper q ts d) (hu : upper ≠ 0) {t : Subtree} (ht : t ∈ ts)
    (hs : t.symbol.isSkipped = true) : ∃ u ∈ ts, u.symbol = .error ∧ 0 < u.errorCost := by
  by_cases hr : t.symbol = .errorRepeat
  · exact h.skipped_of_skipping hu (.inr ⟨t, ht, hr⟩)
  · have herr : t.symbol = .error := by simpa [Symbol.isSkipped, hr] using hs
    exact ⟨t, ht, herr, h.price_of_error ht herr⟩

/-- Below extras a whole text is still complete. -/
theorem below_extras (h : Way limit upper q ts d) (hu : upper = 1 ∨ upper = 2)
    (hx : ∀ t ∈ ts, t.isExtra = true) : q = 1 ∨ q = 2 := by
  induction h with
  | start => exact hu
  | @tree q m t ts d _ _ hj _ ih =>
    have hm := ih fun u hu => hx u (by simp [hu])
    have ht := hx t (by simp)
    cases hj with
    | arrow _ he => rw [ht] at he; cases he
    | stray => exact hm
    | skipping => rcases hm with hm | hm <;> cases hm
    | gaveUp _ _ he => rw [ht] at he; cases he
    | ending _ _ hq => exact hq
  | mark _ _ ih => rcases ih hx with h | h <;> cases h

/-- The last tree that is no extra is that of a whole text, or one that stands for a text that was
given up. -/
theorem last_of_whole (h : Way limit upper q ts d) (hu : upper = 1 ∨ upper = 2)
    {pre post : List Subtree} {t : Subtree} (hts : ts = pre ++ t :: post) (ht : t.isExtra = false)
    (hx : ∀ u ∈ post, u.isExtra = true) : t.symbol = .sourceFile ∨ t.symbol = .error ∧ 0 < t.errorCost := by
  induction h generalizing pre with
  | start => cases pre <;> cases hts
  | @tree q m u ts d _ _ hj hway ih =>
    cases pre with
    | cons p pre =>
      simp only [List.cons_append, List.cons.injEq] at hts
      exact ih hts.2
    | nil =>
      simp only [List.nil_append, List.cons.injEq] at hts
      obtain ⟨rfl, rfl⟩ := hts
      have hm := hway.below_extras hu hx
      cases hj with
      | arrow ha =>
        obtain ⟨hlt, h2⟩ := ShiftReduce.target_of_arrow ha
        rcases hm with rfl | rfl
        · exact absurd hlt (by decide)
        · exact .inl (h2 rfl).2
      | stray he => rw [ht] at he; cases he
      | skipping => rcases hm with hm | hm <;> cases hm
      | gaveUp hs hc => exact .inr ⟨hs, hc⟩
      | ending _ he => rw [ht] at he; cases he
  | mark _ _ ih => exact ih hts

end Way

/-- A whole text has no named children, and neither has one that was given up. -/
theorem Grown.production_root {t : Subtree} (h : Grown t)
    (hs : t.symbol = .sourceFile ∨ t.symbol = .error ∧ 0 < t.errorCost) : t.facts.production = 0 := by
  cases h with
  | @token facts ht =>
    have hterm : (Subtree.node facts []).symbol.isTerminal = true := ht.terminal
    rcases hs with hs | ⟨hs, -⟩ <;> rw [hs] at hterm <;> cases hterm
  | invented => rfl
  | production hp =>
    rw [Subtree.production_ofChildren]
    rw [Subtree.symbol_ofChildren] at hs
    rcases hs with rfl | ⟨rfl, -⟩ <;> exact hp.number
  | skipped => exact Subtree.production_ofChildren ..
  | skipping => exact Subtree.production_ofChildren ..
  | unreadable hu =>
    rcases hs with hs | ⟨-, hcost⟩
    · cases hu.symbol_eq.symm.trans hs
    · exact absurd hu.free (Nat.ne_of_gt hcost)

theorem Grown.skipped_below {t : Subtree} (h : Grown t) (hs : t.symbol = .sourceFile) :
    ∀ c ∈ t.children, c.symbol.isSkipped = true → c.symbol = .error ∧ 0 < c.errorCost := by
  cases h with
  | token | invented | unreadable => exact fun c hc => absurd hc List.not_mem_nil
  | production hp hg => exact hp.skipped hg
  | skipped | skipping => simp [Subtree.skipped] at hs

/-- A whole text, or one that was given up, takes up what its children do. -/
theorem Grown.extent_root {t : Subtree} (h : Grown t)
    (hs : t.symbol = .sourceFile ∨ t.symbol = .error ∧ 0 < t.errorCost) :
    extentOf t.children = t.totalSize := by
  cases h with
  | @token facts ht =>
    have hterm : (Subtree.node facts []).symbol.isTerminal = true := ht.terminal
    rcases hs with hs | ⟨hs, -⟩ <;> rw [hs] at hterm <;> cases hterm
  | invented => exact (Extent.add_zero _).symm
  | production | skipping =>
    rw [Subtree.totalSize_ofChildren, Subtree.children_ofChildren]
  | skipped extra =>
    rw [Subtree.totalSize_skipped, Subtree.skipped, Subtree.children_withExtra,
      Subtree.children_ofChildren]
  | unreadable hu =>
    rcases hs with hs | ⟨-, hcost⟩
    · cases hu.symbol_eq.symm.trans hs
    · exact absurd hu.free (Nat.ne_of_gt hcost)

/-- The tree of a whole text: the last tree that is no extra gives way to its children. -/
theorem rootOf_eq_some {ts : List Subtree} {root : Subtree} (h : Parser.rootOf ts = some root) :
    ∃ before tree extras, ts = before ++ tree :: extras ∧ tree.isExtra = false ∧
      (∀ u ∈ extras, u.isExtra = true) ∧
      root = .ofChildren tree.symbol tree.facts.production (before ++ tree.children ++ extras) := by
  rw [Parser.rootOf, List.span_eq_takeWhile_dropWhile] at h
  simp only at h
  split at h
  · cases h
  · rename_i tree before hrest
    cases h
    refine ⟨before.reverse, tree, (ts.reverse.takeWhile Subtree.isExtra).reverse, ?_, ?_, ?_, rfl⟩
    · have hsplit := List.takeWhile_append_dropWhile (p := Subtree.isExtra) (l := ts.reverse)
      rw [hrest] at hsplit
      simpa using (congrArg List.reverse hsplit).symm
    · have hhead := List.head?_dropWhile_not Subtree.isExtra ts.reverse
      rw [hrest] at hhead
      simpa using hhead
    · exact fun u hmem => List.mem_takeWhile_imp (List.mem_reverse.mp hmem)

/-- **What is found along a whole stack is a root.** -/
theorem isRoot_rootOf {limit : Nat} {upper q : StateId} {ts : List Subtree} {d : Nat}
    (h : Way limit upper q ts d) (hu : upper = 1 ∨ upper = 2) {root : Subtree}
    (hr : Parser.rootOf ts = some root) : IsRoot root := by
  obtain ⟨before, tree, extras, hts, htree, hextra, rfl⟩ := rootOf_eq_some hr
  have hgrown := h.grown
  have hwhole := h.last_of_whole hu hts htree hextra
  have hall : ∀ c ∈ before ++ tree.children ++ extras, Grown c := by
    intro c hc
    simp only [List.mem_append] at hc
    rcases hc with (hc | hc) | hc
    · exact hgrown c (by simp [hts, hc])
    · exact (hgrown tree (by simp [hts])).children c hc
    · exact hgrown c (by simp [hts, hc])
  rw [(hgrown tree (by simp [hts])).production_root hwhole]
  rcases hwhole with hs | ⟨hs, -⟩
  · rw [hs]
    refine .whole hall ?_
    rintro ⟨c, hc, hskip⟩
    by_cases hbelow : c ∈ tree.children
    · exact ⟨c, hc, (hgrown tree (by simp [hts])).skipped_below hs c hbelow hskip⟩
    · have hmem : c ∈ ts := by
        simp only [List.mem_append] at hc
        rcases hc with (hc | hc) | hc
        · simp [hts, hc]
        · exact absurd hc hbelow
        · simp [hts, hc]
      obtain ⟨u, hu, herr, hcost⟩ := h.skipped_of_skipped (by rcases hu with rfl | rfl <;> decide)
        hmem hskip
      refine ⟨u, ?_, herr, hcost⟩
      rw [hts] at hu
      simp only [List.mem_append, List.mem_cons] at hu ⊢
      rcases hu with hu | rfl | hu
      · exact .inl (.inl hu)
      · rw [hs] at herr
        cases herr
      · exact .inr hu
  · rw [hs]
    exact .gaveUp hall

/-- **The tree of a whole text takes up what is found along the stack.** -/
theorem lies_rootOf {limit : Nat} {upper q : StateId} {ts : List Subtree} {d : Nat}
    (h : Way limit upper q ts d) (hu : upper = 1 ∨ upper = 2) (hl : LieAll chars 0 ts) {root : Subtree}
    (hr : Parser.rootOf ts = some root) : Lies chars 0 root ∧ root.totalSize = extentOf ts := by
  obtain ⟨before, tree, extras, hts, htree, hextra, rfl⟩ := rootOf_eq_some hr
  have hextent := (h.grown tree (by simp [hts])).extent_root (h.last_of_whole hu hts htree hextra)
  rw [hts, lieAll_append, lieAll_cons] at hl
  obtain ⟨hbefore, hhere, hafter⟩ := hl
  refine ⟨LieAll.lies_ofChildren ?_ (.zero chars) _ _, ?_⟩
  · rw [lieAll_append, lieAll_append, extentOf_append, hextent, ← Extent.add_assoc]
    exact ⟨⟨hbefore, hhere.children⟩, hafter⟩
  · rw [Subtree.totalSize_ofChildren, hts, extentOf_append, extentOf_append, extentOf_append,
      extentOf_cons, hextent, Extent.add_assoc]

/-- The tree of a source file costs what its children cost. -/
theorem Grown.price_sourceFile {t : Subtree} (h : Grown t) (hs : t.symbol = .sourceFile) :
    t.errorCost = priceOf t.children := by
  cases h with
  | token ht =>
    have hterm : (Subtree.node _ []).symbol.isTerminal = true := ht.terminal
    rw [hs] at hterm
    cases hterm
  | @invented s hmem =>
    obtain rfl : s = .sourceFile := hs
    exact absurd hmem (by decide)
  | production hp hg => exact hp.price_eq hg
  | skipped | skipping => simp [Subtree.skipped] at hs
  | unreadable hu => cases hu.symbol_eq.symm.trans hs

theorem priceOf_pos {ts : List Subtree} : 0 < priceOf ts ↔ ∃ t ∈ ts, 0 < t.errorCost := by
  rw [priceOf, Nat.pos_iff_ne_zero, Ne, List.sum_eq_zero_iff_forall_eq_nat]
  simp [Nat.pos_iff_ne_zero]

/-- **A root has a price if something on the way was paid.** -/
theorem price_rootOf {limit : Nat} {upper q : StateId} {ts : List Subtree} {d : Nat}
    (h : Way limit upper q ts d) (hu : upper = 1 ∨ upper = 2) {root : Subtree}
    (hr : Parser.rootOf ts = some root) (hprice : 0 < priceOf ts) : 0 < root.errorCost := by
  obtain ⟨before, tree, extras, hts, htree, hextra, rfl⟩ := rootOf_eq_some hr
  have hmem : ∀ u, u ∈ ts ↔ u ∈ before ∨ u = tree ∨ u ∈ extras := by simp [hts]
  rcases h.last_of_whole hu hts htree hextra with hs | ⟨hs, -⟩
  · rw [hs]
    by_contra hzero
    have hfree := (Subtree.errorCost_ofChildren_eq_zero rfl _ _).mp (Nat.eq_zero_of_not_pos hzero)
    simp only [List.mem_append] at hfree
    -- A tree of skipped text that has its price would be a child of the root.
    have hclean : ∀ u ∈ ts, u.symbol ≠ .errorRepeat := by
      intro u hu' hrep
      obtain ⟨e, he, herr, hcost⟩ := h.skipped_of_skipped (by rcases hu with rfl | rfl <;> decide) hu'
        (by rw [hrep]; rfl)
      have hchild : (e ∈ before ∨ e ∈ tree.children) ∨ e ∈ extras := by
        rcases (hmem e).mp he with he | rfl | he
        · exact .inl (.inl he)
        · cases hs.symm.trans herr
        · exact .inr he
      rcases hfree e hchild with heq | heq
      · cases herr.symm.trans heq
      · omega
    have hgrown : Grown tree := h.grown tree ((hmem tree).mpr (.inr (.inl rfl)))
    obtain ⟨u, hu', hcost⟩ := priceOf_pos.mp hprice
    rcases (hmem u).mp hu' with hb | rfl | he
    · have := (hfree u (.inl (.inl hb))).resolve_left (hclean u hu')
      omega
    · rw [hgrown.price_sourceFile hs] at hcost
      obtain ⟨c, hc, hcost⟩ := priceOf_pos.mp hcost
      rcases hfree c (.inl (.inr hc)) with heq | heq
      · cases heq.symm.trans (hgrown.skipped_below hs c hc (by rw [heq]; rfl)).1
      · omega
    · have := (hfree u (.inr he)).resolve_left (hclean u hu')
      omega
  · rw [hs]
    exact Subtree.errorCost_skipped_pos rfl ..

end Cicode.Parse
