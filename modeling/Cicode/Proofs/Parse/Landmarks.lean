import Cicode.Proofs.Parse.Descent

/-!
# The places that recovery may return to

Below the recovery state the parser notes places to which it may return, each with the number of
subtrees above it.  When the first error is met nothing has been paid yet; then every place that is
noted either is as far as the version that met the error, or lies two subtrees deep
(`Stack.depth_recordLandmarks`).  Whoever returns to such a place takes off more than extras.
-/

namespace Cicode.Parse.Stack

open Grammar Text

variable {chars : List Char} {strict : Prop} {s : Stack} {v : Nat}

/-! ## Adding a landmark -/

theorem subset_addLandmark (landmarks : List Landmark) (l : Landmark) :
    landmarks ⊆ addLandmark landmarks l := by
  rw [addLandmark]
  split
  · exact fun _ h => h
  · exact List.subset_cons_self ..

/-- A landmark of the same depth and state is there afterwards. -/
theorem exists_addLandmark (landmarks : List Landmark) (l : Landmark) :
    ∃ x ∈ addLandmark landmarks l, x.depth = l.depth ∧ x.state = l.state := by
  rw [addLandmark]
  split
  · rename_i hany
    obtain ⟨x, hx, heq⟩ := List.any_eq_true.mp hany
    simp only [Bool.and_eq_true, beq_iff_eq] at heq
    exact ⟨x, List.takeWhile_subset _ hx, heq⟩
  · exact ⟨l, List.mem_cons_self, rfl, rfl⟩

/-- A landmark of a depth and state that is there already is not added, if none before it is less
deep. -/
theorem addLandmark_of_mem {landmarks : List Landmark} (pre : List Landmark) (x : Landmark)
    (post : List Landmark) {l : Landmark}
    (h : landmarks = pre ++ x :: post) (hpre : ∀ y ∈ pre, l.depth ≤ y.depth) (hd : x.depth = l.depth)
    (hs : x.state = l.state) : addLandmark landmarks l = landmarks := by
  rw [addLandmark, if_pos]
  refine List.any_eq_true.mpr ⟨x, ?_, by simp [hd, hs]⟩
  rw [h, List.takeWhile_append_of_pos (fun y hy => decide_eq_true (hpre y hy))]
  exact List.mem_append_right _ (by simp [hd])

/-- What has been noted below the recovery state: first of all that state itself, and then places that
are as far as the version or at least two subtrees deep. -/
def Noted (upper : Spot) (landmarks : List Landmark) : Prop :=
  landmarks = [] ∨ ∃ deep zero, landmarks = deep ++ [zero] ∧ zero.depth = 0 ∧ zero.state = 0 ∧
    ∀ l ∈ deep, 1 ≤ l.depth ∧ (l.depth = 1 → l.position = upper.position)

/-- One more landmark, if it has its place. -/
theorem Noted.add {upper : Spot} {landmarks : List Landmark} (h : Noted upper landmarks) {l : Landmark}
    (hzero : l.depth = 0 → l.state = 0) (hfirst : landmarks = [] → l.depth = 0)
    (hone : l.depth = 1 → l.position = upper.position ∨
      ∃ x ∈ landmarks, x.depth = 1 ∧ x.state = l.state) : Noted upper (addLandmark landmarks l) := by
  rcases h with rfl | ⟨deep, zero, rfl, hzdepth, hzstate, hdeep⟩
  · exact .inr ⟨[], l, rfl, hfirst rfl, hzero (hfirst rfl), by simp⟩
  have hsame : addLandmark (deep ++ [zero]) l = deep ++ [zero] →
      Noted upper (addLandmark (deep ++ [zero]) l) := by
    intro heq
    rw [heq]
    exact .inr ⟨deep, zero, rfl, hzdepth, hzstate, hdeep⟩
  have hadd : 1 ≤ l.depth → (l.depth = 1 → l.position = upper.position) →
      Noted upper (addLandmark (deep ++ [zero]) l) := by
    intro hle hposition
    rw [addLandmark]
    split
    · exact .inr ⟨deep, zero, rfl, hzdepth, hzstate, hdeep⟩
    · exact .inr ⟨l :: deep, zero, rfl, hzdepth, hzstate, List.forall_mem_cons.mpr ⟨⟨hle, hposition⟩, hdeep⟩⟩
  rcases Nat.lt_trichotomy l.depth 1 with hlt | heq | hgt
  · -- The recovery state has been noted already.
    have hd : l.depth = 0 := Nat.lt_one_iff.mp hlt
    exact hsame (addLandmark_of_mem deep zero [] rfl (fun y _ => hd ▸ Nat.zero_le _) (hzdepth.trans hd.symm)
      (hzstate.trans (hzero hd).symm))
  · rcases hone heq with hposition | ⟨x, hx, hxd, hxs⟩
    · exact hadd (Nat.le_of_eq heq.symm) fun _ => hposition
    · rcases List.mem_append.mp hx with hx | hx
      · obtain ⟨pre, post, rfl⟩ := List.append_of_mem hx
        refine hsame (addLandmark_of_mem pre x (post ++ [zero]) (by simp) ?_
          (hxd.trans heq.symm) hxs)
        exact fun y hy => heq ▸ (hdeep y (List.mem_append_left _ hy)).1
      · rw [List.mem_singleton.mp hx, hzdepth] at hxd
        cases hxd
  · exact hadd (Nat.le_of_lt hgt) fun hl => absurd hl (Nat.ne_of_gt hgt)

/-! ## The way down from an error -/

/-- What is known of a path down from the recovery state, on a strict stack and at no price. -/
structure Sinks (chars : List Char) (strict : Prop) (s : Stack) (upper : Spot)
    (landmarks : List Landmark) (path : Path) : Prop where
  holds : PathHolds chars strict s (maxLandmarkDepth + 1) upper path
  top : path.depth = 0 → path.subtrees = [] ∧ (spotAt s.nodes path.node).position = upper.position
  noted : landmarks = [] → path.depth = 0
  extras : path.depth = 1 → ∀ t ∈ path.subtrees, t.isExtra = true
  once : path.depth = 1 → (spotAt s.nodes path.node).position = upper.position ∨
    ∃ l ∈ landmarks, l.depth = 1 ∧ l.state = stateAt s.nodes path.node

/-- Text that is being skipped has its price. -/
theorem price_of_skipping {t : Subtree} (h : Grown t) (hs : t.symbol = .errorRepeat) :
    0 < t.errorCost := by
  cases h with
  | @token facts ht =>
    have hterm : facts.symbol.isTerminal = true := ht.terminal
    rw [show facts.symbol = _ from hs] at hterm
    cases hterm
  | @invented s hi =>
    obtain rfl : s = .errorRepeat := hs
    exact absurd hi (by decide)
  | production hp =>
    rw [Subtree.symbol_ofChildren] at hs
    exact absurd hp.rhs (by rw [hs]; exact List.not_mem_nil)
  | skipped => simp [Subtree.skipped] at hs
  | skipping => exact Subtree.errorCost_skipped_pos rfl ..
  | unreadable hu => cases hu.symbol_eq.symm.trans hs

/-- No tree that is free leads to the recovery state but an extra. -/
theorem extra_of_joins_zero {q : StateId} {t : Subtree} (h : Joins q t 0) (hg : Grown t)
    (hfree : t.errorCost = 0) : t.isExtra = true := by
  cases h with
  | arrow ha => exact absurd (ShiftReduce.target_of_arrow ha).1 (by decide)
  | stray hx => exact hx
  | skipping hs => exact absurd hfree (Nat.ne_of_gt (price_of_skipping hg hs))

theorem Sinks.along {upper : Spot} (h : s.Sound chars strict) (hs : strict) (hu : upper.state = 0)
    (hfree : upper.cost = 0) {landmarks : List Landmark} {path : Path}
    (hp : Sinks chars strict s upper landmarks path) (hlt : path.depth < maxLandmarkDepth + 1)
    {link : Link} (hl : link ∈ (s.nodeAt path.node).links) :
    Sinks chars strict s upper (addLandmark landmarks
      ⟨(s.nodeAt path.node).position, path.depth, (s.nodeAt path.node).state⟩) (path.along link) := by
  have hholds := hp.holds.along h hlt hl
  obtain ⟨-, hfits, hspot⟩ := h.nodes.links path.node link hl
  -- As long as nothing counts one is in the recovery state.
  have hzero : path.depth = 0 → (spotAt s.nodes path.node).state = 0 := by
    intro hd
    have hmarks := hp.holds.marks hs hu (by rw [(hp.top hd).1]; exact fun _ ht => nomatch ht)
    rcases hmarks with ⟨-, hstate⟩ | ⟨hone, -⟩
    · exact hstate
    · omega
  have hnoted : ∀ {n : Nat}, addLandmark landmarks
      ⟨(s.nodeAt path.node).position, path.depth, (s.nodeAt path.node).state⟩ = [] → n = 0 := by
    intro n hnil
    obtain ⟨x, hx, -⟩ := exists_addLandmark landmarks
      ⟨(s.nodeAt path.node).position, path.depth, (s.nodeAt path.node).state⟩
    rw [hnil] at hx
    cases hx
  cases ht : link.subtree with
  | none =>
    rw [ht] at hspot
    have hposition : (spotAt s.nodes path.node).position = (spotAt s.nodes link.node).position := by
      rw [hspot]
      rfl
    have halong : path.along link = { path with node := link.node, depth := path.depth + 1 } := by
      rw [Path.along, ht]
    rw [halong] at hholds ⊢
    refine ⟨hholds, (fun hd => by cases hd), hnoted, fun hd => ?_, fun hd => .inl ?_⟩
    · have hd0 : path.depth = 0 := Nat.succ.inj hd
      simp only [(hp.top hd0).1]
      exact fun _ ht => nomatch ht
    · rw [← hposition]
      exact (hp.top (Nat.succ.inj hd)).2
  | some tree =>
    rw [ht] at hfits
    obtain ⟨hgrown, hjoins, -, hsame⟩ := hfits
    have hcost : tree.errorCost = 0 := by
      have hreach := congrArg Footing.cost hholds.reach
      simp only [Path.along, ht, Footing.past, priceOf_cons] at hreach
      have hzero : upper.footing.cost = 0 := hfree
      omega
    have htop : path.depth ≠ 0 := by
      intro hd
      rw [hzero hd] at hjoins hsame
      exact (hsame hs (extra_of_joins_zero hjoins hgrown hcost)).2 rfl
    cases hx : tree.isExtra with
    | true =>
      have halong : path.along link = ⟨link.node, tree :: path.subtrees, path.depth⟩ := by
        rw [Path.along, ht]
        simp [hx]
      rw [halong] at hholds ⊢
      refine ⟨hholds, fun hd => absurd hd htop, hnoted, fun hd => ?_, fun hd => .inr ?_⟩
      · exact List.forall_mem_cons.mpr ⟨hx, hp.extras hd⟩
      · -- The place above has been noted, and the state is the same.
        obtain ⟨x, hx', hxd, hxs⟩ := exists_addLandmark landmarks
          ⟨(s.nodeAt path.node).position, path.depth, (s.nodeAt path.node).state⟩
        exact ⟨x, hx', hxd.trans hd, hxs.trans (hsame hs hx).1.symm⟩
    | false =>
      have halong : path.along link = ⟨link.node, tree :: path.subtrees, path.depth + 1⟩ := by
        rw [Path.along, ht]
        simp [hx]
      rw [halong] at hholds ⊢
      exact ⟨hholds, (fun hd => by cases hd), hnoted, fun hd => absurd (Nat.succ.inj hd) htop,
        fun hd => absurd (Nat.succ.inj hd) htop⟩

/-- What is noted on the way down keeps its form. -/
theorem judges_recordLandmarks (h : s.Sound chars strict) (hs : strict) (hstate : s.state v = 0)
    (hfree : (s.spot v).cost = 0) :
    Judges s (fun landmarks node path =>
        if path.depth > maxLandmarkDepth then (landmarks, .drop)
        else (addLandmark landmarks ⟨node.position, path.depth, node.state⟩, .follow))
      (fun landmarks _ => Noted (s.spot v) landmarks) (Sinks chars strict s (s.spot v)) fun _ => True where
  lt _ _ hp := hp.holds.lt
  memory m n path m' verdict hm hp hjudge := by
    split at hjudge
    · cases hjudge
      exact ⟨hm, fun hv => by cases hv⟩
    · cases hjudge
      refine ⟨hm.add (fun hdepth => ?_) hp.noted hp.once, fun hv => by cases hv⟩
      rcases hp.holds.marks hs hstate (by rw [(hp.top hdepth).1]; exact fun _ ht => by cases ht) with
        ⟨-, hzero⟩ | ⟨hone, -⟩
      · exact hzero
      · exact absurd (hdepth.symm.trans hone) (by decide)
  keep m path other hp hother := by
    have hsub : m ⊆ (if path.depth > maxLandmarkDepth then (m, Verdict.drop)
        else (addLandmark m ⟨(s.nodeAt path.node).position, path.depth, (s.nodeAt path.node).state⟩,
          .follow)).1 := by
      split
      · exact fun _ h => h
      · exact subset_addLandmark ..
    refine ⟨hother.holds, hother.top, fun hnil => hother.noted ?_, hother.extras, fun hd => ?_⟩
    · exact List.eq_nil_of_subset_nil (hnil ▸ hsub)
    · exact (hother.once hd).imp_right fun ⟨l, hl, heq⟩ => ⟨l, hsub hl, heq⟩
  follow path m n m' _ hp hjudge link hl := by
    split at hjudge
    · cases hjudge
    · rename_i hdepth
      cases hjudge
      exact hp.along h hs hstate hfree (by omega) hl
  take _ _ _ _ _ := trivial

/-- **Whoever returns from an error that was met at no price takes off two subtrees at least**, unless
nothing was read since. -/
theorem depth_recordLandmarks (h : s.Sound chars strict) (hs : strict) (hv : v < s.versionCount)
    (hstate : s.state v = 0) (hfree : (s.spot v).cost = 0) :
    ∀ l ∈ (((s.recordLandmarks v).head v).landmarks).getD [], l.state ≠ 0 →
      l.position.bytes ≠ (s.spot v).position.bytes → 2 ≤ l.depth := by
  have hd := (descendFrom_spec (v := v) h (judges_recordLandmarks h hs hstate hfree)
    (show Noted (s.spot v) [] from .inl rfl)
    ⟨.start h _ v, fun _ => ⟨rfl, rfl⟩, fun _ => rfl, (fun hd => by cases hd), fun hd => by cases hd⟩).2
  rw [recordLandmarks, head_modifyHead, if_pos ⟨rfl, hv⟩]
  simp only [Option.getD_some, List.mem_reverse]
  intro l hl hlstate hlposition
  rcases hd with hnil | ⟨deep, zero, heq, -, hzstate, hdeep⟩
  · rw [hnil] at hl
    cases hl
  · rw [heq, List.mem_append, List.mem_singleton] at hl
    rcases hl with hl | rfl
    · obtain ⟨hle, hone⟩ := hdeep l hl
      by_contra hlt
      exact hlposition (congrArg Extent.bytes (hone (by omega)))
    · exact absurd hzstate hlstate

end Cicode.Parse.Stack
