import Cicode.Proofs.Parse.Invention

/-!
# Returning to an earlier state

Text that recovery skips is put on the stack under a symbol of its own, as an extra once the parser
has returned to an earlier state.  Returning keeps the stack sound, and the version that returns has
paid for it (`Stack.Dear`) unless what was taken off costs nothing and holds extras only
(`Stack.returnTo_spec`).
-/

namespace Cicode.Parse

open Grammar Text

variable {chars : List Char} {strict : Prop}

/-- Among the trees that join the stack, those for skipped text that are extras do not change the
state. -/
theorem Joins.of_skipped {q n : StateId} {t : Subtree} (h : Joins q t n) (hs : t.symbol = .error)
    (he : t.isExtra = true) : q = n := by
  cases h with
  | arrow _ hx => rw [he] at hx; cases hx
  | stray => rfl
  | skipping hx => rw [hs] at hx; cases hx
  | gaveUp _ _ hx => rw [he] at hx; cases hx
  | ending hx => rw [hs] at hx; cases hx

/-- A tree for skipped text that is an extra takes up what its children do. -/
theorem Grown.extent_skipped {t : Subtree} (h : Grown t) (hs : t.symbol = .error)
    (he : t.isExtra = true) : extentOf t.children = t.totalSize := by
  cases h with
  | token ht =>
    have hterm : (Subtree.node _ []).symbol.isTerminal = true := ht.terminal
    rw [hs] at hterm
    cases hterm
  | invented => cases he
  | production | skipping => simp at he
  | skipped extra =>
    rw [Subtree.totalSize_skipped, Subtree.skipped, Subtree.children_withExtra,
      Subtree.children_ofChildren]
  | unreadable hu => exact absurd he (by simp [Subtree.isExtra, Subtree.facts, hu.notExtra])

namespace Stack

variable {s s' : Stack} {v w : Nat}

/-! ## Versions that have paid -/

/-- The version has been given up, or has paid for a repair. -/
def Dear (s : Stack) (v : Version) : Prop := (s.head v).status = .halted ∨ 0 < (s.spot v).cost

theorem Dear.of_spot (h : s.Dear v)
    (hspot : s'.spot w = s.spot v ∧ (s'.head w).status = (s.head v).status) : s'.Dear w := by
  rw [Dear, hspot.1, hspot.2]
  exact h

theorem Keeps.dear {n : Nat} (h : Keeps n s s') (hs : s.Sound chars strict) (hv : v < n)
    (hd : s.Dear v) : s'.Dear v :=
  hd.of_spot ⟨h.spot_eq hs hv, h.status v hv⟩

theorem Moved.dear (h : Moved chars strict v s s') (hs : s.Sound chars strict) (hw : w < s.versionCount)
    (hne : w ≠ v) (hd : s.Dear w) : s'.Dear w :=
  hd.of_spot ⟨h.spot_eq hs hw hne, h.status w hw⟩

/-- Giving up a version leaves those that have paid as they are. -/
theorem Dear.halt (h : s.Dear w) : (s.halt v).Dear w := by
  by_cases hw : v = w ∧ w < s.versionCount
  · refine .inl ?_
    rw [Stack.halt, head_modifyHead, if_pos hw]
  · rcases h with h | h
    · refine .inl ?_
      rw [Stack.halt, head_modifyHead, if_neg hw]
      exact h
    · exact .inr (by rwa [spot_halt])

theorem dear_halt (hv : v < s.versionCount) : (s.halt v).Dear v := by
  refine .inl ?_
  rw [Stack.halt, head_modifyHead, if_pos ⟨rfl, hv⟩]

/-! ## Returning to an earlier state -/

/-- The judge that looks for a tree of skipped text takes the first one. -/
def seekSkipped (found : Bool) (_ : Node) (path : Path) : Bool × Verdict :=
  match path.subtrees with
  | [] => (found, .follow)
  | tree :: _ =>
    if !found && (tree.symbol == .error && tree.isExtra) then (true, .take) else (found, .drop)

theorem popSkipped_eq (s : Stack) (v : Version) : s.popSkipped v =
    if (s.top v).links.any fun link => link.subtree.any fun tree => tree.symbol == .error && tree.isExtra
    then match (s.descendFrom v false seekSkipped).slices with
      | slice :: _ => ((s.descendFrom v false seekSkipped).stack.renumber slice.version v,
          slice.subtrees.head?)
      | [] => (s, none)
    else (s, none) := rfl

/-- The descent that looks for a tree of skipped text makes one version at most.  Its paths are a link
long, and the first link of a state that is no recovery state has a tree. -/
theorem descendSkipped_spec (h : s.Sound chars strict) (hq : s.state v ≠ 0) :
    DescentHolds chars strict s
      (fun path => ∃ t, path.subtrees = [t] ∧ t.symbol = .error ∧ t.isExtra = true ∧
        Link.Holds chars strict s.nodes (s.spot v) ⟨path.node, some t⟩)
      (s.descendFrom v false seekSkipped) ∧
      (s.descendFrom v false seekSkipped).stack.versionCount - s.versionCount ≤ 1 := by
  refine (descendFrom_spec h (M := fun found n => n ≤ if found then 1 else 0)
    (P := fun _ path => path = { node := (s.head v).node } ∨
      ∃ t, path.subtrees = [t] ∧ Link.Holds chars strict s.nodes (s.spot v) ⟨path.node, some t⟩)
    ⟨?_, ?_, fun _ _ _ _ hp => hp, ?_, ?_⟩ (Nat.le_refl _) (.inl rfl)).imp_right fun hle =>
      Nat.le_trans hle (by split <;> decide)
  · rintro - path (rfl | ⟨t, -, hl⟩)
    · exact (h.heads v).node_lt
    · exact hl.node_lt
  · intro m n path m' verdict hle _ hjudge
    rw [seekSkipped] at hjudge
    split at hjudge
    · cases hjudge
      exact ⟨hle, fun hv => by cases hv⟩
    · split at hjudge <;> cases hjudge
      · rename_i hcond
        simp only [Bool.and_eq_true, Bool.not_eq_true'] at hcond
        rw [hcond.1] at hle
        simp only [Bool.false_eq_true, if_false] at hle
        simp only [if_true]
        exact ⟨by omega, fun _ => by omega⟩
      · exact ⟨hle, fun hv => by cases hv⟩
  · rintro path m n m' - (rfl | ⟨t, ht, -⟩) hjudge link hl
    · have hholds := h.nodes.links (s.head v).node link hl
      obtain ⟨node, subtree⟩ := link
      cases subtree with
      | none => exact absurd hholds.fits.1 hq
      | some t => exact .inr ⟨t, rfl, hholds⟩
    · simp only [seekSkipped, ht] at hjudge
      split at hjudge <;> cases hjudge
  · rintro path m m' (rfl | ⟨t, ht, hl⟩) hjudge
    · cases hjudge
    · simp only [seekSkipped, ht] at hjudge
      split at hjudge
      · rename_i hcond
        simp only [Bool.and_eq_true, beq_iff_eq] at hcond
        exact ⟨t, ht, hcond.2.1, hcond.2.2, hl⟩
      · cases hjudge

/-- What is taken off a version together with a tree of skipped text: the trees in it, which lie
where the version is then.  If there was such a tree, some of them are no extras. -/
structure TakenOff (chars : List Char) (strict : Prop) (v : Nat) (s s' : Stack) (trees : List Subtree) :
    Prop where
  moved : Moved chars strict v s s'
  count_eq : s'.versionCount = s.versionCount
  state : s'.state v = s.state v
  active : (s'.head v).status = .active
  grown : ∀ t ∈ trees, Grown t
  lies : LieAll chars (s'.spot v).position trees
  reach : (s'.spot v).position + extentOf trees = (s.spot v).position
  price : (s'.spot v).cost = (s.spot v).cost ∨ ∃ t ∈ trees, t.isExtra = false

theorem TakenOff.nothing (h : s.Sound chars strict) (ha : (s.head v).status = .active) :
    TakenOff chars strict v s s [] :=
  ⟨.refl h, rfl, rfl, ha, by simp, .nil, Extent.add_zero _, .inl rfl⟩

/-- A tree for skipped text that is an extra has a child that is none. -/
theorem exists_child_of_skipped {t : Subtree} (h : Grown t) (hs : t.symbol = .error)
    (he : t.isExtra = true) : ∃ c ∈ t.children, c.isExtra = false := by
  cases h with
  | token ht =>
    have hterm : (Subtree.node _ []).symbol.isTerminal = true := ht.terminal
    rw [hs] at hterm
    cases hterm
  | invented => cases he
  | production | skipping => simp at he
  | skipped extra _ hx =>
    rw [Subtree.skipped, Subtree.isExtra_withExtra] at he
    rw [Subtree.skipped, Subtree.children_withExtra]
    exact hx he
  | unreadable hu => exact absurd he (by simp [Subtree.isExtra, Subtree.facts, hu.notExtra])

/-- A tree of skipped text is taken off without a change of state. -/
theorem popSkipped_spec (h : s.Sound chars strict) (hv : v < s.versionCount) (hq : s.state v ≠ 0)
    (ha : (s.head v).status = .active) :
    TakenOff chars strict v s (s.popSkipped v).1 (((s.popSkipped v).2.map (·.children)).getD []) := by
  obtain ⟨hd, hone⟩ := descendSkipped_spec h hq
  rw [popSkipped_eq]
  split
  · generalize s.descendFrom v false seekSkipped = d at hd hone
    split
    · rename_i slice rest hslices
      obtain ⟨hle, hlt, ⟨path, ⟨t, ht, hsym, hex, hlink⟩, hsub, hnode⟩, haw⟩ :=
        hd.slices slice (by simp [hslices])
      have hvs : v < slice.version := Nat.lt_of_lt_of_le hv hle
      obtain ⟨r1, r2, r3, -⟩ := renumber_spec hvs hlt
      obtain ⟨hspot, hstatus⟩ := spot_renumber hvs hlt
      rw [hd.spot_eq hnode] at hspot
      have hroom : s.versionCount < d.stack.versionCount := Nat.lt_of_le_of_lt hle hlt
      obtain ⟨hgrown, hjoins, hlies, -⟩ := hlink.fits
      have hreach := congrArg Spot.position hlink.spot_eq
      rw [hsub, ht]
      simp only [List.head?_cons, Option.map_some, Option.getD_some]
      refine ⟨⟨hd.sound.renumber, ?_, by omega, fun w hw hne => ?_, fun w hw => ?_⟩, by omega, ?_,
        hstatus.trans haw, hgrown.children, ?_, ?_, .inr (exists_child_of_skipped hgrown hsym hex)⟩
      · rw [r2, hd.nodes]
        exact .refl _
      · rw [r3 w (Nat.lt_of_lt_of_le hw hle) hne, hd.heads w hw]
      · by_cases hne : w = v
        · subst hne
          rw [hstatus, haw, ha]
        · rw [r3 w (Nat.lt_of_lt_of_le hw hle) hne, hd.heads w hw]
      · rw [show Stack.state _ v = _ from congrArg Spot.state hspot]
        exact hjoins.of_skipped hsym hex
      · rw [hspot]
        exact hlies.children
      · rw [hspot, hgrown.extent_skipped hsym hex]
        exact hreach.symm
    · exact .nothing h ha
  · exact .nothing h ha

/-- What was taken off costs something, or some of it is no extra. -/
def Costs (cost : Nat) (trees : List Subtree) : Prop :=
  0 < cost + priceOf trees ∨ ∃ t ∈ trees, t.isExtra = false

/-- What was skipped is put on the stack without a change of state, and is paid for. -/
theorem pushSkipped_spec (h : s.Sound chars strict) (hv : v < s.versionCount) (hq : s.state v ≠ 0)
    (ha : (s.head v).status = .active) {trees : List Subtree} (ht : ∀ t ∈ trees, Grown t)
    (hl : LieAll chars (s.spot v).position trees) :
    Moved chars strict v s (s.pushSkipped v trees (s.state v)) ∧
      (s.pushSkipped v trees (s.state v)).versionCount = s.versionCount ∧
      (Costs (s.spot v).cost trees → 0 < ((s.pushSkipped v trees (s.state v)).spot v).cost) := by
  have htaken := popSkipped_spec h hv hq ha
  rw [pushSkipped]
  generalize s.popSkipped v = popped at htaken
  obtain ⟨s1, found⟩ := popped
  simp only at htaken ⊢
  generalize (found.map (·.children)).getD [] = older at htaken
  obtain ⟨hmoved, hsame, hstate, hactive, hgrown, hlies, hreach, hprice⟩ := htaken
  have hv1 : v < s1.versionCount := Nat.lt_of_lt_of_le hv hmoved.count
  have hall : ∀ t ∈ older ++ trees, Grown t := by
    intro t hmem
    rcases List.mem_append.mp hmem with hmem | hmem
    · exact hgrown t hmem
    · exact ht t hmem
  have hlieAll : LieAll chars (s1.spot v).position (older ++ trees) :=
    lieAll_append.mpr ⟨hlies, by rwa [hreach]⟩
  have hcosts : Costs (s.spot v).cost trees → Costs (s1.spot v).cost (older ++ trees) := by
    rintro (hcost | ⟨t, ht, hx⟩)
    · rcases hprice with heq | ⟨t, ht, hx⟩
      · refine .inl ?_
        rw [priceOf_append, heq]
        omega
      · exact .inr ⟨t, List.mem_append_left _ ht, hx⟩
    · exact .inr ⟨t, List.mem_append_right _ ht, hx⟩
  generalize older ++ trees = all at hall hlieAll hcosts
  obtain ⟨hsplit, hextra⟩ := splitTrailingExtras_spec all
  have hlast := last_splitTrailingExtras all
  generalize Subtree.splitTrailingExtras all = split at hsplit hextra hlast
  obtain ⟨left, extras⟩ := split
  simp only at hsplit hextra hlast ⊢
  subst hsplit
  obtain ⟨hleft, hrest⟩ := lieAll_append.mp hlieAll
  -- The tree of what was skipped, if there is any.
  have hpush : ∃ s2, (if left.isEmpty then s1 else s1.push v (some (.skipped left true)) (s.state v)) = s2 ∧
      Moved chars strict v s1 s2 ∧ s2.versionCount = s1.versionCount ∧ s2.state v = s.state v ∧
      ∃ p : Footing, p.position = (s1.spot v).position + extentOf left ∧ s2.Stands p v ∧
        (Costs (s1.spot v).cost (left ++ extras) → 0 < p.cost + priceOf extras) := by
    cases left with
    | nil =>
      refine ⟨s1, rfl, .refl hmoved.sound, rfl, hstate, _, ?_, ⟨rfl, hactive⟩, ?_⟩
      · rw [extentOf_nil, Extent.add_zero]
        rfl
      · rintro (hcost | ⟨t, ht, hx⟩)
        · exact hcost
        · rw [hextra t ht] at hx
          cases hx
    | cons t ts =>
      have hskipped : Fits chars strict (s1.spot v) (s.state v) (some (.skipped (t :: ts) true)) := by
        refine ⟨.skipped true (fun c hc => hall c (List.mem_append_left _ hc)) fun _ => ?_, ?_,
          hleft.lies_skipped (hmoved.sound.nodes.places _) true, fun _ _ => ⟨hstate, hq⟩⟩
        · exact ⟨_, List.getLast_mem (List.cons_ne_nil t ts), hlast _ (List.getLast?_eq_getLast_of_ne_nil _)⟩
        · rw [← hstate]
          exact .stray (by simp [Subtree.skipped])
      refine ⟨_, if_neg (by simp), hmoved.sound.moved_push hskipped fun hp => ?_, versionCount_push ..,
        state_push s1 hv1 .., _, ?_, Stands.push hv1 ⟨rfl, hactive⟩ _ _, fun _ => ?_⟩
      · rw [isPaused, hactive] at hp
        cases hp
      · rw [Footing.past, extentOf_cons, extentOf_nil, Extent.add_zero, Subtree.totalSize_skipped]
        rfl
      · have hskip : 0 < (Subtree.skipped (t :: ts) true).errorCost := by
          rw [Subtree.skipped, Subtree.errorCost_withExtra]
          exact Subtree.errorCost_skipped_pos rfl ..
        simp only [Footing.past, priceOf_cons]
        omega
  obtain ⟨s2, heq, hmoved2, hcount, hstate2, p, hp, hstands, hpaid⟩ := hpush
  rw [heq]
  have hextras : ∀ t ∈ extras, Grown t ∧ t.isExtra = true := fun t hmem =>
    ⟨hall t (List.mem_append_right _ hmem), hextra t hmem⟩
  obtain ⟨h1, h2, h4⟩ := hmoved2.sound.pushAll (hcount ▸ hv1)
    ⟨hstands, fun _ => hstate2 ▸ hq⟩ hextras (hp ▸ hrest)
  rw [hstate2] at h1 h2 h4
  refine ⟨hmoved.trans (hmoved2.trans h1), h2.trans (hcount.trans hsame), fun hcost => ?_⟩
  rw [h4.cost]
  exact hpaid (hcosts hcost)

/-- What is known of a slice that recovery may return along, unless its version has been used.  If the
return is to be paid for, what was taken off must cost something. -/
structure Returnable (chars : List Char) (paid : Prop) (goal : StateId) (low : Nat)
    (last : Option Version) (s : Stack) (slice : Slice) : Prop where
  low_le : low ≤ slice.version
  lt_count : slice.version < s.versionCount
  last_le : ∀ l, last = some l → l ≤ slice.version
  grown : ∀ t ∈ slice.subtrees, Grown t
  unused : last ≠ some slice.version → s.state slice.version = goal →
    (s.head slice.version).status = .active ∧
      LieAll chars (s.spot slice.version).position slice.subtrees ∧
        (paid → Costs (s.spot slice.version).cost slice.subtrees)

/-- What returning to an earlier state does: the versions before `low` stand where they stood, and if
the return is to be paid for, the others have paid. -/
structure Returned (chars : List Char) (strict paid : Prop) (low : Nat) (s s' : Stack) : Prop where
  sound : s'.Sound chars strict
  keeps : Keeps low s s'
  dear : paid → ∀ w, low ≤ w → w < s'.versionCount → s'.Dear w

/-- Returning along slices moves nothing but their own versions. -/
theorem returnAlong_spec (paid : Prop) {goal : StateId} (hgoal : goal ≠ 0) {low : Nat}
    (slices : List Slice) (last : Option Version) (s : Stack) (h : s.Sound chars strict)
    (hlow : low ≤ s.versionCount) (hsort : slices.Pairwise (·.version ≤ ·.version))
    (hs : ∀ slice ∈ slices, Returnable chars paid goal low last s slice)
    (hused : paid → ∀ l, last = some l → s.Dear l)
    (hcov : paid → ∀ w, low ≤ w → w < s.versionCount →
      s.Dear w ∨ ∃ slice ∈ slices, slice.version = w) :
    Returned chars strict paid low s (returnAlong goal last s slices).1 := by
  induction slices generalizing last s with
  | nil =>
    refine ⟨h, .refl hlow, fun hp w hw hlt => (hcov hp w hw hlt).resolve_right ?_⟩
    rintro ⟨_, hmem, -⟩
    cases hmem
  | cons slice rest ih =>
    obtain ⟨hle, hlt, hlast, ht, hunused⟩ := hs slice (by simp)
    obtain ⟨hfirst, hsort'⟩ := List.pairwise_cons.mp hsort
    have hrest := fun x (hx : x ∈ rest) => hs x (List.mem_cons_of_mem _ hx)
    rw [returnAlong]
    split
    · rename_i hsame
      rw [beq_iff_eq] at hsame
      refine ih last s h hlow hsort' hrest hused fun hp w hw hwlt => ?_
      rcases hcov hp w hw hwlt with hdear | ⟨x, hx, rfl⟩
      · exact .inl hdear
      · rcases List.mem_cons.mp hx with rfl | hx
        · exact .inl (hused hp _ hsame)
        · exact .inr ⟨x, hx, rfl⟩
    · rename_i hne
      rw [beq_iff_eq] at hne
      split
      · rename_i hstate
        rw [bne_iff_ne] at hstate
        have hcount : (s.halt slice.version).versionCount = s.versionCount := versionCount_halt
        have hkeep : Keeps low s (s.halt slice.version) := keeps_halt hle hlow
        obtain ⟨h1, h2, h3⟩ := ih last _ h.halt (hcount ▸ hlow) hsort'
          (fun x hx => by
            obtain ⟨x1, x2, x3, x4, x5⟩ := hrest x hx
            refine ⟨x1, hcount ▸ x2, x3, x4, fun hx' hgoal' => ?_⟩
            have hgoal'' : s.state x.version = goal :=
              (congrArg Spot.state (spot_halt s slice.version x.version)).symm.trans hgoal'
            have hxs : slice.version ≠ x.version := fun heq => hstate (heq ▸ hgoal'')
            rw [head_halt_of_ne hxs, spot_halt]
            exact x5 hx' hgoal'')
          (fun hp l hl => (hused hp l hl).halt)
          (fun hp w hw hwlt => by
            rcases hcov hp w hw (hcount ▸ hwlt) with hdear | ⟨x, hx, rfl⟩
            · exact .inl hdear.halt
            · rcases List.mem_cons.mp hx with rfl | hx
              · exact .inl (dear_halt hlt)
              · exact .inr ⟨x, hx, rfl⟩)
        exact ⟨h1, hkeep.trans h2, h3⟩
      · rename_i hstate
        simp only [bne_iff_ne, ne_eq, Decidable.not_not] at hstate
        obtain ⟨ha, hlies, hcosts⟩ := hunused hne hstate
        obtain ⟨hmoved, hcount, hprice⟩ := pushSkipped_spec h hlt (hstate ▸ hgoal) ha ht hlies
        rw [hstate] at hmoved hcount hprice
        have hkeep : Keeps low s (s.pushSkipped slice.version slice.subtrees goal) :=
          hmoved.keeps hle hlow
        have hdear : paid → (s.pushSkipped slice.version slice.subtrees goal).Dear slice.version :=
          fun hp => .inr (hprice (hcosts hp))
        obtain ⟨h1, h2, h3⟩ := ih (some slice.version) _ hmoved.sound hkeep.count hsort'
          (fun x hx => by
            obtain ⟨x1, x2, x3, x4, x5⟩ := hrest x hx
            refine ⟨x1, Nat.lt_of_lt_of_le x2 hmoved.count, fun l hl => ?_, x4, fun hne' hgoal' => ?_⟩
            · cases hl
              exact hfirst x hx
            · -- The slices of one version come after each other.
              have hx' : last ≠ some x.version := by
                intro heq
                have hle' := hlast _ heq
                exact hne' (congrArg some (Nat.le_antisymm (hfirst x hx) hle'))
              have hxs : x.version ≠ slice.version := fun heq => hne' (congrArg some heq.symm)
              have hspot := hmoved.spot_eq h x2 hxs
              rw [hspot, hmoved.status _ x2]
              exact x5 hx' ((congrArg Spot.state hspot).symm.trans hgoal'))
          (fun hp l hl => by
            cases hl
            exact hdear hp)
          (fun hp w hw hwlt => by
            by_cases hws : w = slice.version
            · subst hws
              exact .inl (hdear hp)
            · rcases hcov hp w hw (hcount ▸ hwlt) with hold | ⟨x, hx, rfl⟩
              · exact .inl (hmoved.dear h (hcount ▸ hwlt) hws hold)
              · rcases List.mem_cons.mp hx with rfl | hx
                · exact absurd rfl hws
                · exact .inr ⟨x, hx, rfl⟩)
        exact ⟨h1, hkeep.trans h2, h3⟩

/-- **Returning to an earlier state keeps the stack sound**, and whoever returns has paid for it if
what lies on every way there costs something. -/
theorem returnTo_spec (paid : Prop) (h : s.Sound chars strict) {goal : StateId} (hgoal : goal ≠ 0)
    (depth : Nat)
    (hcosts : paid → ∀ path, PathHolds chars strict s depth (s.spot v) path → path.depth = depth →
      stateAt s.nodes path.node = goal → Costs (spotAt s.nodes path.node).cost path.subtrees) :
    Returned chars strict paid s.versionCount s (s.returnTo v depth goal).1 := by
  have hd := popCount_spec h v depth
  rw [returnTo, popCount]
  generalize descendFrom _ _ _ _ = d at hd
  obtain ⟨h1, h2, h3⟩ := returnAlong_spec paid hgoal d.slices none d.stack hd.sound hd.count
    hd.sorted
    (fun slice hmem => by
      obtain ⟨hle, hlt, ⟨path, ⟨hp, hdepth⟩, hsub, hnode⟩, ha⟩ := hd.slices slice hmem
      refine ⟨hle, hlt, (fun _ heq => by cases heq), hsub ▸ hp.way.grown, fun _ hgoal' => ?_⟩
      have hspot := hd.spot_eq hnode
      rw [hspot, hsub]
      exact ⟨ha, hp.lies, fun hpaid =>
        hcosts hpaid path hp hdepth ((congrArg Spot.state hspot).symm.trans hgoal')⟩)
    (fun _ _ hl => by cases hl)
    (fun _ w hw hlt => .inr (hd.covered w hw hlt))
  exact ⟨h1, hd.keeps.trans h2, h3⟩

end Stack

end Cicode.Parse
