import Cicode.Proofs.Parse.Descent

/-!
# Reductions on a sound stack

A reduction that the table asks for finds the children of a production on every way down, and a
state to go on with, so it keeps the stack sound (`Sound.reduce`).  The versions that were there
before stand where they stood, and those that it makes are as far in the text as the version that was
reduced.
-/

namespace Cicode.Parse

open Grammar Text

variable {chars : List Char} {strict : Prop}

/-! ## The children of a reduction -/

theorem splitTrailingExtras_spec (ts : List Subtree) :
    ts = (Subtree.splitTrailingExtras ts).1 ++ (Subtree.splitTrailingExtras ts).2 ∧
      ∀ t ∈ (Subtree.splitTrailingExtras ts).2, t.isExtra = true := by
  constructor
  · simp only [Subtree.splitTrailingExtras]
    rw [← List.reverse_append, List.takeWhile_append_dropWhile, List.reverse_reverse]
  · intro t ht
    simp only [Subtree.splitTrailingExtras, List.mem_reverse] at ht
    exact List.mem_takeWhile_imp ht

/-- The last tree before the extras at the end is none. -/
theorem last_splitTrailingExtras (ts : List Subtree) :
    ∀ t ∈ (Subtree.splitTrailingExtras ts).1.getLast?, t.isExtra = false := by
  intro t ht
  simp only [Subtree.splitTrailingExtras, List.getLast?_reverse] at ht
  have hhead := List.head?_dropWhile_not Subtree.isExtra ts.reverse
  rw [Option.mem_def.mp ht] at hhead
  simpa using hhead

theorem spelling_of_extras {ts : List Subtree} (h : ∀ t ∈ ts, t.isExtra = true) :
    spelling ts = [] := by
  rw [spelling, List.map_eq_nil_iff, List.filter_eq_nil_iff]
  intro t ht
  simp [h t ht]

/-- The children of a production, without the extras at their end. -/
theorem IsProduction.split {s : Symbol} {p : Nat} {ts : List Subtree} (h : IsProduction s p ts) :
    IsProduction s p (Subtree.splitTrailingExtras ts).1 := by
  obtain ⟨hsplit, hextra⟩ := splitTrailingExtras_spec ts
  have hspell : spelling ts = spelling (Subtree.splitTrailingExtras ts).1 := by
    conv_lhs => rw [hsplit]
    rw [spelling_append, spelling_of_extras hextra, List.append_nil]
  have hsub : ∀ c ∈ (Subtree.splitTrailingExtras ts).1, c ∈ ts := by
    intro c hc
    rw [hsplit]
    exact List.mem_append_left _ hc
  refine ⟨hspell ▸ h.rhs, hspell ▸ h.number, ?_,
    fun hs c hc => h.assigned hs c (hsub c hc)⟩
  intro c hc
  refine h.first c ?_
  rw [hsplit]
  cases hch : (Subtree.splitTrailingExtras ts).1 with
  | nil => rw [hch] at hc; cases hc
  | cons a as => rwa [hch] at hc

/-- What a reduction pushes between two positions: a parent, and extras. -/
structure IsParent (chars : List Char) (p goal : Footing) (symbol : Symbol) (parent : Subtree)
    (extras : List Subtree) : Prop where
  grown : Grown parent
  symbol_eq : parent.symbol = symbol
  notExtra : parent.isExtra = false
  present : parent.facts.missing = false
  strays : ∀ t ∈ extras, Grown t ∧ t.isExtra = true
  lies : LieAll chars p.position (parent :: extras)
  reach : p.past (parent :: extras) = goal

/-- The trees on a way down that is long enough. -/
structure Reducible (chars : List Char) (p goal : Footing) (symbol : Symbol) (production : Nat)
    (ts : List Subtree) : Prop where
  isProduction : IsProduction symbol production ts
  grown : ∀ t ∈ ts, Grown t
  lies : LieAll chars p.position ts
  reach : p.past ts = goal

/-- A production costs what its children cost. -/
theorem IsProduction.price_eq {s : Symbol} {p : Nat} {cs : List Subtree} (h : IsProduction s p cs)
    (hg : ∀ c ∈ cs, Grown c) : (Subtree.ofChildren s p cs).errorCost = priceOf cs := by
  have hs : s.isSkipped = false := by
    have hrhs := h.rhs
    cases s <;> first | rfl | cases hrhs
  have hown : Subtree.ownCost (Subtree.addChildren
      { symbol := s, production := p, padding := 0, size := 0 } 0 true cs) = 0 := by
    rw [Subtree.ownCost, (Subtree.addChildren_kept ..).1, hs]
    rfl
  rw [Subtree.errorCost_ofChildren, hown, Nat.add_zero, priceOf]
  refine congrArg List.sum (List.map_congr_left fun c hc => ?_)
  have hne : (c.symbol == .errorRepeat) = false := by
    rw [beq_eq_false_iff_ne]
    intro heq
    cases heq.symm.trans (h.skipped hg c hc (heq ▸ rfl)).1
  simp [Subtree.priceIn, hs, hne]

theorem Reducible.isParent {p goal : Footing} {symbol : Symbol} {production : Nat} {ts : List Subtree}
    (h : Reducible chars p goal symbol production ts) (hp : IsPlace chars p.position) :
    IsParent chars p goal symbol (.ofChildren symbol production (Subtree.splitTrailingExtras ts).1)
      (Subtree.splitTrailingExtras ts).2 := by
  obtain ⟨hsplit, hextra⟩ := splitTrailingExtras_spec ts
  have hlies := h.lies
  have hreach := h.reach
  rw [hsplit, lieAll_append] at hlies
  rw [hsplit, Footing.past_append] at hreach
  have hgrown : ∀ c ∈ (Subtree.splitTrailingExtras ts).1, Grown c := by
    intro c hc
    refine h.grown c ?_
    rw [hsplit]
    exact List.mem_append_left _ hc
  refine ⟨.production h.isProduction.split hgrown, by simp, by simp, by simp,
    fun t ht => ?_, lieAll_cons.mpr ⟨hlies.1.lies_ofChildren hp _ _, ?_⟩, ?_⟩
  · have hmem : t ∈ ts := by
      rw [hsplit]
      exact List.mem_append_right _ ht
    exact ⟨h.grown t hmem, hextra t ht⟩
  · rw [Subtree.totalSize_ofChildren]
    exact hlies.2
  · rw [Footing.past_cons]
    simp only [Footing.past, extentOf_cons, extentOf_nil, Extent.add_zero, priceOf_cons, priceOf_nil,
      Nat.add_zero, Subtree.totalSize_ofChildren, h.isProduction.split.price_eq hgrown]
    exact hreach

theorem chooseChildren_spec {p goal : Footing} {symbol : Symbol} {production : Nat}
    {first : List Subtree} {others : List (List Subtree)} (hp : IsPlace chars p.position)
    (h : ∀ ts ∈ first :: others, Reducible chars p goal symbol production ts) :
    IsParent chars p goal symbol (Stack.chooseChildren symbol production first others).1
      (Stack.chooseChildren symbol production first others).2 := by
  rw [Stack.chooseChildren]
  refine List.foldlRecOn (motive := fun best : Subtree × List Subtree => IsParent chars p goal symbol
    best.1 best.2) others _ ((h first (by simp)).isParent hp) fun acc hacc other hmem => ?_
  simp only
  split
  · exact (h other (by simp [hmem])).isParent hp
  · exact hacc

namespace Stack

/-! ## Groups of slices -/

/-- The lists of subtrees in a group. -/
def slicesOf (group : Nat × List Subtree × List (List Subtree)) : List (List Subtree) :=
  group.2.1 :: group.2.2

theorem mem_groupSlices {slices : List Slice} {group : Nat × List Subtree × List (List Subtree)}
    (hg : group ∈ groupSlices slices) :
    ∀ ts ∈ slicesOf group, ∃ slice ∈ slices, slice.version = group.1 ∧ slice.subtrees = ts := by
  induction slices generalizing group with
  | nil => cases hg
  | cons slice rest ih =>
    rw [groupSlices] at hg
    have hrest : ∀ g ∈ groupSlices rest, ∀ ts ∈ slicesOf g,
        ∃ x ∈ slice :: rest, x.version = g.1 ∧ x.subtrees = ts := by
      intro g hg ts hts
      obtain ⟨x, hx, h⟩ := ih hg ts hts
      exact ⟨x, by simp [hx], h⟩
    have hself : ∃ x ∈ slice :: rest, x.version = slice.version ∧ x.subtrees = slice.subtrees :=
      ⟨slice, by simp, rfl, rfl⟩
    split at hg
    · rename_i version first others groups heq
      rw [heq] at hrest
      split at hg
      · rename_i hv
        rw [beq_iff_eq] at hv
        rcases List.mem_cons.mp hg with rfl | hg
        · intro ts hts
          rcases List.mem_cons.mp hts with rfl | hts
          · exact hv ▸ hself
          · exact hrest (version, first, others) (by simp) ts hts
        · exact hrest group (by simp [hg])
      · rcases List.mem_cons.mp hg with rfl | hg
        · intro ts hts
          obtain rfl := List.mem_singleton.mp hts
          exact hself
        · exact hrest group hg
    · obtain rfl := List.mem_singleton.mp hg
      intro ts hts
      obtain rfl := List.mem_singleton.mp hts
      exact hself

/-- Every slice is in the group of its version. -/
theorem exists_group {slices : List Slice} {slice : Slice} (h : slice ∈ slices) :
    ∃ group ∈ groupSlices slices, group.1 = slice.version := by
  induction slices with
  | nil => cases h
  | cons first rest ih =>
    rw [groupSlices]
    have hrest : slice ∈ rest → ∃ group ∈ groupSlices rest, group.1 = slice.version := ih
    split
    · rename_i version trees others groups heq
      rw [heq] at hrest
      split
      · rename_i hv
        rw [beq_iff_eq] at hv
        rcases List.mem_cons.mp h with rfl | h
        · exact ⟨_, List.mem_cons_self, hv⟩
        · obtain ⟨group, hg, heq'⟩ := hrest h
          rcases List.mem_cons.mp hg with rfl | hg
          · exact ⟨_, List.mem_cons_self, heq'⟩
          · exact ⟨group, List.mem_cons_of_mem _ hg, heq'⟩
      · rcases List.mem_cons.mp h with rfl | h
        · exact ⟨_, List.mem_cons_self, rfl⟩
        · obtain ⟨group, hg, heq'⟩ := hrest h
          exact ⟨group, List.mem_cons_of_mem _ hg, heq'⟩
    · rename_i heq
      rw [heq] at hrest
      rcases List.mem_cons.mp h with rfl | h
      · exact ⟨_, List.mem_cons_self, rfl⟩
      · obtain ⟨_, hg, -⟩ := hrest h
        cases hg

/-- The groups of slices that are in order have different versions, in order. -/
theorem sorted_groupSlices {slices : List Slice} (h : slices.Pairwise (·.version ≤ ·.version)) :
    (groupSlices slices).Pairwise (·.1 < ·.1) := by
  induction slices with
  | nil => exact .nil
  | cons slice rest ih =>
    obtain ⟨hle, hrest⟩ := List.pairwise_cons.mp h
    have hgroups := ih hrest
    have hge : ∀ g ∈ groupSlices rest, slice.version ≤ g.1 := by
      intro g hg
      obtain ⟨x, hx, hv, -⟩ := mem_groupSlices hg g.2.1 (by simp [slicesOf])
      exact hv ▸ hle x hx
    rw [groupSlices]
    split
    · rename_i version first others groups heq
      rw [heq, List.pairwise_cons] at hgroups
      rw [heq] at hge
      split
      · exact List.pairwise_cons.mpr hgroups
      · rename_i hne
        refine List.pairwise_cons.mpr ⟨?_, List.pairwise_cons.mpr hgroups⟩
        have hlt : slice.version < version := by
          have hle' : slice.version ≤ version := hge (version, first, others) (by simp)
          rw [beq_iff_eq] at hne
          exact Nat.lt_of_le_of_ne hle' (Ne.symm hne)
        intro g hg
        rcases List.mem_cons.mp hg with rfl | hg
        · exact hlt
        · exact Nat.lt_trans hlt (hgroups.1 g hg)
    · exact List.pairwise_singleton ..

/-! ## Pushing the parents -/

theorem nextState_nonterminal {q : StateId} {symbol : Symbol} (h : symbol ∈ Symbol.nonterminals) :
    nextState q symbol = gotoAt q symbol := by
  have hs : symbol.isSkipped = false ∧ symbol.isTerminal = false := by
    revert h
    cases symbol <;> decide
  simp [nextState, hs]

/-- What is known of a group before its parent is pushed: its version is there, and stands below
the children of a production, in a state that goes on with the symbol. -/
structure GroupHolds (chars : List Char) (goal : Footing) (symbol : Symbol)
    (production low removed : Nat) (s : Stack)
    (group : Nat × List Subtree × List (List Subtree)) : Prop where
  removed_le : low + removed ≤ group.1
  lt_count : group.1 < s.versionCount + removed
  slices : ∀ ts ∈ slicesOf group,
    Reducible chars (s.spot (group.1 - removed)).footing goal symbol production ts
  goto_ne : gotoAt (s.state (group.1 - removed)) symbol ≠ 0
  active : (s.head (group.1 - removed)).status = .active

/-- Each of the new versions is where the reduction leads to, or there is a group for it. -/
def Covered (strict : Prop) (goal : Footing) (low removed : Nat) (s : Stack)
    (groups : List (Nat × List Subtree × List (List Subtree))) : Prop :=
  ∀ w, low ≤ w → w < s.versionCount → s.Ready strict goal w ∨ ∃ g ∈ groups, g.1 = w + removed

/-- A parent and its extras are pushed. -/
theorem Sound.pushParent {s : Stack} (h : s.Sound chars strict) {v : Nat} (hv : v < s.versionCount)
    (ha : (s.head v).status = .active) {goal : Footing} {symbol : Symbol}
    (hn : symbol ∈ Symbol.nonterminals) (hg : gotoAt (s.state v) symbol ≠ 0) {parent : Subtree}
    {extras : List Subtree} (hp : IsParent chars (s.spot v).footing goal symbol parent extras) {s' : Stack}
    (hs : s' = (s.push v (some parent) (nextState (s.state v) symbol)).pushAll v extras
      (nextState (s.state v) symbol)) :
    Moved chars strict v s s' ∧ s'.versionCount = s.versionCount ∧ s'.Ready strict goal v := by
  subst hs
  rw [nextState_nonterminal hn]
  obtain ⟨hlies, hrest⟩ := lieAll_cons.mp hp.lies
  have harrow : Joins (s.state v) parent (gotoAt (s.state v) symbol) := by
    refine .arrow ?_ hp.notExtra fun hm => ?_
    · rw [hp.symbol_eq]
      exact .of_goto hn hg
    · rw [hp.present] at hm
      cases hm
  have hmoved := h.moved_push (v := v) (t := some parent) (n := gotoAt (s.state v) symbol)
    ⟨hp.grown, harrow, hlies, fun _ hx => by rw [hp.notExtra] at hx; cases hx⟩ fun hpaused => by rw [isPaused, ha] at hpaused; cases hpaused
  have hstate := state_push s hv (some parent) (gotoAt (s.state v) symbol)
  have hstands := Stands.push hv ⟨rfl, ha⟩ parent (gotoAt (s.state v) symbol)
  obtain ⟨h1, h2, h3⟩ := hmoved.sound.pushAll (by rwa [versionCount_push])
    ⟨hstands, fun _ => by rwa [hstate]⟩ hp.strays (by simpa [Footing.past] using hrest)
  rw [hstate] at h1 h2 h3
  rw [← Footing.past_cons, hp.reach] at h3
  exact ⟨hmoved.trans h1, by rw [h2, versionCount_push], h3⟩

/-- Dropping the version of the first group leaves the later groups as they are. -/
theorem GroupHolds.shift {goal : Footing} {symbol : Symbol} {production low removed v : Nat}
    {s s' : Stack} {g : Nat × List Subtree × List (List Subtree)}
    (hg : GroupHolds chars goal symbol production low removed s g) (hv : low + removed ≤ v)
    (hlt : v < g.1) (hcount : s'.versionCount = s.versionCount - 1)
    (hspot : ∀ w, v - removed ≤ w → w + 1 < s.versionCount → s'.spot w = s.spot (w + 1) ∧
      (s'.head w).status = (s.head (w + 1)).status) :
    GroupHolds chars goal symbol production low (removed + 1) s' g := by
  obtain ⟨h1, h2, h3, h4, h5⟩ := hg
  have hw : g.1 - removed = (g.1 - (removed + 1)) + 1 := by omega
  obtain ⟨h6, h7⟩ := hspot (g.1 - (removed + 1)) (by omega) (by omega)
  rw [hw] at h3 h4 h5
  refine ⟨by omega, by omega, ?_, ?_, h7.trans h5⟩
  · rw [h6]
    exact h3
  · rw [show s'.state _ = _ from congrArg Spot.state h6]
    exact h4

theorem Covered.shift {goal : Footing} {low removed v : Nat} {s s' : Stack}
    {g : Nat × List Subtree × List (List Subtree)}
    {groups : List (Nat × List Subtree × List (List Subtree))}
    (h : Covered strict goal low removed s (g :: groups)) (hv : g.1 = v + removed)
    (hsort : ∀ g' ∈ groups, g.1 < g'.1) (hcount : s'.versionCount = s.versionCount - 1)
    (hbelow : ∀ w < v, s.Ready strict goal w → s'.Ready strict goal w)
    (habove : ∀ w, v ≤ w → w + 1 < s.versionCount → s.Ready strict goal (w + 1) →
      s'.Ready strict goal w) :
    Covered strict goal low (removed + 1) s' groups := by
  intro w hlow hlt
  by_cases hw : w < v
  · rcases h w hlow (by omega) with hst | ⟨g', hg', heq⟩
    · exact .inl (hbelow w hw hst)
    · rcases List.mem_cons.mp hg' with rfl | hg'
      · omega
      · have := hsort g' hg'
        omega
  · rcases h (w + 1) (by omega) (by omega) with hst | ⟨g', hg', heq⟩
    · exact .inl (habove w (by omega) (by omega) hst)
    · rcases List.mem_cons.mp hg' with rfl | hg'
      · omega
      · exact .inr ⟨g', hg', by omega⟩

/-- Pushing on another version leaves a group as it is. -/
theorem GroupHolds.moved {goal : Footing} {symbol : Symbol} {production low removed v : Nat}
    {s s' : Stack} {g : Nat × List Subtree × List (List Subtree)}
    (hg : GroupHolds chars goal symbol production low removed s g) (hs : s.Sound chars strict)
    (hm : Moved chars strict v s s') (hcount : s'.versionCount = s.versionCount) (hne : g.1 - removed ≠ v) :
    GroupHolds chars goal symbol production low removed s' g := by
  obtain ⟨h1, h2, h3, h4, h5⟩ := hg
  have hlt : g.1 - removed < s.versionCount := by omega
  have hspot := hm.spot_eq hs hlt hne
  refine ⟨h1, hcount ▸ h2, hspot ▸ h3, ?_, (hm.status _ hlt).trans h5⟩
  rw [show s'.state _ = _ from congrArg Spot.state hspot]
  exact h4

/-- The version of the first group has been brought to where the reduction leads to. -/
theorem Covered.moved {goal : Footing} {low removed v : Nat} {s s' : Stack}
    {g : Nat × List Subtree × List (List Subtree)}
    {groups : List (Nat × List Subtree × List (List Subtree))}
    (h : Covered strict goal low removed s (g :: groups)) (hv : g.1 = v + removed)
    (hs : s.Sound chars strict) (hm : Moved chars strict v s s')
    (hcount : s'.versionCount = s.versionCount) (hst : s'.Ready strict goal v) :
    Covered strict goal low removed s' groups := by
  intro w hlow hlt
  by_cases hw : w = v
  · exact .inl (hw ▸ hst)
  · rcases h w hlow (hcount ▸ hlt) with hst' | ⟨g', hmem, heq⟩
    · exact .inl (hm.ready hs (hcount ▸ hlt) hw hst')
    · rcases List.mem_cons.mp hmem with rfl | hmem
      · omega
      · exact .inr ⟨g', hmem, heq⟩

theorem Covered.weaken {goal : Footing} {low removed : Nat} {s : Stack}
    {groups : List (Nat × List Subtree × List (List Subtree))}
    (h : Covered strict goal low removed s groups) (g : Nat × List Subtree × List (List Subtree)) :
    Covered strict goal low removed s (g :: groups) :=
  fun w hlow hlt => (h w hlow hlt).imp_right fun ⟨g', hmem, heq⟩ =>
    ⟨g', List.mem_cons_of_mem _ hmem, heq⟩

/-- What a reduction does: the versions from `low` on are where it leads to, the others where they
were. -/
structure Made (chars : List Char) (strict : Prop) (goal : Footing) (low : Nat) (s s' : Stack) :
    Prop where
  sound : s'.Sound chars strict
  keeps : Keeps low s s'
  made : ∀ w, low ≤ w → w < s'.versionCount → s'.Ready strict goal w

theorem pushParents_spec (origin : Version) (goal : Footing) {symbol : Symbol}
    (production halted : Nat) (hn : symbol ∈ Symbol.nonterminals) (low : Nat)
    (groups : List (Nat × List Subtree × List (List Subtree))) (removed : Nat) (s : Stack)
    (hs : s.Sound chars strict) (hc : low ≤ s.versionCount) (hsort : groups.Pairwise (·.1 < ·.1))
    (hg : ∀ g ∈ groups, GroupHolds chars goal symbol production low removed s g)
    (hcov : Covered strict goal low removed s groups) :
    Made chars strict goal low s (pushParents origin symbol production halted removed s groups) := by
  induction groups generalizing removed s with
  | nil =>
    refine ⟨hs, .refl hc, fun w hlow hlt => (hcov w hlow hlt).resolve_right ?_⟩
    rintro ⟨_, hmem, -⟩
    cases hmem
  | cons group groups ih =>
    obtain ⟨version, first, others⟩ := group
    obtain ⟨hfirst, hsort'⟩ := List.pairwise_cons.mp hsort
    have hgroup := hg _ (List.mem_cons_self ..)
    have hrest : ∀ g ∈ groups, GroupHolds chars goal symbol production low removed s g :=
      fun g hmem => hg g (List.mem_cons_of_mem _ hmem)
    obtain ⟨h1, h2, h3, h4, h5⟩ := hgroup
    simp only at h1 h2 h3 h4 h5 hfirst
    have hv : version - removed < s.versionCount := by omega
    have hversion : version = version - removed + removed := by omega
    have hlow : low ≤ version - removed := by omega
    rw [pushParents]
    simp only
    split
    · -- There are too many versions.
      have hcount : (s.remove (version - removed)).versionCount = s.versionCount - 1 := by
        rw [versionCount_remove, if_pos hv]
      obtain ⟨h6, h7, h8⟩ := ih (removed + 1) (s.remove (version - removed)) hs.remove (by omega) hsort'
        (fun g hmem => (hrest g hmem).shift h1 (hfirst g hmem) hcount fun w hw _ =>
          spot_remove hv hw)
        (hcov.shift hversion hfirst hcount
          (fun w hw hst => (keeps_remove (Nat.le_refl _) (Nat.le_of_lt hv)).ready hs hw hst)
          (fun w hw _ hst => hst.of_spot (spot_remove hv hw)))
      exact ⟨h6, (keeps_remove hlow hc).trans h7, h8⟩
    · obtain ⟨h6, h7, h8⟩ := hs.pushParent hv h5 hn h4 (chooseChildren_spec (hs.nodes.places _) h3) rfl
      generalize Stack.pushAll _ _ _ _ = s1 at h6 h7 h8
      have hv1 : version - removed < s1.versionCount := h7 ▸ hv
      have hkeep : Keeps low s s1 := h6.keeps hlow hc
      have hcov1 := hcov.moved hversion hs h6 h7 h8
      have hgroups1 : ∀ g ∈ groups, GroupHolds chars goal symbol production low removed s1 g :=
        fun g hmem => (hrest g hmem).moved hs h6 h7 (by have := hfirst g hmem; omega)
      split
      · -- The version is merged with an older one.
        rename_i older holder
        have hmerge := (canMerge_of_mergeTarget? holder).1
        have hcount := versionCount_merge h6.sound hmerge hv1
        obtain ⟨h9, h10, h11⟩ := ih (removed + 1) _ (h6.sound.merge hmerge) (by omega) hsort'
          (fun g hmem => (hgroups1 g hmem).shift h1 (hfirst g hmem) hcount fun w hw hw' =>
            spot_merge h6.sound hmerge hv1 hw hw')
          ((hcov1.weaken (version, first, others)).shift hversion hfirst hcount
            (fun w hw hst => (keeps_merge h6.sound hmerge (Nat.le_refl _) (Nat.le_of_lt hv1)).ready
              h6.sound hw hst)
            (fun w hw hw' hst => hst.of_spot (spot_merge h6.sound hmerge hv1 hw hw')))
        exact ⟨h9, hkeep.trans ((keeps_merge h6.sound hmerge hlow hkeep.count).trans h10), h11⟩
      · obtain ⟨h9, h10, h11⟩ := ih removed s1 h6.sound hkeep.count hsort' hgroups1 hcov1
        exact ⟨h9, hkeep.trans h10, h11⟩

/-- **A reduction that the table asks for keeps the stack sound**, and the versions where they
were. -/
theorem Sound.reduce {s : Stack} (h : s.Sound chars strict) {v : Version} {symbol : Symbol}
    {count production : Nat} (hr : Reduces (s.state v) symbol count production) :
    Made chars strict (s.spot v).footing s.versionCount s (s.reduce v symbol count production).1 := by
  have hd := popCount_spec h v count
  rw [Stack.reduce, popCount]
  generalize descendFrom _ _ _ _ = d at hd
  obtain ⟨h1, h2, h3⟩ := pushParents_spec v (s.spot v).footing production
    d.stack.haltedCount hr.nonterminal s.versionCount (groupSlices d.slices) 0 d.stack hd.sound hd.count
    (sorted_groupSlices hd.sorted)
    (fun g hg => by
      obtain ⟨slice, hs, hv, -⟩ := mem_groupSlices hg g.2.1 (by simp [slicesOf])
      obtain ⟨hle, hlt, ⟨path, ⟨hp, hcount⟩, hsub, hnode⟩, ha⟩ := hd.slices slice hs
      have hspot := hd.spot_eq hnode
      rw [hv] at hle hlt hspot ha
      refine ⟨hle, hlt, fun ts hts => ?_, ?_, ha⟩
      · obtain ⟨slice', hs', hv', rfl⟩ := mem_groupSlices hg ts hts
        obtain ⟨path', ⟨hp', hcount'⟩, hsub', hnode'⟩ := (hd.slices slice' hs').path
        have hway := hp'.way
        rw [hcount'] at hway
        have hspot' := hd.spot_eq hnode'
        rw [hv'] at hspot'
        rw [Nat.sub_zero, hspot', hsub']
        exact ⟨(hway.reduction hr).1, hway.grown, hp'.lies, hp'.reach⟩
      · have hway := hp.way
        rw [hcount] at hway
        rw [Nat.sub_zero, show d.stack.state _ = _ from congrArg Spot.state hspot]
        exact (hway.reduction hr).2.2)
    (fun w hw hlt => by
      obtain ⟨slice, hs, hv⟩ := hd.covered w hw hlt
      obtain ⟨g, hg, heq⟩ := exists_group hs
      exact .inr ⟨g, hg, heq.trans hv⟩)
  exact ⟨h1, hd.keeps.trans h2, h3⟩

/-- The version that a reduction names is one that was made. -/
theorem made_reduce {s : Stack} {v : Version} {symbol : Symbol} {count production : Nat}
    {made : Version} (h : (s.reduce v symbol count production).2 = some made) :
    made = s.versionCount ∧ made < (s.reduce v symbol count production).1.versionCount := by
  simp only [Stack.reduce] at h ⊢
  split at h
  · rename_i hlt
    cases h
    exact ⟨rfl, hlt⟩
  · cases h

end Stack

end Cicode.Parse
