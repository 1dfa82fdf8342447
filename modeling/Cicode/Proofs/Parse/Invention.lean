import Cicode.Proofs.Parse.Reduce

/-!
# Reductions without a token, and invented tokens

When an error is met the parser performs whatever reductions are possible, and tries to go on with a
token that the text does not hold.  Both keep the stack sound: the reductions are those the table
asks for, and an invented token stands where the table has an arrow for it to a state that goes on
with a reduction.
-/

namespace Cicode.Parse

open Grammar Text

namespace Stack

variable {chars : List Char} {strict : Prop} {s : Stack} {v : Nat}

/-! ## Renumbering -/

theorem Sound.renumber (h : s.Sound chars strict) {source target : Version} : (s.renumber source target).Sound chars strict := by
  rw [Stack.renumber]
  split
  · exact h
  · refine (h.modifyHead fun _ _ => ?_).remove
    have hh := h.heads source
    split <;> exact ⟨hh.node_lt, hh.lookahead⟩

/-- The version takes its place, and the others stand where they stood; those behind it move up. -/
theorem renumber_spec {source target : Nat} (ht : target < source) (hs : source < s.versionCount) :
    (s.renumber source target).versionCount = s.versionCount - 1 ∧
    (s.renumber source target).nodes = s.nodes ∧
    (∀ w < source, w ≠ target → (s.renumber source target).head w = s.head w) ∧
    ∀ w, source ≤ w → (s.renumber source target).head w = s.head (w + 1) := by
  have hne : (source == target) = false := by
    rw [beq_eq_false_iff_ne]
    omega
  rw [Stack.renumber]
  simp only [hne, Bool.false_eq_true, ↓reduceIte]
  refine ⟨?_, rfl, ?_, ?_⟩
  · rw [versionCount_remove, versionCount_modifyHead, if_pos hs]
  · intro w hw hwt
    rw [head_remove, if_neg (by omega), head_modifyHead, if_neg (by omega)]
  · intro w hw
    rw [head_remove, versionCount_modifyHead, if_pos ⟨hs, hw⟩, head_modifyHead, if_neg (by omega)]

/-- The version that takes the place of another one is where it was. -/
theorem spot_renumber {source target : Nat} (ht : target < source) (hs : source < s.versionCount) :
    (s.renumber source target).spot target = s.spot source ∧
      ((s.renumber source target).head target).status = (s.head source).status := by
  have hne : (source == target) = false := by
    rw [beq_eq_false_iff_ne]
    omega
  have hhead : ((s.renumber source target).head target).node = (s.head source).node ∧
      ((s.renumber source target).head target).status = (s.head source).status := by
    rw [Stack.renumber]
    simp only [hne, Bool.false_eq_true, ↓reduceIte]
    rw [head_remove, if_neg (by omega), head_modifyHead, if_pos ⟨rfl, by omega⟩]
    split <;> exact ⟨rfl, rfl⟩
  refine ⟨?_, hhead.2⟩
  rw [spot, hhead.1, (renumber_spec ht hs).2.1]
  rfl

/-! ## Reductions that need no token -/

theorem reductions_potentialActions (q : StateId) (terminals : List Symbol) :
    ∀ r ∈ (potentialActions q terminals).2, Reduces q r.1 r.2.1 r.2.2 := by
  rw [potentialActions]
  refine List.foldlRecOn (motive := fun acc : Bool × List (Symbol × Nat × Nat) =>
    ∀ r ∈ acc.2, Reduces q r.1 r.2.1 r.2.2) _ _ (by simp) fun acc hacc action hmem => ?_
  obtain ⟨t, -, ht⟩ := List.mem_flatMap.mp hmem
  cases action with
  | reduce symbol count production =>
    simp only
    split
    · exact hacc
    · intro r hr
      rcases List.mem_append.mp hr with hr | hr
      · exact hacc r hr
      · obtain rfl := List.mem_singleton.mp hr
        exact .of_mem ht
  | shift | shiftRepeat | shiftExtra | accept | recover => exact hacc

/-- One reduction after the other. -/
theorem Made.trans {p : Footing} {low : Nat} {s s' s'' : Stack} (h : Made chars strict p low s s')
    (h' : Made chars strict p s'.versionCount s' s'') : Made chars strict p low s s'' := by
  refine ⟨h'.sound, h.keeps.trans (h'.keeps.mono h.keeps.count), fun w hlow hlt => ?_⟩
  by_cases hw : w < s'.versionCount
  · exact h'.keeps.ready h.sound hw (h.made w hlow hw)
  · exact h'.made w (Nat.not_lt.mp hw) hlt

theorem reduceAll_spec (rs : List (Symbol × Nat × Nat)) (made : Option Version) (s : Stack)
    (h : s.Sound chars strict) (hv : v < s.versionCount)
    (hr : ∀ r ∈ rs, Reduces (s.state v) r.1 r.2.1 r.2.2) {low : Nat} (hlow : low ≤ s.versionCount)
    (hm : ∀ m, made = some m → low ≤ m ∧ m < s.versionCount) :
    Made chars strict (s.spot v).footing s.versionCount s (s.reduceAll v rs made).1 ∧
      ∀ m, (s.reduceAll v rs made).2 = some m →
        low ≤ m ∧ m < (s.reduceAll v rs made).1.versionCount := by
  induction rs generalizing s made with
  | nil =>
    exact ⟨⟨h, .refl (Nat.le_refl _), fun w hw hlt => absurd hlt (Nat.not_lt.mpr hw)⟩, hm⟩
  | cons r rs ih =>
    obtain ⟨symbol, count, production⟩ := r
    have hmade := h.reduce (hr _ (List.mem_cons_self ..))
    have hcount := hmade.keeps.count
    rw [reduceAll]
    have hspot : (s.reduce v symbol count production).1.spot v = s.spot v := hmade.keeps.spot_eq h hv
    have hstate : (s.reduce v symbol count production).1.state v = s.state v :=
      congrArg Spot.state hspot
    obtain ⟨h3, h4⟩ := ih (s.reduce v symbol count production).2 _ hmade.sound
      (Nat.lt_of_lt_of_le hv hcount) (fun r hmem => hstate ▸ hr r (by simp [hmem]))
      (Nat.le_trans hlow hcount) fun m hm => by
        obtain ⟨rfl, hlt⟩ := made_reduce hm
        exact ⟨hlow, hlt⟩
    rw [hspot] at h3
    exact ⟨hmade.trans h3, h4⟩

/-- The versions that take part in a round of reductions, which are the first one and those made
since, are all as far, at the same price. -/
def InRound (strict : Prop) (start initial : Nat) (p : Footing) (s : Stack) : Prop :=
  ∀ w, w = start ∨ initial ≤ w → w < s.versionCount → s.Ready strict p w

namespace InRound

variable {start initial version : Nat} {p : Footing} {s' : Stack}

/-- A version of the round is dropped, and those behind it move up. -/
theorem shift (h : InRound strict start initial p s) (hs : s.Sound chars strict)
    (hv : initial ≤ version ∨ version = start ∧ initial = start + 1)
    (hlt : version < s.versionCount) (hcount : s'.versionCount = s.versionCount - 1)
    (hk : Keeps version s s') (hspot : ∀ w, version ≤ w → w + 1 < s.versionCount →
      s'.spot w = s.spot (w + 1) ∧ (s'.head w).status = (s.head (w + 1)).status) :
    InRound strict start initial p s' := by
  intro w hw hw'
  by_cases hwv : w < version
  · exact hk.ready hs hwv (h w hw (by omega))
  · exact (h (w + 1) (by omega) (by omega)).of_spot (hspot w (by omega) (by omega))

/-- The reductions of a version of the round make versions of the round. -/
theorem made (h : InRound strict start initial p s) (hs : s.Sound chars strict)
    (hm : Made chars strict p s.versionCount s s') : InRound strict start initial p s' := by
  intro w hw hlt
  by_cases hws : w < s.versionCount
  · exact hm.keeps.ready hs hws (h w hw hws)
  · exact hm.made w (Nat.not_lt.mp hws) hlt

/-- A version of the round takes the place of another one. -/
theorem renumber (h : InRound strict start initial p s) {source : Nat} (hvs : version < source)
    (hi : initial ≤ source) (hsi : start < initial) (hs : source < s.versionCount) :
    InRound strict start initial p (s.renumber source version) := by
  obtain ⟨r1, r2, r3, r4⟩ := renumber_spec hvs hs
  intro w hw hlt
  by_cases hwv : w = version
  · subst hwv
    exact (h source (.inr hi) hs).of_spot (spot_renumber hvs hs)
  · by_cases hws : w < source
    · refine (h w hw (by omega)).of_spot ⟨?_, by rw [r3 w hws hwv]⟩
      rw [spot, r2, r3 w hws hwv]
      rfl
    · refine (h (w + 1) (by omega) (by omega)).of_spot ⟨?_, by rw [r4 w (by omega)]⟩
      rw [spot, r2, r4 w (by omega)]
      rfl

end InRound

/-- The versions that are there before a round stand where they stood, the first one of the round
excepted. -/
structure Spares (start initial : Nat) (s s' : Stack) : Prop where
  count : initial ≤ s'.versionCount
  heads : ∀ w < initial, w ≠ start → (s'.head w).node = (s.head w).node ∧
    (s'.head w).status = (s.head w).status

theorem Spares.trans {start initial : Nat} {s s' s'' : Stack} (h : Spares start initial s s')
    (h' : Spares start initial s' s'') : Spares start initial s s'' :=
  ⟨h'.count, fun w hw hne => ⟨(h'.heads w hw hne).1.trans (h.heads w hw hne).1,
    (h'.heads w hw hne).2.trans (h.heads w hw hne).2⟩⟩

theorem Keeps.spares {start initial n : Nat} {s s' : Stack} (h : Keeps n s s') (hn : initial ≤ n) :
    Spares start initial s s' :=
  ⟨Nat.le_trans hn h.count, fun w hw _ => ⟨h.heads w (Nat.lt_of_lt_of_le hw hn),
    h.status w (Nat.lt_of_lt_of_le hw hn)⟩⟩

/-- What a round of reductions keeps: the versions before the first one stand where they stood, and
unless versions that lead nowhere are dropped, so do those behind it. -/
structure Reduced (chars : List Char) (strict : Prop) (exact : Bool) (start initial : Nat) (p : Footing)
    (s s' : Stack) : Prop where
  sound : s'.Sound chars strict
  keeps : Keeps start s s'
  spares : exact = false → initial ≤ s.versionCount → Spares start initial s s'
  round : InRound strict start initial p s'

theorem Reduced.trans {exact : Bool} {start initial : Nat} {p : Footing} {s s' s'' : Stack}
    (h : Reduced chars strict exact start initial p s s') (h' : Reduced chars strict exact start initial p s' s'') :
    Reduced chars strict exact start initial p s s'' :=
  ⟨h'.sound, h.keeps.trans h'.keeps,
    fun he hi => (h.spares he hi).trans (h'.spares he (h.spares he hi).count), h'.round⟩

theorem Reduced.refl {exact : Bool} {start initial : Nat} {p : Footing} (h : s.Sound chars strict)
    (hc : start ≤ s.versionCount) (hr : InRound strict start initial p s) :
    Reduced chars strict exact start initial p s s :=
  ⟨h, .refl hc, fun _ hi => (Keeps.refl hi).spares (Nat.le_refl _), hr⟩

/-- **Reductions that are possible on some terminals keep the stack sound.** -/
theorem reducePotentially_spec (terminals : List Symbol) (exact : Bool) {start initial : Nat}
    {p : Footing} (hsi : start < initial) (hex : exact = true → initial = start + 1)
    (fuel round version : Nat) (canShift : Bool) (s : Stack) (h : s.Sound chars strict)
    (hv : version = start ∧ initial ≤ s.versionCount ∨ initial ≤ version)
    (hc : start ≤ s.versionCount) (hr : InRound strict start initial p s) :
    Reduced chars strict exact start initial p s
      (reducePotentially terminals exact start initial fuel round version canShift s).1 := by
  induction fuel generalizing round version canShift s with
  | zero => exact .refl h hc hr
  | succ fuel ih =>
    have hsv : start ≤ version := by omega
    rw [reducePotentially]
    simp only
    split
    · exact .refl h hc hr
    · rename_i hlt
      rw [Nat.not_le] at hlt
      split
      · -- The version is merged with an older one.
        rename_i older holder
        obtain ⟨hm, hcand⟩ := canMerge_of_mergeTarget? holder
        simp only [List.mem_filter, List.mem_range, decide_eq_true_eq] at hcand
        have hk := keeps_merge h hm hsv hc
        have hcount := versionCount_merge h hm hlt
        have hgt : initial < version := Nat.lt_of_le_of_lt hcand.2 hcand.1
        have hround := hr.shift h (.inl (Nat.le_of_lt hgt)) hlt hcount
          (keeps_merge h hm (Nat.le_refl _) (Nat.le_of_lt hlt))
          fun w hw hw' => spot_merge h hm hlt hw hw'
        have hspare := keeps_merge h hm (Nat.le_of_lt hgt) (Nat.le_of_lt (Nat.lt_trans hgt hlt))
        exact .trans ⟨h.merge hm, hk, fun _ _ => hspare.spares (Nat.le_refl _), hround⟩
          (ih (round + 1) version canShift _ (h.merge hm) (.inr (Nat.le_of_lt hgt)) (by omega) hround)
      · have hready : s.Ready strict p version := hr version (hv.imp_left And.left) hlt
        obtain ⟨hmade, h3⟩ := reduceAll_spec _ none s h hlt
          (reductions_potentialActions _ terminals) (Nat.le_refl _) (by simp)
        rw [hready.footing] at hmade
        generalize s.reduceAll version (potentialActions (s.state version) terminals).2 none = result
          at hmade h3
        obtain ⟨s1, made⟩ := result
        simp only at hmade h3 ⊢
        have hcount := hmade.keeps.count
        have hround := hr.made h hmade
        have hreduced : Reduced chars strict exact start initial p s s1 :=
          ⟨hmade.sound, hmade.keeps.mono hc, fun _ hi => hmade.keeps.spares hi, hround⟩
        have hnext : initial ≤ if version == start then s.versionCount else version + 1 := by
          split
          · rename_i heq
            rw [beq_iff_eq] at heq
            omega
          · rename_i heq
            rw [beq_iff_eq] at heq
            omega
        have hdrop : Reduced chars strict exact start initial p s1
            (if exact then s1.remove version else s1) := by
          cases exact with
          | true =>
            have hi := hex rfl
            have hlt1 : version < s1.versionCount := Nat.lt_of_lt_of_le hlt hcount
            refine ⟨hmade.sound.remove, keeps_remove hsv (by omega), (fun he => by cases he), ?_⟩
            exact hround.shift hmade.sound (by omega) hlt1
              (by rw [if_pos rfl, versionCount_remove, if_pos hlt1])
              (keeps_remove (Nat.le_refl _) (Nat.le_of_lt hlt1)) fun w hw _ => spot_remove hlt1 hw
          | false => exact .refl hmade.sound (by omega) hround
        split
        · exact hreduced.trans (ih _ _ _ _ hmade.sound (.inr hnext) (by omega) hround)
        · split
          · rename_i source
            obtain ⟨hsource, hlt'⟩ := h3 source rfl
            have hvs : version < source := Nat.lt_of_lt_of_le hlt hsource
            have hroom : version + 1 < s1.versionCount := Nat.lt_of_le_of_lt hvs hlt'
            have hfit : s.versionCount ≤ s1.versionCount - 1 :=
              Nat.le_sub_one_of_lt (Nat.lt_of_le_of_lt hsource hlt')
            obtain ⟨r1, r2, r3, -⟩ := renumber_spec hvs hlt'
            split
            · have hnum : Reduced chars strict exact start initial p s1 (s1.renumber source version) := by
                refine ⟨hmade.sound.renumber, ⟨r2 ▸ .refl _, by omega, fun w hw => ?_, fun w hw => ?_⟩,
                  fun _ _ => ⟨by omega, fun w hw hne => ?_⟩, hround.renumber hvs (by omega) hsi hlt'⟩
                · rw [r3 w (by omega) (by omega)]
                · rw [r3 w (by omega) (by omega)]
                · rw [r3 w (by omega) (by omega)]
                  exact ⟨rfl, rfl⟩
              exact hreduced.trans (hnum.trans (ih _ _ _ _ hnum.sound (by omega) hnum.keeps.count
                hnum.round))
            · exact hreduced.trans (hdrop.trans (ih _ _ _ _ hdrop.sound (.inr hnext) hdrop.keeps.count
                hdrop.round))
          · exact hreduced.trans (hdrop.trans (ih _ _ _ _ hdrop.sound (.inr hnext) hdrop.keeps.count
              hdrop.round))

/-- At the beginning of a round only the first version takes part. -/
theorem inRound_start {p : Footing} (h : s.Ready strict p v) : InRound strict v s.versionCount p s := by
  rintro w (rfl | hw) hlt
  · exact h
  · omega

/-- Reductions regardless of the token leave the version there, and make versions that are as far as
it is. -/
theorem reduceRegardless_spec (h : s.Sound chars strict) (hv : v < s.versionCount) {p : Footing}
    (hst : s.Ready strict p v) : Reduced chars strict false v s.versionCount p s (s.reduceRegardless v) :=
  reducePotentially_spec (Symbol.terminals.drop 1) false hv (fun he => by cases he) s.reductionFuel 0 v
    false s h (.inl ⟨rfl, Nat.le_refl _⟩) (Nat.le_of_lt hv) (inRound_start hst)

/-- Reductions of the last version. -/
theorem reduceOn_spec (h : s.Sound chars strict) (hv : v + 1 = s.versionCount) {p : Footing}
    (hst : s.Ready strict p v) (terminal : Symbol) :
    Reduced chars strict (terminal != .endOfInput) v s.versionCount p s (s.reduceOn v terminal).1 :=
  reducePotentially_spec
    (if terminal != .endOfInput then [terminal] else Symbol.terminals.drop 1)
    (terminal != .endOfInput) (by omega : v < s.versionCount) (fun _ => hv.symm) s.reductionFuel 0 v
    false s h (.inl ⟨rfl, Nat.le_refl _⟩) (by omega) (inRound_start hst)

/-! ## Inventing a token -/

/-- Where a terminal leads on to another state, the table has an arrow for it. -/
theorem arrow_of_nextState {q n : StateId} {t : Symbol} (ht : t.isTerminal = true)
    (h : nextState q t = n) (h0 : n ≠ 0) (hq : n ≠ q) : Arrow q t n := by
  have hs : t.isSkipped = false := by
    revert ht
    cases t <;> decide
  simp only [nextState, hs, ht, Bool.false_eq_true, ↓reduceIte] at h
  split at h
  · exact .of_last (.inl (h ▸ ‹_›))
  · exact .of_last (.inr (h ▸ ‹_›))
  · exact absurd h.symm hq
  · exact absurd h.symm h0

/-- A copy of a version stands where the version stands. -/
theorem copy_spec (s : Stack) (v : Version) : (s.copy v).versionCount = s.versionCount + 1 ∧
    Keeps s.versionCount s (s.copy v) ∧ (s.copy v).spot s.versionCount = s.spot v ∧
      ((s.copy v).head s.versionCount).status = (s.head v).status := by
  have hhead : ∀ w, (s.copy v).head w =
      if w = s.versionCount then { s.head v with landmarks := none } else s.head w :=
    fun w => getD_push ..
  have hcount : (s.copy v).versionCount = s.versionCount + 1 := Array.size_push ..
  refine ⟨hcount, ⟨.refl _, by omega, fun w hw => ?_, fun w hw => ?_⟩, ?_, ?_⟩
  · rw [hhead, if_neg (Nat.ne_of_lt hw)]
  · rw [hhead, if_neg (Nat.ne_of_lt hw)]
  · rw [spot, hhead, if_pos rfl]
    rfl
  · rw [hhead, if_pos rfl]

/-- What inventing a token does: the versions stand where they stood, and those that come into being
have their price. -/
structure Invented (chars : List Char) (strict : Prop) (s s' : Stack) : Prop where
  sound : s'.Sound chars strict
  keeps : Keeps s.versionCount s s'
  paid : ∀ w, s.versionCount ≤ w → w < s'.versionCount → 0 < (s'.spot w).cost

theorem Invented.refl (h : s.Sound chars strict) : Invented chars strict s s :=
  ⟨h, .refl (Nat.le_refl _), fun _ hw hlt => absurd hlt (Nat.not_lt.mpr hw)⟩

theorem Invented.trans {s' s'' : Stack} (h : Invented chars strict s s')
    (h' : Invented chars strict s' s'') : Invented chars strict s s'' := by
  refine ⟨h'.sound, h.keeps.trans (h'.keeps.mono h.keeps.count), fun w hw hlt => ?_⟩
  by_cases hold : w < s'.versionCount
  · rw [h'.keeps.spot_eq h.sound hold]
    exact h.paid w hw hold
  · exact h'.paid w (Nat.not_lt.mp hold) hlt

theorem inventToken_spec (v : Version) (lookahead : Symbol) (terminals : List Symbol)
    (ht : ∀ t ∈ terminals, t.isTerminal = true) (s : Stack) (h : s.Sound chars strict)
    (hv : v < s.versionCount) {p : Footing} (hst : s.Stands p v) :
    Invented chars strict s (s.inventToken v lookahead terminals).1 := by
  induction terminals generalizing s with
  | nil => exact .refl h
  | cons t terminals ih =>
    have ih' := ih fun u hu => ht u (by simp [hu])
    rw [inventToken]
    simp only
    split
    · exact ih' s h hv hst
    · rename_i hcond
      simp only [Bool.or_eq_true, beq_iff_eq, Bool.not_eq_true', not_or, Bool.not_eq_false] at hcond
      obtain ⟨⟨h0, hq⟩, hstart⟩ := hcond
      have hreduce := startsReduce_of hstart
      have harrow := arrow_of_nextState (ht t (by simp)) rfl h0 hq
      obtain ⟨c1, c2, c3, c4⟩ := copy_spec s v
      have hcopy : (s.copy v).Stands p s.versionCount := hst.of_spot ⟨c3, c4⟩
      have hlt : s.versionCount < (s.copy v).versionCount := by omega
      have hfits : Fits chars strict ((s.copy v).spot s.versionCount) (nextState (s.state v) t)
          (some (.missingToken t)) := by
        rw [c3]
        exact ⟨.invented (harrow.tested.1 (ht t (by simp)) hreduce), .arrow harrow rfl fun _ => hreduce,
          lies_missingToken (h.nodes.places _) t, fun _ hx => by cases hx⟩
      have hpush := (h.copy (v := v)).moved_push hfits fun hp => by
        rw [hcopy.awake] at hp
        cases hp
      have hlast : s.versionCount + 1 = ((s.copy v).push s.versionCount (some (.missingToken t))
          (nextState (s.state v) t)).versionCount := by
        rw [versionCount_push, c1]
      have hready : ((s.copy v).push s.versionCount (some (.missingToken t))
          (nextState (s.state v) t)).Ready strict (p.past [.missingToken t]) s.versionCount :=
        ⟨hcopy.push hlt _ _, fun _ => by rwa [state_push _ hlt]⟩
      have hreduced := reduceOn_spec hpush.sound hlast hready lookahead
      have hinvented : Invented chars strict s (reduceOn ((s.copy v).push s.versionCount
          (some (.missingToken t)) (nextState (s.state v) t)) s.versionCount lookahead).1 := by
        refine ⟨hreduced.sound, (c2.trans (hpush.keeps (Nat.le_refl _) (by omega))).trans hreduced.keeps,
          fun w hw hlt => ?_⟩
        rw [(hreduced.round w (by omega) hlt).cost]
        show 0 < p.cost + ((missingCost + recoveryCost) + 0)
        exact Nat.add_pos_right _ (by decide)
      split
      · exact hinvented
      · exact hinvented.trans (ih' _ hinvented.sound (Nat.lt_of_lt_of_le hv hinvented.keeps.count)
          (hinvented.keeps.stands h hv hst))

/-! ## Marking the error -/

theorem Sound.moved_mark (h : s.Sound chars strict) (hclear : strict → s.state v ≠ 0) :
    Moved chars strict v s (s.push v none 0) :=
  h.moved_push (t := none) ⟨rfl, hclear⟩ fun _ => rfl

/-- A version on which the error has been marked. -/
structure Erring (p : Footing) (s : Stack) (v : Version) : Prop extends Stands p s v where
  state : s.state v = 0

theorem Erring.of_spot {p : Footing} {s' : Stack} {w : Nat} (h : s.Erring p v)
    (hspot : s'.spot w = s.spot v ∧ (s'.head w).status = (s.head v).status) : s'.Erring p w :=
  ⟨h.toStands.of_spot hspot, by rw [state_eq, stateAt, ← spot, hspot.1]; exact h.state⟩

/-- The mark of an error leaves a version where it is. -/
theorem Stands.mark {p : Footing} (hst : s.Stands p v) (hv : v < s.versionCount) :
    (s.push v none 0).Erring p v := by
  refine ⟨⟨?_, (status_push ..).trans hst.active⟩, state_push s hv none 0⟩
  rw [spot_push s hv]
  exact hst.footing

/-- What marking an error on some versions does: the others stand where they stood, and those that
come into being have their price. -/
structure Marked (chars : List Char) (strict : Prop) (p : Footing) (versions : List Nat) (s s' : Stack) :
    Prop where
  sound : s'.Sound chars strict
  nodes : Extends s.nodes s'.nodes
  count : s.versionCount ≤ s'.versionCount
  erring : ∀ w ∈ versions, s'.Erring p w
  others : ∀ w < s.versionCount, w ∉ versions → s'.spot w = s.spot w
  status : ∀ w < s.versionCount, (s'.head w).status = (s.head w).status
  paid : ∀ w, s.versionCount ≤ w → w < s'.versionCount → 0 < (s'.spot w).cost

theorem markErrors_spec (lookahead : Symbol) {p : Footing} (versions : List Nat) (invented : Bool)
    (s : Stack) (h : s.Sound chars strict) (hdistinct : versions.Nodup)
    (hle : ∀ w ∈ versions, w < s.versionCount ∧ s.Ready strict p w) :
    Marked chars strict p versions s (markErrors lookahead invented s versions) := by
  induction versions generalizing invented s with
  | nil =>
    exact ⟨h, .refl _, Nat.le_refl _, (fun _ hw => nomatch hw), fun _ _ _ => rfl, fun _ _ => rfl,
      fun _ hw hlt => absurd hlt (Nat.not_lt.mpr hw)⟩
  | cons v versions ih =>
    obtain ⟨hv, hst⟩ := hle v (by simp)
    obtain ⟨hnot, hdistinct'⟩ := List.nodup_cons.mp hdistinct
    rw [markErrors]
    have hinv : ∃ s1 b, (if invented then (s, true)
        else s.inventToken v lookahead (Symbol.terminals.drop 1)) = (s1, b) ∧
        Invented chars strict s s1 := by
      cases invented with
      | true => exact ⟨s, true, rfl, .refl h⟩
      | false =>
        exact ⟨_, _, rfl, inventToken_spec v lookahead (Symbol.terminals.drop 1) (by decide) s h hv
          hst.toStands⟩
    obtain ⟨s1, b, heq, hinv⟩ := hinv
    rw [heq]
    simp only
    have hcount := hinv.keeps.count
    have hv1 : v < s1.versionCount := Nat.lt_of_lt_of_le hv hcount
    have hready := hinv.keeps.ready h hv hst
    have hmark := hinv.sound.moved_mark hready.clear
    have herring := hready.toStands.mark hv1
    obtain ⟨h1, h2, h3, h4, h5, h6, h7⟩ := ih b (s1.push v none 0) hmark.sound hdistinct' fun w hw => by
      obtain ⟨hw1, hw2⟩ := hle w (by simp [hw])
      have hne : w ≠ v := fun heq => hnot (heq ▸ hw)
      exact ⟨Nat.lt_of_lt_of_le (Nat.lt_of_lt_of_le hw1 hcount) hmark.count,
        hmark.ready hinv.sound (Nat.lt_of_lt_of_le hw1 hcount) hne (hinv.keeps.ready h hw1 hw2)⟩
    have hmcount : (s1.push v none 0).versionCount = s1.versionCount := versionCount_push ..
    refine ⟨h1, (hinv.keeps.nodes.trans hmark.nodes).trans h2, Nat.le_trans hcount (hmcount ▸ h3), ?_, ?_,
      ?_, ?_⟩
    · intro w hw
      rcases List.mem_cons.mp hw with rfl | hw
      · exact herring.of_spot ⟨h5 w (hmcount ▸ hv1) hnot, h6 w (hmcount ▸ hv1)⟩
      · exact h4 w hw
    · intro w hw hmem
      obtain ⟨hne, hmem⟩ := not_or.mp (List.mem_cons.not.mp hmem)
      have hw1 : w < s1.versionCount := Nat.lt_of_lt_of_le hw hcount
      rw [h5 w (hmcount ▸ hw1) hmem, hmark.spot_eq hinv.sound hw1 hne, hinv.keeps.spot_eq h hw]
    · intro w hw
      have hw1 : w < s1.versionCount := Nat.lt_of_lt_of_le hw hcount
      rw [h6 w (hmcount ▸ hw1), hmark.status w hw1, hinv.keeps.status w hw]
    · intro w hw hlt
      by_cases hw1 : w < s1.versionCount
      · by_cases hmem : w ∈ versions
        · have := (hle w (by simp [hmem])).1
          omega
        · rw [h5 w (hmcount ▸ hw1) hmem, hmark.spot_eq hinv.sound hw1 (by omega)]
          exact hinv.paid w hw hw1
      · exact h7 w (hmcount ▸ Nat.not_lt.mp hw1) hlt

/-- Erring versions that stand on one footing can be merged. -/
theorem canMerge_of_erring {p : Footing} {a b : Nat} (ha : s.Erring p a) (hb : s.Erring p b) :
    s.canMerge a b = true := by
  have hagree : (s.top a).agrees (s.top b) = true := by
    have hstate : (s.top a).state = (s.top b).state := ha.state.trans hb.state.symm
    have hposition : (s.top a).position = (s.top b).position := ha.position.trans hb.position.symm
    have hcost : (s.top a).errorCost = (s.top b).errorCost := ha.cost.trans hb.cost.symm
    simp [Node.agrees, hstate, hposition, hcost]
  rw [canMerge, hagree, isActive, isActive, ha.active, hb.active]
  rfl

/-- What is left after a range of versions has been merged into an earlier one: the versions behind
it move up, and the others stand where they stood. -/
structure MergedRange (chars : List Char) (strict : Prop) (first count : Nat) (s s' : Stack) : Prop where
  sound : s'.Sound chars strict
  keeps : Keeps first s s'
  count_eq : s'.versionCount + count = s.versionCount
  behind : ∀ w, first ≤ w → w < s'.versionCount → s'.spot w = s.spot (w + count) ∧
    (s'.head w).status = (s.head (w + count)).status

theorem mergeRange_spec {p : Footing} {first : Nat} (hv : v < first) (count : Nat) (s : Stack)
    (h : s.Sound chars strict) (hc : first + count ≤ s.versionCount) (herr : s.Erring p v)
    (hall : ∀ w, first ≤ w → w < first + count → s.Erring p w) :
    MergedRange chars strict first count s (mergeRange v first count s) := by
  induction count generalizing s with
  | zero => exact ⟨h, .refl hc, rfl, fun _ _ _ => ⟨rfl, rfl⟩⟩
  | succ count ih =>
    have hlt : first < s.versionCount := by omega
    have hm := canMerge_of_erring herr (hall first (Nat.le_refl _) (by omega))
    have hcount := versionCount_merge h hm hlt
    have hkeep : Keeps first s (s.merge v first) := keeps_merge h hm (Nat.le_refl _) (by omega)
    rw [mergeRange, if_pos hm]
    obtain ⟨h1, h2, h3, h4⟩ := ih (s.merge v first) (h.merge hm) (by omega)
      (herr.of_spot ⟨hkeep.spot_eq h hv, hkeep.status v hv⟩) fun w hw hw' =>
        (hall (w + 1) (by omega) (by omega)).of_spot (spot_merge h hm hlt hw (by omega))
    refine ⟨h1, hkeep.trans h2, by omega, fun w hw hw' => ?_⟩
    obtain ⟨h5, h6⟩ := h4 w hw hw'
    obtain ⟨h7, h8⟩ := spot_merge h hm hlt (w := w + count) (by omega) (by omega)
    exact ⟨h5.trans h7, h6.trans h8⟩

end Stack

end Cicode.Parse
