import Cicode.Proofs.Parse.Recovery

/-!
# Every parse is sound

One step of the parser, the bringing of a version past a token, keeps the parser sound
(`consume_spec`); so do the sorting of versions and the handling of errors, and by induction on the
rounds the whole run.

Main statement (`isWhole_parse`): whatever the text, the tree that is built for it is a root that takes
up the whole text, unless the parser found no tree at all.
-/

namespace Cicode.Parse

open Grammar Text Cicode.Lex

variable {chars : List Char} {strict : Prop}

/-! ## The cells of the table -/

/-- What a cell of the table may hold. -/
inductive Cell (q : StateId) (t : Symbol) : List Action → Prop
  | none : Cell q t []
  | shift {n : StateId} : Arrow q t n → Cell q t [.shift n]
  | extra : t = .comment → Cell q t [.shiftExtra]
  | reduce {symbol : Symbol} {count production : Nat} : Reduces q symbol count production →
      Cell q t [.reduce symbol count production]
  | reduceRepeat {symbol : Symbol} {count production : Nat} {n : StateId} :
      Reduces q symbol count production → Cell q t [.reduce symbol count production, .shiftRepeat n]
  | accept : q = 2 → t = .endOfInput → Cell q t [.accept]
  | recover : q = 0 → Cell q t [.recover]

theorem cell_actionsAt (q : StateId) (t : Symbol) : Cell q t (actionsAt q t) := by
  cases hactions : actionsAt q t with
  | nil => exact .none
  | cons a rest =>
    have ha : a ∈ actionsAt q t := by simp [hactions]
    obtain ⟨terminals, hmem, hcell⟩ := ShiftReduce.cell_of_mem ha
    rw [hactions] at hcell
    unfold ShiftReduce.isCell at hcell
    split at hcell
    · rename_i heq
      rw [heq] at hactions ⊢
      exact .shift (.of_last (.inl (by simp [hactions])))
    · rename_i heq
      obtain ⟨rfl, rfl⟩ := List.cons.inj heq
      exact .extra (comment_of_shiftExtra ha)
    · rename_i heq
      obtain ⟨rfl, rfl⟩ := List.cons.inj heq
      exact .reduce (.of_mem ha)
    · rename_i heq
      obtain ⟨rfl, rfl⟩ := List.cons.inj heq
      exact .reduceRepeat (.of_mem ha)
    · rename_i heq
      rw [heq]
      exact .recover (by simpa using hcell)
    · rename_i heq
      rw [heq]
      simp only [Bool.and_eq_true, beq_iff_eq] at hcell
      rw [hcell.2, List.mem_singleton] at hmem
      exact .accept hcell.1 hmem
    · cases hcell

/-! ## Tokens as trees -/

theorem isLookahead_ofToken {t : Token} (h : t.WellRead) : IsLookahead (.ofToken t) := by
  have hextra : (Subtree.ofToken t).isExtra = (t.symbol == .endOfInput) := rfl
  refine ⟨rfl, ?_, fun hk => (h.keyword hk).2, fun he => ?_⟩
  · by_cases he : t.symbol = .error
    · refine .inr ⟨he, rfl, rfl, ?_⟩
      show (t.symbol == .endOfInput) = false
      rw [he]
      rfl
    · exact .inl ⟨h.terminal he, rfl, rfl, h.wide he, fun hx => .inr (beq_iff_eq.mp hx)⟩
  · rw [hextra]
    exact beq_iff_eq.mpr he

/-- A keyword that a state cannot use is met by the recovery state only, which can use it.  So it is never
taken for a word. -/
theorem IsLookahead.not_asWord {t : Subtree} (h : IsLookahead t) (hk : t.facts.keyword = true)
    (hw : t.symbol ≠ .identifier) {state : StateId} (hr : reserves state t.symbol = false) :
    actionsAt state t.symbol ≠ [] := by
  have hmem := (List.mem_cons.mp (h.keyword hk)).resolve_left hw
  have hclaimed := keyword_claimed hmem state
  rw [hr, Bool.or_false, hasActions, Bool.not_eq_true', List.isEmpty_eq_false_iff] at hclaimed
  exact hclaimed

theorem Stack.status_of_isActive {s : Stack} {v : Version} (h : s.isActive v = true) :
    (s.head v).status = .active := by
  rw [Stack.isActive] at h
  cases hs : (s.head v).status with
  | active => rfl
  | paused | halted => rw [hs] at h; cases h

namespace Parser

variable {p : Parser} {v : Nat} {lookahead : Subtree} {pos : Footing} {paid : Prop}

/-! ## Advancing a version -/

theorem Paid.dear (h : p.Paid) (hv : v < p.stack.versionCount) (hst : p.stack.Stands pos v) : 0 < pos.cost := by
  rcases h.stack v hv with hhalted | hcost
  · rw [hst.active] at hhalted
    cases hhalted
  · rwa [hst.cost] at hcost

/-- What is known after the actions on a token. -/
def Turn.Holds (chars : List Char) (paid : Prop) (pos : Footing) (v : Nat) : Turn → Prop
  | .done p => Goes chars False paid v p
  | .reduced p made => Goes chars False paid v p ∧
      ∀ m, made = some m → v < m ∧ m < p.stack.versionCount ∧ p.stack.Stands pos m
  | .stuck p => Goes chars False paid v p ∧ p.stack.Stands pos v

/-- A reduction leaves the version where it is and makes later ones, as far as it. -/
theorem Goes.reduce (h : Goes chars False paid v p) {symbol : Symbol} {count production : Nat}
    (hst : p.stack.Stands pos v) (hr : Reduces (p.stack.state v) symbol count production) :
    Turn.Holds chars paid pos v
      (.reduced { p with stack := (p.stack.reduce v symbol count production).1 }
        (p.stack.reduce v symbol count production).2) := by
  obtain ⟨h1, h2, h3⟩ := h.sound.stack.reduce hr
  rw [hst.footing] at h3
  refine ⟨⟨h.sound.withStack h1, Nat.lt_of_lt_of_le h.lt_count h2.count, fun hp => ⟨fun w hw => ?_,
    (h.paid hp).finished⟩⟩, fun m hm => ?_⟩
  · by_cases hold : w < p.stack.versionCount
    · exact h2.dear h.sound.stack hold ((h.paid hp).stack w hold)
    · have hcost := (h3 w (Nat.not_lt.mp hold) hw).cost
      exact .inr (hcost.symm ▸ (h.paid hp).dear h.lt_count hst)
  · obtain ⟨rfl, hlt⟩ := Stack.made_reduce hm
    exact ⟨h.lt_count, hlt, (h3 _ (Nat.le_refl _) hlt).toStands⟩

/-- A tree is put on the version. -/
theorem Goes.push (h : Goes chars False paid v p) (hst : p.stack.Stands pos v) {t : Subtree} {n : StateId}
    (ht : Fits chars False (p.stack.spot v) n (some t)) :
    Goes chars False paid v { p with stack := p.stack.push v (some t) n } := by
  have hmoved := h.sound.stack.moved_push ht fun hp => by
    rw [hst.awake] at hp
    cases hp
  have hcount := Stack.versionCount_push p.stack v (some t) n
  refine ⟨h.sound.withStack hmoved.sound, hcount.symm ▸ h.lt_count, fun hp => ⟨fun w hw => ?_,
    (h.paid hp).finished⟩⟩
  have hw : w < p.stack.versionCount := hcount ▸ hw
  by_cases hne : w = v
  · have hcost := (hst.push h.lt_count t n).cost
    have := (h.paid hp).dear h.lt_count hst
    rw [hne]
    refine .inr (hcost.symm ▸ ?_)
    simp only [Footing.past]
    omega
  · exact hmoved.dear h.sound.stack hw hne ((h.paid hp).stack w hw)

/-- **The actions on a token keep the parser sound**, and all versions have paid after them if they had
before. -/
theorem act_spec (h : Goes chars False paid v p) (hl : IsLookahead lookahead)
    (hst : p.stack.Stands pos v) (hread : IsReadAt chars pos.position lookahead.facts) :
    (act v lookahead (actionsAt (p.stack.state v) lookahead.symbol) false none p).Holds chars paid pos v := by
  have hpush : ∀ (extra : Bool) (n : StateId), Grown (lookahead.withExtra extra) →
      Joins (p.stack.state v) (lookahead.withExtra extra) n → Turn.Holds chars paid pos v
        (.done { p with stack := p.stack.push v (some (lookahead.withExtra extra)) n }) := fun extra n hg hj =>
    h.push hst ⟨hg, hj, hst.position ▸ (hl.lies hread).withExtra extra, nofun⟩
  have hmissing : ∀ extra, (lookahead.withExtra extra).facts.missing = false := by
    intro extra
    obtain ⟨facts, children⟩ := lookahead
    rcases hl.kinds with ht | hu
    · exact ht.present
    · exact hu.present
  have hcost : paid → OthersPaid v p ∧ 0 < pos.cost := fun hp =>
    ⟨(h.paid hp).others, (h.paid hp).dear h.lt_count hst⟩
  have hcell := cell_actionsAt (p.stack.state v) lookahead.symbol
  generalize actionsAt (p.stack.state v) lookahead.symbol = actions at hcell ⊢
  cases hcell with
  | none => exact ⟨h, hst⟩
  | shift ha =>
    refine hpush _ _ (hl.grown_withExtra fun he => by cases he) (.arrow (by simpa using ha) (by simp) fun hm => ?_)
    rw [hmissing] at hm
    cases hm
  | extra hc => exact hpush _ _ (hl.grown_withExtra fun _ => hc) (.stray (by simp))
  | reduce hr | reduceRepeat hr =>
    simp only [act, Option.orElse_eq_orElse, Option.orElse_eq_or, Option.or_none]
    exact h.reduce hst hr
  | accept hq hend => exact (h.sound.accept h.lt_count hl hend (.inr hq) hst hread).imp hcost
  | recover hq =>
    refine (h.sound.recover h.lt_count hq hl hst hread).imp fun hp => ⟨(hcost hp).1, ?_⟩
    exact fun _ _ _ _ => .inl (hst.cost.symm ▸ (hcost hp).2)

theorem actions_of_stuck {q : StateId} {p' : Parser}
    (h : act v lookahead (actionsAt q lookahead.symbol) false none p = .stuck p') :
    actionsAt q lookahead.symbol = [] := by
  have hcell := cell_actionsAt q lookahead.symbol
  generalize actionsAt q lookahead.symbol = actions at hcell h
  cases hcell with
  | none => rfl
  | shift | extra | reduce | reduceRepeat | accept | recover => cases h

theorem Goes.halt (h : Goes chars False paid v p) :
    Goes chars False paid v { p with stack := p.stack.halt v } := by
  refine ⟨h.sound.withStack h.sound.stack.halt, ?_, fun hp => (h.paid hp).others.halt h.lt_count⟩
  show v < (p.stack.halt v).versionCount
  rw [Stack.versionCount_halt]
  exact h.lt_count

/-- A version that waits has paid if it had. -/
theorem Goes.pause (h : Goes chars False paid v p) (hst : p.stack.Stands pos v) (hl : IsLookahead lookahead)
    (hread : IsReadAt chars pos.position lookahead.facts) :
    Goes chars False paid v { p with stack := p.stack.pause v lookahead } := by
  have hcount : (p.stack.pause v lookahead).versionCount = p.stack.versionCount := Stack.versionCount_modifyHead ..
  refine ⟨h.sound.withStack (h.sound.stack.pause hl (hst.position ▸ hread)), hcount.symm ▸ h.lt_count,
    fun hp => ⟨fun w hw => ?_, (h.paid hp).finished⟩⟩
  have hw : w < p.stack.versionCount := hcount ▸ hw
  have hspot : (p.stack.pause v lookahead).spot w = p.stack.spot w := by
    rw [Stack.spot, Stack.pause, Stack.head_modifyHead, apply_ite Head.node]
    exact congrArg (spotAt p.stack.nodes) (ite_self _)
  by_cases hne : w = v
  · refine .inr ?_
    rw [hspot, hne, hst.cost]
    exact (h.paid hp).dear h.lt_count hst
  · refine ((h.paid hp).stack w hw).of_spot ⟨hspot, ?_⟩
    rw [Stack.pause, Stack.head_modifyHead, if_neg fun hc => hne hc.1.symm]

/-- The version that a reduction made takes the place of the one that was reduced. -/
theorem Goes.renumber (h : Goes chars False paid v p) {source : Nat} (hlt : v < source)
    (hcount : source < p.stack.versionCount) :
    Goes chars False paid v { p with stack := p.stack.renumber source v } := by
  obtain ⟨r1, r2, r3, r4⟩ := Stack.renumber_spec hlt hcount
  have hspot : ∀ w < p.stack.versionCount - 1, ∃ u < p.stack.versionCount,
      (p.stack.renumber source v).spot w = p.stack.spot u ∧
        ((p.stack.renumber source v).head w).status = (p.stack.head u).status := by
    intro w hw
    by_cases hwv : w = v
    · rw [hwv]
      exact ⟨source, hcount, Stack.spot_renumber hlt hcount⟩
    by_cases hws : w < source
    · refine ⟨w, by omega, ?_, by rw [r3 w hws hwv]⟩
      rw [Stack.spot, r3 w hws hwv, r2]
      rfl
    · refine ⟨w + 1, by omega, ?_, by rw [r4 w (Nat.not_lt.mp hws)]⟩
      rw [Stack.spot, r4 w (Nat.not_lt.mp hws), r2]
      rfl
  refine ⟨h.sound.withStack h.sound.stack.renumber, ?_, fun hp => ⟨fun w hw => ?_, (h.paid hp).finished⟩⟩
  · show v < (p.stack.renumber source v).versionCount
    rw [r1]
    exact Nat.lt_of_lt_of_le hlt (Nat.le_sub_one_of_lt hcount)
  · obtain ⟨u, hu, hsame⟩ := hspot w (r1 ▸ hw)
    exact ((h.paid hp).stack u hu).of_spot hsame

/-- **Bringing a version past a token keeps the parser sound**, and all versions have paid after it if
they had before. -/
theorem consume_spec (fuel : Nat) (lookahead : Subtree) (p : Parser) (h : Goes chars False paid v p)
    (hl : IsLookahead lookahead) (hst : p.stack.Stands pos v)
    (hread : IsReadAt chars pos.position lookahead.facts) :
    Goes chars False paid v (consume v fuel lookahead p) := by
  induction fuel generalizing lookahead p with
  | zero => exact h.halt
  | succ fuel ih =>
    have hact := act_spec h hl hst hread
    rw [consume]
    split
    · rename_i p' heq
      rw [heq] at hact
      exact hact
    · rename_i p' source heq
      rw [heq] at hact
      obtain ⟨h1, h2⟩ := hact
      obtain ⟨hlt, hlt', hst'⟩ := h2 source rfl
      exact ih _ _ (h1.renumber hlt hlt') hl (hst'.of_spot (Stack.spot_renumber hlt hlt')) hread
    · rename_i p' heq
      rw [heq] at hact
      exact hact.1.halt
    · rename_i p' heq
      rw [heq] at hact
      split
      · rename_i hcond
        simp only [Bool.and_eq_true, bne_iff_ne, Bool.not_eq_true'] at hcond
        obtain ⟨⟨⟨hk, hw⟩, hr⟩, -⟩ := hcond
        exact absurd (actions_of_stuck heq) (hl.not_asWord hk hw hr)
      · exact hact.1.pause hact.2 hl hread

theorem advance_spec (h : Goes chars False paid v p) (ha : p.stack.isActive v = true) :
    Goes chars False paid v (p.advance v) := by
  rw [advance]
  refine consume_spec _ _ p h (isLookahead_ofToken (wellRead_nextToken ..))
    ⟨rfl, Stack.status_of_isActive ha⟩ ?_
  rw [h.sound.source]
  exact isReadAt_ofToken (h.sound.stack.nodes.places _) _

/-- A sound parser all of whose versions have paid if anything was to be paid. -/
structure Runs (chars : List Char) (paid : Prop) (p : Parser) : Prop where
  sound : p.Sound chars False
  paid : paid → p.Paid

theorem advancePast_spec (fuel reached : Nat) (p : Parser) (h : Goes chars False paid v p) :
    Runs chars paid (advancePast v fuel reached p).2 := by
  induction fuel generalizing p with
  | zero => exact ⟨h.sound, h.paid⟩
  | succ fuel ih =>
    rw [advancePast]
    split
    · have hadvance := advance_spec h ‹_›
      simp only
      split
      · exact ⟨hadvance.sound, hadvance.paid⟩
      · exact ih _ hadvance
    · exact ⟨h.sound, h.paid⟩

theorem advanceAll_spec (fuel steps v reached : Nat) (p : Parser) (h : Runs chars paid p) :
    Runs chars paid (advanceAll fuel steps v reached p).2 := by
  induction fuel generalizing v reached p with
  | zero => exact h
  | succ fuel ih =>
    rw [advanceAll]
    split
    · exact ih _ _ _ (advancePast_spec _ _ _ ⟨h.sound, ‹_›, h.paid⟩)
    · exact h

end Parser

/-! ## Sorting the versions -/

namespace Stack

/-- Every version stands where one of the old versions stood, and waits or takes part as that one did. -/
def Selects (s s' : Stack) : Prop :=
  ∀ w < s'.versionCount, ∃ u < s.versionCount,
    s'.spot w = s.spot u ∧ (s'.head w).status = (s.head u).status

variable {s s' s'' : Stack} {v : Nat}

theorem Selects.refl (s : Stack) : Selects s s := fun w hw => ⟨w, hw, rfl, rfl⟩

theorem Selects.trans (h : Selects s s') (h' : Selects s' s'') : Selects s s'' := by
  intro w hw
  obtain ⟨u, hu, hspot, hstatus⟩ := h' w hw
  obtain ⟨t, ht, hspot', hstatus'⟩ := h u hu
  exact ⟨t, ht, hspot.trans hspot', hstatus.trans hstatus'⟩

/-- Of versions that have all paid, those that are left have paid. -/
theorem Selects.dear (h : Selects s s') (hs : ∀ u < s.versionCount, s.Dear u) :
    ∀ w < s'.versionCount, s'.Dear w := by
  intro w hw
  obtain ⟨u, hu, hsame⟩ := h w hw
  exact (hs u hu).of_spot hsame

theorem Keeps.selects (h : Keeps s.versionCount s s') (hs : s.Sound chars strict)
    (hc : s'.versionCount = s.versionCount) : Selects s s' :=
  fun w hw => ⟨w, hc ▸ hw, h.spot_eq hs (hc ▸ hw), h.status w (hc ▸ hw)⟩

theorem selects_of_heads {heads : Array Head} (hh : ∀ head ∈ heads, head ∈ s.heads) :
    Selects s { s with heads } := by
  intro w hw
  have hw' : w < heads.size := hw
  obtain ⟨u, hu, heq⟩ := Array.mem_iff_getElem.mp (hh _ (Array.getElem_mem hw'))
  have hhead : ({ s with heads } : Stack).head w = s.head u := by
    simp [head, Array.getD_eq_getD_getElem?, hw', hu, heq]
  refine ⟨u, hu, ?_, by rw [hhead]⟩
  rw [spot, hhead]
  rfl

theorem selects_settle (h : s.Sound chars strict) : Selects s (s.settle v) :=
  keeps_settle.selects h versionCount_settle

theorem selects_remove : Selects s (s.remove v) := by
  intro w hw
  rw [versionCount_remove] at hw
  by_cases hv : v < s.versionCount ∧ v ≤ w
  · rw [if_pos hv.1] at hw
    exact ⟨w + 1, by omega, spot_remove hv.1 hv.2⟩
  · have hhead : (s.remove v).head w = s.head w := by rw [head_remove, if_neg hv]
    refine ⟨w, by split at hw <;> omega, ?_, by rw [hhead]⟩
    rw [spot, hhead]
    rfl

theorem selects_merge (h : s.Sound chars strict) {a b : Version} (hm : s.canMerge a b = true) :
    Selects s (s.merge a b) := by
  obtain ⟨t, -, hk, hc, heq⟩ := merge_spec h hm
  rw [heq]
  exact (hk.selects h hc).trans selects_remove

theorem selects_swap {a b : Version} : Selects s (s.swap a b) := by
  refine selects_of_heads fun head hh => ?_
  obtain ⟨k, hk, rfl⟩ := Array.mem_iff_getElem.mp hh
  rw [Array.getElem_swapIfInBounds]
  split
  · exact Array.getElem_mem _
  · split
    · exact Array.getElem_mem _
    · exact Array.getElem_mem _

theorem selects_take {n : Nat} : Selects s { s with heads := s.heads.take n } :=
  selects_of_heads fun _ hh => mem_of_mem_extract hh

theorem sortIn_spec (own : Standing) (fuel version other : Nat) (s : Stack) (h : s.Sound chars strict) :
    (sortIn own fuel version other s).1.Sound chars strict ∧ Selects s (sortIn own fuel version other s).1 := by
  induction fuel generalizing version other s with
  | zero => exact ⟨h, .refl s⟩
  | succ fuel ih =>
    rw [sortIn]
    split
    · have hs : (s.settle other).Sound chars strict := h.settle
      have hsel : Selects s (s.settle other) := selects_settle h
      simp only
      generalize s.settle other = t at hs hsel
      have hgo : ∀ t' : Stack, t'.Sound chars strict ∧ Selects t t' → ∀ version other,
          (sortIn own fuel version other t').1.Sound chars strict ∧
            Selects s (sortIn own fuel version other t').1 := by
        intro t' ht' version other
        obtain ⟨h1, h2⟩ := ih version other t' ht'.1
        exact ⟨h1, (hsel.trans ht'.2).trans h2⟩
      split
      · exact ⟨hs.remove, hsel.trans selects_remove⟩
      · split
        · exact ⟨hs.merge ‹_›, hsel.trans (selects_merge hs ‹_›)⟩
        · exact hgo _ ⟨hs, .refl t⟩ _ _
      · split
        · exact ⟨hs.merge ‹_›, hsel.trans (selects_merge hs ‹_›)⟩
        · exact hgo _ ⟨hs, .refl t⟩ _ _
      · split
        · exact ⟨hs.merge ‹_›, hsel.trans (selects_merge hs ‹_›)⟩
        · exact hgo _ ⟨hs.swap, selects_swap⟩ _ _
      · exact hgo _ ⟨hs.remove, selects_remove⟩ _ _
    · exact ⟨h, .refl s⟩

theorem sort_spec (fuel version : Nat) (least : Option Nat) (s : Stack) (h : s.Sound chars strict) :
    (sort fuel version least s).1.Sound chars strict ∧ Selects s (sort fuel version least s).1 := by
  induction fuel generalizing version least s with
  | zero => exact ⟨h, .refl s⟩
  | succ fuel ih =>
    rw [sort]
    split
    · split
      · obtain ⟨h1, h2⟩ := ih version least _ (h.remove (v := version))
        exact ⟨h1, selects_remove.trans h2⟩
      · have hsorted := sortIn_spec ((s.settle version).standing version) (version + 1) version 0 _
          (h.settle (v := version))
        simp only
        generalize sortIn _ _ _ _ _ = sorted at hsorted
        obtain ⟨h1, h2⟩ := ih (sorted.2 + 1) _ _ hsorted.1
        exact ⟨h1, ((selects_settle h).trans hsorted.2).trans h2⟩
    · exact ⟨h, .refl s⟩

end Stack

namespace Parser

variable {paid : Prop}

theorem Runs.select {p : Parser} (h : Runs chars paid p) {s : Stack}
    (hs : s.Sound chars False ∧ Stack.Selects p.stack s) : Runs chars paid { p with stack := s } :=
  ⟨h.sound.withStack hs.1, fun hp => ⟨hs.2.dear (h.paid hp).stack, (h.paid hp).finished⟩⟩

/-- A version that waited takes part again, where it stood. -/
theorem ready_resume {s : Stack} {v : Nat} (hv : v < s.versionCount) (hclear : strict → s.state v ≠ 0) :
    (s.resume v).Ready strict (s.spot v).footing v := by
  have hhead : (s.resume v).head v = { s.head v with status := .active } := by
    rw [Stack.resume, Stack.head_modifyHead, if_pos ⟨rfl, hv⟩]
  have hspot : (s.resume v).spot v = s.spot v := by
    rw [Stack.spot, hhead]
    rfl
  refine ⟨⟨by rw [hspot], by rw [hhead]⟩, ?_⟩
  rw [Stack.state_eq, stateAt, ← Stack.spot, hspot]
  exact hclear

theorem resumePaused_spec (fuel version count : Nat) (unpaused : Bool) (least : Option Nat) (p : Parser)
    (h : Runs chars paid p) : Runs chars paid (resumePaused fuel version count unpaused least p).1 := by
  induction fuel generalizing version count unpaused least p with
  | zero => exact h
  | succ fuel ih =>
    rw [resumePaused]
    split
    · split
      · rename_i lookahead hpaused
        split
        · -- A version that waits is one of those that there are.
          have hv : version < p.stack.versionCount := by
            by_contra hge
            rw [Stack.head_of_count_le (Nat.not_lt.mp hge)] at hpaused
            cases hpaused
          have hresume : (p.stack.resume version).versionCount = p.stack.versionCount :=
            Stack.versionCount_modifyHead ..
          obtain ⟨hl, hread⟩ := (h.sound.stack.heads version).lookahead lookahead hpaused
          have hready : (p.stack.resume version).Ready False (p.stack.spot version).footing version :=
            ready_resume hv nofun
          have hhandled := (h.sound.withStack h.sound.stack.resume).handleError (hresume.symm ▸ hv) hl hready hread
          refine ih _ _ _ _ _ ⟨hhandled.sound, fun hp => hhandled.paid ⟨⟨fun w hw hne => ?_, ?_⟩, .inl ?_⟩⟩
          · refine ((h.paid hp).stack w (hresume ▸ hw)).of_spot ?_
            have hhead : (p.stack.resume version).head w = p.stack.head w := by
              rw [Stack.resume, Stack.head_modifyHead, if_neg fun hc => hne hc.1.symm]
            refine ⟨?_, by rw [hhead]⟩
            rw [Stack.spot, hhead]
            rfl
          · exact (h.paid hp).finished
          · refine ((h.paid hp).stack version hv).resolve_left fun hhalted => ?_
            rw [hpaused] at hhalted
            cases hhalted
        · exact ih _ _ _ _ _ (h.select ⟨h.sound.stack.remove, Stack.selects_remove⟩)
      · exact ih _ _ _ _ _ h
    · exact h

theorem condense_spec {p : Parser} (h : Runs chars paid p) : Runs chars paid p.condense.1 := by
  have hsorted := Stack.sort_spec (p.stack.versionCount + 1) 0 none p.stack h.sound.stack
  rw [condense]
  simp only
  generalize Stack.sort _ _ _ _ = sorted at hsorted
  exact resumePaused_spec _ _ _ _ _ _ (h.select ⟨hsorted.1.take, hsorted.2.trans Stack.selects_take⟩)

/-! ## The whole text -/

theorem run_spec (fuel reached : Nat) (p : Parser) (h : Runs chars paid p) :
    Runs chars paid (run fuel reached p) := by
  induction fuel generalizing reached p with
  | zero => exact h
  | succ fuel ih =>
    have hcondense := condense_spec (advanceAll_spec (fuel + 1) (fuel + 1) 0 reached p h)
    rw [run]
    simp only
    split
    · exact hcondense
    · exact ih _ _ hcondense

end Parser

theorem Stack.sound_initial (chars : List Char) (strict : Prop) : Stack.initial.Sound chars strict := by
  have hnode : ∀ id, (Stack.initial.nodes.getD id default).links = [] ∧
      (spotAt Stack.initial.nodes id).footing = ⟨0, 0⟩ := by
    intro id
    rcases id with - | id
    · exact ⟨rfl, rfl⟩
    · have hdefault := getD_of_size_le (a := Stack.initial.nodes) (Nat.le_add_left 1 id)
      rw [spotAt, hdefault]
      exact ⟨rfl, rfl⟩
  refine ⟨⟨by decide, fun id link hl => ?_, fun id => ?_, fun id _ => ⟨(hnode id).2, fun hlt => ?_⟩⟩, fun v => ?_⟩
  · rw [(hnode id).1] at hl
    cases hl
  · rw [show (spotAt Stack.initial.nodes id).position = 0 from congrArg Footing.position (hnode id).2]
    exact .zero chars
  · exact Nat.lt_one_iff.mp hlt
  · rcases v with - | v
    · exact ⟨by decide, fun _ heq => by cases heq⟩
    · rw [Stack.head_of_count_le (Nat.le_add_left 1 v)]
      exact ⟨by decide, fun _ heq => by cases heq⟩

/-- A text that is given up is taken up whole. -/
theorem isWhole_unread (chars : List Char) : Parser.IsWhole chars (unread chars) := by
  have hlies : LieAll chars 0 [.ofToken { symbol := .error, padding := 0, size := Extent.of chars }] := by
    refine lieAll_singleton.mpr (.leaf (.zero chars) ?_ ?_ fun hname => nomatch hname)
    · exact Extent.add_zero 0 ▸ .zero chars
    · rw [Extent.add_zero, Extent.zero_add]
      exact .last chars
  refine ⟨.gaveUp ?_, hlies.lies_ofChildren (.zero chars) _ _, ?_⟩
  · exact fun c hc => List.mem_singleton.mp hc ▸ .unreadable ⟨rfl, rfl, rfl, rfl⟩
  · rw [unread, Subtree.totalSize_ofChildren, extentOf_cons, extentOf_nil, Extent.add_zero]
    exact Extent.zero_add _

/-- **The tree of a text is a root that takes it up whole.** -/
theorem isWhole_parse (chars : List Char) : Parser.IsWhole chars (parse chars) := by
  have hstart : Parser.Runs chars False { source := Source.ofList chars, stack := .initial } :=
    ⟨⟨rfl, Stack.sound_initial chars False, fun _ heq => by cases heq⟩, nofun⟩
  have hrun := Parser.run_spec (roundBound (Source.ofList chars)) 0 _ hstart
  rw [parse]
  cases hf : (Parser.run (roundBound (Source.ofList chars)) 0
    { source := Source.ofList chars, stack := .initial }).finished with
  | none => exact isWhole_unread chars
  | some tree => exact hrun.sound.finished tree hf

theorem isRoot_parse (chars : List Char) : IsRoot (parse chars) := (isWhole_parse chars).isRoot

end Cicode.Parse
