import Cicode.Proofs.Parse.Landmarks
import Cicode.Proofs.Parse.Return
import Cicode.Proofs.Parse.Whole

/-!
# Recovery keeps the parser sound

A version on which an error was met is in the recovery state until it returns or is given up with the
text.  Whatever the error, the parser is sound after it (`Sound.handleError`).  If all other versions
have paid for a repair, all of them have paid after it.
-/

namespace Cicode.Parse

open Grammar Text

variable {chars : List Char} {strict : Prop}

/-- The token that comes next lies where it was read. -/
theorem IsLookahead.lies {t : Subtree} (h : IsLookahead t) {p : Extent}
    (hread : IsReadAt chars p t.facts) : Lies chars p t := by
  obtain ⟨facts, children⟩ := t
  obtain rfl : children = [] := h.leaf
  exact hread.lies

/-- The token that comes next is a grown tree. -/
theorem IsLookahead.grown {t : Subtree} (h : IsLookahead t) : Grown t := by
  obtain ⟨facts, children⟩ := t
  obtain rfl : children = [] := h.leaf
  rcases h.kinds with ht | hu
  · exact .token ht
  · exact .unreadable hu

/-- Marked as an extra or not, as long as it may be one. -/
theorem IsLookahead.grown_withExtra {t : Subtree} (h : IsLookahead t) {extra : Bool}
    (he : extra = true → t.symbol = .comment) : Grown (t.withExtra extra) := by
  obtain ⟨facts, children⟩ := t
  obtain rfl : children = [] := h.leaf
  rcases h.kinds with ht | hu
  · exact .token ⟨ht.terminal, ht.free, ht.present, ht.wide, fun hx => .inl (he hx)⟩
  · refine .unreadable ⟨hu.symbol_eq, hu.free, hu.present, ?_⟩
    cases extra with
    | false => rfl
    | true => cases hu.symbol_eq.symm.trans (he rfl)

namespace Parser

variable {p : Parser} {v : Nat}

/-- A root that takes up the whole text. -/
structure IsWhole (chars : List Char) (t : Subtree) : Prop where
  isRoot : IsRoot t
  lies : Lies chars 0 t
  total : t.totalSize = Extent.of chars

/-- A parser of the text with a sound stack, whose tree of the whole text is a root. -/
structure Sound (chars : List Char) (strict : Prop) (p : Parser) : Prop where
  source : p.source = .ofList chars
  stack : p.stack.Sound chars strict
  finished : ∀ t, p.finished = some t → IsWhole chars t

/-- All versions have paid for a repair, and so has the tree of the whole text. -/
structure Paid (p : Parser) : Prop where
  stack : ∀ w < p.stack.versionCount, p.stack.Dear w
  finished : ∀ t, p.finished = some t → 0 < t.errorCost

/-- All versions but one have paid for a repair. -/
structure OthersPaid (v : Version) (p : Parser) : Prop where
  stack : ∀ w < p.stack.versionCount, w ≠ v → p.stack.Dear w
  finished : ∀ t, p.finished = some t → 0 < t.errorCost

theorem Paid.others (h : p.Paid) : OthersPaid v p := ⟨fun w hw _ => h.stack w hw, h.finished⟩

/-- The last version pays, or is given up. -/
theorem OthersPaid.paid (h : OthersPaid v p) {s : Stack}
    (hs : ∀ w < s.versionCount, w ≠ v → w < p.stack.versionCount ∧ (p.stack.Dear w → s.Dear w))
    (hv : s.Dear v) : ({ p with stack := s } : Parser).Paid := by
  refine ⟨fun w hw => ?_, h.finished⟩
  by_cases hne : w = v
  · exact hne ▸ hv
  · obtain ⟨h1, h2⟩ := hs w hw hne
    exact h2 (h.stack w h1 hne)

theorem OthersPaid.halt (h : OthersPaid v p) (hv : v < p.stack.versionCount) :
    ({ p with stack := p.stack.halt v } : Parser).Paid :=
  h.paid (fun _ hw _ => ⟨Stack.versionCount_halt ▸ hw, Stack.Dear.halt⟩) (Stack.dear_halt hv)

/-- What becomes of a parser with a version in it: the parser is sound, the version is there, and if
something has been paid, so have all versions. -/
structure Goes (chars : List Char) (strict paid : Prop) (v : Nat) (p : Parser) : Prop where
  sound : p.Sound chars strict
  lt_count : v < p.stack.versionCount
  paid : paid → p.Paid

theorem Sound.withStack (h : p.Sound chars strict) {s : Stack} (hs : s.Sound chars strict) :
    ({ p with stack := s } : Parser).Sound chars strict :=
  ⟨h.source, hs, h.finished⟩

theorem Sound.relax (h : p.Sound chars strict) : p.Sound chars False :=
  ⟨h.source, h.stack.relax, h.finished⟩

theorem Sound.finish (h : p.Sound chars strict) {t : Subtree} (ht : IsWhole chars t) :
    (p.finish t).Sound chars strict := by
  refine ⟨h.source, h.stack, fun u hu => ?_⟩
  rw [Parser.finish] at hu
  cases hf : p.finished with
  | none =>
    simp only [hf] at hu
    cases hu
    exact ht
  | some old =>
    simp only [hf] at hu
    split at hu
    · rw [← Option.some.inj hu]
      exact ht
    · rw [← Option.some.inj hu]
      exact h.finished old hf

theorem finish_price (h : ∀ t, p.finished = some t → 0 < t.errorCost) {t : Subtree}
    (ht : 0 < t.errorCost) : ∀ u, (p.finish t).finished = some u → 0 < u.errorCost := by
  intro u hu
  rw [Parser.finish] at hu
  cases hf : p.finished with
  | none =>
    simp only [hf] at hu
    exact Option.some.inj hu ▸ ht
  | some old =>
    simp only [hf] at hu
    split at hu
    · exact Option.some.inj hu ▸ ht
    · exact Option.some.inj hu ▸ h old hf

/-- **Accepting a text keeps the parser sound**, and its tree has a price if the version has. -/
theorem Sound.accept (h : p.Sound chars False) (hv : v < p.stack.versionCount) {lookahead : Subtree}
    (hl : IsLookahead lookahead) (hend : lookahead.symbol = .endOfInput)
    (hq : p.stack.state v = 1 ∨ p.stack.state v = 2) {pos : Footing} (hst : p.stack.Stands pos v)
    (hread : IsReadAt chars pos.position lookahead.facts) :
    Goes chars False (OthersPaid v p ∧ 0 < pos.cost) v (p.accept v lookahead) := by
  have hpush := h.stack.moved_push (v := v) (t := some lookahead) (n := 1)
    ⟨hl.grown, .ending hend (hl.ending hend) hq, hst.position ▸ hl.lies hread, nofun⟩ fun hp => by
      rw [hst.awake] at hp
      cases hp
  have hd := Stack.popAll_spec hpush.sound v
  have hfoot : ((p.stack.spot v).above 1 (some lookahead)).footing = pos.past [lookahead] := by
    rw [Spot.footing_above, hst.footing]
  have hlast : (pos.past [lookahead]).position = Extent.of chars := by
    have hlast := hread.last hend
    rw [Extent.add_assoc] at hlast
    rw [Footing.past, extentOf_cons, extentOf_nil, Extent.add_zero]
    exact hlast
  rw [Stack.spot_push _ hv] at hd
  have hkeep := hd.keeps
  have hcovered := hd.covered
  rw [Stack.versionCount_push] at hkeep hcovered
  rw [Parser.accept, Stack.popAll]
  generalize Stack.descendFrom _ _ _ _ = d at hd hkeep hcovered
  -- All ways end at the one node at the bottom.
  have hslices : ∀ slice ∈ d.slices, (d.stack.head slice.version).node = 0 ∧
      ∀ root, rootOf slice.subtrees = some root →
        IsWhole chars root ∧ (0 < pos.cost → 0 < root.errorCost) := by
    intro slice hmem
    obtain ⟨-, -, ⟨path, ⟨⟨limit, hpath⟩, hlinks⟩, hsub, hnode⟩, -⟩ := hd.slices slice hmem
    obtain ⟨hground, hbottom⟩ := hpush.sound.nodes.ground path.node hlinks
    refine ⟨hnode.trans (hbottom hpath.lt), fun root hroot => ?_⟩
    rw [hsub] at hroot
    have hlies := hpath.lies
    have hreach := hpath.reach
    rw [hground, hfoot] at hreach
    rw [show (spotAt _ path.node).position = 0 from congrArg Footing.position hground] at hlies
    have hposition := congrArg Footing.position hreach
    have hcost := congrArg Footing.cost hreach
    rw [hlast, Footing.past, Extent.zero_add] at hposition
    simp only [Footing.past, Nat.zero_add, priceOf_cons] at hcost
    obtain ⟨h1, h2⟩ := lies_rootOf hpath.way (.inl rfl) hlies hroot
    exact ⟨⟨isRoot_rootOf hpath.way (.inl rfl) hroot, h1, h2.trans hposition⟩,
      fun hpaid => price_rootOf hpath.way (.inl rfl) hroot (by omega)⟩
  simp only
  generalize hfin : List.foldl _ _ d.slices = r
  -- Every tree that is found is a root, and the stack stays as it is.
  have hfold : r.Sound chars False ∧ r.stack = d.stack ∧ (OthersPaid v p ∧ 0 < pos.cost →
      ∀ t, r.finished = some t → 0 < t.errorCost) := by
    rw [← hfin]
    refine List.foldlRecOn (motive := fun q : Parser => q.Sound chars False ∧ q.stack = d.stack ∧
      (OthersPaid v p ∧ 0 < pos.cost → ∀ t, q.finished = some t → 0 < t.errorCost)) d.slices _
      ⟨h.withStack hd.sound, rfl, fun hpaid => hpaid.1.finished⟩ fun q hq slice hmem => ?_
    cases hroot : rootOf slice.subtrees with
    | none => exact hq
    | some root =>
      obtain ⟨hwhole, hprice⟩ := (hslices slice hmem).2 root hroot
      exact ⟨hq.1.finish hwhole, hq.2.1, fun hpaid => finish_price (hq.2.2 hpaid) (hprice hpaid.2)⟩
  obtain ⟨hr, hstack, hfinished⟩ := hfold
  have hclose : ∀ s : Stack, s.Sound chars False → s.versionCount = p.stack.versionCount →
      Stack.Keeps p.stack.versionCount (p.stack.push v (some lookahead) 1) s →
      Goes chars False (OthersPaid v p ∧ 0 < pos.cost) v { r with stack := s.halt v } := by
    intro s hs hcount hkeeps
    have hvs : v < s.versionCount := hcount ▸ hv
    refine ⟨⟨hr.source, hs.halt, hr.finished⟩, ?_, fun hpaid => ⟨fun w hw => ?_, hfinished hpaid⟩⟩
    · show v < (s.halt v).versionCount
      rwa [Stack.versionCount_halt]
    rw [Stack.versionCount_halt, hcount] at hw
    by_cases hne : w = v
    · subst hne
      exact Stack.dear_halt hvs
    · exact (hkeeps.dear hpush.sound hw (hpush.dear h.stack hw hne (hpaid.1.stack w hw hne))).halt
  -- The version that the ways end with is dropped.
  split
  · rename_i slice rest heq
    have hfirst := hslices slice (by simp [heq])
    obtain ⟨hle, hlt, -, -⟩ := hd.slices slice (by simp [heq])
    rw [Stack.versionCount_push] at hle
    have honly : ∀ w, p.stack.versionCount ≤ w → w < d.stack.versionCount → w = slice.version := by
      intro w hw hwlt
      obtain ⟨x, hx, rfl⟩ := hcovered w hw hwlt
      exact hd.apart x hx slice (by simp [heq]) ((hslices x hx).1.trans hfirst.1.symm)
    have hleast := honly p.stack.versionCount (Nat.le_refl _) (Nat.lt_of_le_of_lt hle hlt)
    have hgreatest := honly (d.stack.versionCount - 1)
      (Nat.le_sub_one_of_lt (Nat.lt_of_le_of_lt hle hlt)) (Nat.sub_one_lt_of_lt hlt)
    rw [hstack]
    refine hclose _ hd.sound.remove ?_ (hkeep.trans (Stack.keeps_remove hle hkeep.count))
    rw [Stack.versionCount_remove, if_pos hlt]
    omega
  · rename_i hnil
    rw [hstack]
    refine hclose _ hd.sound ?_ hkeep
    by_contra hne
    obtain ⟨x, hx, -⟩ := hcovered p.stack.versionCount (Nat.le_refl _)
      (Nat.lt_of_le_of_ne hkeep.count (Ne.symm hne))
    rw [hnil] at hx
    cases hx

/-! ## Comparing versions -/

/-- The versions stand where they stood. -/
structure Compared (chars : List Char) (strict : Prop) (s s' : Stack) : Prop where
  sound : s'.Sound chars strict
  keeps : Stack.Keeps s.versionCount s s'
  count : s'.versionCount = s.versionCount

theorem Compared.trans {s s' s'' : Stack} (h : Compared chars strict s s') (h' : Compared chars strict s' s'') : Compared chars strict s s'' :=
  ⟨h'.sound, h.keeps.trans (h.count ▸ h'.keeps), h'.count.trans h.count⟩

theorem compared_settle {s : Stack} (h : s.Sound chars strict) (w : Nat) : Compared chars strict s (s.settle w) :=
  ⟨h.settle, Stack.keeps_settle, Stack.versionCount_settle⟩

/-- Settling versions one after the other. -/
theorem compared_foldl {f : Stack × Bool → Nat → Stack × Bool} {versions : List Nat}
    {x y : Stack × Bool} (heq : versions.foldl f x = y) (h : x.1.Sound chars strict)
    (hf : ∀ x other, (f x other).1 = x.1 ∨ (f x other).1 = x.1.settle other) :
    Compared chars strict x.1 y.1 := by
  subst heq
  induction versions generalizing x with
  | nil => exact ⟨h, .refl (Nat.le_refl _), rfl⟩
  | cons other versions ih =>
    rw [List.foldl_cons]
    have hstep : Compared chars strict x.1 (f x other).1 := by
      rcases hf x other with heq | heq <;> rw [heq]
      · exact ⟨h, .refl (Nat.le_refl _), rfl⟩
      · exact compared_settle h other
    exact hstep.trans (ih hstep.sound)

theorem Sound.betterVersionExists (h : p.Sound chars strict) (cost : Nat) :
    (p.betterVersionExists v cost).1.Sound chars strict ∧
      Compared chars strict p.stack (p.betterVersionExists v cost).1.stack ∧
      (p.betterVersionExists v cost).1.finished = p.finished := by
  rw [Parser.betterVersionExists]
  split
  · exact ⟨h, ⟨h.stack, .refl (Nat.le_refl _), rfl⟩, rfl⟩
  · simp only
    generalize heq : List.foldl _ _ _ = found
    have hc := (compared_settle h.stack v).trans (compared_foldl heq h.stack.settle ?_)
    · exact ⟨h.withStack hc.sound, hc, trivial⟩
    · rintro ⟨stack, found⟩ other
      simp only
      split
      · exact .inl rfl
      · split <;> exact .inr rfl

/-! ## Returning to a landmark -/

/-- What landmarks have to do with the price: the version has paid, or those to which it may return lie
deep enough. -/
def Worth (strict : Prop) (spot : Spot) (landmarks : List Landmark) : Prop :=
  ∀ l ∈ landmarks, l.state ≠ 0 → l.position.bytes ≠ spot.position.bytes →
    0 < spot.cost ∨ strict ∧ spot.state = 0 ∧ 2 ≤ l.depth

/-- What is taken off on the way to a landmark costs something. -/
theorem costs_of_worth {s : Stack} {upper : Spot} {landmarks : List Landmark}
    (h : Worth strict upper landmarks) {l : Landmark} (hl : l ∈ landmarks) (hq : l.state ≠ 0)
    (hb : l.position.bytes ≠ upper.position.bytes) {limit : Nat} {path : Path}
    (hp : Stack.PathHolds chars strict s limit upper path) (hd : l.depth ≤ path.depth) :
    Stack.Costs (spotAt s.nodes path.node).cost path.subtrees := by
  rcases h l hl hq hb with hcost | ⟨hstrict, hstate, htwo⟩
  · have hreach := congrArg Footing.cost hp.reach
    exact .inl (Nat.lt_of_lt_of_eq hcost hreach.symm)
  · by_contra hfree
    have hextra : ∀ t ∈ path.subtrees, t.isExtra = true := by
      intro t ht
      by_contra hx
      exact hfree (.inr ⟨t, ht, by simpa using hx⟩)
    rcases hp.marks hstrict hstate hextra with ⟨hzero, -⟩ | ⟨hone, -⟩ <;> omega

/-- What looking for a landmark does: the first versions stand where they stood, and the others have
paid if that is so of what it began with. -/
structure Tried (chars : List Char) (strict paid : Prop) (before : Nat) (p p' : Parser) : Prop where
  sound : p'.Sound chars strict
  keeps : Stack.Keeps before p.stack p'.stack
  finished_eq : p'.finished = p.finished
  dear : paid → ∀ w, before ≤ w → w < p'.stack.versionCount → p'.stack.Dear w

theorem Tried.after {paid : Prop} {before : Nat} {p p' p'' : Parser}
    (h : Tried chars strict paid before p' p'') (hk : Stack.Keeps before p.stack p'.stack)
    (hf : p'.finished = p.finished) : Tried chars strict paid before p p'' :=
  ⟨h.sound, hk.trans h.keeps, h.finished_eq.trans hf, h.dear⟩

theorem Sound.tryLandmarks (paid : Prop) (v : Nat) (lookahead : Subtree) (position : Text.Extent)
    (before cost : Nat) (progressed : Bool) (landmarks : List Landmark) (p : Parser)
    (h : p.Sound chars strict) (hb : before ≤ p.stack.versionCount)
    (hv : v < before) (hposition : (p.stack.spot v).position = position)
    (hworth : paid → Worth strict (p.stack.spot v) landmarks)
    (hdear : paid → ∀ w, before ≤ w → w < p.stack.versionCount → p.stack.Dear w) :
    Tried chars strict paid before p
      (Parser.tryLandmarks v lookahead position before cost progressed landmarks p).1 := by
  induction landmarks generalizing p with
  | nil => exact ⟨h, .refl hb, rfl, hdear⟩
  | cons landmark rest ih =>
    have hfewer : ∀ spot, Worth strict spot (landmark :: rest) → Worth strict spot rest :=
      fun spot hw l hl => hw l (List.mem_cons_of_mem _ hl)
    rw [Parser.tryLandmarks]
    simp only
    split
    · exact ih p h hb hposition (fun hp => hfewer _ (hworth hp)) hdear
    · rename_i hcond
      simp only [Bool.or_eq_true, beq_iff_eq, not_or] at hcond
      obtain ⟨h1, h2, hfin⟩ := h.betterVersionExists (v := v) (cost + landmark.depth * skippedTreeCost +
        (position.bytes - landmark.position.bytes) * skippedByteCost +
        (position.rows - landmark.position.rows) * skippedLineCost)
      generalize p.betterVersionExists _ _ = result at h1 h2 hfin
      obtain ⟨p1, better⟩ := result
      simp only at h1 h2 hfin ⊢
      have hb1 : before ≤ p1.stack.versionCount := h2.count ▸ hb
      have hkeep := h2.keeps.mono hb
      have hspot : p1.stack.spot v = p.stack.spot v := hkeep.spot_eq h.stack hv
      have hdear1 : paid → ∀ w, before ≤ w → w < p1.stack.versionCount → p1.stack.Dear w :=
        fun hp w hw hlt =>
          h2.keeps.dear h.stack (h2.count ▸ hlt) (hdear hp w hw (h2.count ▸ hlt))
      split
      · exact ⟨h1, hkeep, hfin, hdear1⟩
      · split
        · have hreturned := Stack.returnTo_spec (v := v) paid h1.stack hcond.1.1
            (if progressed then landmark.depth + 1 else landmark.depth) fun hp path hpath hdepth _ => by
              rw [hspot] at hpath
              refine costs_of_worth (hworth hp) (List.mem_cons_self ..) hcond.1.1
                (by rw [hposition]; exact hcond.1.2) hpath ?_
              rw [hdepth]
              split <;> omega
          obtain ⟨h3, h4, h5⟩ := hreturned
          have hkeep' := h4.mono hb1
          have hdear2 : paid → ∀ w, before ≤ w → w < (p1.stack.returnTo v
              (if progressed then landmark.depth + 1 else landmark.depth) landmark.state).1.versionCount →
              (p1.stack.returnTo v (if progressed then landmark.depth + 1 else landmark.depth)
                landmark.state).1.Dear w := by
            intro hp w hw hlt
            by_cases hold : w < p1.stack.versionCount
            · exact h4.dear h1.stack hold (hdear1 hp w hw hold)
            · exact h5 hp w (Nat.not_lt.mp hold) hlt
          generalize p1.stack.returnTo v (if progressed then landmark.depth + 1 else landmark.depth)
            landmark.state = returned at h3 hkeep' hdear2
          obtain ⟨s2, back⟩ := returned
          simp only at h3 hkeep' hdear2 ⊢
          split
          · exact ⟨h1.withStack h3, hkeep.trans hkeep', hfin, hdear2⟩
          · have hspot2 : s2.spot v = p.stack.spot v := (hkeep'.spot_eq h1.stack hv).trans hspot
            exact (ih { p1 with stack := s2 } (h1.withStack h3) hkeep'.count (hspot2 ▸ hposition)
              (fun hp => hspot2 ▸ hfewer _ (hworth hp)) hdear2).after (hkeep.trans hkeep') hfin
        · exact (ih p1 h1 hb1 (hspot ▸ hposition) (fun hp => hspot ▸ hfewer _ (hworth hp))
            hdear1).after hkeep hfin

/-! ## Leaving out a token -/

theorem comment_of_takesAsExtra {state : StateId} {symbol : Symbol}
    (h : takesAsExtra state symbol = true) : symbol = .comment :=
  comment_of_shiftExtra (List.mem_of_getLast? (by simpa [takesAsExtra] using h))

/-- What leaving out a token does: the version pays for it, and the others stand where they stood. -/
structure LeftOut (chars : List Char) (strict : Prop) (v : Nat) (s s' : Stack) : Prop where
  sound : s'.Sound chars strict
  lt_count : v < s'.versionCount
  dear : s'.Dear v
  others : ∀ w < s'.versionCount, w ≠ v → w < s.versionCount ∧ (s.Dear w → s'.Dear w)

/-- A tree of what is being skipped may be put on any state. -/
theorem leftOut_push {s : Stack} (h : s.Sound chars strict) (hv : v < s.versionCount)
    (ha : (s.head v).status = .active) {ts : List Subtree} (ht : ∀ t ∈ ts, Grown t)
    (hl : LieAll chars (s.spot v).position ts) :
    LeftOut chars strict v s (s.push v (some (.ofChildren .errorRepeat 0 ts)) 0) := by
  have hmoved := h.moved_push (v := v) (t := some (.ofChildren .errorRepeat 0 ts)) (n := 0)
    ⟨.skipping ht, .skipping (by simp), hl.lies_ofChildren (h.nodes.places _) _ _,
      fun _ hx => by simp at hx⟩ fun hp => by
      rw [Stack.isPaused, ha] at hp
      cases hp
  have hcount := Stack.versionCount_push s v (some (.ofChildren .errorRepeat 0 ts)) 0
  refine ⟨hmoved.sound, hcount ▸ hv, .inr ?_, fun w hw hne => ?_⟩
  · rw [Stack.spot_push s hv]
    exact Nat.lt_of_lt_of_le (Subtree.errorCost_skipped_pos rfl 0 ts) (Nat.le_add_left ..)
  · rw [hcount] at hw
    exact ⟨hw, hmoved.dear h hw hne⟩

/-- A token that is left out keeps the stack sound. -/
theorem skipToken_spec {s : Stack} (h : s.Sound chars strict) (hv : v < s.versionCount) {lookahead : Subtree}
    (hl : IsLookahead lookahead) {pos : Footing} (hst : s.Stands pos v)
    (hread : IsReadAt chars pos.position lookahead.facts) (progressed : Bool) :
    LeftOut chars strict v s (skipToken s v lookahead progressed) := by
  have htoken : Grown (if takesAsExtra 1 lookahead.symbol then lookahead.withExtra true else lookahead) ∧
      Lies chars pos.position
        (if takesAsExtra 1 lookahead.symbol then lookahead.withExtra true else lookahead) := by
    split
    · exact ⟨hl.grown_withExtra fun _ => comment_of_takesAsExtra ‹_›, (hl.lies hread).withExtra true⟩
    · exact ⟨hl.grown, hl.lies hread⟩
  rw [skipToken]
  simp only
  generalize (if takesAsExtra 1 lookahead.symbol then lookahead.withExtra true else lookahead) = token
    at htoken
  have hone : ∀ t ∈ [token], Grown t := fun t ht => List.mem_singleton.mp ht ▸ htoken.1
  have hlies : LieAll chars pos.position [token] := lieAll_singleton.mpr htoken.2
  split
  · have hd := Stack.popCount_spec h v 1
    rw [Stack.popCount]
    generalize Stack.descendFrom _ _ _ _ = d at hd
    simp only
    split
    · rename_i hnil
      have hstands := hd.keeps.stands h hv hst
      obtain ⟨h1, h2, h3, h4⟩ := leftOut_push hd.sound (Nat.lt_of_lt_of_le hv hd.count) hstands.active hone
        (hstands.position ▸ hlies)
      have hcount : d.stack.versionCount = s.versionCount := by
        by_contra hne
        obtain ⟨x, hx, -⟩ := hd.covered s.versionCount (Nat.le_refl _)
          (Nat.lt_of_le_of_ne hd.count (Ne.symm hne))
        rw [hnil] at hx
        cases hx
      refine ⟨h1, h2, h3, fun w hw hne => ?_⟩
      obtain ⟨hlt, hdear⟩ := h4 w hw hne
      exact ⟨hcount ▸ hlt, fun hold => hdear (hd.keeps.dear h (hcount ▸ hlt) hold)⟩
    · rename_i slice rest heq
      obtain ⟨hle, hlt, ⟨path, ⟨hp, -⟩, hsub, hnode⟩, ha⟩ := hd.slices slice (by simp [heq])
      have hspot := hd.spot_eq hnode
      have hvs : v < slice.version := Nat.lt_of_lt_of_le hv hle
      -- The slices are in the order of their versions, so that this is the first new version.
      have hfirst : slice.version = s.versionCount := by
        obtain ⟨x, hx, hxv⟩ := hd.covered s.versionCount (Nat.le_refl _) (Nat.lt_of_le_of_lt hle hlt)
        have hsorted := hd.sorted
        rw [heq] at hx hsorted
        rcases List.mem_cons.mp hx with rfl | hx
        · exact hxv
        · exact Nat.le_antisymm (hxv ▸ (List.pairwise_cons.mp hsorted).1 x hx) hle
      have hsound : (Stack.mk d.stack.nodes (d.stack.heads.take (slice.version + 1))).Sound chars strict :=
        hd.sound.take
      have hcount : (Stack.mk d.stack.nodes (d.stack.heads.take (slice.version + 1))).versionCount =
          slice.version + 1 := by
        rw [Stack.versionCount] at hlt ⊢
        rw [Array.take_eq_extract, Array.size_extract]
        exact (Nat.sub_zero _).trans (Nat.min_eq_left hlt)
      have hhead : ∀ w ≤ slice.version,
          (Stack.mk d.stack.nodes (d.stack.heads.take (slice.version + 1))).head w = d.stack.head w := by
        intro w hw
        have hfit : w < min (slice.version + 1) d.stack.heads.size :=
          Nat.lt_min.mpr ⟨Nat.lt_succ_of_le hw, Nat.lt_of_le_of_lt hw hlt⟩
        simp only [Stack.head, Array.getD_eq_getD_getElem?, Array.take_eq_extract,
          Array.getElem?_extract, Nat.sub_zero, Nat.zero_add, if_pos hfit]
      have hspot2 : ∀ w ≤ slice.version,
          (Stack.mk d.stack.nodes (d.stack.heads.take (slice.version + 1))).spot w = d.stack.spot w := by
        intro w hw
        rw [Stack.spot, hhead w hw]
        rfl
      have hspotv := hspot2 _ (Nat.le_refl _)
      have ha2 := (congrArg Head.status (hhead _ (Nat.le_refl _))).trans ha
      generalize Stack.mk d.stack.nodes (d.stack.heads.take (slice.version + 1)) = s2
        at hsound hcount hhead hspot2 hspotv ha2
      have hlt2 : slice.version < s2.versionCount := hcount ▸ Nat.lt_succ_self slice.version
      obtain ⟨r1, r2, r3, -⟩ := Stack.renumber_spec hvs hlt2
      obtain ⟨hspot3, ha3⟩ := Stack.spot_renumber hvs hlt2
      rw [hspotv, hspot] at hspot3
      have hreach : (spotAt s.nodes path.node).position + extentOf path.subtrees = (s.spot v).position :=
        congrArg Footing.position hp.reach
      have hall : LieAll chars ((s2.renumber slice.version v).spot v).position
          (slice.subtrees ++ [Subtree.ofChildren .errorRepeat 0 [token]]) := by
        rw [hspot3, lieAll_append, hsub, lieAll_singleton, hreach]
        exact ⟨hp.lies, LieAll.lies_ofChildren (hst.position ▸ hlies) (h.nodes.places _) _ _⟩
      obtain ⟨h1, h2, h3, h4⟩ := leftOut_push hsound.renumber (by rw [r1, hcount]; exact hvs)
        (ha3.trans ha2) (fun t ht => by
          rcases List.mem_append.mp ht with ht | ht
          · exact hp.way.grown t (hsub ▸ ht)
          · exact List.mem_singleton.mp ht ▸ .skipping hone) hall
      refine ⟨h1, h2, h3, fun w hw hne => ?_⟩
      obtain ⟨hlt', hdear⟩ := h4 w hw hne
      rw [r1, hcount] at hlt'
      have hws : w < slice.version := hlt'
      have hw' : w < s.versionCount := hfirst ▸ hws
      refine ⟨hw', fun hold => hdear (hold.of_spot ⟨?_, ?_⟩)⟩
      · rw [Stack.spot, r2, r3 w hws hne, ← Stack.spot, hspot2 w (Nat.le_of_lt hws), hd.keeps.spot_eq h hw']
      · rw [r3 w hws hne, hhead w (Nat.le_of_lt hws), hd.keeps.status w hw']
  · exact leftOut_push h hv hst.active hone (hst.position ▸ hlies)

/-! ## A token in the recovery state -/

/-- What is left of the versions that were made are those that take part. -/
theorem dear_dropInactive {s : Stack} {n : Nat} (hn : n ≤ s.versionCount)
    (h : ∀ w, n ≤ w → w < s.versionCount → s.Dear w) :
    ∀ w, n ≤ w → w < (s.dropInactive n).versionCount → (s.dropInactive n).Dear w := by
  intro w hw hlt
  have hsize : (s.heads.take n).size = n := by
    rw [Stack.versionCount] at hn
    simp
    omega
  obtain ⟨head, hmem, hactive, heq⟩ : ∃ head ∈ s.heads.drop n, head.status.isActive = true ∧
      (s.dropInactive n).head w = head := by
    have hat : (s.dropInactive n).head w ∈ (s.heads.drop n).filter (·.status.isActive) := by
      rw [Stack.versionCount, Stack.dropInactive, Array.size_append] at hlt
      simp only [Stack.head, Stack.dropInactive, Array.getD_eq_getD_getElem?]
      rw [Array.getElem?_append_right (by omega), Array.getElem?_eq_getElem (by omega), Option.getD_some]
      exact Array.getElem_mem _
    exact ⟨_, (Array.mem_filter.mp hat).1, (Array.mem_filter.mp hat).2, rfl⟩
  obtain ⟨i, hi, rfl⟩ := Array.mem_iff_getElem.mp hmem
  have hi' : n + i < s.versionCount := by
    rw [Array.drop_eq_extract, Array.size_extract] at hi
    rw [Stack.versionCount]
    omega
  have hold : s.head (n + i) = (s.heads.drop n)[i] := by
    simp [Stack.head, Array.getD_eq_getD_getElem?, show n + i < s.heads.size from hi']
  rw [← hold] at hactive heq
  refine (h (n + i) (Nat.le_add_right ..) hi').of_spot ⟨?_, congrArg Head.status heq⟩
  rw [Stack.spot, heq]
  rfl

/-- The landmarks to which a version may return are deep enough, unless it has paid. -/
def Owes (strict : Prop) (s : Stack) (v : Version) : Prop :=
  Worth strict (s.spot v) ((s.head v).landmarks.getD [])

theorem landmarks_settle (s : Stack) (v : Nat) : ((s.settle v).head v).landmarks = (s.head v).landmarks := by
  rw [Stack.settle]
  split
  · rw [Stack.head_modifyHead, apply_ite Head.landmarks]
    exact ite_self _
  · rfl

/-- **Whatever token is met in the recovery state, the parser is sound after it**, and if all other
versions have paid, this one pays as well. -/
theorem Sound.recover (h : p.Sound chars strict) (hv : v < p.stack.versionCount) (hq : p.stack.state v = 0)
    {lookahead : Subtree} (hl : IsLookahead lookahead) {pos : Footing} (hst : p.stack.Stands pos v)
    (hread : IsReadAt chars pos.position lookahead.facts) :
    Goes chars False (OthersPaid v p ∧ Owes strict p.stack v) v (p.recover v lookahead) := by
  have hsettled := compared_settle h.stack v
  have hspot : (p.stack.settle v).spot v = p.stack.spot v := hsettled.keeps.spot_eq h.stack hv
  have htried := Sound.tryLandmarks (OthersPaid v p ∧ Owes strict p.stack v) v lookahead
    ((p.stack.settle v).position v)
    p.stack.versionCount ((p.stack.settle v).errorCost v)
    (decide ((p.stack.settle v).countSinceError v > 0))
    (if lookahead.symbol == .error then [] else ((p.stack.settle v).head v).landmarks.getD [])
    { p with stack := p.stack.settle v } (h.withStack hsettled.sound) (Nat.le_of_eq hsettled.count.symm)
    hv rfl (fun hp => by
      rw [landmarks_settle, hspot]
      split
      · exact fun l hl => absurd hl List.not_mem_nil
      · exact hp.2)
    (fun _ w hw hlt => absurd hlt (Nat.not_lt.mpr (hsettled.count ▸ hw)))
  rw [Parser.recover]
  generalize Parser.tryLandmarks v lookahead _ _ _ _ _ _ = tried at htried
  obtain ⟨p1, returned⟩ := tried
  obtain ⟨h1, h2, hfin, hdear⟩ := htried
  simp only at h1 h2 hfin hdear ⊢
  -- The version itself stands where it stood.
  have hkeep := hsettled.keeps.trans h2
  have hdrop := Stack.keeps_dropInactive hkeep.count
  have hkeep' := hkeep.trans hdrop
  replace h1 := h1.relax
  have hsound := h1.stack.dropInactive (n := p.stack.versionCount)
  have hothers : OthersPaid v p ∧ Owes strict p.stack v →
      OthersPaid v { p1 with stack := p1.stack.dropInactive p.stack.versionCount } := by
    refine fun hp => ⟨fun w hw hne => ?_, fun t ht => hp.1.finished t (hfin ▸ ht)⟩
    by_cases hold : w < p.stack.versionCount
    · exact hkeep'.dear h.stack hold (hp.1.stack w hold hne)
    · exact dear_dropInactive hkeep.count (hdear hp) w (Nat.not_lt.mp hold) hw
  generalize p1.stack.dropInactive p.stack.versionCount = s2 at hkeep' hsound hothers
  have hv2 : v < s2.versionCount := Nat.lt_of_lt_of_le hv hkeep'.count
  have hstate : s2.state v = 0 := (hkeep'.state_eq h.stack hv).trans hq
  have hstands : s2.Stands pos v := hkeep'.stands h.stack hv hst
  have hhalt : ∀ q : Parser, q.Sound chars False → v < q.stack.versionCount →
      (OthersPaid v p ∧ Owes strict p.stack v → OthersPaid v q) →
      Goes chars False (OthersPaid v p ∧ Owes strict p.stack v) v { q with stack := q.stack.halt v } := by
    refine fun q hq hvq hpaid => ⟨hq.withStack hq.stack.halt, ?_, fun hp => (hpaid hp).halt hvq⟩
    show v < (q.stack.halt v).versionCount
    rwa [Stack.versionCount_halt]
  split
  · rename_i hend
    have hgave : Grown (.skipped [] false) :=
      .skipped false (fun _ hc => absurd hc List.not_mem_nil) fun hx => by cases hx
    have hcost : 0 < (Subtree.skipped [] false).errorCost := by
      rw [Subtree.skipped, Subtree.errorCost_withExtra]
      exact Subtree.errorCost_skipped_pos rfl ..
    have hmoved := hsound.moved_push (v := v) (t := some (.skipped [] false)) (n := 1) (by
      refine ⟨hgave, ?_, LieAll.nil.lies_skipped (hsound.nodes.places _) false, fun hx => by cases hx⟩
      rw [show (s2.spot v).state = 0 from hstate]
      exact .gaveUp rfl hcost rfl) fun hp => by
        rw [hstands.awake] at hp
        cases hp
    have hcount := Stack.versionCount_push s2 v (some (.skipped [] false)) 1
    have hstands' := hstands.push hv2 (.skipped [] false) 1
    obtain ⟨h3, h4, h5⟩ := (h1.withStack hmoved.sound).accept (hcount ▸ hv2) hl (by simpa using hend)
      (.inl (Stack.state_push s2 hv2 ..)) hstands' (by
        rwa [Footing.past, extentOf_cons, extentOf_nil, Extent.add_zero, Subtree.totalSize_skipped,
          extentOf_nil, Extent.add_zero])
    refine ⟨h3, h4, fun hp => h5 ⟨⟨fun w hw hne => ?_, (hothers hp).finished⟩, ?_⟩⟩
    · have hw2 : w < s2.versionCount := hcount ▸ hw
      exact hmoved.dear hsound hw2 hne ((hothers hp).stack w hw2 hne)
    · simp only [Footing.past, priceOf_cons]
      omega
  · split
    · exact hhalt _ (h1.withStack hsound) hv2 hothers
    · obtain ⟨h3, h4, h5⟩ := (h1.withStack hsound).betterVersionExists (v := v)
        ((p.stack.settle v).errorCost v + skippedTreeCost + lookahead.totalSize.bytes * skippedByteCost +
          lookahead.totalSize.rows * skippedLineCost)
      generalize Parser.betterVersionExists _ _ _ = compared at h3 h4 h5
      have hv3 : v < compared.1.stack.versionCount := h4.count ▸ hv2
      have hothers3 : OthersPaid v p ∧ Owes strict p.stack v → OthersPaid v compared.1 := by
        refine fun hp => ⟨fun w hw hne => ?_, fun t ht => (hothers hp).finished t (h5 ▸ ht)⟩
        have hw2 : w < s2.versionCount := h4.count ▸ hw
        exact h4.keeps.dear hsound hw2 ((hothers hp).stack w hw2 hne)
      split
      · exact hhalt _ h3 hv3 hothers3
      · obtain ⟨h6, h7, h8, h9⟩ := skipToken_spec h3.stack hv3 hl (h4.keeps.stands hsound hv2 hstands) hread
          (decide ((p.stack.settle v).countSinceError v > 0))
        exact ⟨h3.withStack h6, h7, fun hp => (hothers3 hp).paid h9 h8⟩

/-! ## The handling of an error -/

theorem compared_recordLandmarks {s : Stack} (h : s.Sound chars strict) (v : Nat) :
    Compared chars strict s (s.recordLandmarks v) := by
  rw [Stack.recordLandmarks]
  refine ⟨h.modifyHead fun _ hh => ⟨hh.node_lt, hh.lookahead⟩, ?_, Stack.versionCount_modifyHead ..⟩
  exact Stack.keeps_modifyHead (fun _ => rfl) fun _ => rfl

/-- The landmarks that are noted when an error is met are deep enough, if nothing has been paid. -/
theorem owes_recordLandmarks {s : Stack} (h : s.Sound chars strict) (hv : v < s.versionCount)
    (hq : s.state v = 0) (hcost : 0 < (s.spot v).cost ∨ strict) : Owes strict (s.recordLandmarks v) v := by
  have hspot := (compared_recordLandmarks h v).keeps.spot_eq h hv
  intro l hl hstate hposition
  rw [hspot] at hposition ⊢
  by_cases hfree : (s.spot v).cost = 0
  · have hs : strict := hcost.resolve_left (by omega)
    exact .inr ⟨hs, hq, Stack.depth_recordLandmarks h hs hv hq hfree l hl hstate hposition⟩
  · exact .inl (Nat.pos_of_ne_zero hfree)

/-- The versions from a number on. -/
theorem versions_from (m n : Nat) : (List.range n).filter (· ≥ m) = List.range' m (n - m) := by
  induction n with
  | zero => simp
  | succ n ih =>
    rw [List.range_succ, List.filter_append, ih, List.filter_singleton]
    by_cases hle : m ≤ n
    · rw [decide_eq_true hle, cond_true, Nat.succ_sub hle, List.range'_concat, Nat.one_mul,
        Nat.add_sub_cancel' hle]
    · rw [decide_eq_false hle, cond_false, List.append_nil, Nat.sub_eq_zero_of_le (by omega),
        Nat.sub_eq_zero_of_le (by omega)]

/-- What is left when an error has been marked on a version and those made from it have been merged
into it: the version stands in the recovery state, and the others have paid if they had. -/
structure Settled (chars : List Char) (strict : Prop) (pos : Footing) (v : Nat) (s s' : Stack) : Prop where
  sound : s'.Sound chars strict
  lt_count : v < s'.versionCount
  erring : s'.Erring pos v
  dear : ∀ w < s'.versionCount, w ≠ v → (w < s.versionCount → s.Dear w) → s'.Dear w

theorem settled_markErrors {s : Stack} (h : s.Sound chars strict) (hv : v < s.versionCount)
    {pos : Footing} (hst : s.Ready strict pos v) (lookahead : Symbol) {s1 : Stack}
    (hs1 : s1 = s.reduceRegardless v) {created : List Nat}
    (hcreated : created = (List.range s1.versionCount).filter (· ≥ s.versionCount)) :
    Settled chars strict pos v s (Stack.mergeRange v s.versionCount created.length
      (Stack.markErrors lookahead false s1 (v :: created))) := by
  have hreduced := Stack.reduceRegardless_spec h hv hst
  rw [← hs1] at hreduced
  have hspares := hreduced.spares rfl (Nat.le_refl _)
  have hcount := hspares.count
  rw [versions_from] at hcreated
  have hmem : ∀ w, w ∈ created ↔ s.versionCount ≤ w ∧ w < s1.versionCount := by
    intro w
    rw [hcreated, List.mem_range'_1]
    omega
  have hlength : created.length = s1.versionCount - s.versionCount := by rw [hcreated, List.length_range']
  have hdistinct : (v :: created).Nodup := by
    refine List.nodup_cons.mpr ⟨fun hvc => ?_, hcreated ▸ List.nodup_range'⟩
    exact absurd ((hmem v).mp hvc).1 (Nat.not_le.mpr hv)
  have hready : ∀ w ∈ v :: created, w < s1.versionCount ∧ s1.Ready strict pos w := by
    intro w hw
    rcases List.mem_cons.mp hw with rfl | hw
    · have hlt := Nat.lt_of_lt_of_le hv hcount
      exact ⟨hlt, hreduced.round w (.inl rfl) hlt⟩
    · obtain ⟨hle, hlt⟩ := (hmem w).mp hw
      exact ⟨hlt, hreduced.round w (.inr hle) hlt⟩
  have hmarked := Stack.markErrors_spec lookahead (v :: created) false s1 hreduced.sound hdistinct hready
  have hmerged := Stack.mergeRange_spec hv created.length _ hmarked.sound
    (by have := hmarked.count; omega) (hmarked.erring v (by simp)) fun w hw hlt =>
      hmarked.erring w (List.mem_cons_of_mem _ ((hmem w).mpr ⟨hw, by omega⟩))
  generalize Stack.mergeRange v s.versionCount created.length _ = s3 at hmerged
  refine ⟨hmerged.sound, Nat.lt_of_lt_of_le hv hmerged.keeps.count,
    (hmarked.erring v (by simp)).of_spot ⟨hmerged.keeps.spot_eq hmarked.sound hv, hmerged.keeps.status v hv⟩,
    fun w hw hne hdear => ?_⟩
  by_cases hold : w < s.versionCount
  · -- A version that was there before stands where it stood.
    have hlt1 : w < s1.versionCount := Nat.lt_of_lt_of_le hold hcount
    have hnot : w ∉ v :: created := by
      rw [List.mem_cons, hmem]
      omega
    obtain ⟨hnode, hstatus⟩ := hspares.heads w hold hne
    have hspot1 : s1.spot w = s.spot w := by
      rw [Stack.spot, Stack.spot, hnode, hreduced.keeps.nodes.spot_eq _ (h.heads w).node_lt]
    refine (hdear hold).of_spot ⟨?_, ?_⟩
    · rw [hmerged.keeps.spot_eq hmarked.sound hold, hmarked.others w hlt1 hnot, hspot1]
    · rw [hmerged.keeps.status w hold, hmarked.status w hlt1, hstatus]
  · -- A version that was not is one for which a token was invented.
    obtain ⟨hspot, -⟩ := hmerged.behind w (Nat.not_lt.mp hold) hw
    have hcount_eq := hmerged.count_eq
    refine .inr ?_
    rw [hspot]
    exact hmarked.paid _ (by omega) (by omega)

theorem Goes.imp {paid paid' : Prop} (h : Goes chars strict paid v p) (hp : paid' → paid) :
    Goes chars strict paid' v p :=
  ⟨h.sound, h.lt_count, fun hpaid => h.paid (hp hpaid)⟩

/-- **Whatever the error, the parser is sound after it.**  If all other versions have paid for a repair,
and either so has this one or the stack is strict, all of them have paid after it. -/
theorem Sound.handleError (h : p.Sound chars strict) (hv : v < p.stack.versionCount) {lookahead : Subtree}
    (hl : IsLookahead lookahead) {pos : Footing} (hst : p.stack.Ready strict pos v)
    (hread : IsReadAt chars pos.position lookahead.facts) :
    Goes chars False (OthersPaid v p ∧ (0 < pos.cost ∨ strict)) v (p.handleError v lookahead) := by
  have hsettled := settled_markErrors h.stack hv hst lookahead.symbol rfl rfl
  rw [Parser.handleError]
  generalize Stack.mergeRange v p.stack.versionCount _ _ = s3 at hsettled
  have hrecord := compared_recordLandmarks hsettled.sound v
  have herring := hsettled.erring
  have hlt : v < s3.versionCount := hsettled.lt_count
  refine ((h.withStack hrecord.sound).recover (hrecord.count ▸ hlt)
    ((hrecord.keeps.state_eq hsettled.sound hlt).trans herring.state) hl
    (hrecord.keeps.stands hsettled.sound hlt herring.toStands) hread).imp fun hp => ⟨⟨?_, hp.1.finished⟩, ?_⟩
  · intro w hw hne
    have hw3 : w < s3.versionCount := hrecord.count ▸ hw
    exact hrecord.keeps.dear hsettled.sound hw3
      (hsettled.dear w hw3 hne fun hold => hp.1.stack w hold hne)
  · exact owes_recordLandmarks hsettled.sound hlt herring.state (by rw [herring.cost]; exact hp.2)

end Parser

end Cicode.Parse
