import Cicode.Proofs.Parse.Stack

/-!
# Descents into a sound stack

A descent changes nothing but the list of versions, to which it adds one for each end that it finds.
Every slice that it yields is a path of which the descent's own property holds
(`descendFrom_spec`), and the slices are in the order of their versions.  For the descents of the
parser the property is that the path is a way down.
-/

namespace Cicode.Parse.Stack

open Grammar Text

/-! ## Slices -/

/-- A slice is put behind the last one of its version. -/
theorem insertSlice_eq {slices : List Slice} (slice : Slice)
    (hv : ∃ x ∈ slices, x.version = slice.version) :
    ∃ pre y post, slices = pre ++ y :: post ∧ y.version = slice.version ∧
      insertSlice slices slice = pre ++ y :: slice :: post := by
  have hsplit := List.takeWhile_append_dropWhile (p := fun x : Slice => x.version != slice.version)
    (l := slices.reverse)
  rw [insertSlice, List.span_eq_takeWhile_dropWhile]
  cases hd : slices.reverse.dropWhile fun x : Slice => x.version != slice.version with
  | nil =>
    obtain ⟨x, hx, hxv⟩ := hv
    have hall := List.dropWhile_eq_nil_iff.mp hd x (by simpa using hx)
    simp [hxv] at hall
  | cons y ys =>
    have hy : y.version = slice.version := by
      have hhead := List.head_dropWhile_not (fun x : Slice => x.version != slice.version)
        (l := slices.reverse) (by simp [hd])
      simpa [hd] using hhead
    rw [hd] at hsplit
    generalize slices.reverse.takeWhile (fun x : Slice => x.version != slice.version) = post at hsplit
    refine ⟨ys.reverse, y, post.reverse, ?_, hy, by simp⟩
    rw [← slices.reverse_reverse, ← hsplit]
    simp

/-- What is known of a slice: its version is one of the new ones, and it is a path of the given
kind that ends at the version's node. -/
structure SliceHolds (first : Nat) (stack : Stack) (P : Path → Prop) (slice : Slice) : Prop where
  first_le : first ≤ slice.version
  lt_count : slice.version < stack.versionCount
  path : ∃ path, P path ∧ slice.subtrees = path.subtrees ∧ (stack.head slice.version).node = path.node
  active : (stack.head slice.version).status = .active

/-- What is known of a descent from a stack. -/
structure DescentHolds {σ : Type} (chars : List Char) (strict : Prop) (s : Stack) (P : Path → Prop) (d : Descent σ) :
    Prop where
  sound : d.stack.Sound chars strict
  nodes : d.stack.nodes = s.nodes
  count : s.versionCount ≤ d.stack.versionCount
  heads : ∀ v < s.versionCount, d.stack.head v = s.head v
  slices : ∀ slice ∈ d.slices, SliceHolds s.versionCount d.stack P slice
  sorted : d.slices.Pairwise (·.version ≤ ·.version)
  covered : ∀ v, s.versionCount ≤ v → v < d.stack.versionCount → ∃ slice ∈ d.slices, slice.version = v
  /-- No two of the slices' versions are at the same node. -/
  apart : ∀ a ∈ d.slices, ∀ b ∈ d.slices,
    (d.stack.head a.version).node = (d.stack.head b.version).node → a.version = b.version

variable {chars : List Char} {strict : Prop} {σ : Type} {s : Stack} {T : Path → Prop}
  {judge : σ → Node → Path → σ × Verdict}

/-- The end of a path becomes a slice. -/
theorem DescentHolds.addSlice {d : Descent σ} (h : DescentHolds chars strict s T d) (origin : Version) {path : Path}
    (ht : T path) (hlt : path.node < s.nodes.size) :
    DescentHolds chars strict s T { d with
      stack := (d.stack.addSlice origin d.slices path).1
      slices := (d.stack.addSlice origin d.slices path).2 } := by
  unfold Stack.addSlice
  split
  · -- There is a version at the node already.
    rename_i slice hfind
    have hmem : slice ∈ d.slices := by simpa using List.mem_of_find?_eq_some hfind
    have hnode : (d.stack.head slice.version).node = path.node := by
      simpa using List.find?_some hfind
    obtain ⟨pre, y, post, hs, hy, hins⟩ :=
      insertSlice_eq ⟨slice.version, path.subtrees⟩ ⟨slice, hmem, rfl⟩
    refine ⟨h.sound, h.nodes, h.count, h.heads, ?_, ?_, fun v hv hlt => ?_, ?_⟩
    · intro x hx
      simp only [hins, List.mem_append, List.mem_cons] at hx
      have hold : x ∈ d.slices → SliceHolds s.versionCount d.stack T x := h.slices x
      rw [hs] at hold
      simp only [List.mem_append, List.mem_cons] at hold
      rcases hx with hx | hx | rfl | hx
      · exact hold (.inl hx)
      · exact hold (.inr (.inl hx))
      · have hslice := h.slices slice hmem
        exact ⟨hslice.first_le, hslice.lt_count, ⟨path, ht, rfl, hnode⟩, hslice.active⟩
      · exact hold (.inr (.inr hx))
    · have hsorted := h.sorted
      rw [hs, List.pairwise_append, List.pairwise_cons] at hsorted
      obtain ⟨hpre, ⟨hypost, hpost⟩, hcross⟩ := hsorted
      simp only [hins, List.pairwise_append, List.pairwise_cons, List.mem_cons]
      refine ⟨hpre, ⟨?_, ?_, hpost⟩, ?_⟩
      · rintro x (rfl | hx)
        · exact Nat.le_of_eq hy
        · exact hypost x hx
      · exact fun x hx => hy ▸ hypost x hx
      · rintro a ha x (rfl | rfl | hx)
        · exact hcross a ha x (by simp)
        · exact hy ▸ hcross a ha y (by simp)
        · exact hcross a ha x (by simp [hx])
    · obtain ⟨x, hx, hxv⟩ := h.covered v hv hlt
      refine ⟨x, ?_, hxv⟩
      simp only [hs, List.mem_append, List.mem_cons] at hx
      simp only [hins, List.mem_append, List.mem_cons]
      rcases hx with hx | hx | hx
      · exact .inl hx
      · exact .inr (.inl hx)
      · exact .inr (.inr (.inr hx))
    · have hold : ∀ x ∈ insertSlice d.slices ⟨slice.version, path.subtrees⟩,
          ∃ y ∈ d.slices, y.version = x.version := by
        intro x hx
        simp only [hins, List.mem_append, List.mem_cons] at hx
        rcases hx with hx | rfl | rfl | hx
        · exact ⟨x, by simp [hs, hx], rfl⟩
        · exact ⟨x, by simp [hs], rfl⟩
        · exact ⟨slice, hmem, rfl⟩
        · exact ⟨x, by simp [hs, hx], rfl⟩
      intro a ha b hb hab
      obtain ⟨a', ha', hav⟩ := hold a ha
      obtain ⟨b', hb', hbv⟩ := hold b hb
      rw [← hav, ← hbv] at hab ⊢
      exact h.apart a' ha' b' hb' hab
  · -- A version is added.
    rename_i hfind
    have hnew : ∀ slice ∈ d.slices, (d.stack.head slice.version).node ≠ path.node := by
      simpa using hfind
    have hhead : ∀ head w, ({ d.stack with heads := d.stack.heads.push head } : Stack).head w =
        if w = d.stack.versionCount then head else d.stack.head w := fun head w => getD_push ..
    have hcount : ∀ head, ({ d.stack with heads := d.stack.heads.push head } : Stack).versionCount =
        d.stack.versionCount + 1 := fun head => Array.size_push ..
    refine ⟨⟨h.sound.nodes, fun w => ?_⟩, h.nodes, ?_, ?_, ?_, ?_, fun v hv hlt' => ?_, ?_⟩
    · rw [hhead]
      split
      · exact ⟨h.nodes ▸ hlt, fun _ hst => nomatch hst⟩
      · exact h.sound.heads w
    · rw [hcount]
      exact Nat.le_succ_of_le h.count
    · intro v hv
      rw [hhead, if_neg (Nat.ne_of_lt (Nat.lt_of_lt_of_le hv h.count))]
      exact h.heads v hv
    · intro x hx
      rcases List.mem_append.mp hx with hx | hx
      · have hold := h.slices x hx
        obtain ⟨path', hp, hsub, hnode⟩ := hold.path
        refine ⟨hold.first_le, ?_, ⟨path', hp, hsub, ?_⟩, ?_⟩
        · rw [hcount]
          exact Nat.lt_succ_of_lt hold.lt_count
        · rw [hhead, if_neg (Nat.ne_of_lt hold.lt_count)]
          exact hnode
        · rw [hhead, if_neg (Nat.ne_of_lt hold.lt_count)]
          exact hold.active
      · obtain rfl := List.mem_singleton.mp hx
        refine ⟨h.count, ?_, ⟨path, ht, rfl, ?_⟩, ?_⟩
        · rw [hcount]
          exact Nat.lt_succ_self _
        · rw [hhead]
          exact congrArg Head.node (if_pos rfl)
        · rw [hhead]
          exact congrArg Head.status (if_pos rfl)
    · refine List.pairwise_append.mpr ⟨h.sorted, List.pairwise_singleton .., ?_⟩
      intro a ha b hb
      obtain rfl := List.mem_singleton.mp hb
      exact Nat.le_of_lt (h.slices a ha).lt_count
    · rw [hcount] at hlt'
      rcases Nat.lt_succ_iff_lt_or_eq.mp hlt' with hold | rfl
      · obtain ⟨x, hx, hxv⟩ := h.covered v hv hold
        exact ⟨x, List.mem_append_left _ hx, hxv⟩
      · exact ⟨_, List.mem_append_right _ (List.mem_singleton_self _), rfl⟩
    · intro a ha b hb hab
      simp only [hhead] at hab
      rcases List.mem_append.mp ha with ha | ha <;> rcases List.mem_append.mp hb with hb | hb
      · rw [if_neg (Nat.ne_of_lt (h.slices a ha).lt_count),
          if_neg (Nat.ne_of_lt (h.slices b hb).lt_count)] at hab
        exact h.apart a ha b hb hab
      · obtain rfl := List.mem_singleton.mp hb
        rw [if_neg (Nat.ne_of_lt (h.slices a ha).lt_count)] at hab
        exact absurd (hab.trans (congrArg Head.node (if_pos rfl))) (hnew a ha)
      · obtain rfl := List.mem_singleton.mp ha
        rw [if_neg (Nat.ne_of_lt (h.slices b hb).lt_count)] at hab
        exact absurd (hab.symm.trans (congrArg Head.node (if_pos rfl))) (hnew b hb)
      · rw [List.mem_singleton.mp ha, List.mem_singleton.mp hb]

/-- What a descent has to know.  Of its memory and the number of its versions holds `M`; of the paths
that are followed holds `P`, whatever other paths are judged and along every link; and paths that are
taken have the property `T`. -/
structure Judges (s : Stack) (judge : σ → Node → Path → σ × Verdict) (M : σ → Nat → Prop)
    (P : σ → Path → Prop) (T : Path → Prop) : Prop where
  lt : ∀ m path, P m path → path.node < s.nodes.size
  memory : ∀ m n path m' verdict, M m n → P m path →
    judge m (s.nodeAt path.node) path = (m', verdict) → M m' n ∧ (verdict = .take → M m' (n + 1))
  keep : ∀ m path other, P m path → P m other → P (judge m (s.nodeAt path.node) path).1 other
  follow : ∀ path m n m', M m n → P m path → judge m (s.nodeAt path.node) path = (m', .follow) →
    ∀ link ∈ (s.nodeAt path.node).links, P m' (path.along link)
  take : ∀ path m m', P m path → judge m (s.nodeAt path.node) path = (m', .take) → T path

/-- A property of the paths alone. -/
theorem Judges.of_paths {P : Path → Prop} (lt : ∀ path, P path → path.node < s.nodes.size)
    (follow : ∀ path m m', P path → judge m (s.nodeAt path.node) path = (m', .follow) →
      ∀ link ∈ (s.nodeAt path.node).links, P (path.along link))
    (take : ∀ path m m', P path → judge m (s.nodeAt path.node) path = (m', .take) → T path) :
    Judges s judge (fun _ _ => True) (fun _ => P) T :=
  ⟨fun _ => lt, fun _ _ _ _ _ _ _ _ => ⟨trivial, fun _ => trivial⟩, fun _ _ _ _ h => h,
    fun path m _ m' _ => follow path m m', take⟩

variable {M : σ → Nat → Prop} {P : σ → Path → Prop}

theorem versionCount_addSlice (s : Stack) (origin : Version) (slices : List Slice) (path : Path) :
    (s.addSlice origin slices path).1.versionCount = s.versionCount ∨
      (s.addSlice origin slices path).1.versionCount = s.versionCount + 1 := by
  unfold Stack.addSlice
  split
  · exact .inl rfl
  · exact .inr (Array.size_push ..)

theorem descendRound_spec (hj : Judges s judge M P T) (origin : Version) (paths : List Path)
    (d : Descent σ) (kept forked : List Path) (hd : DescentHolds chars strict s T d)
    (hm : M d.memory (d.stack.versionCount - s.versionCount)) (hp : ∀ path ∈ paths, P d.memory path)
    (hk : ∀ path ∈ kept, P d.memory path) (hf : ∀ path ∈ forked, P d.memory path) :
    DescentHolds chars strict s T (descendRound judge origin d kept forked paths).1 ∧
      M (descendRound judge origin d kept forked paths).1.memory
        ((descendRound judge origin d kept forked paths).1.stack.versionCount - s.versionCount) ∧
      ∀ path ∈ (descendRound judge origin d kept forked paths).2,
        P (descendRound judge origin d kept forked paths).1.memory path := by
  induction paths generalizing d kept forked with
  | nil =>
    refine ⟨hd, hm, fun path hmem => ?_⟩
    rcases List.mem_append.mp hmem with hmem | hmem
    · exact hk path (by simpa using hmem)
    · exact hf path (by simpa using hmem)
  | cons path rest ih =>
    have hpath := hp path (by simp)
    have hnode : d.stack.nodeAt path.node = s.nodeAt path.node := by
      rw [nodeAt, nodeAt, hd.nodes]
    rw [descendRound]
    simp only
    rcases hjudge : judge d.memory (d.stack.nodeAt path.node) path with ⟨memory, verdict⟩
    have hjudge' := hjudge
    rw [hnode] at hjudge'
    have hd' : DescentHolds chars strict s T { d with memory } :=
      ⟨hd.sound, hd.nodes, hd.count, hd.heads, hd.slices, hd.sorted, hd.covered, hd.apart⟩
    obtain ⟨hm', hmtake⟩ := hj.memory _ _ path _ _ hm hpath hjudge'
    have hkeep : ∀ other, P d.memory other → P memory other := by
      intro other hother
      have := hj.keep d.memory path other hpath hother
      rwa [hjudge'] at this
    have hrest : ∀ p ∈ rest, P memory p := fun p hmem => hkeep p (hp p (by simp [hmem]))
    have hk' : ∀ p ∈ kept, P memory p := fun p hmem => hkeep p (hk p hmem)
    have hf' : ∀ p ∈ forked, P memory p := fun p hmem => hkeep p (hf p hmem)
    cases verdict with
    | drop => exact ih _ _ _ hd' hm' hrest hk' hf'
    | take =>
      have ht := hj.take path _ _ hpath hjudge'
      refine ih _ _ _ (hd'.addSlice origin ht (hj.lt _ path hpath)) ?_ hrest hk' hf'
      show M memory ((d.stack.addSlice origin d.slices path).1.versionCount - s.versionCount)
      rcases versionCount_addSlice d.stack origin d.slices path with heq | heq <;> rw [heq]
      · exact hm'
      · rw [Nat.succ_sub hd.count]
        exact hmtake rfl
    | follow =>
      have hfollow := hj.follow path _ _ _ hm hpath hjudge'
      have hbranch : ∀ next others, d.stack.branches path (maxPaths -
          (kept.length + 1 + rest.length + forked.length)) = (some next, others) →
          P memory next ∧ ∀ p ∈ others, P memory p := by
        intro next others hb
        rw [branches, hnode] at hb
        cases hlinks : (s.nodeAt path.node).links with
        | nil => simp [hlinks] at hb
        | cons first more =>
          simp only [hlinks, Prod.mk.injEq, Option.some.injEq] at hb
          obtain ⟨rfl, rfl⟩ := hb
          refine ⟨hfollow first (by simp [hlinks]), fun p hmem => ?_⟩
          obtain ⟨link, hl, rfl⟩ := List.mem_map.mp (List.mem_of_mem_take hmem)
          exact hfollow link (by simp [hlinks, hl])
      simp only
      split
      · exact ih _ _ _ hd' hm' hrest hk' hf'
      · rename_i next others heq
        obtain ⟨hnext, hothers⟩ := hbranch next others heq
        refine ih _ _ _ hd' hm' hrest ?_ ?_
        · intro p hmem
          rcases List.mem_cons.mp hmem with rfl | hmem
          · exact hnext
          · exact hk' p hmem
        · intro p hmem
          rcases List.mem_append.mp hmem with hmem | hmem
          · exact hothers p (by simpa using hmem)
          · exact hf' p hmem

theorem descend_spec (hj : Judges s judge M P T) (origin : Version) (fuel : Nat) (d : Descent σ)
    (paths : List Path) (hd : DescentHolds chars strict s T d)
    (hm : M d.memory (d.stack.versionCount - s.versionCount)) (hp : ∀ path ∈ paths, P d.memory path) :
    DescentHolds chars strict s T (descend judge origin fuel d paths) ∧
      M (descend judge origin fuel d paths).memory
        ((descend judge origin fuel d paths).stack.versionCount - s.versionCount) := by
  induction fuel generalizing d paths with
  | zero =>
    rw [descend]
    exact ⟨hd, hm⟩
  | succ fuel ih =>
    cases paths with
    | nil =>
      rw [descend]
      · exact ⟨hd, hm⟩
      · simp
    | cons path rest =>
      obtain ⟨h1, h2, h3⟩ :=
        descendRound_spec hj origin (path :: rest) d [] [] hd hm hp (by simp) (by simp)
      rw [descend]
      · exact ih _ _ h1 h2 h3
      · simp

/-- **A descent yields nothing but paths of its kind**, in the order of their versions, and leaves
the stack as it is but for the versions that it adds. -/
theorem descendFrom_spec (h : s.Sound chars strict) {v : Version} {memory : σ}
    (hj : Judges s judge M P T) (hm : M memory 0) (hp : P memory { node := (s.head v).node }) :
    DescentHolds chars strict s T (s.descendFrom v memory judge) ∧
      M (s.descendFrom v memory judge).memory
        ((s.descendFrom v memory judge).stack.versionCount - s.versionCount) := by
  refine descend_spec hj v _ _ _ ⟨h, rfl, Nat.le_refl _, fun _ _ => rfl, ?_, .nil, ?_, ?_⟩
    (by rwa [Nat.sub_self]) ?_
  · exact fun _ hs => absurd hs List.not_mem_nil
  · exact fun w hw hlt => absurd hlt (Nat.not_lt.mpr hw)
  · exact fun _ hs => absurd hs List.not_mem_nil
  · intro path hmem
    obtain rfl := List.mem_singleton.mp hmem
    exact hp

theorem DescentHolds.keeps {d : Descent σ} (h : DescentHolds chars strict s T d) :
    Keeps s.versionCount s d.stack :=
  ⟨h.nodes ▸ .refl _, h.count, fun v hv => by rw [h.heads v hv], fun v hv => by rw [h.heads v hv]⟩

/-- Below a slice stands its version. -/
theorem DescentHolds.spot_eq {d : Descent σ} (h : DescentHolds chars strict s T d) {slice : Slice}
    {path : Path} (hnode : (d.stack.head slice.version).node = path.node) :
    d.stack.spot slice.version = spotAt s.nodes path.node := by
  rw [spot, hnode, h.nodes]

/-! ## The ways down -/

/-- The path is a way down from a spot, past trees that lie below it.  In a strict stack a path from the
recovery state that passes extras only comes past one mark. -/
structure PathHolds (chars : List Char) (strict : Prop) (s : Stack) (limit : Nat) (upper : Spot)
    (path : Path) : Prop where
  lt : path.node < s.nodes.size
  way : Way limit upper.state (stateAt s.nodes path.node) path.subtrees path.depth
  lies : LieAll chars (spotAt s.nodes path.node).position path.subtrees
  reach : (spotAt s.nodes path.node).footing.past path.subtrees = upper.footing
  marks : strict → upper.state = 0 → (∀ t ∈ path.subtrees, t.isExtra = true) →
    path.depth = 0 ∧ stateAt s.nodes path.node = 0 ∨ path.depth = 1 ∧ stateAt s.nodes path.node ≠ 0

theorem PathHolds.along (h : s.Sound chars strict) {limit : Nat} {upper : Spot} {path : Path}
    (hp : PathHolds chars strict s limit upper path) (hlt : path.depth < limit) {link : Link}
    (hl : link ∈ (s.nodeAt path.node).links) : PathHolds chars strict s limit upper (path.along link) := by
  obtain ⟨hnode, hfits, hspot⟩ := h.nodes.links path.node link hl
  obtain ⟨-, hway, hlies, hreach, hmarks⟩ := hp
  rw [stateAt] at hway hmarks
  cases ht : link.subtree with
  | none =>
    rw [ht] at hfits hspot
    rw [show (spotAt s.nodes path.node).state = 0 from hfits.1] at hway
    rw [hspot] at hlies hreach
    simp only [Path.along, ht]
    refine ⟨hnode, .mark hlt hway, hlies, hreach, fun hs hu hx => ?_⟩
    rcases hmarks hs hu hx with ⟨hdepth, -⟩ | ⟨-, hstate⟩
    · exact .inr ⟨by simp [hdepth], hfits.2 hs⟩
    · exact absurd hfits.1 hstate
  | some tree =>
    rw [ht] at hfits hspot
    obtain ⟨hgrown, hjoins, hhere, hsame⟩ := hfits
    rw [hspot] at hlies hreach
    rw [Spot.footing_above] at hreach
    simp only [Spot.above] at hlies
    simp only [Path.along, ht]
    refine ⟨hnode, .tree hlt hgrown hjoins hway, lieAll_cons.mpr ⟨hhere, hlies⟩, ?_, fun hs hu hx => ?_⟩
    · rw [Footing.past_cons]
      exact hreach
    · obtain ⟨hfirst, hrest⟩ := List.forall_mem_cons.mp hx
      rw [if_pos hfirst, stateAt, (hsame hs hfirst).1]
      exact hmarks hs hu hrest

theorem PathHolds.start (h : s.Sound chars strict) (limit : Nat) (v : Version) :
    PathHolds chars strict s limit (s.spot v) { node := (s.head v).node } :=
  ⟨(h.heads v).node_lt, .start, .nil, Footing.past_nil _, fun _ hu _ => .inl ⟨rfl, hu⟩⟩

/-- Taking a number of subtrees off a version. -/
theorem popCount_spec (h : s.Sound chars strict) (v : Version) (count : Nat) :
    DescentHolds chars strict s (fun path => PathHolds chars strict s count (s.spot v) path ∧ path.depth = count)
      (s.descendFrom v () fun _ _ path => ((), if path.depth == count then .take else .follow)) := by
  refine (descendFrom_spec h (.of_paths
    (P := fun path => PathHolds chars strict s count (s.spot v) path ∧ path.depth ≤ count)
    (fun _ hp => hp.1.lt) ?_ ?_) trivial ⟨.start h count v, Nat.zero_le _⟩).1
  · intro path _ _ ⟨hp, hle⟩ hjudge link hl
    have hne : path.depth ≠ count := by
      rintro rfl
      simp at hjudge
    refine ⟨hp.along h (by omega) hl, ?_⟩
    unfold Path.along
    split
    · simp only; omega
    · simp only; split <;> omega
  · intro path _ _ ⟨hp, _⟩ hjudge
    refine ⟨hp, ?_⟩
    by_contra hne
    simp [hne] at hjudge

/-- Taking everything off a version, down to the beginning of the text. -/
theorem popAll_spec (h : s.Sound chars strict) (v : Version) :
    DescentHolds chars strict s (fun path => (∃ limit, PathHolds chars strict s limit (s.spot v) path) ∧
        (s.nodeAt path.node).links = [])
      (s.descendFrom v () fun _ node _ => ((), if node.links.isEmpty then .take else .follow)) := by
  refine (descendFrom_spec h (.of_paths (P := fun path => ∃ limit, PathHolds chars strict s limit (s.spot v) path)
    (fun _ ⟨_, hp⟩ => hp.lt) ?_ fun path _ _ hp hjudge => ⟨hp, ?_⟩) trivial ⟨0, .start h 0 v⟩).1
  · rintro path _ _ ⟨limit, hp⟩ - link hl
    have hp' : PathHolds chars strict s (max limit (path.depth + 1)) (s.spot v) path :=
      ⟨hp.lt, hp.way.mono (Nat.le_max_left ..), hp.lies, hp.reach, hp.marks⟩
    exact ⟨_, hp'.along h (by omega) hl⟩
  · by_contra hne
    have hlinks : (s.nodeAt path.node).links.isEmpty = false := by simpa [nodeAt] using hne
    simp [hlinks] at hjudge

end Cicode.Parse.Stack
