import Cicode.Proofs.Parse.Extents

/-!
# Sound stacks

Of a node of the stack its state, its place in the text and the price up to it never change: its
*spot*.  A stack is sound (`Stack.Sound`) if every link of every node joins two states as the table
allows, by a grown tree that lies where the lower node has come to, and every version points at a
node.  Pushing and merging keep a stack sound and leave the spots of its nodes as they are
(`Extends`).

A descent finds nothing but ways down (`descendFrom_spec`): what it needs to know of the paths it
follows is a property that holds of the empty path and is kept by each link.
-/

namespace Cicode.Parse

open Grammar Text

/-! ## Arrays with a default -/

section getD

variable {α : Type} [Inhabited α]

theorem getD_push (a : Array α) (x : α) (i : Nat) :
    (a.push x).getD i default = if i = a.size then x else a.getD i default := by
  simp only [Array.getD_eq_getD_getElem?, Array.getElem?_push]
  split <;> rfl

theorem getD_modify (a : Array α) (f : α → α) (i j : Nat) :
    (a.modify i f).getD j default =
      if i = j ∧ j < a.size then f (a.getD j default) else a.getD j default := by
  simp only [Array.getD_eq_getD_getElem?, Array.getElem?_modify]
  by_cases hij : i = j
  · by_cases hj : j < a.size
    · simp [hij, hj]
    · simp [hij, hj]
  · simp [hij]

theorem getD_erase (a : Array α) (i j : Nat) :
    (a.eraseIdxIfInBounds i).getD j default =
      if i < a.size ∧ i ≤ j then a.getD (j + 1) default else a.getD j default := by
  unfold Array.eraseIdxIfInBounds
  split
  · rename_i h
    simp only [Array.getD_eq_getD_getElem?, Array.getElem?_eraseIdx, h, true_and]
    by_cases hj : j < i
    · simp [hj, Nat.not_le.mpr hj]
    · simp [hj, Nat.not_lt.mp hj]
  · rename_i h
    simp [h]

theorem getD_of_size_le {a : Array α} {i : Nat} (h : a.size ≤ i) : a.getD i default = default := by
  simp [h]

end getD

/-! ## Nodes and links -/

/-- What never changes of a node: its state, how far it is in the text, and the price up to it. -/
structure Spot where
  /-- The parser state. -/
  state : StateId
  /-- How far into the text. -/
  position : Extent
  /-- The price of the repairs. -/
  cost : Nat

/-- The spot that a push reaches. -/
def Spot.above (lower : Spot) (n : StateId) : Option Subtree → Spot
  | none => ⟨n, lower.position, lower.cost⟩
  | some tree => ⟨n, lower.position + tree.totalSize, lower.cost + tree.errorCost⟩

/-- How far a version is in the text, and the price up to there. -/
structure Footing where
  /-- How far into the text. -/
  position : Extent
  /-- The price of the repairs. -/
  cost : Nat

/-- How far a spot is, and at what price. -/
def Spot.footing (spot : Spot) : Footing := ⟨spot.position, spot.cost⟩

/-- The price of the repairs in trees. -/
def priceOf (trees : List Subtree) : Nat := (trees.map Subtree.errorCost).sum

/-- How far one is behind trees, and at what price. -/
def Footing.past (footing : Footing) (trees : List Subtree) : Footing :=
  ⟨footing.position + extentOf trees, footing.cost + priceOf trees⟩

@[simp] theorem priceOf_nil : priceOf [] = 0 := rfl

@[simp] theorem priceOf_cons (t : Subtree) (ts : List Subtree) :
    priceOf (t :: ts) = t.errorCost + priceOf ts := by
  simp [priceOf]

theorem priceOf_append (ts us : List Subtree) : priceOf (ts ++ us) = priceOf ts + priceOf us := by
  simp [priceOf]

@[simp] theorem Footing.past_nil (footing : Footing) : footing.past [] = footing := by
  rw [past, extentOf_nil, Extent.add_zero]
  rfl

theorem Footing.past_cons (footing : Footing) (t : Subtree) (ts : List Subtree) :
    footing.past (t :: ts) = (footing.past [t]).past ts := by
  simp only [past, extentOf_cons, extentOf_nil, Extent.add_zero, Extent.add_assoc, priceOf_cons,
    priceOf_nil, Nat.add_zero, Nat.add_assoc]

theorem Footing.past_append (footing : Footing) (ts us : List Subtree) :
    footing.past (ts ++ us) = (footing.past ts).past us := by
  simp only [past, extentOf_append, priceOf_append, Extent.add_assoc, Nat.add_assoc]

/-- A tree takes one on as far as it reaches, at its price. -/
theorem Spot.footing_above (lower : Spot) (n : StateId) (t : Subtree) :
    (lower.above n (some t)).footing = lower.footing.past [t] := by
  rw [Footing.past, extentOf_cons, extentOf_nil, Extent.add_zero, priceOf_cons, priceOf_nil, Nat.add_zero]
  rfl

/-- The spot of a node. -/
def spotAt (nodes : Array Node) (id : NodeId) : Spot :=
  ⟨(nodes.getD id default).state, (nodes.getD id default).position,
    (nodes.getD id default).errorCost⟩

/-- The state of a node. -/
def stateAt (nodes : Array Node) (id : NodeId) : StateId := (spotAt nodes id).state

/-- What may be put on top of a spot: the mark of an error, or a tree that lies there.  In a strict
stack no error is marked in the recovery state, and extras are put on other states and leave them as
they are. -/
def Fits (chars : List Char) (strict : Prop) (lower : Spot) (n : StateId) : Option Subtree → Prop
  | none => n = 0 ∧ (strict → lower.state ≠ 0)
  | some tree => Grown tree ∧ Joins lower.state tree n ∧ Lies chars lower.position tree ∧
      (strict → tree.isExtra = true → lower.state = n ∧ n ≠ 0)

/-- The link holds above a node at the given spot. -/
structure Link.Holds (chars : List Char) (strict : Prop) (nodes : Array Node) (upper : Spot)
    (link : Link) : Prop where
  node_lt : link.node < nodes.size
  fits : Fits chars strict (spotAt nodes link.node) upper.state link.subtree
  spot_eq : upper = (spotAt nodes link.node).above upper.state link.subtree

/-- All links of all nodes hold, and there is one node at the bottom, at the beginning of the text. -/
structure NodesSound (chars : List Char) (strict : Prop) (nodes : Array Node) : Prop where
  bottom : 0 < nodes.size
  links : ∀ id, ∀ link ∈ (nodes.getD id default).links, link.Holds chars strict nodes (spotAt nodes id)
  places : ∀ id, IsPlace chars (spotAt nodes id).position
  ground : ∀ id, (nodes.getD id default).links = [] →
    (spotAt nodes id).footing = ⟨0, 0⟩ ∧ (id < nodes.size → id = 0)

/-- Nodes may be added; those that are there keep their spots. -/
structure Extends (a b : Array Node) : Prop where
  size_le : a.size ≤ b.size
  spot_eq : ∀ id < a.size, spotAt b id = spotAt a id

variable {chars : List Char} {strict : Prop}

namespace Extends

theorem refl (a : Array Node) : Extends a a := ⟨Nat.le_refl _, fun _ _ => rfl⟩

theorem trans {a b c : Array Node} (h : Extends a b) (h' : Extends b c) : Extends a c :=
  ⟨Nat.le_trans h.size_le h'.size_le, fun id hid => by
    rw [h'.spot_eq id (Nat.lt_of_lt_of_le hid h.size_le), h.spot_eq id hid]⟩

theorem holds {a b : Array Node} (h : Extends a b) {upper : Spot} {link : Link}
    (hl : link.Holds chars strict a upper) : link.Holds chars strict b upper := by
  have hspot := h.spot_eq _ hl.node_lt
  exact ⟨Nat.lt_of_lt_of_le hl.node_lt h.size_le, hspot ▸ hl.fits, hspot ▸ hl.spot_eq⟩

end Extends

theorem extends_push (nodes : Array Node) (node : Node) : Extends nodes (nodes.push node) := by
  refine ⟨by simp, fun id hid => ?_⟩
  rw [spotAt, getD_push, if_neg (Nat.ne_of_lt hid)]
  rfl

theorem NodesSound.push {nodes : Array Node} (h : NodesSound chars strict nodes) {node : Node} {link : Link}
    (hlinks : node.links = [link])
    (hl : link.Holds chars strict nodes ⟨node.state, node.position, node.errorCost⟩) :
    NodesSound chars strict (nodes.push node) := by
  have hplace : IsPlace chars node.position := by
    have hpos : node.position = _ := congrArg Spot.position hl.spot_eq
    have hfits := hl.fits
    rw [hpos]
    cases htree : link.subtree with
    | none => exact h.places link.node
    | some tree =>
      rw [htree] at hfits
      exact hfits.2.2.1.finish
  refine ⟨by simp, fun id l hmem => ?_, fun id => ?_, fun id hnil => ?_⟩
  · apply (extends_push nodes node).holds
    rw [spotAt]
    rw [getD_push] at hmem ⊢
    split at hmem
    · rename_i heq
      rw [hlinks, List.mem_singleton] at hmem
      rw [if_pos heq, hmem]
      exact hl
    · rename_i heq
      rw [if_neg heq]
      exact h.links id l hmem
  · rw [spotAt, getD_push]
    split
    · exact hplace
    · exact h.places id
  · rw [getD_push] at hnil
    split at hnil
    · rw [hlinks] at hnil
      cases hnil
    · rename_i heq
      obtain ⟨hfoot, hzero⟩ := h.ground id hnil
      rw [spotAt, getD_push, if_neg heq]
      refine ⟨hfoot, fun hlt => hzero ?_⟩
      rw [Array.size_push] at hlt
      omega

/-- The node keeps its spot. -/
def KeepsSpot (f : Node → Node) : Prop :=
  ∀ node, (f node).state = node.state ∧ (f node).position = node.position ∧
    (f node).errorCost = node.errorCost

theorem spot_modify (nodes : Array Node) {f : Node → Node} (hf : KeepsSpot f) (id i : NodeId) :
    spotAt (nodes.modify id f) i = spotAt nodes i := by
  rw [spotAt, getD_modify]
  split
  · obtain ⟨h1, h2, h3⟩ := hf (nodes.getD i default)
    rw [h1, h2, h3]
    rfl
  · rfl

/-- One more link of the same kind keeps the nodes sound. -/
theorem NodesSound.modify {nodes : Array Node} (h : NodesSound chars strict nodes) {id : NodeId} {link : Link}
    {f : Node → Node} (hl : link.Holds chars strict nodes (spotAt nodes id)) (hf : KeepsSpot f)
    (hlinks : ∀ node, (f node).links = node.links ++ [link]) :
    NodesSound chars strict (nodes.modify id f) ∧ Extends nodes (nodes.modify id f) := by
  have hext : Extends nodes (nodes.modify id f) := ⟨by simp, fun i _ => spot_modify nodes hf id i⟩
  refine ⟨⟨by simpa using h.bottom, fun i l hmem => ?_, fun i => ?_, fun i hnil => ?_⟩, hext⟩
  · rw [spot_modify nodes hf]
    apply hext.holds
    rw [getD_modify] at hmem
    split at hmem
    · rename_i hi
      rw [hlinks, List.mem_append, List.mem_singleton] at hmem
      rcases hmem with hmem | rfl
      · exact h.links i l hmem
      · exact hi.1 ▸ hl
    · exact h.links i l hmem
  · rw [spot_modify nodes hf]
    exact h.places i
  · rw [spot_modify nodes hf]
    rw [getD_modify] at hnil
    split at hnil
    · simp [hlinks] at hnil
    · rw [Array.size_modify]
      exact h.ground i hnil

/-- Links of the right kind are added to a node one after the other. -/
theorem NodesSound.foldl {nodes : Array Node} (h : NodesSound chars strict nodes) {id : NodeId}
    (hid : id < nodes.size) {f : Array Node → Link → Array Node}
    (hf : ∀ ns l, NodesSound chars strict ns → l.Holds chars strict ns (spotAt ns id) →
      NodesSound chars strict (f ns l) ∧ Extends ns (f ns l))
    {links : List Link} (hl : ∀ l ∈ links, l.Holds chars strict nodes (spotAt nodes id)) :
    NodesSound chars strict (links.foldl f nodes) ∧ Extends nodes (links.foldl f nodes) := by
  induction links generalizing nodes with
  | nil => exact ⟨h, .refl _⟩
  | cons l links ih =>
    obtain ⟨h1, h2⟩ := hf nodes l h (hl l (by simp))
    obtain ⟨h3, h4⟩ := ih h1 (Nat.lt_of_lt_of_le hid h2.size_le) fun l' hl' =>
      h2.spot_eq id hid ▸ h2.holds (hl l' (by simp [hl']))
    exact ⟨h3, h2.trans h4⟩

/-- Nodes that can stand for each other are at the same spot. -/
theorem NodesSound.spot_of_agrees {nodes : Array Node} (h : NodesSound chars strict nodes) {a b : NodeId}
    (hab : (nodes.getD a default).agrees (nodes.getD b default) = true) :
    spotAt nodes a = spotAt nodes b := by
  simp only [Node.agrees, Bool.and_eq_true, beq_iff_eq] at hab
  have hpos : (spotAt nodes a).position = (spotAt nodes b).position :=
    (h.places a).eq_of_bytes (h.places b) hab.1.2
  have hstate : (spotAt nodes a).state = (spotAt nodes b).state := hab.1.1
  have hcost : (spotAt nodes a).cost = (spotAt nodes b).cost := hab.2
  generalize spotAt nodes a = x at hpos hstate hcost
  generalize spotAt nodes b = y at hpos hstate hcost
  cases x
  cases y
  simp only at hpos hstate hcost
  rw [hpos, hstate, hcost]

namespace Stack

/-- **Merging a link into a node keeps the nodes sound.** -/
theorem addLink_spec (depth : Nat) (nodes : Array Node) (id : NodeId) (link : Link)
    (hs : NodesSound chars strict nodes) (hl : link.Holds chars strict nodes (spotAt nodes id)) :
    NodesSound chars strict (addLink depth nodes id link) ∧ Extends nodes (addLink depth nodes id link) := by
  induction depth generalizing nodes id link with
  | zero => exact ⟨hs, .refl _⟩
  | succ depth ih =>
    rw [addLink]
    split
    · exact ⟨hs, .refl _⟩
    · simp only
      split
      · rename_i existing htwin
        split
        · exact ⟨hs, .refl _⟩
        · -- The two ways lead to nodes at one spot, so the links below may be merged.
          rename_i hne
          have htwin' := List.find?_some htwin
          simp only [Bool.and_eq_true, Bool.or_eq_true, hne] at htwin'
          have hspot : spotAt nodes existing.node = spotAt nodes link.node :=
            hs.spot_of_agrees (htwin'.2.resolve_left (by simp))
          have hlt := (hs.links id existing (List.mem_of_find?_eq_some htwin)).node_lt
          exact hs.foldl hlt (fun ns l => ih ns existing.node l) fun l hmem =>
            hspot ▸ hs.links link.node l hmem
      · split
        · exact ⟨hs, .refl _⟩
        · exact hs.modify hl (fun _ => ⟨rfl, rfl, rfl⟩) fun _ => rfl

end Stack

/-- A token that is to be used next. -/
structure IsLookahead (tree : Subtree) : Prop where
  leaf : tree.children = []
  kinds : IsToken tree.facts ∨ IsUnreadable tree.facts
  keyword : tree.facts.keyword = true → tree.symbol ∈ .identifier :: reservedWords
  ending : tree.symbol = .endOfInput → tree.isExtra = true

/-- The head points at a node, and what it waits for is a token that was read there. -/
structure Head.Holds (chars : List Char) (nodes : Array Node) (head : Head) : Prop where
  node_lt : head.node < nodes.size
  lookahead : ∀ tree, head.status = .paused tree →
    IsLookahead tree ∧ IsReadAt chars (spotAt nodes head.node).position tree.facts

theorem Head.Holds.mono {a b : Array Node} (h : Extends a b) {head : Head} (hh : head.Holds chars a) :
    head.Holds chars b := by
  refine ⟨Nat.lt_of_lt_of_le hh.node_lt h.size_le, ?_⟩
  rw [h.spot_eq _ hh.node_lt]
  exact hh.lookahead

/-- A sound stack. -/
structure Stack.Sound (chars : List Char) (strict : Prop) (stack : Stack) : Prop where
  nodes : NodesSound chars strict stack.nodes
  heads : ∀ v, (stack.head v).Holds chars stack.nodes

/-- What fits on a strict stack fits on any. -/
theorem Fits.relax {lower : Spot} {n : StateId} {t : Option Subtree} (h : Fits chars strict lower n t) :
    Fits chars False lower n t := by
  cases t with
  | none => exact ⟨h.1, nofun⟩
  | some tree => exact ⟨h.1, h.2.1, h.2.2.1, nofun⟩

/-- A strict stack is a sound one. -/
theorem Stack.Sound.relax {s : Stack} (h : s.Sound chars strict) : s.Sound chars False :=
  ⟨⟨h.nodes.bottom, fun id link hl =>
    have hholds := h.nodes.links id link hl
    ⟨hholds.node_lt, hholds.fits.relax, hholds.spot_eq⟩, h.nodes.places, h.nodes.ground⟩, h.heads⟩

namespace Stack

variable {s s' s'' : Stack} {v w : Nat}

theorem head_modifyHead (s : Stack) (v w : Nat) (f : Head → Head) :
    (s.modifyHead v f).head w = if v = w ∧ w < s.versionCount then f (s.head w) else s.head w :=
  getD_modify ..

theorem head_remove (s : Stack) (v w : Nat) : (s.remove v).head w =
    if v < s.versionCount ∧ v ≤ w then s.head (w + 1) else s.head w :=
  getD_erase ..

theorem head_of_count_le (h : s.versionCount ≤ v) : s.head v = default :=
  getD_of_size_le h

@[simp] theorem versionCount_modifyHead (s : Stack) (v : Version) (f : Head → Head) :
    (s.modifyHead v f).versionCount = s.versionCount := by
  simp [modifyHead, versionCount]

theorem versionCount_remove (s : Stack) (v : Nat) : (s.remove v).versionCount =
    if v < s.versionCount then s.versionCount - 1 else s.versionCount := by
  unfold remove versionCount Array.eraseIdxIfInBounds
  split <;> simp_all

/-- The spot that a version has come to. -/
def spot (s : Stack) (v : Version) : Spot := spotAt s.nodes (s.head v).node

theorem state_eq (s : Stack) (v : Version) : s.state v = stateAt s.nodes (s.head v).node := rfl

theorem Sound.default_holds (h : s.Sound chars strict) : (default : Head).Holds chars s.nodes :=
  ⟨h.nodes.bottom, fun _ ht => nomatch ht⟩

/-- The version has come so far at that price, and takes part. -/
structure Stands (p : Footing) (s : Stack) (v : Version) : Prop where
  footing : (s.spot v).footing = p
  active : (s.head v).status = .active

/-- A version on which the stack may mark an error. -/
structure Ready (strict : Prop) (p : Footing) (s : Stack) (v : Version) : Prop extends Stands p s v where
  clear : strict → s.state v ≠ 0

namespace Stands

variable {p : Footing}

theorem position (h : s.Stands p v) : (s.spot v).position = p.position :=
  congrArg Footing.position h.footing

theorem cost (h : s.Stands p v) : (s.spot v).cost = p.cost := congrArg Footing.cost h.footing

/-- A version that takes part does not wait. -/
theorem awake (h : s.Stands p v) : s.isPaused v = false := by
  rw [isPaused, h.active]
  rfl

/-- A version that stands where another one stood. -/
theorem of_spot (h : s.Stands p v)
    (hspot : s'.spot w = s.spot v ∧ (s'.head w).status = (s.head v).status) : s'.Stands p w :=
  ⟨hspot.1 ▸ h.footing, hspot.2.trans h.active⟩

end Stands

theorem Ready.of_spot {p : Footing} (h : s.Ready strict p v)
    (hspot : s'.spot w = s.spot v ∧ (s'.head w).status = (s.head v).status) : s'.Ready strict p w :=
  ⟨h.toStands.of_spot hspot, by rw [state_eq, stateAt, ← spot, hspot.1]; exact h.clear⟩

/-- The first versions of a stack stand where they stood, on nodes that are still there, and wait or
take part as they did. -/
structure Keeps (n : Nat) (s s' : Stack) : Prop where
  nodes : Extends s.nodes s'.nodes
  count : n ≤ s'.versionCount
  heads : ∀ v < n, (s'.head v).node = (s.head v).node
  status : ∀ v < n, (s'.head v).status = (s.head v).status

namespace Keeps

variable {n m : Nat}

theorem refl (h : n ≤ s.versionCount) : Keeps n s s := ⟨.refl _, h, fun _ _ => rfl, fun _ _ => rfl⟩

theorem trans (h : Keeps n s s') (h' : Keeps n s' s'') : Keeps n s s'' :=
  ⟨h.nodes.trans h'.nodes, h'.count, fun v hv => (h'.heads v hv).trans (h.heads v hv),
    fun v hv => (h'.status v hv).trans (h.status v hv)⟩

theorem mono (h : Keeps n s s') (hle : m ≤ n) : Keeps m s s' :=
  ⟨h.nodes, Nat.le_trans hle h.count, fun v hv => h.heads v (Nat.lt_of_lt_of_le hv hle),
    fun v hv => h.status v (Nat.lt_of_lt_of_le hv hle)⟩

/-- A version that is kept is at the same spot. -/
theorem spot_eq (h : Keeps n s s') (hs : s.Sound chars strict) (hv : v < n) : s'.spot v = s.spot v := by
  rw [Stack.spot, Stack.spot, h.heads v hv, h.nodes.spot_eq _ (hs.heads v).node_lt]

theorem state_eq (h : Keeps n s s') (hs : s.Sound chars strict) (hv : v < n) : s'.state v = s.state v :=
  congrArg Spot.state (h.spot_eq hs hv)

theorem stands (h : Keeps n s s') (hs : s.Sound chars strict) (hv : v < n) {p : Footing}
    (hst : s.Stands p v) : s'.Stands p v :=
  hst.of_spot ⟨h.spot_eq hs hv, h.status v hv⟩

theorem ready (h : Keeps n s s') (hs : s.Sound chars strict) (hv : v < n) {p : Footing}
    (hst : s.Ready strict p v) : s'.Ready strict p v :=
  hst.of_spot ⟨h.spot_eq hs hv, h.status v hv⟩

end Keeps

/-- Changing a head without moving it. -/
theorem Sound.modifyHead (h : s.Sound chars strict) {f : Head → Head} (hf : ∀ head : Head, head.Holds chars s.nodes →
    (f head).Holds chars s.nodes) : (s.modifyHead v f).Sound chars strict := by
  refine ⟨h.nodes, fun w => ?_⟩
  rw [head_modifyHead]
  split
  · exact hf _ (h.heads w)
  · exact h.heads w

theorem keeps_modifyHead {f : Head → Head} (hf : ∀ head, (f head).node = head.node)
    (ha : ∀ head, (f head).status = head.status) : Keeps s.versionCount s (s.modifyHead v f) := by
  refine ⟨.refl _, by simp, fun w _ => ?_, fun w _ => ?_⟩
  · rw [head_modifyHead]
    split
    · exact hf _
    · rfl
  · rw [head_modifyHead]
    split
    · exact ha _
    · rfl

theorem Sound.remove (h : s.Sound chars strict) : (s.remove v).Sound chars strict := by
  refine ⟨h.nodes, fun w => ?_⟩
  rw [head_remove]
  split
  · exact h.heads (w + 1)
  · exact h.heads w

theorem keeps_remove {m : Nat} (hm : m ≤ v) (hc : m ≤ s.versionCount) : Keeps m s (s.remove v) := by
  have hhead : ∀ w < m, (s.remove v).head w = s.head w := by
    intro w hw
    rw [head_remove, if_neg (by omega)]
  refine ⟨.refl _, ?_, fun w hw => by rw [hhead w hw], fun w hw => by rw [hhead w hw]⟩
  rw [versionCount_remove]
  split <;> omega

/-- The versions behind one that is dropped move up. -/
theorem spot_remove {w : Nat} (hv : v < s.versionCount) (hw : v ≤ w) :
    (s.remove v).spot w = s.spot (w + 1) ∧ ((s.remove v).head w).status = (s.head (w + 1)).status := by
  have hhead : (s.remove v).head w = s.head (w + 1) := by rw [head_remove, if_pos ⟨hv, hw⟩]
  refine ⟨?_, by rw [hhead]⟩
  rw [spot, hhead]
  rfl

theorem Sound.settle (h : s.Sound chars strict) : (s.settle v).Sound chars strict := by
  rw [Stack.settle]
  split
  · exact h.modifyHead fun _ hh => ⟨hh.node_lt, hh.lookahead⟩
  · exact h

theorem keeps_settle : Keeps s.versionCount s (s.settle v) := by
  rw [Stack.settle]
  split
  · exact keeps_modifyHead (fun _ => rfl) fun _ => rfl
  · exact .refl (Nat.le_refl _)

theorem versionCount_settle : (s.settle v).versionCount = s.versionCount := by
  rw [Stack.settle]
  split <;> simp

theorem Sound.halt (h : s.Sound chars strict) : (s.halt v).Sound chars strict :=
  h.modifyHead fun _ hh => ⟨hh.node_lt, fun _ ht => nomatch ht⟩

theorem versionCount_halt : (s.halt v).versionCount = s.versionCount := versionCount_modifyHead ..

/-- A version that is given up stays where it is. -/
theorem spot_halt (s : Stack) (v w : Nat) : (s.halt v).spot w = s.spot w := by
  rw [spot, Stack.halt, head_modifyHead, apply_ite Head.node]
  exact congrArg (spotAt s.nodes) (ite_self _)

theorem head_halt_of_ne (h : v ≠ w) : (s.halt v).head w = s.head w := by
  rw [Stack.halt, head_modifyHead, if_neg fun hc => h hc.1]

theorem keeps_halt {m : Nat} (hm : m ≤ v) (hc : m ≤ s.versionCount) : Keeps m s (s.halt v) :=
  ⟨.refl _, by rwa [versionCount_halt], fun w hw => by rw [head_halt_of_ne (by omega)], fun w hw => by
    rw [head_halt_of_ne (by omega)]⟩

theorem Sound.resume (h : s.Sound chars strict) : (s.resume v).Sound chars strict :=
  h.modifyHead fun _ hh => ⟨hh.node_lt, fun _ ht => nomatch ht⟩

theorem Sound.pause (h : s.Sound chars strict) {lookahead : Subtree} (hl : IsLookahead lookahead)
    (hread : IsReadAt chars (s.spot v).position lookahead.facts) :
    (s.pause v lookahead).Sound chars strict := by
  refine ⟨h.nodes, fun w => ?_⟩
  rw [Stack.pause, head_modifyHead]
  split
  · rename_i hw
    refine ⟨(h.heads w).node_lt, fun tree ht => ?_⟩
    cases ht
    exact ⟨hl, hw.1 ▸ hread⟩
  · exact h.heads w

theorem Sound.copy (h : s.Sound chars strict) : (s.copy v).Sound chars strict := by
  refine ⟨h.nodes, fun w => ?_⟩
  rw [head, Stack.copy, getD_push]
  split
  · exact ⟨(h.heads v).node_lt, (h.heads v).lookahead⟩
  · exact h.heads w

/-- A stack with other heads is sound if they are among those of a sound one. -/
theorem Sound.of_heads (h : s.Sound chars strict) {heads : Array Head} (hh : ∀ head ∈ heads, head ∈ s.heads) :
    ({ s with heads } : Stack).Sound chars strict := by
  refine ⟨h.nodes, fun w => ?_⟩
  by_cases hw : w < heads.size
  · obtain ⟨i, hi⟩ := Array.mem_iff_getElem?.mp (hh _ (Array.getElem_mem hw))
    have hholds := h.heads i
    simp only [head, Array.getD_eq_getD_getElem?, hi, Option.getD_some] at hholds
    simpa [head, hw] using hholds
  · have hdefault : ({ s with heads } : Stack).head w = default := getD_of_size_le (Nat.not_lt.mp hw)
    rw [hdefault]
    exact h.default_holds

theorem mem_of_mem_extract {α : Type} {a : Array α} {i j : Nat} {x : α} (h : x ∈ a.extract i j) :
    x ∈ a := by
  obtain ⟨k, hk, rfl⟩ := Array.mem_iff_getElem.mp h
  rw [Array.getElem_extract]
  exact Array.getElem_mem _

theorem Sound.swap (h : s.Sound chars strict) {a b : Version} : (s.swap a b).Sound chars strict := by
  refine h.of_heads fun head hh => ?_
  obtain ⟨k, hk, rfl⟩ := Array.mem_iff_getElem.mp hh
  rw [Array.getElem_swapIfInBounds]
  split
  · exact Array.getElem_mem _
  · split
    · exact Array.getElem_mem _
    · exact Array.getElem_mem _

theorem Sound.take (h : s.Sound chars strict) {n : Nat} : ({ s with heads := s.heads.take n } : Stack).Sound chars strict :=
  h.of_heads fun _ hh => mem_of_mem_extract hh

theorem Sound.dropInactive (h : s.Sound chars strict) {n : Nat} : (s.dropInactive n).Sound chars strict := by
  refine h.of_heads fun head hh => ?_
  rcases Array.mem_append.mp hh with hh | hh
  · exact mem_of_mem_extract hh
  · exact mem_of_mem_extract (Array.mem_filter.mp hh).1

theorem keeps_dropInactive {n : Nat} (hn : n ≤ s.versionCount) : Keeps n s (s.dropInactive n) := by
  have hlen : (s.heads.take n).size = n := by
    rw [versionCount] at hn
    simp
    omega
  have hhead : ∀ v < n, (s.dropInactive n).head v = s.head v := by
    intro v hv
    have hv' : v < s.heads.size := Nat.lt_of_lt_of_le hv hn
    simp only [head, Stack.dropInactive, Array.getD_eq_getD_getElem?]
    rw [Array.getElem?_append_left (by omega), Array.getElem?_extract, if_pos (by omega),
      Nat.zero_add]
  refine ⟨.refl _, ?_, fun v hv => by rw [hhead v hv], fun v hv => by rw [hhead v hv]⟩
  rw [versionCount, Stack.dropInactive, Array.size_append]
  omega

/-! ## Pushing and merging -/

theorem Node.links_above (node : Node) (id : NodeId) (t : Option Subtree) (n : StateId) :
    (node.above id t n).links = [⟨id, t⟩] := by
  cases t <;> rfl

/-- The spot of the node that a push creates. -/
theorem Node.spot_above (node : Node) (id : NodeId) (t : Option Subtree) (n : StateId) :
    (⟨(node.above id t n).state, (node.above id t n).position, (node.above id t n).errorCost⟩ : Spot) =
      Spot.above ⟨node.state, node.position, node.errorCost⟩ n t := by
  cases t <;> rfl

theorem head_push (s : Stack) (v w : Nat) (t : Option Subtree) (n : StateId) :
    ((s.push v t n).head w).node =
      if v = w ∧ w < s.versionCount then s.nodes.size else (s.head w).node := by
  rw [Stack.push, head_modifyHead, apply_ite Head.node]
  rfl

theorem versionCount_push (s : Stack) (v : Nat) (t : Option Subtree) (n : StateId) :
    (s.push v t n).versionCount = s.versionCount := by
  rw [Stack.push, versionCount_modifyHead]
  rfl

theorem nodes_push (s : Stack) (v : Nat) (t : Option Subtree) (n : StateId) :
    (s.push v t n).nodes = s.nodes.push ((s.top v).above (s.head v).node t n) := rfl

theorem status_push (s : Stack) (v w : Nat) (t : Option Subtree) (n : StateId) :
    ((s.push v t n).head w).status = (s.head w).status := by
  rw [Stack.push, head_modifyHead, apply_ite Head.status]
  exact ite_self _

theorem isPaused_push (s : Stack) (v w : Nat) (t : Option Subtree) (n : StateId) :
    (s.push v t n).isPaused w = s.isPaused w :=
  congrArg Status.isPaused (status_push s v w t n)

theorem spot_push (s : Stack) {v : Nat} (hv : v < s.versionCount) (t : Option Subtree) (n : StateId) :
    (s.push v t n).spot v = (s.spot v).above n t := by
  rw [spot, head_push, if_pos ⟨rfl, hv⟩, nodes_push, spotAt, getD_push, if_pos rfl]
  exact Node.spot_above ..

theorem state_push (s : Stack) {v : Nat} (hv : v < s.versionCount) (t : Option Subtree) (n : StateId) :
    (s.push v t n).state v = n := by
  have hspot := congrArg Spot.state (spot_push s hv t n)
  cases t <;> exact hspot

/-- **What fits may be put on top of a version**, unless it waits for a token that was read there. -/
theorem Sound.push (h : s.Sound chars strict) {t : Option Subtree} {n : StateId}
    (ht : Fits chars strict (s.spot v) n t)
    (ha : s.isPaused v = true → ((s.spot v).above n t).position = (s.spot v).position) :
    (s.push v t n).Sound chars strict := by
  have hnodes : NodesSound chars strict (s.push v t n).nodes := by
    rw [nodes_push]
    refine h.nodes.push (Node.links_above ..) ?_
    rw [Node.spot_above]
    refine ⟨(h.heads v).node_lt, ?_, ?_⟩
    · cases t <;> exact ht
    · cases t <;> rfl
  refine ⟨hnodes, fun w => ?_⟩
  by_cases hw : v = w ∧ w < s.versionCount
  · obtain ⟨rfl, hv⟩ := hw
    refine ⟨?_, fun tree htree => ?_⟩
    · rw [head_push, if_pos ⟨rfl, hv⟩, nodes_push, Array.size_push]
      exact Nat.lt_succ_self _
    · have hpaused : (s.push v t n).isPaused v = true := by rw [isPaused, htree]; rfl
      rw [isPaused_push] at hpaused
      have hspot : (spotAt (s.push v t n).nodes ((s.push v t n).head v).node).position =
          (s.spot v).position := (congrArg Spot.position (spot_push s hv t n)).trans (ha hpaused)
      rw [hspot]
      refine (h.heads v).lookahead tree ?_
      rw [Stack.push, head_modifyHead, apply_ite Head.status] at htree
      exact (ite_self _).symm.trans htree
  · have hhead : (s.push v t n).head w = s.head w := by
      rw [Stack.push, head_modifyHead]
      exact if_neg hw
    rw [hhead]
    exact .mono (extends_push ..) (h.heads w)

/-- A version may have moved; the others stand where they stood, and all wait or take part as they
did. -/
structure Moved (chars : List Char) (strict : Prop) (v : Nat) (s s' : Stack) : Prop where
  sound : s'.Sound chars strict
  nodes : Extends s.nodes s'.nodes
  count : s.versionCount ≤ s'.versionCount
  heads : ∀ w < s.versionCount, w ≠ v → (s'.head w).node = (s.head w).node
  status : ∀ w < s.versionCount, (s'.head w).status = (s.head w).status

namespace Moved

theorem refl (h : s.Sound chars strict) : Moved chars strict v s s :=
  ⟨h, .refl _, Nat.le_refl _, fun _ _ _ => rfl, fun _ _ => rfl⟩

theorem trans (h : Moved chars strict v s s') (h' : Moved chars strict v s' s'') : Moved chars strict v s s'' :=
  ⟨h'.sound, h.nodes.trans h'.nodes, Nat.le_trans h.count h'.count, fun w hw hne =>
    (h'.heads w (Nat.lt_of_lt_of_le hw h.count) hne).trans (h.heads w hw hne),
    fun w hw => (h'.status w (Nat.lt_of_lt_of_le hw h.count)).trans (h.status w hw)⟩

theorem keeps (h : Moved chars strict v s s') {m : Nat} (hm : m ≤ v) (hc : m ≤ s.versionCount) :
    Keeps m s s' :=
  ⟨h.nodes, Nat.le_trans hc h.count, fun w hw => h.heads w (by omega) (by omega),
    fun w hw => h.status w (by omega)⟩

/-- Another version than the one that moved is where it was. -/
theorem spot_eq (h : Moved chars strict v s s') (hs : s.Sound chars strict) {w : Nat} (hw : w < s.versionCount)
    (hne : w ≠ v) : s'.spot w = s.spot w := by
  rw [spot, spot, h.heads w hw hne, h.nodes.spot_eq _ (hs.heads w).node_lt]

theorem ready (h : Moved chars strict v s s') (hs : s.Sound chars strict) {w : Nat} (hw : w < s.versionCount)
    (hne : w ≠ v) {p : Footing} (hst : s.Ready strict p w) : s'.Ready strict p w :=
  hst.of_spot ⟨h.spot_eq hs hw hne, h.status w hw⟩

end Moved

theorem Sound.moved_push (h : s.Sound chars strict) {t : Option Subtree} {n : StateId}
    (ht : Fits chars strict (s.spot v) n t)
    (ha : s.isPaused v = true → ((s.spot v).above n t).position = (s.spot v).position) :
    Moved chars strict v s (s.push v t n) := by
  refine ⟨h.push ht ha, extends_push .., Nat.le_of_eq (versionCount_push ..).symm, fun w _ hne => ?_,
    fun w _ => status_push ..⟩
  rw [head_push, if_neg fun hc => hne hc.1.symm]

/-- A version after a push. -/
theorem Stands.push (hv : v < s.versionCount) {p : Footing} (hst : s.Stands p v) (t : Subtree)
    (n : StateId) : (s.push v (some t) n).Stands (p.past [t]) v := by
  refine ⟨?_, (status_push ..).trans hst.active⟩
  rw [spot_push s hv, Spot.footing_above, hst.footing]

/-- Extras are put on a version one after the other. -/
theorem Sound.pushAll (h : s.Sound chars strict) (hv : v < s.versionCount) {p : Footing}
    (hst : s.Ready strict p v) {trees : List Subtree} (ht : ∀ t ∈ trees, Grown t ∧ t.isExtra = true)
    (hl : LieAll chars p.position trees) :
    Moved chars strict v s (s.pushAll v trees (s.state v)) ∧
      (s.pushAll v trees (s.state v)).versionCount = s.versionCount ∧
      (s.pushAll v trees (s.state v)).Ready strict (p.past trees) v := by
  induction trees generalizing s p with
  | nil =>
    refine ⟨.refl h, rfl, ?_⟩
    rw [Footing.past_nil]
    exact hst
  | cons t ts ih =>
    obtain ⟨hg, hex⟩ := ht t (by simp)
    obtain ⟨hlies, hrest⟩ := lieAll_cons.mp hl
    have hmoved := h.moved_push (v := v) (t := some t) (n := s.state v)
      ⟨hg, .stray hex, hst.position ▸ hlies, fun hs _ => ⟨rfl, hst.clear hs⟩⟩ fun hp => by rw [hst.awake] at hp; cases hp
    have hstate := state_push s hv (some t) (s.state v)
    have hready : (s.push v (some t) (s.state v)).Ready strict (p.past [t]) v :=
      ⟨hst.toStands.push hv t (s.state v), fun hs => by rw [hstate]; exact hst.clear hs⟩
    obtain ⟨h1, h2, h3⟩ := ih hmoved.sound (by rwa [versionCount_push]) hready
      (fun u hu => ht u (by simp [hu])) (by simpa [Footing.past] using hrest)
    rw [hstate] at h1 h2 h3
    rw [Footing.past_cons]
    exact ⟨hmoved.trans h1, h2.trans (versionCount_push ..), h3⟩

theorem canMerge_of_mergeTarget? {older : Version} {candidates : List Version}
    (h : s.mergeTarget? v candidates = some older) :
    s.canMerge older v = true ∧ older ∈ candidates :=
  ⟨List.find?_some (p := (s.canMerge · v)) h, List.mem_of_find?_eq_some h⟩

/-- Merging versions adds links to a node and drops the second version. -/
theorem merge_spec (h : s.Sound chars strict) {a b : Version} (hm : s.canMerge a b = true) :
    ∃ t : Stack, t.Sound chars strict ∧ Keeps s.versionCount s t ∧ t.versionCount = s.versionCount ∧
      s.merge a b = t.remove b := by
  simp only [canMerge, Bool.and_eq_true] at hm
  have hspot : spotAt s.nodes (s.head a).node = spotAt s.nodes (s.head b).node :=
    h.nodes.spot_of_agrees hm.2
  have hlinks : ∀ l ∈ (s.top b).links, l.Holds chars strict s.nodes (spotAt s.nodes (s.head a).node) :=
    fun l hl => hspot ▸ h.nodes.links (s.head b).node l hl
  obtain ⟨hn, he⟩ := h.nodes.foldl (h.heads a).node_lt
    (fun ns l hns hl => addLink_spec (ns.size + 1) ns (s.head a).node l hns hl) hlinks
  rw [merge]
  generalize List.foldl (fun ns l => addLink (ns.size + 1) ns (s.head a).node l) s.nodes
    (s.top b).links = nodes at hn he
  have hsound : ({ s with nodes } : Stack).Sound chars strict := ⟨hn, fun v => .mono he (h.heads v)⟩
  have hkeep : Keeps s.versionCount s { s with nodes } :=
    ⟨he, Nat.le_refl _, fun _ _ => rfl, fun _ _ => rfl⟩
  split
  · refine ⟨_, ?_, ?_, ?_, rfl⟩
    · exact hsound.modifyHead fun _ hh => ⟨hh.node_lt, hh.lookahead⟩
    · refine hkeep.trans (keeps_modifyHead (s := { s with nodes }) ?_ ?_)
      · exact fun _ => rfl
      · exact fun _ => rfl
    · exact versionCount_modifyHead ..
  · exact ⟨_, hsound, hkeep, rfl, rfl⟩

theorem Sound.merge (h : s.Sound chars strict) {a b : Version} (hm : s.canMerge a b = true) :
    (s.merge a b).Sound chars strict := by
  obtain ⟨t, ht, -, -, heq⟩ := merge_spec h hm
  rw [heq]
  exact ht.remove

theorem keeps_merge (h : s.Sound chars strict) {a : Version} {b m : Nat} (hm : s.canMerge a b = true)
    (hb : m ≤ b) (hc : m ≤ s.versionCount) : Keeps m s (s.merge a b) := by
  obtain ⟨t, -, hk, hcount, heq⟩ := merge_spec h hm
  rw [heq]
  exact (hk.mono hc).trans (keeps_remove hb (hcount ▸ hc))

/-- The versions behind the one that was merged move up. -/
theorem spot_merge (h : s.Sound chars strict) {a : Version} {b w : Nat} (hm : s.canMerge a b = true)
    (hb : b < s.versionCount) (hw : b ≤ w) (hw' : w + 1 < s.versionCount) :
    (s.merge a b).spot w = s.spot (w + 1) ∧ ((s.merge a b).head w).status = (s.head (w + 1)).status := by
  obtain ⟨t, -, hk, hc, heq⟩ := merge_spec h hm
  have hhead : (s.merge a b).head w = t.head (w + 1) := by
    rw [heq, head_remove, if_pos ⟨hc ▸ hb, hw⟩]
  refine ⟨?_, by rw [hhead, hk.status _ hw']⟩
  rw [spot, hhead, heq]
  exact hk.spot_eq h hw'

theorem versionCount_merge (h : s.Sound chars strict) {a : Version} {b : Nat} (hm : s.canMerge a b = true)
    (hb : b < s.versionCount) : (s.merge a b).versionCount = s.versionCount - 1 := by
  obtain ⟨t, -, -, hc, heq⟩ := merge_spec h hm
  rw [heq, versionCount_remove, if_pos (hc ▸ hb), hc]

end Stack

end Cicode.Parse
