import Cicode.Proofs.Parse.Over
import Cicode.Proofs.Parse.Seam
import Cicode.Proofs.Tree.Moved
import Cicode.Proofs.Tree.SameParts

/-!
# Reading on other ground

Two texts are read side by side: a source alone, and the same source behind another one.  What the first one has
on its floors the second one has, too, but on the items of the source before (`Joined`).  The floors of the source
alone are cut in two at the *ground* (`Ground`), the list of items and the comments that stand at the bottom; what
stands above it is the same on both sides (`Floor.Over`), and the grounds themselves agree in what they show
(`Grounds`).  The ground is what differs, since there are no items in front of the first item of a source alone:

* the parser is in state 1 on one side and in state 3 on the other, where it acts in the same way;
* the first list of items takes one reduction on one side and two on the other, the second one of which puts it
  together with the items of the source before (`merge_items`).

After both, one step each, or one and two, the sides agree again (`Joined.step`), and so they do as long as
something is put together for one and the same token (`Joined.reductions`).

What the floors show is read off the row of their trees (`shownAt`), in which a list of items and its items are the
same.  Main statement (`children_parse`): the nodes of an accepted text are those of this row.
-/

namespace Cicode.Tree

open Grammar Text Parse Cicode.Lex Grammar.ShiftReduce

/-! ## Trees in a row -/

/-- The nodes of trees that stand in a row. -/
def shownAt (p : Extent) : List Subtree → List Node
  | [] => []
  | t :: ts => Node.prepend p none none [] t ++ shownAt (p + t.totalSize) ts

variable {e p p' : Extent} {a b cs : List Subtree} {c c' : Subtree}

theorem shownAt_append (p : Extent) (a b : List Subtree) :
    shownAt p (a ++ b) = shownAt p a ++ shownAt (p + extentOf a) b := by
  induction a generalizing p with
  | nil => rw [extentOf_nil, Extent.add_zero]; rfl
  | cons t a ih => rw [List.cons_append, shownAt, shownAt, ih, extentOf_cons, List.append_assoc, Extent.add_assoc]

/-- Where children go unnamed, their nodes stand in a row. -/
theorem prependAll_zero (place : Nat) (p : Extent) (others : List Node) (ts : List Subtree) :
    Node.prependAll 0 place p none others ts = shownAt p ts ++ others := by
  induction ts generalizing place p with
  | nil => rfl
  | cons t ts ih =>
    obtain ⟨facts, children⟩ := t
    rw [Node.prependAll, shownAt]
    simp only [ih]
    split
    · rw [prepend_others, List.append_assoc]
      rfl
    · rw [show shownKind 0 place = none from rfl, show (fieldAt 0 place <|> none) = none from rfl,
        prepend_others, List.append_assoc]
      rfl

/-- Items in a list of items stand in the row themselves. -/
theorem prepend_items (p : Extent) (cs : List Subtree) :
    Node.prepend p none none [] (.ofChildren .topLevelItems 0 cs) = shownAt p cs := by
  have hsymbol : (Subtree.ofChildren .topLevelItems 0 cs).facts.symbol = .topLevelItems :=
    Subtree.symbol_ofChildren ..
  have hproduction : (Subtree.ofChildren .topLevelItems 0 cs).facts.production = 0 :=
    Subtree.production_ofChildren ..
  rw [show Subtree.ofChildren .topLevelItems 0 cs =
    .node (Subtree.ofChildren .topLevelItems 0 cs).facts cs from rfl, Node.prepend, hsymbol, hproduction]
  rw [if_neg (by decide), prependAll_zero, List.append_nil]

theorem shownAt_items (p : Extent) (a cs b : List Subtree) :
    shownAt p (a ++ .ofChildren .topLevelItems 0 cs :: b) = shownAt p (a ++ cs ++ b) := by
  rw [List.append_assoc, shownAt_append, shownAt_append, shownAt_append, shownAt, prepend_items,
    Subtree.totalSize_ofChildren]

theorem movedAll_append (a b : List Node) :
    Node.movedAll e (a ++ b) = Node.movedAll e a ++ Node.movedAll e b := by
  rw [Node.movedAll_eq, Node.movedAll_eq, Node.movedAll_eq, List.map_append]

/-- Trees that stand further on. -/
theorem shownAt_further (p : Extent) (ts : List Subtree) :
    shownAt (e + p) ts = Node.movedAll e (shownAt p ts) := by
  induction ts generalizing p with
  | nil => rw [shownAt, shownAt, Node.movedAll]
  | cons t ts ih =>
    have hfirst := Node.prepend_moved e t p none none []
    rw [Node.movedAll] at hfirst
    rw [shownAt, shownAt, movedAll_append, hfirst, Extent.add_assoc, ih]

/-- Trees the first of which has moved. -/
theorem shownAt_moved (h : Subtree.Moved e p p' c c') (ts : List Subtree) :
    shownAt p' (c' :: ts) = Node.movedAll e (shownAt p (c :: ts)) := by
  have hfirst := Moved.prepend h none none []
  rw [Node.movedAll] at hfirst
  rw [shownAt, shownAt, movedAll_append, hfirst, h.stop_eq, shownAt_further]

/-! ## Ground -/

/-- Floors that hold nothing but items and comments. -/
structure Ground (floors : List Floor) : Prop where
  linked : Floor.Linked floors
  frames_eq : Floor.frames floors = [] ∨ Floor.frames floors = [⟨3, .leaf .topLevelItems ()⟩]

theorem Ground.cases {floors : List Floor} (h : Ground floors) :
    Floor.top floors = 1 ∧ Floor.frames floors = [] ∨
      Floor.top floors = 3 ∧ Floor.frames floors = [⟨3, .leaf .topLevelItems ()⟩] := by
  have htop := h.linked.stateOf_frames
  rcases h.frames_eq with hf | hf
  · rw [hf] at htop
    exact .inl ⟨htop.symm, hf⟩
  · rw [hf] at htop
    exact .inr ⟨htop.symm, hf⟩

/-- The floors of one text are those of another one on the items of a third. -/
structure Grounds (e : Extent) (nodes : List Node) (base base' : List Floor) : Prop where
  ground : Ground base
  ground' : Ground base'
  tops : Floor.top base' = Floor.top base ∨ Floor.top base = 1 ∧ Floor.top base' = 3
  shown : shownAt 0 (Floor.trees base') = nodes ++ Node.movedAll e (shownAt 0 (Floor.trees base))
  reach : base ≠ [] → Floor.reach base' = e + Floor.reach base

/-- What is built on both grounds, if anything is. -/
def Raised (e : Extent) (base base' upper upper' : List Floor) : Prop :=
  upper = [] ∧ upper' = [] ∨ Floor.Over e base base' upper upper'

/-- The floors of one text are those of another one on the items of a third, with what is built on them. -/
inductive Joined (e : Extent) (nodes : List Node) : List Floor → List Floor → Prop
  | mk {base base' upper upper' : List Floor} : Grounds e nodes base base' → Raised e base base' upper upper' →
      Joined e nodes (upper ++ base) (upper' ++ base')

/-- A list of items that takes up all frames makes new ground. -/
theorem ground_of_items {floors floors' : List Floor} {count production : Nat}
    (h : Floor.Reduced .topLevelItems count production floors floors')
    (hcount : (Floor.frames floors).drop count = []) :
    Ground floors' ∧ Floor.top floors' = 3 := by
  obtain ⟨target, hframes⟩ := h.frames_eq
  rw [hcount] at hframes
  have hlinked := h.linked.frames_linked
  rw [hframes] at hlinked
  have harrow : Arrow 1 .topLevelItems target := hlinked.1
  obtain rfl := target_of_items harrow
  have htop := h.linked.stateOf_frames
  rw [hframes] at htop
  exact ⟨⟨h.linked, .inr hframes⟩, htop.symm⟩

/-- Nothing that is shown changes where items are put together. -/
theorem shown_of_items {floors floors' : List Floor} {count production : Nat}
    (h : Floor.Reduced .topLevelItems count production floors floors') :
    shownAt 0 (Floor.trees floors') = shownAt 0 (Floor.trees floors) := by
  obtain ⟨below, children, extras, target, -, rfl, htrees, -, hrhs, hproduction, -⟩ := h.parent
  have hzero : ∀ rhs ∈ rightSides .topLevelItems, productionNumber .topLevelItems rhs = 0 := by decide
  rw [hzero _ hrhs] at hproduction
  subst hproduction
  rw [Floor.trees_putAll, htrees, Floor.trees_cons, List.append_assoc, List.singleton_append, shownAt_items]

theorem over_trees {base base' upper upper' : List Floor} (h : Floor.Over e base base' upper upper') :
    ∃ c c' rest, Floor.trees upper = c :: rest ∧ Floor.trees upper' = c' :: rest ∧
      Subtree.Moved e (Floor.reach base) (Floor.reach base') c c' := by
  induction h with
  | @first x x' _ _ _ _ hm => exact ⟨x.tree, x'.tree, [], rfl, rfl, hm⟩
  | @more x upper upper' _ _ _ ih =>
    obtain ⟨c, c', rest, h, h', hm⟩ := ih
    exact ⟨c, c', rest ++ [x.tree], by rw [Floor.trees_cons, h]; rfl, by rw [Floor.trees_cons, h']; rfl, hm⟩

namespace Joined

variable {nodes : List Node} {floors floors' : List Floor}

/-- What stands in a row is the same, moved on, behind the nodes of the ground. -/
theorem shown (h : Joined e nodes floors floors') : shownAt 0 (Floor.trees floors') =
    nodes ++ Node.movedAll e (shownAt 0 (Floor.trees floors)) := by
  obtain ⟨hground, hraised⟩ := h
  rcases hraised with ⟨rfl, rfl⟩ | hupper
  · exact hground.shown
  · obtain ⟨c, c', rest, htrees, htrees', hm⟩ := over_trees hupper
    rw [Floor.trees_append, Floor.trees_append, shownAt_append, shownAt_append, hground.shown, htrees, htrees',
      ← Floor.reach_eq, ← Floor.reach_eq, Extent.zero_add, Extent.zero_add, shownAt_moved hm, movedAll_append,
      List.append_assoc]

theorem reach_eq (h : Joined e nodes floors floors') (hne : floors ≠ []) :
    Floor.reach floors' = e + Floor.reach floors := by
  obtain ⟨hground, hraised⟩ := h
  rcases hraised with ⟨rfl, rfl⟩ | hupper
  · exact hground.reach hne
  · exact hupper.reach_eq

theorem tops (h : Joined e nodes floors floors') :
    Floor.top floors' = Floor.top floors ∨ Floor.top floors = 1 ∧ Floor.top floors' = 3 := by
  obtain ⟨hground, hraised⟩ := h
  rcases hraised with ⟨rfl, rfl⟩ | hupper
  · exact hground.tops
  · exact .inl hupper.top_eq.1

end Joined

/-! ## Reductions -/

theorem rightSides_items : ∀ symbol : Symbol, ([] ∈ rightSides symbol → symbol = .sourceFile) ∧
    ∀ rhs ∈ rightSides symbol, rhs.head? = some .topLevelItems →
      symbol = .sourceFile ∨ symbol = .topLevelItems := by
  intro symbol
  cases symbol <;> decide

/-- Below extras the floors are linked. -/
theorem linked_of_putAll {state : StateId} {trees : List Subtree} {floors : List Floor}
    (h : Floor.Linked (Floor.putAll state trees floors)) : Floor.Linked floors := by
  induction trees generalizing floors with
  | nil => exact h
  | cons t trees ih =>
    have hbelow := ih h
    cases hbelow with
    | tree _ _ hl => exact hl
    | extra _ _ hl => exact hl

/-- What is put together by a reduction leads on from what is below it. -/
theorem arrow_of_putParent {symbol : Symbol} {production : Nat} {trees : List Subtree} {below : List Floor}
    (h : Floor.Linked (Floor.putParent symbol production trees below)) :
    Arrow (Floor.top below) symbol (nextState (Floor.top below) symbol) := by
  have hlinked := linked_of_putAll h
  cases hlinked with
  | tree _ ha _ =>
    rw [Subtree.symbol_ofChildren] at ha
    exact ha
  | extra hx _ _ =>
    rw [Subtree.isExtra_ofChildren] at hx
    cases hx

namespace Joined

variable {nodes : List Node}

theorem of_grounds {base base' : List Floor} (h : Grounds e nodes base base') : Joined e nodes base base' :=
  show Joined e nodes ([] ++ base) ([] ++ base') from .mk h (.inl ⟨rfl, rfl⟩)

end Joined

/-- On the ground nothing but a source file is put together. -/
theorem Ground.source {floors : List Floor} {symbol : Symbol} {count production : Nat} (h : Ground floors)
    (hr : Reduces (Floor.top floors) symbol count production) : symbol = .sourceFile := by
  obtain ⟨hle, hrhs, -⟩ := h.linked.frames_linked.reduction (h.linked.stateOf_frames.symm ▸ hr)
  rcases h.frames_eq with hf | hf
  · rw [hf] at hrhs
    exact (rightSides_items symbol).1 (by simpa using hrhs)
  · rw [hf] at hrhs hle
    cases count with
    | zero => exact (rightSides_items symbol).1 (by simpa using hrhs)
    | succ count =>
      have hone : [Symbol.topLevelItems] ∈ rightSides symbol := by simpa [Derivation.symbol] using hrhs
      refine ((rightSides_items symbol).2 _ hone rfl).resolve_right fun heq => ?_
      have hnot : [Symbol.topLevelItems] ∉ rightSides .topLevelItems := by decide
      exact hnot (heq ▸ hone)

/-- A list of items is put on the ground only if that holds items. -/
theorem Ground.top_ne_one {base floors : List Floor} {count production : Nat} {trees : List Subtree} (h : Ground base)
    (hr : Floor.Reduced .topLevelItems count production floors (Floor.putParent .topLevelItems production trees base))
    (hlt : count < (Floor.frames floors).length) : Floor.top base ≠ 1 := by
  intro htop
  have hbase : Floor.frames base = [] := by
    rcases h.cases with ⟨-, hf⟩ | ⟨h3, -⟩
    · exact hf
    · rw [htop] at h3
      cases h3
  obtain ⟨target, htarget⟩ := hr.frames_eq
  have hlength := congrArg List.length htarget
  have hextras := (splitTrailingExtras_spec trees).2
  rw [Floor.putParent, Floor.frames_putAll hextras, Floor.frames_cons_tree (Subtree.isExtra_ofChildren ..), hbase,
    List.length_cons, List.length_cons, List.length_drop, List.length_nil] at hlength
  omega

/-- The list of items of the second source is put together with that of the first one at once. -/
theorem merge_items {floors floors' : List Floor} {terminal : Symbol} {count production : Nat}
    (h : Floor.Reduced .topLevelItems count production floors floors')
    (hdrop : (Floor.frames floors).drop count = [⟨3, .leaf .topLevelItems ()⟩]) (hcomment : terminal ≠ .comment)
    (halive : chosen (actionsAt 3 terminal) ≠ none) : ∃ last, Floor.Reductions terminal floors' last ∧
      Ground last ∧ Floor.top last = 3 ∧ shownAt 0 (Floor.trees last) = shownAt 0 (Floor.trees floors') := by
  obtain ⟨target, htarget⟩ := h.frames_eq
  rw [hdrop] at htarget
  have hlinked := h.linked.frames_linked
  rw [htarget] at hlinked
  have harrow : Arrow 3 .topLevelItems target := hlinked.1
  have htop : Floor.top floors' = 28 := by
    rw [← h.linked.stateOf_frames, htarget, target_of_more_items harrow]
    rfl
  have hmerge : chosen (actionsAt (Floor.top floors') terminal) = some (.reduce .topLevelItems 2 0) := by
    rw [htop]
    exact merges_items hcomment halive
  obtain ⟨last, hlast, hreduced⟩ := Floor.exists_reduce h.linked (.of_mem (mem_of_chosen hmerge))
  obtain ⟨hground, htoplast⟩ := ground_of_items hreduced (by rw [htarget]; rfl)
  exact ⟨last, .step hmerge hlast .done, hground, htoplast, shown_of_items hreduced⟩

/-- Both grounds hold a list of items, or both hold none, or only the second one does. -/
theorem Grounds.frames {base base' : List Floor} {nodes : List Node} (h : Grounds e nodes base base') :
    Floor.frames base' = Floor.frames base ∨
      Floor.frames base = [] ∧ Floor.frames base' = [⟨3, .leaf .topLevelItems ()⟩] := by
  rcases h.ground.cases with ⟨htop, hf⟩ | ⟨htop, hf⟩
  · rcases h.ground'.frames_eq with hf' | hf'
    · exact .inl (hf'.trans hf.symm)
    · exact .inr ⟨hf, hf'⟩
  · rcases h.ground'.cases with ⟨htop', -⟩ | ⟨-, hf'⟩
    · rcases h.tops with htops | ⟨htops, -⟩
      · rw [htop, htop'] at htops
        cases htops
      · rw [htop] at htops
        cases htops
    · exact .inl (hf'.trans hf.symm)

namespace Grounds

variable {nodes : List Node} {base base' upper upper' next : List Floor} {symbol terminal : Symbol}
  {count production : Nat}

/-- **Where all of the second source becomes one list of items**, this is new ground. -/
theorem items (h : Grounds e nodes base base') (hupper : Floor.Over e base base' upper upper')
    (hl : Floor.Linked (upper ++ base)) (hl' : Floor.Linked (upper' ++ base')) (hcomment : terminal ≠ .comment)
    (hc : chosen (actionsAt (Floor.top (upper ++ base)) terminal) = some (.reduce .topLevelItems count production))
    (hr : Floor.reduce .topLevelItems count production (upper ++ base) = some next)
    (halive : chosen (actionsAt (Floor.top next) terminal) ≠ none)
    (hall : (Floor.frames (upper ++ base)).length = count) :
    ∃ next', Floor.Reductions terminal (upper' ++ base') next' ∧ Joined e nodes next next' := by
  have hc' : chosen (actionsAt (Floor.top (upper' ++ base')) terminal) =
      some (.reduce .topLevelItems count production) := by rw [hupper.top_eq.1, hc]
  have hreduced := hl.reduced hc hr
  obtain ⟨next', hnext', hreduced'⟩ := Floor.exists_reduce hl' (.of_mem (mem_of_chosen hc'))
  obtain ⟨hground, htop⟩ := ground_of_items hreduced (List.drop_eq_nil_of_le (Nat.le_of_eq hall))
  have hshown : shownAt 0 (Floor.trees next') = nodes ++ Node.movedAll e (shownAt 0 (Floor.trees next)) := by
    rw [shown_of_items hreduced', shown_of_items hreduced]
    exact (Joined.mk h (.inr hupper)).shown
  -- Both become ground, after one reduction or after two.
  suffices hlast : ∃ last, Floor.Reductions terminal (upper' ++ base') last ∧ Ground last ∧ Floor.top last = 3 ∧
      shownAt 0 (Floor.trees last) = shownAt 0 (Floor.trees next') by
    obtain ⟨last, hred, hlast, htoplast, hshownlast⟩ := hlast
    refine ⟨last, hred, .of_grounds ⟨hground, hlast, .inl (htoplast.trans htop.symm), hshownlast.trans hshown, ?_⟩⟩
    intro _
    rw [hred.reach_eq hl', Floor.Reductions.reach_eq (.step hc hr .done) hl, hupper.reach_eq]
  rw [Floor.frames_append, List.length_append] at hall
  rcases h.frames with hsame | ⟨hnil, hone⟩
  · obtain ⟨hground', htop'⟩ := ground_of_items hreduced' (List.drop_eq_nil_of_le (by
      rw [Floor.frames_append, List.length_append, hsame, hupper.length_eq, hall]))
    exact ⟨next', .step hc' hnext' .done, hground', htop', rfl⟩
  · have hdrop : (Floor.frames (upper' ++ base')).drop count = [⟨3, .leaf .topLevelItems ()⟩] := by
      rw [hnil, List.length_nil, Nat.add_zero] at hall
      rw [Floor.frames_append, hone]
      exact List.drop_left' (hupper.length_eq.trans hall)
    obtain ⟨last, hred, hlast⟩ := merge_items hreduced' hdrop hcomment (htop ▸ halive)
    exact ⟨last, .step hc' hnext' hred, hlast⟩

/-- **Above the ground the same is put together on both sides.** -/
theorem above (h : Grounds e nodes base base') (hupper : Floor.Over e base base' upper upper')
    (hl : Floor.Linked (upper ++ base)) (hs : symbol ≠ .sourceFile)
    (hc : chosen (actionsAt (Floor.top (upper ++ base)) terminal) = some (.reduce symbol count production))
    (hr : Floor.reduce symbol count production (upper ++ base) = some next)
    (hcount : count ≤ (Floor.frames upper).length)
    (hmore : symbol = .topLevelItems → count < (Floor.frames (upper ++ base)).length) :
    ∃ next', Floor.Reductions terminal (upper' ++ base') next' ∧ Joined e nodes next next' := by
  have hc' : chosen (actionsAt (Floor.top (upper' ++ base')) terminal) =
      some (.reduce symbol count production) := by rw [hupper.top_eq.1, hc]
  have hreduces : Reduces (Floor.top (upper ++ base)) symbol count production := .of_mem (mem_of_chosen hc)
  obtain ⟨-, -, -, hnon, -⟩ := hl.frames_linked.reduction (hl.stateOf_frames.symm ▸ hreduces)
  have hreduced := hl.reduced hc hr
  obtain ⟨trees, below, below', hred, hboth, hbelow⟩ := hupper.reduce symbol production hcount
  obtain rfl := Option.some.inj (hr.symm.trans hred)
  have harrow := arrow_of_putParent hreduced.linked
  have hfirst : symbol = .topLevelItems → Floor.top (below ++ base) ≠ 1 := by
    rintro rfl htop
    rcases hbelow with rfl | hover
    · exact h.ground.top_ne_one hreduced (hmore rfl) htop
    · exact hover.top_eq.2.1 htop
  have h1 : nextState (Floor.top (below ++ base)) symbol ≠ 1 := Nat.ne_of_gt (target_of_arrow harrow).1
  have h3 : nextState (Floor.top (below ++ base)) symbol ≠ 3 := by
    intro h3
    have hitems := (items_of_arrow harrow).1 h3
    rcases (items_of_arrow harrow).2.2 hitems with ⟨htop, -⟩ | ⟨-, h28⟩
    · exact hfirst hitems htop
    · rw [h3] at h28
      cases h28
  have hgoto : below ≠ [] ∨ nextState (Floor.top base') symbol = nextState (Floor.top base) symbol := by
    by_cases hne : below = []
    · subst hne
      refine .inr ?_
      rcases h.tops with htops | ⟨htops, htops'⟩
      · rw [htops]
      · rw [htops, htops', Stack.nextState_nonterminal hnon, Stack.nextState_nonterminal hnon]
        exact same_gotos hnon hs fun heq => hfirst heq htops
    · exact .inl hne
  obtain ⟨up, up', hup, hup', hover⟩ := hboth hgoto h1 h3
  rw [hup]
  exact ⟨up' ++ base', .step hc' hup' .done, .mk h (.inr hover)⟩

end Grounds

namespace Joined

variable {nodes : List Node} {floors floors' next : List Floor} {symbol terminal : Symbol}
  {count production : Nat}

/-- **A reduction on one side is made on the other side**, too, where items are put together at once. -/
theorem step (h : Joined e nodes floors floors') (hl : Floor.Linked floors) (hl' : Floor.Linked floors')
    (hcomment : terminal ≠ .comment)
    (hc : chosen (actionsAt (Floor.top floors) terminal) = some (.reduce symbol count production))
    (hs : symbol ≠ .sourceFile) (hr : Floor.reduce symbol count production floors = some next)
    (halive : chosen (actionsAt (Floor.top next) terminal) ≠ none) :
    ∃ next', Floor.Reductions terminal floors' next' ∧ Joined e nodes next next' := by
  have hreduces : Reduces (Floor.top floors) symbol count production := .of_mem (mem_of_chosen hc)
  obtain ⟨hle, hrhs, -⟩ := hl.frames_linked.reduction (hl.stateOf_frames.symm ▸ hreduces)
  obtain @⟨base, base', upper, upper', hground, hraised⟩ := h
  rcases hraised with ⟨rfl, rfl⟩ | hupper
  · exact absurd (hground.ground.source hreduces) hs
  · by_cases hall : symbol = .topLevelItems ∧ (Floor.frames (upper ++ base)).length = count
    · obtain ⟨rfl, hall⟩ := hall
      exact hground.items hupper hl hl' hcomment hc hr halive hall
    · refine hground.above hupper hl hs hc hr ?_ fun hitems =>
        Nat.lt_of_le_of_ne hle fun heq => hall ⟨hitems, heq.symm⟩
      -- The ground itself is taken up by a list of items only, or by a source file.
      by_contra hlt
      have hlength : (Floor.frames (upper ++ base)).length =
          (Floor.frames upper).length + (Floor.frames base).length := by
        rw [Floor.frames_append, List.length_append]
      rcases hground.ground.frames_eq with hf | hf
      · rw [hf, List.length_nil] at hlength
        omega
      · rw [hf, List.length_singleton] at hlength
        have hfull : (Floor.frames (upper ++ base)).length = count := by omega
        rw [List.take_of_length_le (Nat.le_of_eq hfull), Floor.frames_append, hf, List.reverse_append] at hrhs
        exact ((rightSides_items symbol).2 _ hrhs rfl).elim hs fun heq => hall ⟨heq, hfull⟩

/-- **Whatever is put together on one side** before the source file is on the other side, too. -/
theorem reductions (h : Joined e nodes floors floors') (hl : Floor.Linked floors) (hl' : Floor.Linked floors')
    (hcomment : terminal ≠ .comment) {last : List Floor} (hr : Floor.Reductions terminal floors last)
    (hlast : Floor.top last ≠ 2) (halive : chosen (actionsAt (Floor.top last) terminal) ≠ none) :
    ∃ last', Floor.Reductions terminal floors' last' ∧ Joined e nodes last last' := by
  induction hr generalizing floors' with
  | done => exact ⟨floors', .done, h⟩
  | @step floors next last symbol count production hc hr hrest ih =>
    have hreduced := hl.reduced hc hr
    have hs := hreduced.ne_source hrest hlast
    obtain ⟨next', hnext', hjoined⟩ :=
      h.step hl hl' hcomment hc hs hr (Floor.exists_chosen_of_reductions hrest halive)
    obtain ⟨last', hlast', hend⟩ := ih hjoined hreduced.linked (hl'.reductions hnext') hlast halive
    exact ⟨last', hnext'.trans hlast', hend⟩

end Joined

/-! ## The end of a source -/

/-- The floors hold all of a source; the last ones hold the source file that it is. -/
structure Wraps (floors last : List Floor) : Prop where
  linked : Floor.Linked floors
  reduced : ∃ count production, chosen (actionsAt (Floor.top floors) .endOfInput) =
      some (.reduce .sourceFile count production) ∧
    Floor.reduce .sourceFile count production floors = some last ∧
    Floor.Reduced .sourceFile count production floors last

/-- Before a text is accepted, the source file is put together. -/
theorem exists_wraps {floors last : List Floor} (hl : Floor.Linked floors)
    (hr : Floor.Reductions .endOfInput floors last) (hfirst : Floor.top floors ≠ 2) (hlast : Floor.top last = 2) :
    ∃ mid, Floor.Reductions .endOfInput floors mid ∧ Floor.top mid ≠ 2 ∧ Wraps mid last := by
  induction hr with
  | done => exact absurd hlast hfirst
  | @step floors next last symbol count production hc hr hrest ih =>
    have hreduced := hl.reduced hc hr
    by_cases hs : symbol = .sourceFile
    · subst hs
      obtain rfl := hrest.eq_of_source hreduced.top_of_source
      exact ⟨floors, .done, hfirst, hl, count, production, hc, hr, hreduced⟩
    · obtain ⟨mid, hmid, hne, hwraps⟩ := ih hreduced.linked (fun h2 => hs (hreduced.source_of_top h2)) hlast
      exact ⟨mid, .step hc hr hmid, hne, hwraps⟩

/-- Behind one tree that is no extra there are extras only, so that it is known which one it is. -/
theorem append_cons_inj {a a' b b' : List Subtree} {t t' : Subtree} (h : a ++ t :: b = a' ++ t' :: b')
    (ht : t.isExtra = false) (ht' : t'.isExtra = false) (hb : ∀ x ∈ b, x.isExtra = true)
    (hb' : ∀ x ∈ b', x.isExtra = true) : a = a' ∧ t = t' ∧ b = b' := by
  have hnot : ∀ {x : Subtree} {c d : List Subtree}, x.isExtra = false → (∀ y ∈ c ++ x :: d, y.isExtra = true) →
      False := by
    intro x c d hx hall
    have hextra := hall x (by simp)
    rw [hx] at hextra
    cases hextra
  rcases List.append_eq_append_iff.mp h with ⟨c, rfl, hc⟩ | ⟨c, rfl, hc⟩
  · cases c with
    | nil =>
      obtain ⟨rfl, rfl⟩ := List.cons.inj hc
      exact ⟨by simp, rfl, rfl⟩
    | cons x c =>
      obtain ⟨-, rfl⟩ := List.cons.inj hc
      exact (hnot ht' hb).elim
  · cases c with
    | nil =>
      obtain ⟨rfl, rfl⟩ := List.cons.inj hc
      exact ⟨by simp, rfl, rfl⟩
    | cons x c =>
      obtain ⟨-, rfl⟩ := List.cons.inj hc
      exact (hnot ht hb').elim

/-- The end of the text becomes no node. -/
theorem shownAt_end {chars : List Char} {before : List Floor} (p : Extent)
    (h : (Floor.next chars before).symbol = .endOfInput) : shownAt p [Floor.next chars before] = [] := by
  have hgrown : Grown (Floor.next chars before) := (isLookahead_ofToken (wellRead_nextToken ..)).grown
  have hnone := nodes_of_end (v := ⟨p, none, none, Floor.next chars before⟩) hgrown h rfl
  rw [shownAt, shownAt, List.append_nil]
  exact hnone

/-- **The nodes of an accepted text** are those of the trees that stand in a row before its end. -/
theorem children_parse {chars : List Char} {before last floors : List Floor} (h : Floor.Ends chars before last)
    (hw : Wraps floors last) : (Node.parse chars).children = shownAt 0 (Floor.trees floors) := by
  obtain ⟨bottom, cs, extras, htrees, -, hextras, -, -, hparse, -⟩ := h.exists_program
  obtain ⟨count, production, -, -, hreduced⟩ := hw.reduced
  obtain ⟨below, children, extras', target, -, rfl, hall, hextras', -⟩ := hreduced.parent
  obtain ⟨-, hend⟩ := accept_of_chosen h.accept
  rw [Floor.trees_putAll] at htrees
  rw [Floor.trees_cons, List.append_assoc, List.singleton_append] at htrees
  obtain ⟨rfl, hsame, rfl⟩ := append_cons_inj htrees (Subtree.isExtra_ofChildren ..)
    (Subtree.isExtra_ofChildren ..) hextras' fun x hx => hextras x (List.mem_append_left _ hx)
  have hchildren : children = cs := by
    have := congrArg Subtree.children hsame
    rwa [Subtree.children_ofChildren, Subtree.children_ofChildren] at this
  subst hchildren
  have hproduction : (Subtree.ofChildren .sourceFile 0
      (Floor.trees below ++ children ++ (extras' ++ [Floor.next chars before]))).facts.production = 0 :=
    Subtree.production_ofChildren ..
  have hnodes : ∀ tree : Subtree, tree.facts.production = 0 →
      (Node.ofSubtree tree).children = shownAt 0 tree.children := by
    intro tree hproduction
    obtain ⟨facts, trees⟩ := tree
    have hzero : facts.production = 0 := hproduction
    rw [Node.ofSubtree, Node.prepend, if_pos (by rfl), hzero, prependAll_zero, List.append_nil]
    rfl
  rw [Node.parse, hparse, hnodes _ hproduction, Subtree.children_ofChildren, ← List.append_assoc, ← hall,
    shownAt_append, shownAt_end _ hend, List.append_nil]

end Cicode.Tree
