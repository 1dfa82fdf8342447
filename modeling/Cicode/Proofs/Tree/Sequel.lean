import Cicode.Proofs.Tree.Joined

/-!
# One source behind another

What leads to two texts that are read side by side, and what they do next.  At the end of the first source its
items are put together (`Prior`).  Of the source behind it comments may be read before this is done, and they lie
on top of floors that are not put together yet (`Begun`); whatever begins an item ends the item before, and then
the comments lie on the ground (`Begun.join`).

From there on a token is put on both sides, as an extra or not (`Joined.extra`, `Joined.tree`): the first token of
all has moved away from the blanks and the line feed before it, any other one is the same (`Beyond`).  At the end
of the text the source file is put together on both sides (`Joined.wraps`).
-/

namespace Cicode.Tree

open Grammar Text Parse Cicode.Lex Grammar.ShiftReduce

variable {e : Extent} {nodes : List Node} {floors floors' prior items next last : List Floor}
  {terminal symbol : Symbol} {count production : Nat} {trees : List Subtree} {state : StateId}

/-! ## Extras on top -/

/-- Extras on top stay on top where trees are put together below them. -/
theorem reductions_extras (h : Floor.Reductions terminal floors last) (hl : Floor.Linked floors)
    (hlast : Floor.top last ≠ 2) (hx : ∀ t ∈ trees, t.isExtra = true) :
    Floor.Reductions terminal (Floor.putAll (Floor.top floors) trees floors)
      (Floor.putAll (Floor.top last) trees last) := by
  induction h with
  | done => exact .done
  | @step floors next last symbol count production hc hr hrest ih =>
    have hreduced := hl.reduced hc hr
    have hreduces : Reduces (Floor.top floors) symbol count production := .of_mem (mem_of_chosen hc)
    obtain ⟨hle, hrhs, -⟩ := hl.frames_linked.reduction (hl.stateOf_frames.symm ▸ hreduces)
    cases count with
    | zero =>
      exact absurd ((rightSides_items symbol).1 (by simpa using hrhs)) (hreduced.ne_source hrest hlast)
    | succ count =>
      have hchosen : chosen (actionsAt (Floor.top (Floor.putAll (Floor.top floors) trees floors)) terminal) =
          some (.reduce symbol (count + 1) production) := by
        rw [Floor.top_putAll _ _ rfl]
        exact hc
      refine .step hchosen ?_ (ih hreduced.linked hlast)
      rw [Floor.reduce, Option.map_eq_some_iff] at hr ⊢
      obtain ⟨taken, htaken, rfl⟩ := hr
      refine ⟨(taken.1 ++ trees, taken.2), by rw [Floor.takeOff_putAll hx, htaken]; rfl, ?_⟩
      have htop : Floor.top (Floor.putParent symbol production taken.1 taken.2) =
          nextState (Floor.top taken.2) symbol := Floor.top_putAll _ _ rfl
      rw [htop, Floor.putParent, Floor.putParent, Floor.splitTrailingExtras_append _ hx,
        Floor.putAll_append]

/-! ## The end of the first source -/

/-- The floors are those of a source that has been read, and its items are the ground of what follows. -/
structure Prior (nodes : List Node) (floors items : List Floor) : Prop where
  linked : Floor.Linked floors
  reductions : Floor.Reductions .endOfInput floors items
  ground : Ground items
  shown : shownAt 0 (Floor.trees items) = nodes
  ends : ∃ symbol count production,
    chosen (actionsAt (Floor.top floors) .endOfInput) = some (.reduce symbol count production)

theorem Wraps.ground (h : Wraps floors last) : Ground floors := by
  obtain ⟨hl, count, production, hc, -, hreduced⟩ := h
  have hreduces : Reduces (Floor.top floors) .sourceFile count production := .of_mem (mem_of_chosen hc)
  obtain ⟨hle, hrhs, -⟩ := hl.frames_linked.reduction (hl.stateOf_frames.symm ▸ hreduces)
  obtain ⟨target, hframes⟩ := hreduced.frames_eq
  have hlinked := hreduced.linked.frames_linked
  have htop := hreduced.linked.stateOf_frames
  rw [hframes] at hlinked htop
  have htwo : target = 2 := htop.trans hreduced.top_of_source
  obtain ⟨harrow, hbelow⟩ := hlinked
  -- Nothing is left below a source file.
  have hdrop : (Floor.frames floors).drop count = [] := by
    have hone := ((target_of_arrow harrow).2 htwo).1
    generalize (Floor.frames floors).drop count = rest at hone hbelow
    cases rest with
    | nil => rfl
    | cons frame rest => exact absurd (hone : frame.state = 1) (Nat.ne_of_gt (target_of_arrow hbelow.1).1)
  have hwhole : (Floor.frames floors).take count = Floor.frames floors :=
    List.take_of_length_le (List.drop_eq_nil_iff.mp hdrop)
  rw [hwhole] at hrhs
  have hfl := hl.frames_linked
  refine ⟨hl, ?_⟩
  have hleaf : ∀ frame ∈ Floor.frames floors, frame.tree = .leaf frame.tree.symbol () := by
    intro frame hframe
    obtain ⟨floor, -, rfl⟩ := List.mem_map.mp hframe
    rfl
  generalize Floor.frames floors = frames at hrhs hfl hleaf
  have hsides : ∀ rhs ∈ rightSides .sourceFile, rhs = [] ∨ rhs = [.topLevelItems] := by decide
  rcases hsides _ hrhs with hnil | hone
  · exact .inl (by simpa using hnil)
  · refine .inr ?_
    obtain ⟨⟨state, tree⟩, hframe, hsymbol⟩ := List.map_eq_singleton_iff.mp hone
    obtain rfl : frames = [⟨state, tree⟩] := List.reverse_eq_iff.mp hframe
    have htree := hleaf _ List.mem_cons_self
    simp only at htree hsymbol
    rw [hsymbol] at htree
    have harrow : Arrow 1 .topLevelItems state := hsymbol ▸ hfl.1
    rw [target_of_items harrow, htree]

/-! ## The beginning of the second source -/

/-- Of the second source comments have been read only. -/
inductive Begun (e : Extent) (prior : List Floor) : List Floor → List Floor → Prop
  | mk {xs xs' : List Subtree} : (∀ t ∈ xs, t.isExtra = true) → (∀ t ∈ xs', t.isExtra = true) →
      (xs = [] ∧ xs' = [] ∨ ∃ c c' rest, xs = c :: rest ∧ xs' = c' :: rest ∧
        Subtree.Moved e 0 (Floor.reach prior) c c') →
      Begun e prior (Floor.putAll 1 xs []) (Floor.putAll (Floor.top prior) xs' prior)

theorem Begun.reach_eq (h : Begun e prior floors floors') (hne : floors ≠ []) :
    Floor.reach floors' = e + Floor.reach floors := by
  obtain ⟨-, -, ⟨rfl, rfl⟩ | ⟨c, c', rest, rfl, rfl, hm⟩⟩ := h
  · exact absurd rfl hne
  · rw [Floor.reach_eq, Floor.reach_eq, Floor.trees_putAll, Floor.trees_putAll, Floor.trees_nil, List.nil_append,
      extentOf_append, extentOf_cons, extentOf_cons, ← Floor.reach_eq, ← Extent.add_assoc, hm.stop_eq,
      Extent.zero_add, Extent.add_assoc]

theorem Begun.top_eq (h : Begun e prior floors floors') :
    Floor.top floors = 1 ∧ Floor.top floors' = Floor.top prior := by
  obtain ⟨-, -, -⟩ := h
  exact ⟨Floor.top_putAll _ _ rfl, Floor.top_putAll _ _ rfl⟩

/-- **What begins an item ends the first source**, which then is the ground of the second one. -/
theorem Begun.join (h : Begun e prior floors floors') (hp : Prior nodes prior items)
    (hcomment : terminal ≠ .comment) (halive : chosen (actionsAt 1 terminal) ≠ none) :
    ∃ next', Floor.Reductions terminal floors' next' ∧ Joined e nodes floors next' := by
  have hbegun := h
  obtain @⟨xs, xs', hx, hx', hm⟩ := h
  have hne : Floor.top items ≠ 2 := by
    rcases hp.ground.cases with ⟨h1, -⟩ | ⟨h3, -⟩
    · rw [h1]
      decide
    · rw [h3]
      decide
  have hsame : ∀ {a b : List Floor}, Floor.Linked a → Floor.Reductions .endOfInput a b → Floor.top b ≠ 2 →
      Floor.Reductions terminal a b := by
    intro a b hl hr hb
    induction hr with
    | done => exact .done
    | @step a next b symbol count production hc hr hrest ih =>
      have hreduced := hl.reduced hc hr
      have hs := hreduced.ne_source hrest hb
      exact .step (ends_items hc hs halive hcomment) hr (ih hreduced.linked hb)
  have hred := reductions_extras (hsame hp.linked hp.reductions hne) hp.linked hne hx'
  refine ⟨_, hred, ?_⟩
  have hl : Floor.Linked (Floor.putAll 1 xs []) := (Floor.Linked.putAll .bottom hx).1
  have hl' := hp.ground.linked.putAll hx'
  have hreach : Floor.reach items = Floor.reach prior := Floor.Reductions.reach_eq hp.reductions hp.linked
  have hgrounds : Grounds e nodes (Floor.putAll 1 xs []) (Floor.putAll (Floor.top items) xs' items) := by
    refine ⟨⟨hl, .inl ?_⟩, ⟨hl'.1, ?_⟩, ?_, ?_, fun hnil => ?_⟩
    · rw [Floor.frames_putAll hx]
      rfl
    · rw [Floor.frames_putAll hx']
      exact hp.ground.frames_eq
    · rw [hl'.2, show Floor.top (Floor.putAll 1 xs []) = 1 from Floor.top_putAll _ _ rfl]
      rcases hp.ground.cases with ⟨h1, -⟩ | ⟨h3, -⟩
      · exact .inl h1
      · exact .inr ⟨rfl, h3⟩
    · rw [Floor.trees_putAll, Floor.trees_putAll, Floor.trees_nil, List.nil_append, shownAt_append, hp.shown,
        Extent.zero_add, ← Floor.reach_eq, hreach]
      congr 1
      rcases hm with ⟨rfl, rfl⟩ | ⟨c, c', rest, rfl, rfl, hm⟩
      · rw [shownAt, shownAt, Node.movedAll]
      · exact shownAt_moved hm rest
    · rw [Floor.Reductions.reach_eq hred (hp.linked.putAll hx').1]
      exact hbegun.reach_eq hnil
  exact .of_grounds hgrounds

/-! ## One more tree on both sides -/

/-- The trees come next on both sides: the first one of all has moved, any other one is the same. -/
def Beyond (e : Extent) (floors floors' : List Floor) (t t' : Subtree) : Prop :=
  floors ≠ [] ∧ t' = t ∨ floors = [] ∧ Subtree.Moved e 0 (Floor.reach floors') t t'

/-- A comment on both sides, at the beginning. -/
theorem Begun.extra {t t' : Subtree} (h : Begun e prior floors floors') (hb : Beyond e floors floors' t t')
    (ht : t.isExtra = true) (ht' : t'.isExtra = true) :
    Begun e prior (⟨Floor.top floors, t⟩ :: floors) (⟨Floor.top floors', t'⟩ :: floors') := by
  obtain ⟨htop, htop'⟩ := h.top_eq
  obtain @⟨xs, xs', hx, hx', hm⟩ := h
  have hput : ∀ (state : StateId) (ts : List Subtree) (t : Subtree) (floors : List Floor),
      (⟨state, t⟩ :: Floor.putAll state ts floors : List Floor) = Floor.putAll state (ts ++ [t]) floors :=
    fun state ts t floors => by rw [Floor.putAll_append]; rfl
  have hsnoc : ∀ {ts : List Subtree} {t : Subtree}, (∀ u ∈ ts, u.isExtra = true) → t.isExtra = true →
      ∀ u ∈ ts ++ [t], u.isExtra = true := by
    intro ts t hts ht u hu
    rcases List.mem_append.mp hu with hu | hu
    · exact hts u hu
    · rw [List.mem_singleton.mp hu, ht]
  rw [htop, htop', hput, hput]
  refine .mk (hsnoc hx ht) (hsnoc hx' ht') (.inr ?_)
  rcases hm with ⟨rfl, rfl⟩ | ⟨c, c', rest, rfl, rfl, hm⟩
  · rcases hb with ⟨hne, -⟩ | ⟨-, hmoved⟩
    · exact absurd rfl hne
    · exact ⟨t, t', [], rfl, rfl, hmoved⟩
  · rcases hb with ⟨-, rfl⟩ | ⟨hnil, -⟩
    · exact ⟨c, c', rest ++ [t'], rfl, rfl, hm⟩
    · have htrees := congrArg Floor.trees hnil
      rw [Floor.trees_putAll] at htrees
      exact absurd htrees (by simp [Floor.trees])

namespace Joined

/-- A comment on both sides, further on. -/
theorem extra (h : Joined e nodes floors floors') (hne : floors ≠ []) {t : Subtree} (ht : t.isExtra = true) :
    Joined e nodes (⟨Floor.top floors, t⟩ :: floors) (⟨Floor.top floors', t⟩ :: floors') := by
  obtain @⟨base, base', upper, upper', hground, hraised⟩ := h
  rcases hraised with ⟨rfl, rfl⟩ | hupper
  · have hreach := hground.reach hne
    have hnew : Grounds e nodes (⟨Floor.top base, t⟩ :: base) (⟨Floor.top base', t⟩ :: base') := by
      refine ⟨⟨.extra ht rfl hground.ground.linked, ?_⟩, ⟨.extra ht rfl hground.ground'.linked, ?_⟩, hground.tops,
        ?_, fun _ => ?_⟩
      · rw [Floor.frames_cons_extra ht]
        exact hground.ground.frames_eq
      · rw [Floor.frames_cons_extra ht]
        exact hground.ground'.frames_eq
      · rw [Floor.trees_cons, Floor.trees_cons, shownAt_append, shownAt_append, hground.shown, ← Floor.reach_eq,
          ← Floor.reach_eq, Extent.zero_add, Extent.zero_add, hreach, shownAt_further, movedAll_append,
          List.append_assoc]
      · show Floor.reach base' + t.totalSize = e + (Floor.reach base + t.totalSize)
        rw [hreach, Extent.add_assoc]
    exact .mk hnew (.inl ⟨rfl, rfl⟩)
  · obtain ⟨htop, h1, h3⟩ := hupper.top_eq
    rw [htop]
    exact .mk hground (.inr (.more h1 h3 hupper))

/-- Both sides act alike, but for the end of the text. -/
theorem chosen_eq (h : Joined e nodes floors floors') (hend : terminal ≠ .endOfInput) :
    chosen (actionsAt (Floor.top floors') terminal) = chosen (actionsAt (Floor.top floors) terminal) := by
  rcases h.tops with htop | ⟨h1, h3⟩
  · rw [htop]
  · rw [h1, h3, same_actions hend]

/-- A token on both sides. -/
theorem tree (h : Joined e nodes floors floors') {t t' : Subtree} (hb : Beyond e floors floors' t t')
    (ht : t.isExtra = false) {target : StateId} (h1 : target ≠ 1) (h3 : target ≠ 3) :
    Joined e nodes (⟨target, t⟩ :: floors) (⟨target, t'⟩ :: floors') := by
  have hreach := h.reach_eq
  obtain @⟨base, base', upper, upper', hground, hraised⟩ := h
  rcases hraised with ⟨rfl, rfl⟩ | hupper
  · show Joined e nodes ([⟨target, t⟩] ++ base) ([⟨target, t'⟩] ++ base')
    refine .mk hground (.inr (.first ht h1 h3 rfl ?_))
    rcases hb with ⟨hne, rfl⟩ | ⟨hnil, hmoved⟩
    · have hsame : Floor.reach base' = e + Floor.reach base := hreach hne
      rw [hsame]
      exact .same t'
    · obtain rfl : base = [] := hnil
      exact hmoved
  · rcases hb with ⟨-, rfl⟩ | ⟨hnil, -⟩
    · exact .mk hground (.inr (.more h1 h3 hupper))
    · obtain ⟨rfl, rfl⟩ := List.append_eq_nil_iff.mp hnil
      cases hupper

/-- The source file is put together on both sides. -/
theorem wraps (h : Joined e nodes floors floors') (hw : Wraps floors last) :
    ∃ last', Wraps floors' last' ∧ Floor.top last' = 2 := by
  have hmid := hw.ground
  obtain @⟨base, base', upper, upper', hground, hraised⟩ := h
  rcases hraised with ⟨rfl, rfl⟩ | hupper
  · have hend : ∃ count, chosen (actionsAt (Floor.top base') .endOfInput) =
        some (.reduce .sourceFile count 0) := by
      rcases hground.ground'.cases with ⟨h1, -⟩ | ⟨h3, -⟩
      · exact ⟨0, h1 ▸ ends_source.1⟩
      · exact ⟨1, h3 ▸ ends_source.2⟩
    obtain ⟨count, hc⟩ := hend
    obtain ⟨last', hlast, hreduced⟩ :=
      Floor.exists_reduce hground.ground'.linked (.of_mem (mem_of_chosen hc))
    exact ⟨last', ⟨hground.ground'.linked, count, 0, hc, hlast, hreduced⟩, hreduced.top_of_source⟩
  · obtain ⟨-, h1, h3⟩ := hupper.top_eq
    rcases hmid.cases with ⟨htop, -⟩ | ⟨htop, -⟩
    · exact absurd htop h1
    · exact absurd htop h3

end Joined

end Cicode.Tree
