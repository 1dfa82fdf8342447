import Cicode.Proofs.Parse.Written

/-!
# The derivation of a tree

A tree that stands somewhere in a text is read as a derivation whose leaves are words of the text
(`Subtree.derivation`).  Extras take no part in it.  So floors are read as frames of the shift-reduce
automaton (`Floor.framesIn`), and what the parser does with floors is what the automaton does with
frames.

Main statements: a reduction of floors is one of their frames (`Floor.framesIn_reduce`), and the floors
of an accepted text hold a single frame, whose derivation is that of the children of the root
(`Floor.Ends.exists_root`).
-/

namespace Cicode.Parse

open Grammar Text Cicode.Lex Grammar.ShiftReduce

variable {source : Source}

/-! ## Derivations -/

namespace Subtree

mutual

/-- The derivation of a tree whose padding begins at a position. -/
def derivation (source : Source) (position : Extent) : Subtree → Derivation (List Char)
  | .node facts children =>
    if facts.symbol.isTerminal then
      .leaf facts.symbol
        (source.slice (position + facts.padding) (position + facts.padding + facts.size))
    else .node facts.symbol (derivations source position children)

/-- The derivations of trees that stand side by side, without the extras. -/
def derivations (source : Source) (position : Extent) : List Subtree → List (Derivation (List Char))
  | [] => []
  | tree :: rest =>
    if tree.isExtra then derivations source (position + tree.totalSize) rest
    else tree.derivation source position :: derivations source (position + tree.totalSize) rest

end

theorem symbol_derivation (position : Extent) (tree : Subtree) :
    (tree.derivation source position).symbol = tree.symbol := by
  obtain ⟨facts, children⟩ := tree
  rw [derivation]
  split <;> rfl

theorem derivations_append (position : Extent) (a b : List Subtree) :
    derivations source position (a ++ b) =
      derivations source position a ++ derivations source (position + extentOf a) b := by
  induction a generalizing position with
  | nil => rw [List.nil_append, extentOf_nil, Extent.add_zero, derivations, List.nil_append]
  | cons tree a ih =>
    rw [List.cons_append, derivations, derivations, extentOf_cons, ih, Extent.add_assoc]
    split
    · rfl
    · rw [List.cons_append]

/-- Extras have no derivations. -/
theorem derivations_of_extras {trees : List Subtree} (h : ∀ t ∈ trees, t.isExtra = true)
    (position : Extent) : derivations source position trees = [] := by
  induction trees generalizing position with
  | nil => rw [derivations]
  | cons tree trees ih =>
    obtain ⟨htree, htrees⟩ := List.forall_mem_cons.mp h
    rw [derivations, if_pos htree, ih htrees]

theorem symbols_derivations (position : Extent) (trees : List Subtree) :
    (derivations source position trees).map Derivation.symbol = spelling trees := by
  induction trees generalizing position with
  | nil => rw [derivations]; rfl
  | cons tree trees ih =>
    rw [derivations, spelling_cons]
    split
    · exact ih _
    · rw [List.map_cons, symbol_derivation, ih]

theorem derivation_ofChildren {symbol : Symbol} (h : symbol.isTerminal = false) (production : Nat)
    (children : List Subtree) (position : Extent) :
    (ofChildren symbol production children).derivation source position =
      .node symbol (derivations source position children) := by
  have hfacts := symbol_ofChildren symbol production children
  have hchildren := children_ofChildren symbol production children
  generalize ofChildren symbol production children = tree at hfacts hchildren
  obtain ⟨facts, trees⟩ := tree
  obtain rfl : facts.symbol = symbol := hfacts
  obtain rfl : trees = children := hchildren
  rw [derivation, h, if_neg Bool.false_ne_true]

theorem derivation_withExtra (extra : Bool) (tree : Subtree) (position : Extent) :
    (tree.withExtra extra).derivation source position = tree.derivation source position := by
  obtain ⟨facts, children⟩ := tree
  rw [withExtra, derivation, derivation]

theorem derivation_ofToken {token : Token} (h : token.symbol.isTerminal = true) (position : Extent) :
    (ofToken token).derivation source position = .leaf token.symbol
      (source.slice (position + token.padding) (position + token.padding + token.size)) := by
  rw [ofToken, derivation]
  exact if_pos h

end Subtree

theorem not_terminal_of_rightSide {symbol : Symbol} {rhs : List Symbol} (h : rhs ∈ rightSides symbol) :
    symbol.isTerminal = false := by
  cases ht : symbol.isTerminal with
  | false => rfl
  | true =>
    have hnone : rightSides symbol = [] := by
      revert ht
      cases symbol <;> decide
    rw [hnone] at h
    cases h

/-! ## Frames -/

namespace Floor

/-- The frames of floors: the trees that are no extras, as derivations. -/
def framesIn (source : Source) : List Floor → List (Frame (List Char))
  | [] => []
  | floor :: below =>
    if floor.tree.isExtra then framesIn source below
    else ⟨floor.state, floor.tree.derivation source (reach below)⟩ :: framesIn source below

theorem framesIn_cons_tree {floor : Floor} {below : List Floor} (h : floor.tree.isExtra = false) :
    framesIn source (floor :: below) =
      ⟨floor.state, floor.tree.derivation source (reach below)⟩ :: framesIn source below := by
  rw [framesIn, h, if_neg Bool.false_ne_true]

theorem framesIn_cons_extra {floor : Floor} {below : List Floor} (h : floor.tree.isExtra = true) :
    framesIn source (floor :: below) = framesIn source below := by
  rw [framesIn, if_pos h]

theorem Linked.stateOf_framesIn {floors : List Floor} (h : Linked floors) :
    stateOf (framesIn source floors) = top floors := by
  induction h with
  | bottom => rfl
  | tree hx => rw [framesIn_cons_tree hx]; rfl
  | extra hx hs _ ih => rw [framesIn_cons_extra hx, ih]; exact hs.symm

theorem Linked.framesIn_linked {floors : List Floor} (h : Linked floors) :
    ShiftReduce.Linked (framesIn source floors) := by
  induction h with
  | bottom => trivial
  | @tree floor below hx ha hbelow ih =>
    rw [framesIn_cons_tree hx]
    refine ⟨?_, ih⟩
    rw [hbelow.stateOf_framesIn, Subtree.symbol_derivation]
    exact ha
  | extra hx _ _ ih => rwa [framesIn_cons_extra hx]

theorem framesIn_putAll {trees : List Subtree} (h : ∀ t ∈ trees, t.isExtra = true) (state : StateId)
    (floors : List Floor) : framesIn source (putAll state trees floors) = framesIn source floors := by
  induction trees generalizing floors with
  | nil => rfl
  | cons tree trees ih =>
    obtain ⟨hfirst, hrest⟩ := List.forall_mem_cons.mp h
    rw [putAll, List.foldl_cons, ← putAll, ih hrest, framesIn_cons_extra hfirst]

/-- What is taken off are the topmost frames. -/
theorem framesIn_takeOff (source : Source) {floors : List Floor} {count : Nat} {taken : List Subtree × List Floor}
    (h : takeOff count floors = some taken) :
    framesIn source taken.2 = (framesIn source floors).drop count ∧
      Subtree.derivations source (reach taken.2) taken.1 =
        ((framesIn source floors).take count).reverse.map Frame.tree ∧
      reach floors = reach taken.2 + extentOf taken.1 := by
  induction floors generalizing count taken with
  | nil =>
    cases count with
    | zero =>
      cases h
      exact ⟨rfl, by rw [Subtree.derivations]; rfl, (Extent.add_zero _).symm⟩
    | succ count => cases h
  | cons floor below ih =>
    cases count with
    | zero =>
      cases h
      exact ⟨rfl, by rw [Subtree.derivations]; rfl, (Extent.add_zero _).symm⟩
    | succ count =>
      rw [takeOff, Option.map_eq_some_iff] at h
      obtain ⟨taken, htaken, rfl⟩ := h
      obtain ⟨hdrop, htake, hreach⟩ := ih htaken
      have htotal : reach (floor :: below) = reach taken.2 + extentOf (taken.1 ++ [floor.tree]) := by
        rw [reach, hreach, extentOf_append, extentOf_cons, extentOf_nil, Extent.add_zero, Extent.add_assoc]
      refine ⟨?_, ?_, htotal⟩
      · by_cases hx : floor.tree.isExtra = true
        · rw [if_pos hx] at hdrop
          rw [framesIn_cons_extra hx, hdrop]
        · rw [if_neg hx] at hdrop
          rw [framesIn_cons_tree (by simpa using hx), List.drop_succ_cons, hdrop]
      · rw [Subtree.derivations_append, htake, Subtree.derivations, ← hreach]
        by_cases hx : floor.tree.isExtra = true
        · rw [if_pos hx, if_pos hx, Subtree.derivations, List.append_nil, framesIn_cons_extra hx]
        · rw [if_neg hx, if_neg hx, Subtree.derivations, framesIn_cons_tree (by simpa using hx),
            List.take_succ_cons, List.reverse_cons, List.map_append]
          rfl

/-- **A reduction of floors is one of their frames.** -/
theorem framesIn_reduce {floors floors' : List Floor} (hl : Linked floors) {symbol : Symbol}
    {count production : Nat} (hr : Reduces (top floors) symbol count production)
    (h : reduce symbol count production floors = some floors') :
    framesIn source floors' =
      ⟨gotoAt (stateOf ((framesIn source floors).drop count)) symbol,
        .node symbol (((framesIn source floors).take count).reverse.map Frame.tree)⟩ ::
      (framesIn source floors).drop count := by
  rw [← hl.stateOf_frames] at hr
  obtain ⟨hle, -, -, hnon, -⟩ := hl.frames_linked.reduction hr
  obtain ⟨⟨trees, below⟩, htaken, ht⟩ := exists_takeOff hl hle
  rw [reduce, htaken] at h
  cases h
  obtain ⟨hdrop, htake, -⟩ := framesIn_takeOff source htaken
  obtain ⟨hparts, hextras⟩ := splitTrailingExtras_spec trees
  have hterm : symbol.isTerminal = false := by
    revert hnon
    cases symbol <;> decide
  have hderivations : Subtree.derivations source (reach below) (Subtree.splitTrailingExtras trees).1 =
      Subtree.derivations source (reach below) trees := by
    rw [hparts, Subtree.derivations_append, Subtree.derivations_of_extras hextras, List.append_nil, ← hparts]
  show framesIn source (putParent symbol production trees below) = _
  rw [putParent, framesIn_putAll hextras, framesIn_cons_tree (Subtree.isExtra_ofChildren ..),
    Subtree.derivation_ofChildren hterm, hderivations, htake, ← hdrop, ht.linked.stateOf_framesIn,
    Stack.nextState_nonterminal hnon]

/-! ## Trees of the floors -/

/-- The tree is one that the parser builds, and nothing in it was repaired. -/
structure Clean (tree : Subtree) : Prop where
  grown : Grown tree
  free : tree.errorCost = 0

theorem Clean.present {tree : Subtree} (h : Clean tree) : tree.facts.missing = false := by
  obtain ⟨hgrown, hfree⟩ := h
  cases hgrown with
  | token ht => exact ht.present
  | invented => cases hfree
  | production | skipping => exact Subtree.missing_ofChildren ..
  | skipped extra => exact absurd hfree (Nat.ne_of_gt (Subtree.errorCost_skipped_pos rfl ..))
  | unreadable hu => exact hu.present

theorem clean_withExtra {chars : List Char} {state : StateId} {position : Extent} {extra : Bool}
    (he : extra = true → (nextToken (.ofList chars) state position).symbol = .comment) :
    Clean ((Subtree.ofToken (nextToken (.ofList chars) state position)).withExtra extra) :=
  ⟨(isLookahead_ofToken (wellRead_nextToken ..)).grown_withExtra he, Subtree.errorCost_withExtra ..⟩

theorem forall_mem_trees {P : Subtree → Prop} {floors : List Floor} (h : ∀ floor ∈ floors, P floor.tree) :
    ∀ t ∈ trees floors, P t := by
  intro t ht
  obtain ⟨floor, hfloor, rfl⟩ := List.mem_map.mp (List.mem_reverse.mp ht)
  exact h floor hfloor

theorem forall_mem_putAll {P : Subtree → Prop} {trees : List Subtree} (ht : ∀ t ∈ trees, P t)
    (state : StateId) {floors : List Floor} (hf : ∀ floor ∈ floors, P floor.tree) :
    ∀ floor ∈ putAll state trees floors, P floor.tree := by
  induction trees generalizing floors with
  | nil => exact hf
  | cons tree trees ih =>
    obtain ⟨hfirst, hrest⟩ := List.forall_mem_cons.mp ht
    exact ih hrest (List.forall_mem_cons.mpr ⟨hfirst, hf⟩)

/-- A property of trees that holds of what productions put together. -/
def Productive (P : Subtree → Prop) : Prop := ∀ {symbol : Symbol} {production : Nat} {children : List Subtree},
  spelling children ∈ rightSides symbol → production = productionNumber symbol (spelling children) →
  (∀ t ∈ children.head?, t.isExtra = false) → (∀ t ∈ children, P t) →
  P (.ofChildren symbol production children)

section

variable {P : Subtree → Prop} {floors floors' : List Floor}

theorem Reduced.forall_mem (hP : Productive P) {symbol : Symbol} {count production : Nat}
    (h : Reduced symbol count production floors floors') (hf : ∀ floor ∈ floors, P floor.tree) :
    ∀ floor ∈ floors', P floor.tree := by
  obtain ⟨below, children, extras, target, -, rfl, htrees, -, hrhs, hnumber, hfirst, -⟩ := h.parent
  have hmem : ∀ t ∈ trees below ++ children ++ extras, P t := fun t ht =>
    forall_mem_trees hf t (htrees ▸ ht)
  refine forall_mem_putAll (fun t ht => hmem t (by simp [ht])) _ (List.forall_mem_cons.mpr ⟨?_, ?_⟩)
  · exact hP hrhs hnumber hfirst fun t ht => hmem t (by simp [ht])
  · intro floor hfloor
    refine hmem _ (List.mem_append_left _ (List.mem_append_left _ ?_))
    exact List.mem_reverse.mpr (List.mem_map_of_mem hfloor)

theorem Reductions.forall_mem (hP : Productive P) {terminal : Symbol} (hl : Linked floors)
    (h : Reductions terminal floors floors') (hf : ∀ floor ∈ floors, P floor.tree) :
    ∀ floor ∈ floors', P floor.tree := by
  induction h with
  | done => exact hf
  | step hchosen hr _ ih =>
    have hreduced := hl.reduced hchosen hr
    exact ih hreduced.linked (hreduced.forall_mem hP hf)

end

theorem productive_clean : Productive Clean := by
  intro symbol production children hrhs hnumber hfirst hc
  have hproduction : IsProduction symbol production children :=
    ⟨hrhs, hnumber, hfirst, fun _ c hmem _ => (hc c hmem).present⟩
  refine ⟨.production hproduction fun t ht => (hc t ht).grown, ?_⟩
  rw [Subtree.errorCost_ofChildren_eq_zero (not_skipped_of_rightSide hrhs)]
  exact fun c hmem => .inr (hc c hmem).free

/-- **Nothing in the floors of a text is repaired.** -/
theorem Arrives.clean {chars : List Char} {floors : List Floor} (h : Arrives chars floors) :
    ∀ floor ∈ floors, Clean floor.tree := by
  induction h with
  | start => simp
  | @read floors floors' harrives hread ih =>
    obtain ⟨mid, hreductions, hshifts⟩ := hread
    have hmid := hreductions.forall_mem productive_clean harrives.linked ih
    cases hshifts with
    | tree => exact List.forall_mem_cons.mpr ⟨clean_withExtra (fun h => by cases h), hmid⟩
    | extra hs =>
      exact List.forall_mem_cons.mpr ⟨clean_withExtra fun _ => comment_of_shiftExtra (mem_of_chosen hs), hmid⟩

/-! ## The root -/

/-- The text is read up to its end and accepted with the floors `last`. -/
structure Ends (chars : List Char) (before last : List Floor) : Prop where
  arrives : Arrives chars before
  reductions : Reductions (next chars before).symbol before last
  accept : chosen (actionsAt (top last) (next chars before).symbol) = some .accept

theorem accepts_iff {chars : List Char} {root : Subtree} : Accepts chars root ↔
    ∃ before last, Ends chars before last ∧
      Parser.rootOf (trees last ++ [next chars before]) = some root := by
  constructor
  · rintro ⟨before, last, ha, hr, hc, hroot⟩
    exact ⟨before, last, ⟨ha, hr, hc⟩, hroot⟩
  · rintro ⟨before, last, ⟨ha, hr, hc⟩, hroot⟩
    exact ⟨before, last, ha, hr, hc, hroot⟩

/-- In the initial state there are extras only. -/
theorem extras_of_top {floors : List Floor} (h : Linked floors) (htop : top floors = 1) :
    ∀ floor ∈ floors, floor.tree.isExtra = true := by
  induction h with
  | bottom => simp
  | @tree floor below _ ha =>
    have hlow : 1 < floor.state := (target_of_arrow ha).1
    exact absurd htop (Nat.ne_of_gt hlow)
  | extra hx hs _ ih => exact List.forall_mem_cons.mpr ⟨hx, ih (hs.symm.trans htop)⟩

/-- A whole program stands on extras only. -/
theorem exists_of_top {floors : List Floor} (h : Linked floors) (htop : top floors = 2) :
    ∃ extras tree below, floors = putAll 2 extras (⟨2, tree⟩ :: below) ∧ tree.symbol = .sourceFile ∧
      tree.isExtra = false ∧ (∀ t ∈ extras, t.isExtra = true) ∧
      ∀ floor ∈ below, floor.tree.isExtra = true := by
  induction h with
  | bottom => cases htop
  | @tree floor below hx ha hbelow _ =>
    obtain ⟨state, tree⟩ := floor
    obtain rfl : state = 2 := htop
    obtain ⟨hone, hsymbol⟩ := (target_of_arrow ha).2 rfl
    refine ⟨[], tree, below, rfl, hsymbol, hx, by simp, ?_⟩
    exact extras_of_top hbelow hone
  | @extra floor below hx hs _ ih =>
    obtain ⟨state, stray⟩ := floor
    obtain rfl : state = 2 := htop
    obtain ⟨extras, tree, bottom, rfl, hsymbol, htree, hextras, hbottom⟩ := ih hs.symm
    refine ⟨extras ++ [stray], tree, bottom, by simp [putAll, List.foldl_append], hsymbol, htree, ?_,
      hbottom⟩
    exact List.forall_mem_append.mpr ⟨hextras, List.forall_mem_singleton.mpr hx⟩

/-- A whole program without repairs is a production, and so are its children without repairs. -/
theorem Clean.program {tree : Subtree} (h : Clean tree) (hs : tree.symbol = .sourceFile) :
    ∃ cs, tree = .ofChildren .sourceFile 0 cs ∧ spelling cs ∈ rightSides .sourceFile ∧
      ∀ c ∈ cs, Clean c := by
  obtain ⟨hgrown, hfree⟩ := h
  have hnumber := hgrown.production_root (.inl hs)
  cases hgrown with
  | @token facts ht =>
    have hterm : (Subtree.node facts []).symbol.isTerminal = true := ht.terminal
    rw [hs] at hterm
    cases hterm
  | invented => cases hfree
  | @production symbol number cs hp hg =>
    obtain rfl : symbol = .sourceFile := (Subtree.symbol_ofChildren ..).symm.trans hs
    rw [Subtree.production_ofChildren] at hnumber
    subst hnumber
    refine ⟨cs, rfl, hp.rhs, fun c hc => ⟨hg c hc, ?_⟩⟩
    rw [Subtree.errorCost_ofChildren_eq_zero rfl] at hfree
    refine (hfree c hc).resolve_left fun hrepeat => ?_
    have herror := (hp.skipped hg c hc (by rw [hrepeat]; rfl)).1
    rw [hrepeat] at herror
    cases herror
  | skipped extra => exact absurd hfree (Nat.ne_of_gt (Subtree.errorCost_skipped_pos rfl ..))
  | skipping => exact absurd ((Subtree.symbol_ofChildren ..).symm.trans hs) (by decide)
  | unreadable hu => cases hu.symbol_eq.symm.trans hs

/-- The last tree that is no extra gives way to its children. -/
theorem rootOf_append {tree : Subtree} (htree : tree.isExtra = false) (before : List Subtree)
    {extras : List Subtree} (hextras : ∀ t ∈ extras, t.isExtra = true) :
    Parser.rootOf (before ++ tree :: extras) = some
      (.ofChildren tree.symbol tree.facts.production (before ++ tree.children ++ extras)) := by
  have hspan : (before ++ tree :: extras).reverse.span Subtree.isExtra =
      (extras.reverse, tree :: before.reverse) := by
    rw [List.span_eq_takeWhile_dropWhile, List.reverse_append, List.reverse_cons, List.append_assoc,
      List.singleton_append]
    have hrev : ∀ t ∈ extras.reverse, t.isExtra = true := fun t ht => hextras t (List.mem_reverse.mp ht)
    rw [List.takeWhile_append_of_pos hrev, List.dropWhile_append_of_pos hrev]
    simp [htree]
  rw [Parser.rootOf, hspan]
  simp only [List.reverse_reverse]

theorem framesIn_of_extras {floors : List Floor} (h : ∀ floor ∈ floors, floor.tree.isExtra = true) :
    framesIn source floors = [] := by
  induction floors with
  | nil => rfl
  | cons floor below ih =>
    obtain ⟨hfirst, hrest⟩ := List.forall_mem_cons.mp h
    rw [framesIn_cons_extra hfirst, ih hrest]

/-- What becomes of the floors of an accepted text: the whole program gives way to its children, and the
extras on both sides of it stay, with the end of the text. -/
theorem Ends.exists_program {chars : List Char} {before last : List Floor} (h : Ends chars before last) :
    ∃ bottom cs extras, trees last = bottom ++ .ofChildren .sourceFile 0 cs :: extras ∧
      (∀ t ∈ bottom, t.isExtra = true) ∧ (∀ t ∈ extras ++ [next chars before], t.isExtra = true) ∧
      (∀ c ∈ cs, Clean c) ∧ spelling cs ∈ rightSides .sourceFile ∧
      parse chars = .ofChildren .sourceFile 0 (bottom ++ cs ++ (extras ++ [next chars before])) ∧
      framesIn (.ofList chars) last =
        [⟨2, (Subtree.ofChildren .sourceFile 0 cs).derivation (.ofList chars) (extentOf bottom)⟩] := by
  have hlinked := h.arrives.linked.reductions h.reductions
  have hclean := forall_mem_trees (h.reductions.forall_mem productive_clean h.arrives.linked h.arrives.clean)
  obtain ⟨htop, hend⟩ := accept_of_chosen h.accept
  obtain ⟨extras, tree, below, rfl, hsymbol, htree, hextras, hbelow⟩ := exists_of_top hlinked htop
  have hfinal : (next chars before).isExtra = true := by
    show ((nextToken (.ofList chars) (top before) (reach before)).symbol == .endOfInput) = true
    exact beq_iff_eq.mpr hend
  have htrees : trees (putAll 2 extras (⟨2, tree⟩ :: below)) = trees below ++ tree :: extras := by
    rw [trees_putAll, trees_cons, List.append_assoc, List.singleton_append]
  have hlast : ∀ t ∈ extras ++ [next chars before], t.isExtra = true :=
    List.forall_mem_append.mpr ⟨hextras, List.forall_mem_singleton.mpr hfinal⟩
  have hroot := rootOf_append htree (trees below) hlast
  rw [← List.cons_append, ← List.append_assoc, ← htrees] at hroot
  have haccepts := parse_of_accepts (accepts_iff.mpr ⟨_, _, h, hroot⟩)
  rw [htrees] at hclean
  obtain ⟨cs, rfl, hrhs, hcs⟩ := (hclean tree (by simp)).program hsymbol
  rw [Subtree.symbol_ofChildren, Subtree.production_ofChildren, Subtree.children_ofChildren] at haccepts
  refine ⟨trees below, cs, extras, htrees, forall_mem_trees hbelow, hlast, hcs, hrhs, haccepts, ?_⟩
  rw [framesIn_putAll hextras, framesIn_cons_tree htree, framesIn_of_extras hbelow, reach_eq]

/-- **The root of an accepted text** has the children that the derivation of its floors is made of; what
else stands below it are extras. -/
theorem Ends.exists_root {chars : List Char} {before last : List Floor} (h : Ends chars before last) :
    ∃ cs, parse chars = .ofChildren .sourceFile 0 cs ∧ (∀ c ∈ cs, Clean c) ∧
      (∀ c ∈ cs, c = next chars before ∨ ∃ floor ∈ last, c = floor.tree ∨ c ∈ floor.tree.children) ∧
      spelling cs ∈ rightSides .sourceFile ∧
      framesIn (.ofList chars) last =
        [⟨2, .node .sourceFile (Subtree.derivations (.ofList chars) 0 cs)⟩] := by
  have hclean := forall_mem_trees (h.reductions.forall_mem productive_clean h.arrives.linked h.arrives.clean)
  obtain ⟨bottom, cs, extras, htrees, hbottom, hlast, hcs, hrhs, hparse, hframes⟩ := h.exists_program
  rw [htrees] at hclean
  refine ⟨_, hparse, ?_, ?_, ?_, ?_⟩
  · refine List.forall_mem_append.mpr ⟨List.forall_mem_append.mpr
      ⟨fun t ht => hclean t (by simp [ht]), hcs⟩, List.forall_mem_append.mpr
      ⟨fun t ht => hclean t (by simp [ht]), List.forall_mem_singleton.mpr ?_⟩⟩
    exact ⟨(isLookahead_ofToken (wellRead_nextToken ..)).grown, rfl⟩
  · have hmem : ∀ t ∈ bottom ++ .ofChildren .sourceFile 0 cs :: extras, ∃ floor ∈ last, t = floor.tree := by
      intro t ht
      rw [← htrees] at ht
      obtain ⟨floor, hfloor, rfl⟩ := List.mem_map.mp (List.mem_reverse.mp ht)
      exact ⟨floor, hfloor, rfl⟩
    obtain ⟨whole, hwhole, hchildren⟩ := hmem (.ofChildren .sourceFile 0 cs) (by simp)
    intro c hc
    simp only [List.mem_append, List.mem_singleton] at hc
    rcases hc with (hc | hc) | hc | hc
    · obtain ⟨floor, hfloor, heq⟩ := hmem c (by simp [hc])
      exact .inr ⟨floor, hfloor, .inl heq⟩
    · refine .inr ⟨whole, hwhole, .inr ?_⟩
      rw [← hchildren, Subtree.children_ofChildren]
      exact hc
    · obtain ⟨floor, hfloor, heq⟩ := hmem c (by simp [hc])
      exact .inr ⟨floor, hfloor, .inl heq⟩
    · exact .inl hc
  · rwa [spelling_append, spelling_append, spelling_of_extras hbottom, spelling_of_extras hlast, List.nil_append,
      List.append_nil]
  · rw [hframes, Subtree.derivation_ofChildren rfl, Subtree.derivations_append, Subtree.derivations_append,
      Subtree.derivations_of_extras hbottom, Subtree.derivations_of_extras hlast, List.nil_append,
      List.append_nil, Extent.zero_add]

end Floor

end Cicode.Parse
