import Cicode.Program.Lower
import Cicode.Proofs.Parse.Written
import Cicode.Proofs.Tree.Repairs

/-!
# The syntax tree of a derivation

Which kind and which field a child has in the syntax tree depends on its symbol and on the symbol of
its parent alone (`shownAs`, `labelOf`), whatever production of the table was used.  So a derivation
says what its syntax tree looks like: its *parts* are the derivations below it that become nodes,
and a node *depicts* a part if it has the kind and the field of the part, and its children depict the
parts below; a leaf has the text of its word.

Main statement (`depicts_parse`): the syntax tree of a row of words depicts the resolved derivation of
the words.
-/

namespace Cicode.Tree

open Grammar Text Parse Cicode.Lex

/-! ## Kinds and fields by symbols -/

/-- The kind that a symbol gives to a child, if not the child's own. -/
def shownAs : Symbol → Symbol → Option Symbol
  | .functionDefinition, .identifier | .functionCall, .identifier => some .functionName
  | .functionParameter, .identifier => some .parameterName
  | .variableDeclaration, .identifier | .assignToValue, .identifier
  | .variableAssignment, .identifier | .expressionAtom, .identifier
  | .conditionalAtom, .identifier => some .variableName
  | .expression, .bitOperator | .expression, .additiveOperator
  | .expression, .multiplicativeOperator => some .operatorsUsedInStatements
  | .additiveOperator, .additiveSymbol
  | .multiplicativeOperator, .multiplicativeSymbol => some .mathematicalOperators
  | .conditionalStatement, .conditionalGroup => some .conditionalAtom
  | .conditionalStatement, .orOperator | .conditionalStatement, .andOperator
  | .conditionalStatement, .relationalOperator => some .operatorsUsedInConditionals
  | .orOperator, .orKeyword | .andOperator, .andKeyword => some .logicalOperators
  | _, _ => none

/-- The field by which a symbol refers to a child. -/
def labelOf : Symbol → Symbol → Option Field
  | .functionDefinition, .functionScope => some .scope
  | .functionDefinition, .functionTypes => some .returnType
  | .functionDefinition, .identifier | .functionParameter, .identifier => some .name
  | .functionDefinition, .functionParameters => some .parameters
  | .functionParameter, .parameterType => some .type
  | .functionParameter, .defaultValue => some .defaultval
  | .variableDeclaration, .variableType => some .varType
  | _, _ => none

/-- Whether a symbol becomes a node below another one. -/
def showsIn (parent symbol : Symbol) : Bool := (shownAs parent symbol).isSome || symbol.isVisible

/-- The symbol among whose children the rounds of a repetition stand. -/
def ownerOf : Symbol → Symbol
  | .topLevelItems => .sourceFile
  | .declarations | .bodyStatements => .function
  | .furtherParameters => .functionParameters
  | .furtherVariables => .variableDeclaration
  | .branchStatements => .ifStatement
  | .furtherArguments => .functionCall
  | symbol => symbol

/-- How a symbol and its production show the child at a place. -/
def showsAt (symbol : Symbol) (production place : Nat) (child : Symbol) : Bool :=
  shownKind production place == shownAs (ownerOf symbol) child &&
    fieldAt production place == labelOf (ownerOf symbol) child &&
    (showsIn (ownerOf symbol) child || labelOf (ownerOf symbol) child == none) &&
    ((repeated child).isNone || ownerOf child == ownerOf symbol && !showsIn (ownerOf symbol) child)

/-- What a production says of the child at a place. -/
structure ShowsAt (symbol : Symbol) (production place : Nat) (child : Symbol) : Prop where
  kind : shownKind production place = shownAs (ownerOf symbol) child
  field : fieldAt production place = labelOf (ownerOf symbol) child
  bare : showsIn (ownerOf symbol) child = false → labelOf (ownerOf symbol) child = none
  round : (repeated child).isSome = true →
    ownerOf child = ownerOf symbol ∧ showsIn (ownerOf symbol) child = false

theorem showsAt_of_rightSide {symbol : Symbol} {rhs : List Symbol} (h : rhs ∈ rightSides symbol)
    {place : Nat} {child : Symbol} (hp : rhs[place]? = some child) :
    ShowsAt symbol (productionNumber symbol rhs) place child := by
  have hall : ((rightSides symbol).all fun rhs => rhs.zipIdx.all fun q =>
      showsAt symbol (productionNumber symbol rhs) q.2 q.1) = true := by
    cases symbol <;> decide +kernel
  have hmem : (child, place) ∈ rhs.zipIdx := by
    rw [List.mem_zipIdx_iff_getElem?]
    exact hp
  have htest := List.all_eq_true.mp (List.all_eq_true.mp hall rhs h) _ hmem
  simp only [showsAt, Bool.and_eq_true, Bool.or_eq_true, beq_iff_eq, Bool.not_eq_true',
    Option.isNone_iff_eq_none] at htest
  obtain ⟨⟨⟨hkind, hfield⟩, hbare⟩, hround⟩ := htest
  refine ⟨hkind, hfield, fun hs => hbare.resolve_left (by simp [hs]), fun hr => hround.resolve_left ?_⟩
  rintro heq
  rw [heq] at hr
  cases hr

theorem ownerOf_of_not_repeated {symbol : Symbol} (h : repeated symbol = none) : ownerOf symbol = symbol := by
  revert h
  cases symbol <;> decide

/-! ## Parts -/

/-- A derivation that becomes a node. -/
structure Part where
  /-- The kind of the node. -/
  kind : Symbol
  /-- The field of the node. -/
  field : Option Field
  /-- The derivation. -/
  tree : Derivation (List Char)

mutual

/-- What a derivation shows below a symbol: itself, or else what is below it. -/
def parts (parent : Symbol) : Derivation (List Char) → List Part
  | .leaf symbol word =>
    if showsIn parent symbol then
      [⟨(shownAs parent symbol).getD symbol, labelOf parent symbol, .leaf symbol word⟩]
    else []
  | .node symbol children =>
    if showsIn parent symbol then
      [⟨(shownAs parent symbol).getD symbol, labelOf parent symbol, .node symbol children⟩]
    else partsAll symbol children

/-- What several derivations show. -/
def partsAll (parent : Symbol) : List (Derivation (List Char)) → List Part
  | [] => []
  | first :: rest => parts parent first ++ partsAll parent rest

end

@[simp] theorem partsAll_append (parent : Symbol) (xs ys : List (Derivation (List Char))) :
    partsAll parent (xs ++ ys) = partsAll parent xs ++ partsAll parent ys := by
  induction xs with
  | nil => rfl
  | cons x xs ih => rw [List.cons_append, partsAll, partsAll, ih, List.append_assoc]

/-! ## Depictions -/

/-- The label of a node that depicts a part. -/
structure Label.Depicts (label : Label) (kind : Symbol) (field : Option Field) : Prop where
  kind_eq : label.kind = kind
  field_eq : label.field = field
  present : label.isMissing = false
  sound : label.hasError = false

/-- The node has the kind, the field and the text of the part. -/
inductive Depicts (source : Source) : Part → Node → Prop
  | leaf {kind symbol : Symbol} {field : Option Field} {word : List Char} {label : Label} :
      label.Depicts kind field → source.slice label.start label.stop = word →
      Depicts source ⟨kind, field, .leaf symbol word⟩ (.node label [])
  | node {kind symbol : Symbol} {field : Option Field} {children : List (Derivation (List Char))}
      {label : Label} {nodes : List Node} : label.Depicts kind field →
      List.Forall₂ (Depicts source) (partsAll symbol children) nodes →
      Depicts source ⟨kind, field, .node symbol children⟩ (.node label nodes)

/-- The nodes depict the parts, one by one. -/
abbrev DepictAll (source : Source) (parts : List Part) (nodes : List Node) : Prop :=
  List.Forall₂ (Depicts source) parts nodes

theorem exists_of_represents_leaf {symbol : Symbol} {word : List Char} {sub : Subtree}
    (h : Represents (.leaf symbol word) sub) : ∃ facts, sub = .node facts [] ∧ IsLeaf symbol word facts := by
  cases h with
  | leaf hl => exact ⟨_, rfl, hl⟩

theorem exists_of_represents_node {symbol : Symbol} {children : List (Derivation (List Char))}
    {sub : Subtree} (h : Represents (.node symbol children) sub) : ∃ subs,
      sub = .ofChildren symbol (productionNumber symbol (children.map Derivation.symbol)) subs ∧
      List.Forall₂ Represents children subs := by
  cases h with
  | node _ hall => exact ⟨_, rfl, hall⟩

/-- The view shows a child as a production of the symbol does. -/
structure View.Shows (v : View) (symbol child : Symbol) : Prop where
  kind : v.shown = shownAs (ownerOf symbol) child
  field : v.field = labelOf (ownerOf symbol) child
  bare : showsIn (ownerOf symbol) child = false → labelOf (ownerOf symbol) child = none
  round : (repeated child).isSome = true →
    ownerOf child = ownerOf symbol ∧ showsIn (ownerOf symbol) child = false

namespace View.Shows

variable {v : View} {symbol child : Symbol} {bytes : Nat}

theorem isShown_eq (h : v.Shows symbol child) (hclean : v.tree.IsClean child bytes) :
    v.isShown = showsIn (ownerOf symbol) child := by
  rw [View.isShown, h.kind, Subtree.isVisible, hclean.symbol_eq, showsIn]

theorem label_depicts (h : v.Shows symbol child) (hclean : v.tree.IsClean child bytes) :
    v.label.Depicts ((shownAs (ownerOf symbol) child).getD child) (labelOf (ownerOf symbol) child) := by
  refine ⟨?_, h.field, hclean.present, ?_⟩
  · rw [View.label, h.kind, hclean.symbol_eq]
  · rw [View.label, hclean.free]
    rfl

/-- A hidden tree has no field to hand on. -/
theorem inner_eq (h : v.Shows symbol child) (hclean : v.tree.IsClean child bytes) :
    v.inner = views v.tree.facts.production 0 v.position none v.tree.children := by
  rw [View.inner]
  split
  · rfl
  · rename_i hhidden
    rw [h.isShown_eq hclean, Bool.not_eq_true] at hhidden
    rw [h.field, h.bare hhidden]

end View.Shows

mutual

/-- The nodes of a tree depict what the derivation it represents shows. -/
theorem depictAll_nodes : ∀ (d : Derivation (List Char)) {v : View} {symbol : Symbol},
    Represents d v.tree → d.FollowsTable → v.Shows symbol d.symbol →
    ∀ {pre post : List Char}, v.position.bytes = byteLength pre →
    DepictAll (.ofList (pre ++ (spaced d.yield ++ post))) (partsAll (ownerOf symbol) d.dissolve) v.nodes
  | .leaf s word, v, symbol, hrep, _, hshows, pre, post, hp => by
    have hclean : v.tree.IsClean s _ := Represents.isClean (.leaf s word) hrep
    have hshows : v.Shows symbol s := hshows
    have hlabel := hshows.label_depicts hclean
    obtain ⟨facts, htree, hl⟩ := exists_of_represents_leaf hrep
    rw [View.nodes_eq, hshows.isShown_eq hclean, hshows.inner_eq hclean, htree, Derivation.dissolve,
      partsAll, partsAll, List.append_nil, parts]
    by_cases hs : showsIn (ownerOf symbol) s = true
    · rw [if_pos hs, if_pos hs]
      refine .cons (.leaf hlabel ?_) .nil
      have htext : pre ++ (spaced (Derivation.leaf s word).yield ++ post) =
          (pre ++ [' ']) ++ (word ++ post) := by
        simp [Derivation.yield]
      have hstart : (v.position + v.tree.facts.padding).bytes = byteLength (pre ++ [' ']) := by
        rw [Extent.bytes_add, hp, htree, Subtree.facts, hl.padding, byteLength_append]
        rfl
      rw [htext]
      refine slice_of_bytes hstart ?_
      rw [← hstart, ← hl.size, ← Extent.bytes_add, View.label, htree]
      rfl
    · rw [if_neg hs, if_neg hs]
      exact .nil
  | .node s children, v, symbol, hrep, hf, hshows, pre, post, hp => by
    have hclean : v.tree.IsClean s _ := Represents.isClean (.node s children) hrep
    have hshows : v.Shows symbol s := hshows
    have hlabel := hshows.label_depicts hclean
    obtain ⟨subs, htree, hall⟩ := exists_of_represents_node hrep
    have hinner : DepictAll (.ofList (pre ++ (spaced (Derivation.yieldAll children) ++ post)))
        (partsAll (ownerOf s) (Derivation.dissolveAll children))
        ((views (productionNumber s (children.map Derivation.symbol)) ([] : List Symbol).length
          v.position none subs).flatMap View.nodes) :=
      depictAll_views children hall hf.2 hf.1 rfl hp
    rw [View.nodes_eq, hshows.isShown_eq hclean, hshows.inner_eq hclean, htree,
      Subtree.production_ofChildren, Subtree.children_ofChildren, Derivation.dissolve]
    by_cases hr : (repeated s).isSome = true
    · obtain ⟨howner, hhidden⟩ := hshows.round hr
      rw [if_pos hr, if_neg (by rw [hhidden]; exact Bool.false_ne_true), ← howner]
      exact hinner
    · have hsame := ownerOf_of_not_repeated (Option.not_isSome_iff_eq_none.mp hr)
      rw [hsame] at hinner
      rw [if_neg hr, partsAll, partsAll, List.append_nil, parts]
      by_cases hs : showsIn (ownerOf symbol) s = true
      · rw [if_pos hs, if_pos hs]
        exact .cons (.node hlabel hinner) .nil
      · rw [if_neg hs, if_neg hs]
        exact hinner

/-- The nodes of the children of a production. -/
theorem depictAll_views : ∀ (ds : List (Derivation (List Char))) {subs : List Subtree}
    {symbol : Symbol} {rhs before : List Symbol},
    List.Forall₂ Represents ds subs → Derivation.AllFollowTable ds → rhs ∈ rightSides symbol →
    rhs = before ++ ds.map Derivation.symbol →
    ∀ {pre post : List Char} {position : Extent}, position.bytes = byteLength pre →
    DepictAll (.ofList (pre ++ (spaced (Derivation.yieldAll ds) ++ post)))
      (partsAll (ownerOf symbol) (Derivation.dissolveAll ds))
      ((views (productionNumber symbol rhs) before.length position none subs).flatMap View.nodes)
  | [], _, _, _, _, .nil, _, _, _, _, _, _, _ => .nil
  | d :: ds, sub :: subs, symbol, rhs, before, .cons h hs, hf, hrhs, heq, pre, post, position, hp => by
    have hclean := Represents.isClean d h
    have hplace : rhs[before.length]? = some d.symbol := by simp [heq]
    have hat := showsAt_of_rightSide hrhs hplace
    have hshows : View.Shows ⟨position, shownKind (productionNumber symbol rhs) before.length,
        fieldAt (productionNumber symbol rhs) before.length <|> none, sub⟩ symbol d.symbol := by
      refine ⟨hat.kind, ?_, hat.bare, hat.round⟩
      rw [← hat.field]
      simp
    have htext : spaced (Derivation.yieldAll (d :: ds)) ++ post =
        spaced d.yield ++ (spaced (Derivation.yieldAll ds) ++ post) := by
      rw [Derivation.yieldAll, spaced_append, List.append_assoc]
    have hfirst : DepictAll
        (.ofList (pre ++ (spaced d.yield ++ (spaced (Derivation.yieldAll ds) ++ post)))) _ _ :=
      depictAll_nodes d h hf.1 hshows hp
    have hafter : (position + sub.totalSize).bytes = byteLength (pre ++ spaced d.yield) := by
      rw [Extent.bytes_add, hp, hclean.size, byteLength_append]
    have hsplit : rhs = (before ++ [d.symbol]) ++ ds.map Derivation.symbol := by simp [heq]
    have hrest : DepictAll
        (.ofList ((pre ++ spaced d.yield) ++ (spaced (Derivation.yieldAll ds) ++ post))) _ _ :=
      depictAll_views ds hs hf.2 hrhs hsplit hafter
    rw [List.append_assoc, List.length_append, List.length_singleton] at hrest
    rw [views, hclean.extra, htext, Derivation.dissolveAll, partsAll_append, List.flatMap_cons]
    exact List.rel_append hfirst hrest

end

/-! ## What can be asked of a node -/

/-- The part that a derivation is below a symbol, if it becomes a node. -/
def Part.of (parent : Symbol) (d : Derivation (List Char)) : Part :=
  ⟨(shownAs parent d.symbol).getD d.symbol, labelOf parent d.symbol, d⟩

/-- The parts below a part. -/
def Part.below (part : Part) : List Part := partsAll part.tree.symbol part.tree.children

theorem parts_of_shown {parent : Symbol} {d : Derivation (List Char)}
    (h : showsIn parent d.symbol = true) : parts parent d = [Part.of parent d] := by
  cases d with
  | leaf symbol word => exact if_pos h
  | node symbol children => exact if_pos h

theorem partsAll_of_shown {parent : Symbol} {ds : List (Derivation (List Char))}
    (h : ∀ d ∈ ds, showsIn parent d.symbol = true) : partsAll parent ds = ds.map (Part.of parent) := by
  induction ds with
  | nil => rfl
  | cons d ds ih =>
    obtain ⟨hd, hds⟩ := List.forall_mem_cons.mp h
    rw [partsAll, parts_of_shown hd, ih hds, List.map_cons, List.singleton_append]

/-- What is related to something is something. -/
theorem exists_of_rel_some {α β : Type} {R : α → β → Prop} {a : α} {x : Option β}
    (h : Option.Rel R (some a) x) : ∃ b, x = some b ∧ R a b := by
  cases h with
  | some h => exact ⟨_, rfl, h⟩

/-- What is related to nothing is nothing. -/
theorem eq_none_of_rel {α β : Type} {R : α → β → Prop} {x : Option β} (h : Option.Rel R none x) :
    x = none := by
  cases h
  rfl

/-- Whether a symbol is shown below another one with a rule of its own, and not as a comment. -/
def isSignificant (parent symbol : Symbol) : Bool :=
  (shownAs parent symbol).getD symbol != .comment && ((shownAs parent symbol).getD symbol).isNamed

section Queries

variable {source : Source} {part : Part} {node : Node} {ps : List Part} {nodes : List Node}

namespace Depicts

theorem label_depicts (h : Depicts source part node) : node.label.Depicts part.kind part.field := by
  cases h with
  | leaf h | node h => exact h

theorem kind_eq (h : Depicts source part node) : node.kind = part.kind := h.label_depicts.kind_eq

theorem present (h : Depicts source part node) : node.isMissing = false := h.label_depicts.present

theorem sound (h : Depicts source part node) : node.hasError = false := h.label_depicts.sound

theorem children (h : Depicts source part node) : DepictAll source part.below node.children := by
  cases h with
  | leaf => exact .nil
  | node _ h => exact h

/-- A leaf has the text of its word. -/
theorem text {kind symbol : Symbol} {field : Option Field} {word : List Char}
    (h : Depicts source ⟨kind, field, .leaf symbol word⟩ node) :
    source.slice node.label.start node.label.stop = word := by
  cases h with
  | leaf _ h => exact h

end Depicts

namespace DepictAll

/-- The nodes that are chosen by their kind. -/
theorem filter (h : DepictAll source ps nodes) (choose : Symbol → Bool) :
    DepictAll source (ps.filter fun part => choose part.kind) (nodes.filter fun node => choose node.kind) := by
  induction h with
  | nil => exact .nil
  | cons h _ ih =>
    rw [List.filter_cons, List.filter_cons, h.kind_eq]
    split
    · exact .cons h ih
    · exact ih

/-- The first node. -/
theorem head? (h : DepictAll source ps nodes) : Option.Rel (Depicts source) ps.head? nodes.head? := by
  cases h with
  | nil => exact .none
  | cons h _ => exact .some h

theorem one {p : Part} (h : DepictAll source [p] nodes) :
    ∃ node, nodes = [node] ∧ Depicts source p node := by
  obtain ⟨node, rest, hnode, hrest, rfl⟩ := List.forall₂_cons_left_iff.mp h
  cases hrest
  exact ⟨node, rfl, hnode⟩

theorem two {p q : Part} (h : DepictAll source [p, q] nodes) :
    ∃ a b, nodes = [a, b] ∧ Depicts source p a ∧ Depicts source q b := by
  obtain ⟨a, rest, ha, hrest, rfl⟩ := List.forall₂_cons_left_iff.mp h
  obtain ⟨b, rfl, hb⟩ := one hrest
  exact ⟨a, b, rfl, ha, hb⟩

theorem three {p q r : Part} (h : DepictAll source [p, q, r] nodes) : ∃ a b c,
    nodes = [a, b, c] ∧ Depicts source p a ∧ Depicts source q b ∧ Depicts source r c := by
  obtain ⟨a, fromB, ha, hfromB, rfl⟩ := List.forall₂_cons_left_iff.mp h
  obtain ⟨b, fromC, hb, hfromC, rfl⟩ := List.forall₂_cons_left_iff.mp hfromB
  obtain ⟨c, rfl, hc⟩ := one hfromC
  exact ⟨a, b, c, rfl, ha, hb, hc⟩

/-- The first node that is chosen by its label. -/
theorem find? (h : DepictAll source ps nodes) {choose : Part → Bool} {choose' : Node → Bool}
    (hchoose : ∀ {part node}, Depicts source part node → choose' node = choose part) :
    Option.Rel (Depicts source) (ps.find? choose) (nodes.find? choose') := by
  induction h with
  | nil => exact .none
  | cons h _ ih =>
    rw [List.find?_cons, List.find?_cons, hchoose h]
    split
    · exact .some h
    · exact ih

end DepictAll

namespace Depicts

/-- The nodes below, if no derivation gives way to what is below it. -/
theorem children_of_shown {kind symbol : Symbol} {field : Option Field}
    {ds : List (Derivation (List Char))} (h : Depicts source ⟨kind, field, .node symbol ds⟩ node)
    (hshown : ∀ d ∈ ds, showsIn symbol d.symbol = true) :
    DepictAll source (ds.map (Part.of symbol)) node.children := by
  have hbelow : (Part.mk kind field (.node symbol ds)).below = ds.map (Part.of symbol) :=
    partsAll_of_shown hshown
  have hall := h.children
  rwa [hbelow] at hall

/-- The nodes with a rule of their own, without comments. -/
theorem significant (h : Depicts source part node) : DepictAll source
    (part.below.filter fun p => p.kind != .comment && p.kind.isNamed) node.significant := by
  rw [Node.significant, Node.namedChildren, List.filter_filter]
  exact h.children.filter fun kind => kind != .comment && kind.isNamed

/-- The significant nodes, if no derivation gives way to what is below it. -/
theorem significant_of_shown {kind symbol : Symbol} {field : Option Field}
    {ds : List (Derivation (List Char))} (h : Depicts source ⟨kind, field, .node symbol ds⟩ node)
    (hshown : ∀ d ∈ ds, showsIn symbol d.symbol = true) :
    DepictAll source ((ds.filter fun d => isSignificant symbol d.symbol).map (Part.of symbol))
      node.significant := by
  have hbelow : (Part.mk kind field (.node symbol ds)).below = ds.map (Part.of symbol) :=
    partsAll_of_shown hshown
  have hall := h.significant
  rwa [hbelow, List.filter_map] at hall

/-- The first node below. -/
theorem firstToken (h : Depicts source part node) :
    Option.Rel (Depicts source) (part.below.find? (·.kind != .comment)) node.firstToken :=
  h.children.find? fun h => by rw [Node.isComment, h.kind_eq]; rfl

/-- The node that a field refers to. -/
theorem child? (h : Depicts source part node) (field : Field) :
    Option.Rel (Depicts source) (part.below.find? (·.field == some field)) (node.child? field) :=
  h.children.find? fun h => by rw [h.label_depicts.field_eq]

end Depicts

end Queries

/-! ## The whole text -/

theorem views_append (production place : Nat) (position : Extent) (inherited : Option Field)
    {subs : List Subtree} (h : ∀ sub ∈ subs, sub.isExtra = false) (others : List Subtree) :
    views production place position inherited (subs ++ others) =
      views production place position inherited subs ++
        views production (place + subs.length) (position + extentOf subs) inherited others := by
  induction subs generalizing place position with
  | nil => simp [views]
  | cons sub subs ih =>
    obtain ⟨hsub, hsubs⟩ := List.forall_mem_cons.mp h
    rw [List.cons_append, views, views, ih _ _ hsubs, hsub]
    simp only [Bool.false_eq_true, if_false, List.cons_append, List.length_cons, extentOf_cons,
      Extent.add_assoc]
    rw [Nat.add_right_comm, Nat.add_assoc place]

/-- The end of the text becomes no node. -/
theorem nodes_end {final : Token} (h : final.symbol = .endOfInput) (production place : Nat)
    (position : Extent) (inherited : Option Field) :
    (views production place position inherited [.ofToken final]).flatMap View.nodes = [] := by
  have hx : (Subtree.ofToken final).isExtra = true := by
    rw [Subtree.ofToken, Subtree.isExtra, Subtree.facts, h]
    rfl
  have hshown : (View.mk position none none (.ofToken final)).isShown = false := by
    rw [View.isShown, Subtree.isVisible, Subtree.ofToken, Subtree.symbol, Subtree.facts, h]
    rfl
  have hnodes : (View.mk position none none (.ofToken final)).nodes = [] := by
    rw [View.nodes_eq, hshown]
    rfl
  rw [views, hx]
  simp [views, hnodes]

/-- **The syntax tree of a row of words depicts their resolved derivation.** -/
theorem depicts_parse {word : List (Symbol × List Char)} (hspelled : ∀ x ∈ word, Spelled x.1 x.2)
    {d : Derivation (List Char)} (h : d.Derives .sourceFile word) (hr : d.Resolved) :
    Depicts (.ofList (written word)) ⟨.sourceFile, none, d⟩ (Node.parse (written word)) := by
  obtain ⟨children, subs, final, hfollows, hdissolve, hyield, hall, hend, hparse⟩ :=
    parse_written hspelled h hr
  obtain ⟨hfree, -⟩ := Represents.isClean_all children hall
  have hd : d = .node .sourceFile (Derivation.dissolveAll children) := by
    rw [Derivation.dissolve, if_neg (by decide)] at hdissolve
    exact (List.cons.inj hdissolve).1.symm
  have hinner : DepictAll (.ofList ([] ++ (spaced (Derivation.yieldAll children) ++ [' '])))
      (partsAll .sourceFile (Derivation.dissolveAll children))
      ((views (productionNumber .sourceFile (children.map Derivation.symbol))
        ([] : List Symbol).length 0 none subs).flatMap View.nodes) :=
    depictAll_views children hall hfollows.2 hfollows.1 rfl rfl
  have htext : [] ++ (spaced (Derivation.yieldAll children) ++ [' ']) = written word := by
    rw [List.nil_append, ← hyield]
    rfl
  rw [htext] at hinner
  have hcost : (Subtree.ofChildren .sourceFile 0 (subs ++ [.ofToken final])).errorCost = 0 := by
    rw [Subtree.errorCost_ofChildren_eq_zero (by decide)]
    intro sub hmem
    rcases List.mem_append.mp hmem with hmem | hmem
    · exact .inr (hfree sub hmem).2
    · obtain rfl := List.mem_singleton.mp hmem
      exact .inr rfl
  rw [Node.parse, hparse, ofSubtree_eq, hd]
  refine .node ⟨Subtree.symbol_ofChildren .., rfl, Subtree.missing_ofChildren .., ?_⟩ ?_
  · rw [View.label, rootView, hcost]
    rfl
  · rw [View.inner, if_pos (isShown_rootView _), rootView, Subtree.production_ofChildren,
      Subtree.children_ofChildren, views_append _ _ _ _ fun sub hmem => (hfree sub hmem).1,
      List.flatMap_append, nodes_end hend, List.append_nil]
    exact hinner

end Cicode.Tree
