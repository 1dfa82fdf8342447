import Cicode.Proofs.Parse.Unrepaired
import Cicode.Proofs.Tree.Shapes

/-!
# Well-formed trees

A tree is *well-formed* if each of its nodes portrays a derivation, the root that of a source file.  What
the rules say of rows then says which kinds of nodes stand below which: the nodes of a kind have a parent
of one of a few kinds (`parents`, `Wellformed.exists_parent`).

Main statement (`wellformed_parse`): the tree of a text without repairs is well-formed.
-/

namespace Cicode.Tree

open Grammar Text Cicode.Lex

theorem Node.Within.parent {root node : Node} (h : root.Within node) :
    node = root ∨ ∃ parent, root.Within parent ∧ node ∈ parent.children := by
  induction h with
  | refl => exact .inl rfl
  | @step root child node hchild hwithin ih =>
    rcases ih with rfl | ⟨parent, hparent, hmem⟩
    · exact .inr ⟨root, .refl root, hchild⟩
    · exact .inr ⟨parent, .step hchild hparent, hmem⟩

/-- What holds of the root and of each child of a node that it holds of holds of every node. -/
theorem Node.Within.downward {P : Node → Prop} {root node : Node} (h : root.Within node) (hroot : P root)
    (hstep : ∀ parent child, root.Within parent → child ∈ parent.children → P parent → P child) : P node := by
  induction h with
  | refl => exact hroot
  | @step root child node hchild _ ih =>
    exact ih (hstep root child (.refl root) hchild hroot)
      fun parent inner hin => hstep parent inner (.step hchild hin)

/-- The root is a source file, and every node portrays a derivation. -/
structure Wellformed (source : Source) (root : Node) : Prop where
  kind : root.kind = .sourceFile
  portrayed : ∀ node, root.Within node → Portrayed source node

/-- A text without repairs is read up to its end. -/
theorem exists_ends {chars : List Char} (h : (Node.parse chars).hasError = false) :
    ∃ before last, Parse.Floor.Ends chars before last := by
  rw [Node.parse, hasError_ofSubtree] at h
  exact Parse.ends_of_free (by simpa using h)

/-- A root without repairs portrays a derivation. -/
theorem portrayed_root (chars : List Char) (h : (Node.parse chars).hasError = false) :
    Portrayed (.ofList chars) (Node.parse chars) := by
  obtain ⟨before, last, hends⟩ := exists_ends h
  obtain ⟨cs, hparse, hclean, -, hrhs, -⟩ := hends.exists_root
  obtain ⟨hfollows, hdepicts⟩ := depicts_root hparse hclean hrhs
  obtain ⟨hrules, -⟩ := Derivation.followsRules_dissolve _ hfollows
  have hkind : (Node.parse chars).kind = .sourceFile := by
    rw [← Node.kind_uncommented]
    exact hdepicts.kind_eq
  have hfield : (Node.parse chars).label.field = none := by
    rw [← Node.label_uncommented]
    exact hdepicts.label_depicts.field_eq
  refine ⟨_, hrules.1, .inl hkind, ?_, tidy_parse chars⟩
  rw [hkind, hfield]
  exact hdepicts

/-! ## Kinds and their parents -/

/-- The kinds of nodes in well-formed trees, comments left out. -/
def treeKinds : List Symbol :=
  [.sourceFile, .docSummary, .docParam, .docReturns, .summaryContent, .paramTag, .paramContent,
    .returnsContent, .function, .functionDefinition, .functionScope, .functionTypes, .functionName,
    .functionParameters, .functionParameter, .parameterType, .parameterName, .defaultValue,
    .variableDeclaration, .variableType, .variableName, .assignToValue, .statementOrExpression,
    .variableAssignment, .expressionVariableAssignments, .ifStatement, .returnStatement, .expression,
    .operatorsUsedInStatements, .bitOperators, .mathematicalOperators, .expressionAtom, .functionCall,
    .conditionalStatement, .conditionalAtom, .operatorsUsedInConditionals, .logicalOperators,
    .relationalOperators, .number, .string, .kwEnd, .kwPublic, .kwPrivate, .kwFunction, .kwInt, .kwString,
    .kwReal, .kwQuality, .kwTimestamp, .kwBool, .kwObject, .kwLong, .kwVoid, .kwIf, .kwThen, .kwElse,
    .kwReturn, .kwMod, .kwBitand, .kwBitor, .kwBitxor, .kwNot, .kwAnd, .kwOr, .lparen, .rparen, .comma,
    .semicolon, .lineFeed, .equal, .notEqual, .less, .greater, .lessEqual, .greaterEqual, .plus, .minus,
    .star, .slash]

/-- What stands below a node of a well-formed tree is of one of the kinds as well. -/
theorem treeKinds_closed : ∀ kind ∈ .comment :: treeKinds,
    (rowRule kind).symbols.all treeKinds.contains = true := by
  simp only [← List.all_eq_true]
  decide +kernel

/-- The kinds below which nodes of a kind may stand. -/
def parents (kind : Symbol) : List Symbol :=
  treeKinds.filter fun parent => (rowRule parent).symbols.contains kind

/-- Kinds of nodes that stand below nodes of one kind only. -/
def onlyParents : List (Symbol × Symbol) :=
  [(.function, .sourceFile), (.functionDefinition, .function), (.functionParameters, .functionDefinition),
    (.functionParameter, .functionParameters), (.variableDeclaration, .function),
    (.ifStatement, .statementOrExpression), (.variableAssignment, .statementOrExpression),
    (.expressionVariableAssignments, .variableAssignment)]

theorem parents_known : (∀ pair ∈ onlyParents, parents pair.1 = [pair.2]) ∧ parents .sourceFile = [] ∧
    ∀ kind ∈ [Symbol.statementOrExpression, .returnStatement], parents kind = [.function, .ifStatement] := by
  decide +kernel

namespace Wellformed

variable {source : Source} {root node child : Node}

/-- The kinds of the nodes. -/
theorem kind_mem (h : Wellformed source root) (hin : root.Within node) :
    node.kind ∈ .comment :: treeKinds := by
  refine hin.downward (P := fun node => node.kind ∈ .comment :: treeKinds) ?_ ?_
  · rw [h.kind]
    decide
  · intro parent child hparent hchild hkind
    by_cases hc : child.isComment = true
    · rw [show child.kind = .comment from beq_iff_eq.mp hc]
      exact List.mem_cons_self
    · have hcode : child ∈ parent.code := List.mem_filter.mpr ⟨hchild, by simp [hc]⟩
      have hmem := (h.portrayed parent hparent).kind_mem hcode
      have hclosed := List.all_eq_true.mp (treeKinds_closed _ hkind) _ hmem
      exact List.mem_cons_of_mem _ (List.contains_iff_mem.mp hclosed)

/-- A node that is no comment has one of the parents that its kind allows. -/
theorem mem_parents (h : Wellformed source root) (hin : root.Within node) (hchild : child ∈ node.children)
    (hc : child.isComment = false) : node.kind ∈ parents child.kind ∧ child ∈ node.code := by
  have hcode : child ∈ node.code := List.mem_filter.mpr ⟨hchild, by rw [hc]; rfl⟩
  have hkind := (h.portrayed node hin).kind_mem hcode
  refine ⟨List.mem_filter.mpr ⟨?_, List.contains_iff_mem.mpr hkind⟩, hcode⟩
  rcases List.mem_cons.mp (h.kind_mem hin) with hk | hk
  · rw [hk, show (rowRule .comment).symbols = [] by decide] at hkind
    exact absurd hkind List.not_mem_nil
  · exact hk

/-- **A node stands below the root or below a node of a kind that its own kind allows.** -/
theorem exists_parent (h : Wellformed source root) (hin : root.Within node) {kind : Symbol}
    (hk : node.kind = kind) (hroot : kind ≠ .sourceFile) (hc : kind ≠ .comment) :
    ∃ parent, root.Within parent ∧ parent.kind ∈ parents kind ∧ node ∈ parent.code := by
  subst hk
  rcases hin.parent with rfl | ⟨parent, hparent, hmem⟩
  · exact absurd h.kind hroot
  · obtain ⟨hkind, hcode⟩ := h.mem_parents hparent hmem (by simpa [Node.isComment] using hc)
    exact ⟨parent, hparent, hkind, hcode⟩

/-- A node whose kind has one parent stands below that one. -/
theorem exists_only_parent (h : Wellformed source root) (hin : root.Within node) (above : Symbol)
    (honly : (node.kind, above) ∈ onlyParents) :
    ∃ parent, root.Within parent ∧ parent.kind = above ∧ node ∈ parent.code := by
  have hall : ∀ pair ∈ onlyParents, pair.1 ≠ .sourceFile ∧ pair.1 ≠ .comment := by decide
  obtain ⟨hroot, hc⟩ := hall _ honly
  obtain ⟨parent, hparent, hkind, hcode⟩ := h.exists_parent hin rfl hroot hc
  rw [parents_known.1 _ honly, List.mem_singleton] at hkind
  exact ⟨parent, hparent, hkind, hcode⟩

/-- The root is the only source file. -/
theorem eq_root (h : Wellformed source root) (hin : root.Within node) (hk : node.kind = .sourceFile) :
    node = root := by
  rcases hin.parent with rfl | ⟨parent, hparent, hmem⟩
  · rfl
  · obtain ⟨hkind, -⟩ := h.mem_parents hparent hmem (by rw [Node.isComment, hk]; rfl)
    rw [hk, parents_known.2.1] at hkind
    exact absurd hkind List.not_mem_nil

end Wellformed

/-- **The tree of a text without repairs is well-formed.** -/
theorem wellformed_parse {chars : List Char} (h : (Node.parse chars).hasError = false) :
    Wellformed (.ofList chars) (Node.parse chars) := by
  have hroot := portrayed_root chars h
  have hkind : (Node.parse chars).kind = .sourceFile := by
    rcases (root_covers_text chars).1 with hk | ⟨-, herror⟩
    · exact hk
    · rw [h] at herror
      cases herror
  refine ⟨hkind, fun node hin => hin.downward hroot fun parent child hparent hchild hp => ?_⟩
  by_cases hc : child.isComment = true
  · have hk : child.kind = .comment := beq_iff_eq.mp hc
    have hin := hparent.trans (.child hchild)
    refine portrayed_of_within _ hin (by rw [hk]; decide) (by rw [hk]; decide) ?_
    by_contra herror
    rw [hin.price (sound_parse chars) (by simpa using herror)] at h
    cases h
  · exact hp.child (List.mem_filter.mpr ⟨hchild, by simp [hc]⟩)

end Cicode.Tree
