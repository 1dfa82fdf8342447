import Cicode.Proofs.Program.Arguments
import Cicode.Proofs.Program.Failures

/-!
# Well-formed trees are lowered completely

In the tree of a text without repairs nothing is lost but for limits.  If nothing is lost at all, then all
that the tree holds is in the program: each parameter, each declaration with all its variables and their
initial values, each statement and each argument of a call.  A node is traced from its parent, whose kind
is known from its own: what the parent is lowered to holds what the node is lowered to.

Main statement (`lowering_is_complete`).
-/

namespace Cicode.Program

open Grammar Text Cicode.Lex Cicode.Tree

/-! ## Parameters and variables -/

/-- The node begins with the keyword of the type. -/
def NamesType (node : Node) (type : DataType) : Prop :=
  ∃ keyword ∈ node.code.head?, dataType? keyword.kind = some type

/-- A parameter is given by a node: its type by a keyword, its name by a word, and its default by a literal
if there is one. -/
structure GivesParameter (source : Source) (node : Node) (p : Parameter) : Prop where
  type : ∃ given, node.child? .type = some given ∧ NamesType given p.type
  name : ∃ name, node.child? .name = some name ∧ p.name = String.ofList (textOf source name)
  default : (node.child? .defaultval = none ∧ p.default = none) ∨
    ∃ given value l, node.child? .defaultval = some given ∧ given.significant = [value] ∧
      literal source value = .ok l ∧ p.default = some l
  span : p.span = spanOf node

/-- Variables are declared by nodes: each name with the initial value after it, if there is one. -/
inductive Declares (source : Source) : List Node → List Variable → Prop
  | nil : Declares source [] []
  | plain {name : Node} {nodes : List Node} {declared : List Variable} :
    name.kind = .variableName → Declares source nodes declared →
    Declares source (name :: nodes)
      (⟨String.ofList (textOf source name), none, spanOf name⟩ :: declared)
  | initialized {name given value : Node} {nodes : List Node} {initializer : Initializer}
      {declared : List Variable} :
    name.kind = .variableName → given.kind = .assignToValue → given.significant = [value] →
    (value.kind = .variableName ∧ initializer = .variable (String.ofList (textOf source value)) ∨
      ∃ l, literal source value = .ok l ∧ initializer = .literal l) →
    Declares source nodes declared →
    Declares source (name :: given :: nodes)
      (⟨String.ofList (textOf source name), some (initializer, spanOf value),
        (spanOf name).merge (spanOf given)⟩ :: declared)

/-! ## What a program holds -/

/-- The node stands in a function of the tree that is lowered to the given one. -/
def Home (root : Node) (functions : List Function) (node : Node) (f : Function) : Prop :=
  f ∈ functions ∧ ∃ fn ∈ root.significant, fn.kind = .function ∧ f.span = spanOf fn ∧ fn.Within node

/-- The program holds all that the tree does. -/
structure Complete (source : Source) (root : Node) (functions : List Function) : Prop where
  parameter : ∀ node, root.Within node → node.kind = .functionParameter →
    ∃ f, Home root functions node f ∧ ∃ p ∈ f.parameters, parameter source node = .ok p ∧
      GivesParameter source node p
  declaration : ∀ node, root.Within node → node.kind = .variableDeclaration →
    ∃ f, Home root functions node f ∧ ∃ d ∈ f.locals, declaration source node = .ok d ∧
      (∃ given, node.child? .varType = some given ∧ NamesType given d.type) ∧
      Declares source (node.significant.filter (·.kind != .variableType)) d.declared
  statement : ∀ node, root.Within node → isStatement node = true →
    ∃ f, Home root functions node f ∧ ∃ s ∈ Statement.walkAll f.body, ∃ levels,
      statement source levels (block source levels) node = .ok (s, [])
  argument : ∀ node argument, root.Within node → node.kind = .functionCall → argument ∈ node.significant →
    argument.kind = .expression →
    ∃ f, Home root functions node f ∧ ∃ e ∈ f.passed, ∃ levels, expression source levels argument = .ok e

section

variable {source : Source} {node : Node}

/-! ## Parameters -/

theorem namesType_of_typeOf {given : Option Node} {type : DataType} (h : typeOf given = .ok type) :
    ∃ node, given = some node ∧ NamesType node type := by
  obtain ⟨token, htoken, htype⟩ := Option.bind_eq_some_iff.mp (require_eq_ok.mp h)
  obtain ⟨node, hnode, hfirst⟩ := Option.bind_eq_some_iff.mp htoken
  rw [Node.firstToken_eq] at hfirst
  exact ⟨node, (Option.filter_eq_some_iff.mp hnode).1, token, hfirst, htype⟩

theorem text_of_identifier {part : Part} {given : Option Node} {name : String} {span : Span}
    (h : identifier source part given = .ok (name, span)) :
    ∃ node, given = some node ∧ name = String.ofList (textOf source node) := by
  cases given with
  | none => cases h
  | some node =>
    rw [identifier] at h
    split at h <;> cases h
    exact ⟨node, rfl, rfl⟩

theorem givesParameter_parameter (h : Portrayed source node) (hk : node.kind = .functionParameter) {p : Parameter}
    (hp : parameter source node = .ok p) : GivesParameter source node p := by
  rw [parameter] at hp
  obtain ⟨type, htype, hp⟩ := bind_eq_ok.mp hp
  obtain ⟨⟨name, span⟩, hname, hp⟩ := bind_eq_ok.mp hp
  have htype := namesType_of_typeOf htype
  have hname := text_of_identifier hname
  cases hgiven : node.child? .defaultval with
  | none =>
    rw [hgiven] at hp
    cases hp
    exact ⟨htype, hname, .inl ⟨hgiven, rfl⟩, rfl⟩
  | some given =>
    obtain ⟨hcode, hkg⟩ := h.child?_spec .defaultValue (by rw [hk]; decide) hgiven
    rw [hk] at hkg
    obtain ⟨value, hs, -, -⟩ := exists_default (h.child hcode) hkg
    simp only [hgiven, hs, List.head?_cons, require, ok_bind] at hp
    obtain ⟨default, hdefault, hp⟩ := bind_eq_ok.mp hp
    obtain ⟨l, hl, rfl⟩ := map_eq_ok.mp hdefault
    cases hp
    exact ⟨htype, hname, .inr ⟨given, value, l, hgiven, hs, hl, rfl⟩, rfl⟩

/-! ## Declarations -/

/-- A variable in the row of a declaration: its name, and what it begins with. -/
def declaredRule : Rule :=
  .seq (.symbol .variableName) (.seq (.choice (.symbol .assignToValue) .empty) .empty)

theorem rowRule_declaration : rowRule .variableDeclaration =
    .choice (.seq (.symbol .variableType) (.seq (.seq declaredRule (.many .furtherVariables
      (.seq (.symbol .comma) declaredRule))) (.seq (.symbol .semicolon) .empty))) .never := by
  decide

/-- The kinds of the nodes for a variable. -/
def declaredRounds : List (List Symbol) := [[.variableName], [.variableName, .assignToValue]]

theorem matches_declaredRule {xs : List Symbol} (h : declaredRule.Matches xs) : xs ∈ declaredRounds := by
  simp only [declaredRule, Rule.matches_symbol_seq, Rule.matches_choice_seq, Rule.matches_empty_seq,
    Rule.matches_empty] at h
  obtain ⟨zs, rfl, ⟨_, rfl, rfl⟩ | rfl⟩ := h
  · exact List.mem_cons_of_mem _ List.mem_cons_self
  · exact List.mem_cons_self

/-- The part of a row that declares variables. -/
def declaring (row : List Symbol) : List Symbol := row.filter fun x => x.isNamed && x != .variableType

theorem declaring_round {round : List Symbol} (h : round ∈ declaredRounds) : declaring round = round := by
  revert round
  decide

/-- The nodes for the variables of a declaration come variable by variable. -/
theorem exists_rounds (h : Portrayed source node) (hk : node.kind = .variableDeclaration) :
    ∃ rounds : List (List Symbol), (∀ round ∈ rounds, round ∈ declaredRounds) ∧
      (node.significant.filter (·.kind != .variableType)).map Node.kind = rounds.flatten := by
  have hkinds : (node.significant.filter (·.kind != .variableType)).map Node.kind = declaring node.row := by
    rw [Node.significant_eq, List.filter_filter, Node.row, declaring, List.filter_map]
    refine congrArg _ (List.filter_congr fun n _ => ?_)
    rw [Node.isNamed, Bool.and_comm]
    rfl
  have hrow := h.row_matches
  rw [hk, rowRule_declaration] at hrow
  simp only [Rule.matches_choice, Rule.matches_never, or_false, Rule.matches_symbol_seq] at hrow
  obtain ⟨_, hrow, hm⟩ := hrow
  obtain ⟨_, _, rfl, hm, hend⟩ := Rule.matches_seq.mp hm
  obtain ⟨first, _, rfl, hfirst, hm⟩ := Rule.matches_seq.mp hm
  obtain ⟨further, rfl, hfurther⟩ := Rule.matches_many.mp hm
  simp only [Rule.matches_symbol_seq, Rule.matches_empty] at hend
  obtain ⟨_, rfl, rfl⟩ := hend
  have hfirst := matches_declaredRule hfirst
  refine ⟨first :: further.map declaring, List.forall_mem_cons.mpr ⟨hfirst, fun round hround => ?_⟩, ?_⟩
  · obtain ⟨xs, hxs, rfl⟩ := List.mem_map.mp hround
    obtain ⟨zs, rfl, hzs⟩ := Rule.matches_symbol_seq.mp (hfurther xs hxs)
    have hzs := matches_declaredRule hzs
    rw [show declaring (.comma :: zs) = declaring zs from rfl, declaring_round hzs]
    exact hzs
  · have hflat : declaring further.flatten = (further.map declaring).flatten := List.filter_flatten
    rw [hkinds, hrow, List.flatten_cons, ← hflat, ← declaring_round hfirst]
    simp [declaring, show Symbol.semicolon.isNamed = false from rfl]

theorem declarationPart_name (h : Portrayed source node) (hk : node.kind = .variableName)
    (before : List Variable) : declarationPart source before node =
      .ok (⟨String.ofList (textOf source node), none, spanOf node⟩ :: before) := by
  rw [declarationPart, hk]
  simp only [identifier_of_portrayed h, ok_bind]
  rfl

/-- An initial value is that of the last variable so far. -/
theorem declarationPart_value (h : Portrayed source node) (hk : node.kind = .assignToValue) {v : Variable}
    {before after : List Variable} (hok : declarationPart source (v :: before) node = .ok after) :
    ∃ value initializer, node.significant = [value] ∧
      (value.kind = .variableName ∧ initializer = .variable (String.ofList (textOf source value)) ∨
        ∃ l, literal source value = .ok l ∧ initializer = .literal l) ∧
      after = { v with
        initializer := some (initializer, spanOf value), span := v.span.merge (spanOf node) } :: before := by
  obtain ⟨value, hs, hkv, hpv⟩ := exists_initial h hk
  rw [declarationPart, hk] at hok
  simp only [hs, List.head?_cons, require, ok_bind] at hok
  split at hok
  · rename_i hname
    rw [identifier_of_portrayed hpv] at hok
    cases hok
    exact ⟨value, _, hs, .inl ⟨hname, rfl⟩, rfl⟩
  · obtain ⟨initializer, hinitializer, hok⟩ := bind_eq_ok.mp hok
    obtain ⟨l, hl, rfl⟩ := map_eq_ok.mp hinitializer
    cases hok
    exact ⟨value, _, hs, .inr ⟨l, hl, rfl⟩, rfl⟩

/-- The variables so far are those that the nodes so far declare. -/
theorem declares_of_foldlM {rounds : List (List Symbol)} (hrounds : ∀ round ∈ rounds, round ∈ declaredRounds)
    {nodes : List Node} (hp : ∀ n ∈ nodes, Portrayed source n) (hk : nodes.map Node.kind = rounds.flatten)
    {before after : List Variable} (h : nodes.foldlM (declarationPart source) before = .ok after) :
    ∃ declared, Declares source nodes declared ∧ after = declared.reverse ++ before := by
  induction rounds generalizing nodes before with
  | nil =>
    obtain rfl := List.map_eq_nil_iff.mp hk
    cases h
    exact ⟨[], .nil, rfl⟩
  | cons round rounds ih =>
    obtain ⟨hround, hrounds⟩ := List.forall_mem_cons.mp hrounds
    rw [List.flatten_cons] at hk
    simp only [declaredRounds, List.mem_cons, List.not_mem_nil, or_false] at hround
    rcases hround with rfl | rfl
    · obtain ⟨name, nodes, rfl, hname, hk⟩ := List.map_eq_cons_iff.mp hk
      obtain ⟨hpn, hp⟩ := List.forall_mem_cons.mp hp
      rw [List.foldlM_cons, declarationPart_name hpn hname, ok_bind] at h
      obtain ⟨declared, hd, rfl⟩ := ih (by assumption) hp hk h
      exact ⟨_, .plain hname hd, by simp⟩
    · obtain ⟨name, _, rfl, hname, hk⟩ := List.map_eq_cons_iff.mp hk
      obtain ⟨given, nodes, rfl, hgiven, hk⟩ := List.map_eq_cons_iff.mp hk
      obtain ⟨hpn, hp⟩ := List.forall_mem_cons.mp hp
      obtain ⟨hpg, hp⟩ := List.forall_mem_cons.mp hp
      rw [List.foldlM_cons, declarationPart_name hpn hname, ok_bind, List.foldlM_cons] at h
      obtain ⟨now, hnow, h⟩ := bind_eq_ok.mp h
      obtain ⟨value, initializer, hs, hvalue, rfl⟩ := declarationPart_value hpg hgiven hnow
      obtain ⟨declared, hd, rfl⟩ := ih (by assumption) hp hk h
      exact ⟨_, .initialized hname hgiven hs hvalue hd, by simp⟩

theorem namesType_declaration {d : Declaration} (hd : declaration source node = .ok d) :
    ∃ given, node.child? .varType = some given ∧ NamesType given d.type := by
  rw [declaration] at hd
  obtain ⟨type, htype, hd⟩ := bind_eq_ok.mp hd
  obtain ⟨declared, -, hd⟩ := bind_eq_ok.mp hd
  cases hd
  exact namesType_of_typeOf htype

theorem declares_declaration (h : Portrayed source node) (hk : node.kind = .variableDeclaration)
    {d : Declaration} (hd : declaration source node = .ok d) :
    Declares source (node.significant.filter (·.kind != .variableType)) d.declared := by
  have hskip : ∀ (nodes : List Node) (before : List Variable),
      nodes.foldlM (declarationPart source) before =
        (nodes.filter (·.kind != .variableType)).foldlM (declarationPart source) before := by
    intro nodes
    induction nodes with
    | nil => exact fun _ => rfl
    | cons n nodes ih =>
      intro before
      by_cases hn : n.kind = .variableType
      · rw [List.filter_cons_of_neg (by simp [hn]), List.foldlM_cons, declarationPart, hn]
        exact ih before
      · rw [List.filter_cons_of_pos (by simpa using hn), List.foldlM_cons, List.foldlM_cons]
        exact congrArg _ (funext ih)
  rw [declaration] at hd
  obtain ⟨type, -, hd⟩ := bind_eq_ok.mp hd
  obtain ⟨declared, hfold, hd⟩ := bind_eq_ok.mp hd
  cases hd
  rw [hskip] at hfold
  obtain ⟨rounds, hrounds, hkinds⟩ := exists_rounds h hk
  obtain ⟨found, hfound, rfl⟩ := declares_of_foldlM hrounds
    (fun n hn => (portrayed_of_mem_significant h (List.mem_of_mem_filter hn)).1) hkinds hfold
  simpa using hfound

/-! ## Nothing left out -/

theorem lowerAll_complete {α : Type} {lower : Node → Lowered α} {nodes : List Node}
    (h : (lowerAll lower nodes).2 = []) : ∀ n ∈ nodes, ∃ a ∈ (lowerAll lower nodes).1, lower n = .ok a := by
  induction nodes with
  | nil => exact fun n hn => absurd hn List.not_mem_nil
  | cons n nodes ih =>
    rw [lowerAll] at h ⊢
    cases hlower : lower n with
    | error cause =>
      rw [hlower] at h
      cases h
    | ok a =>
      rw [hlower] at h
      intro m hm
      rcases List.mem_cons.mp hm with rfl | hm
      · exact ⟨a, List.mem_cons_self, hlower⟩
      · obtain ⟨b, hb, hlower⟩ := ih h m hm
        exact ⟨b, List.mem_cons_of_mem _ hb, hlower⟩

theorem statementsWith_complete {levels : Nat} {block : BlockLowerer} {nodes : List Node}
    (h : (statementsWith source levels block nodes).2 = []) : ∀ n ∈ nodes, isStatement n = true →
      ∃ s ∈ (statementsWith source levels block nodes).1, statement source levels block n = .ok (s, []) := by
  induction nodes with
  | nil => exact fun n hn => absurd hn List.not_mem_nil
  | cons n nodes ih =>
    rw [statementsWith_cons] at h ⊢
    by_cases hstatement : isStatement n = true
    · rw [if_pos hstatement] at h ⊢
      cases hlower : statement source levels block n with
      | error cause =>
        rw [hlower] at h
        cases h
      | ok result =>
        obtain ⟨s, inside⟩ := result
        rw [hlower] at h
        obtain ⟨rfl, hrest⟩ := List.append_eq_nil_iff.mp h
        intro m hm hs
        rcases List.mem_cons.mp hm with rfl | hm
        · exact ⟨s, List.mem_cons_self, hlower⟩
        · obtain ⟨s', hs', hlower⟩ := ih hrest m hm hs
          exact ⟨s', List.mem_cons_of_mem _ hs', hlower⟩
    · rw [if_neg hstatement] at h ⊢
      intro m hm hs
      rcases List.mem_cons.mp hm with rfl | hm
      · exact absurd hs hstatement
      · exact ih h m hm hs

theorem functionsFrom_complete {nodes : List Node} (hp : ∀ n ∈ nodes, n.kind = .function → Portrayed source n)
    {doc : Doc} (h : (functionsFrom source doc nodes).2 = []) : ∀ n ∈ nodes, n.kind = .function →
      ∃ header f, f ∈ (functionsFrom source doc nodes).1 ∧ LowersTo source n header f [] := by
  induction nodes generalizing doc with
  | nil => exact fun n hn => absurd hn List.not_mem_nil
  | cons n nodes ih =>
    obtain ⟨hn, hnodes⟩ := List.forall_mem_cons.mp hp
    by_cases hk : n.kind = .function
    · obtain ⟨header, f, inside, hf, hlowers⟩ :=
        exists_function (hn hk) hk (if doc.isEmpty then none else some doc)
      rw [functionsFrom_cons_function doc nodes hk hf] at h ⊢
      obtain ⟨rfl, hrest⟩ := List.append_eq_nil_iff.mp h
      intro m hm hkm
      rcases List.mem_cons.mp hm with rfl | hm
      · exact ⟨header, f, List.mem_cons_self, hlowers⟩
      · obtain ⟨header, f, hmem, hlowers⟩ := ih hnodes hrest m hm hkm
        exact ⟨header, f, List.mem_cons_of_mem _ hmem, hlowers⟩
    · obtain ⟨doc', heq⟩ := functionsFrom_cons_other source doc hk
      rw [heq] at h ⊢
      intro m hm hkm
      rcases List.mem_cons.mp hm with rfl | hm
      · exact absurd hkm hk
      · exact ih hnodes h m hm hkm

/-! ## Statements of a function -/

theorem Statement.mem_walk_self (s : Statement) : s ∈ s.walk := by
  cases s <;> simp [Statement.walk]

theorem Statement.mem_walkAll {s : Statement} {body : List Statement} (h : s ∈ body) :
    s ∈ Statement.walkAll body := by
  induction body with
  | nil => exact absurd h List.not_mem_nil
  | cons first body ih =>
    rw [Statement.walkAll]
    rcases List.mem_cons.mp h with rfl | h
    · exact List.mem_append_left _ s.mem_walk_self
    · exact List.mem_append_right _ (ih h)

mutual

/-- What a statement inside another one holds, the other one holds. -/
theorem Statement.walk_subset {inner : Statement} : ∀ {s : Statement}, inner ∈ s.walk → inner.walk ⊆ s.walk
  | .branch span condition thenPart elsePart, h => by
    rw [Statement.walk, List.mem_cons, List.mem_append] at h
    rcases h with rfl | h | h
    · exact List.Subset.refl _
    · rw [Statement.walk]
      exact fun x hx => List.mem_cons_of_mem _ (List.mem_append_left _ (Statement.walkAll_subset h hx))
    · rw [Statement.walk]
      refine fun x hx => List.mem_cons_of_mem _ (List.mem_append_right _ ?_)
      cases elsePart with
      | none => exact absurd h List.not_mem_nil
      | some block => exact Statement.walkAll_subset h hx
  | .assign .., h | .call .., h | .return .., h => by
    rw [Statement.walk, List.mem_singleton] at h
    rw [h]
    exact List.Subset.refl _

theorem Statement.walkAll_subset {inner : Statement} : ∀ {body : List Statement},
    inner ∈ Statement.walkAll body → inner.walk ⊆ Statement.walkAll body
  | [], h => absurd h List.not_mem_nil
  | first :: rest, h => by
    rw [Statement.walkAll] at h ⊢
    rcases List.mem_append.mp h with h | h
    · exact fun x hx => List.mem_append_left _ (Statement.walk_subset h hx)
    · exact fun x hx => List.mem_append_right _ (Statement.walkAll_subset h hx)

end

end

/-! ## Tracing nodes -/

section

variable {source : Source} {root node child : Node}

/-- The node stands in a function of the tree from which nothing is left out. -/
def Kept (source : Source) (root node : Node) (f : Function) : Prop :=
  f ∈ (lower source root).1 ∧ ∃ fn header, root.Within fn ∧ fn.kind = .function ∧ fn.Within node ∧
    LowersTo source fn header f []

theorem Kept.within {f : Function} (h : Kept source root node f) (hin : node.Within child) :
    Kept source root child f := by
  obtain ⟨hmem, fn, header, hroot, hk, hnode, hlowers⟩ := h
  exact ⟨hmem, fn, header, hroot, hk, hnode.trans hin, hlowers⟩

theorem within_of_code (hin : root.Within node) (hchild : child ∈ node.code) : root.Within child :=
  hin.trans (.child (List.mem_of_mem_filter hchild))

/-- Every function stands at the top. -/
theorem mem_significant_of_function (h : Wellformed source root) (hin : root.Within node)
    (hk : node.kind = .function) : node ∈ root.significant := by
  obtain ⟨parent, hparent, hkind, hcode⟩ := h.exists_only_parent hin .sourceFile (by rw [hk]; decide)
  rw [h.eq_root hparent hkind] at hcode
  exact mem_significant_of_code hcode hk rfl

/-- A function is lowered, and nothing is left out of it. -/
theorem exists_lowersTo (h : Wellformed source root) (hall : (lower source root).2 = [])
    (hin : root.Within node) (hk : node.kind = .function) :
    ∃ header f, f ∈ (lower source root).1 ∧ LowersTo source node header f [] :=
  functionsFrom_complete (fun n hn _ => h.portrayed n (.child (mem_children_of_significant hn))) hall node
    (mem_significant_of_function h hin hk) hk

/-- What is left out of a function whose parts lose nothing. -/
theorem LowersTo.nothing_lost {header : Node} {f : Function} (h : LowersTo source node header f []) :
    (lowerAll (parameter source) (listed header)).2 = [] ∧
    (lowerAll (declaration source) (node.significant.filter (·.kind == .variableDeclaration))).2 = [] ∧
    (statementsWith source 255 (block source 255) node.significant).2 = [] := by
  have hdropped := h.dropped.symm
  rw [List.append_eq_nil_iff, List.append_eq_nil_iff] at hdropped
  exact ⟨hdropped.1.1, hdropped.1.2, hdropped.2⟩

theorem kept_parameter (h : Wellformed source root) (hall : (lower source root).2 = [])
    (hin : root.Within node) (hk : node.kind = .functionParameter) :
    ∃ f, Kept source root node f ∧ ∃ p ∈ f.parameters, parameter source node = .ok p := by
  obtain ⟨list, hlist, hkl, hcode⟩ := h.exists_only_parent hin .functionParameters (by rw [hk]; decide)
  obtain ⟨header, hheader, hkh, hcodel⟩ := h.exists_only_parent hlist .functionDefinition (by rw [hkl]; decide)
  obtain ⟨fn, hfn, hkf, hcodeh⟩ := h.exists_only_parent hheader .function (by rw [hkh]; decide)
  obtain ⟨header', f, hf, hlowers⟩ := exists_lowersTo h hall hfn hkf
  -- The header and its list are the only ones of their kinds.
  have hsame : header? fn = some header :=
    (h.portrayed fn hfn).find?_eq _ rfl (by rw [hkf]; decide) hcodeh hkh
  obtain rfl : header = header' := Option.some.inj (hsame.symm.trans hlowers.headed)
  have hph := h.portrayed header hheader
  have hfield : Portrayed.isFieldOf header.kind .functionParameters .parameters = true := by
    rw [hkh]
    decide
  obtain ⟨list', hlist'⟩ := hph.child?_isSome hfield hcodel (by rw [hkl, hkh]; rfl)
  obtain ⟨hcode', hkl'⟩ := hph.child?_spec _ hfield hlist'
  obtain rfl : list' = list := hph.unique (by rw [hkh]; decide) hcode' hcodel (by rw [hkl', hkh]; rfl) hkl
  have hlisted : node ∈ listed header := by
    rw [listed, hlist']
    exact mem_significant_of_code hcode hk rfl
  obtain ⟨p, hp, hlower⟩ := lowerAll_complete hlowers.nothing_lost.1 node hlisted
  have hwithin : fn.Within node := within_of_code (within_of_code (.child (List.mem_of_mem_filter hcodeh)) hcodel) hcode
  exact ⟨f, ⟨hf, fn, header, hfn, hkf, hwithin, hlowers⟩, p, hlowers.parameters ▸ hp, hlower⟩

theorem kept_declaration (h : Wellformed source root) (hall : (lower source root).2 = [])
    (hin : root.Within node) (hk : node.kind = .variableDeclaration) :
    ∃ f, Kept source root node f ∧ ∃ d ∈ f.locals, declaration source node = .ok d := by
  obtain ⟨fn, hfn, hkf, hcode⟩ := h.exists_only_parent hin .function (by rw [hk]; decide)
  obtain ⟨header, f, hf, hlowers⟩ := exists_lowersTo h hall hfn hkf
  have hmem : node ∈ fn.significant.filter (·.kind == .variableDeclaration) :=
    List.mem_filter.mpr ⟨mem_significant_of_code hcode hk rfl, by simp [hk]⟩
  obtain ⟨d, hd, hlower⟩ := lowerAll_complete hlowers.nothing_lost.2.1 node hmem
  exact ⟨f, ⟨hf, fn, header, hfn, hkf, .child (List.mem_of_mem_filter hcode), hlowers⟩, d,
    hlowers.locals ▸ hd, hlower⟩

/-- The statement is kept whole, in a function. -/
def KeptStatement (source : Source) (root node : Node) (f : Function) (s : Statement) : Prop :=
  Kept source root node f ∧ s ∈ Statement.walkAll f.body ∧
    ∃ levels, statement source levels (block source levels) node = .ok (s, [])

/-- The statement of an IF. -/
theorem branching?_of_code (h : Portrayed source node) (hk : node.kind = .statementOrExpression)
    (hchild : child ∈ node.code) (hc : child.kind = .ifStatement) : branching? node = some child := by
  obtain ⟨inner, hs, -, -⟩ := h.statement_shape hk
  have hmem := mem_significant_of_code hchild hc rfl
  rw [hs, List.mem_singleton] at hmem
  subst hmem
  simp [branching?, hk, hs, hc]

/-- A statement in a branch of a statement that is kept whole is kept whole. -/
theorem KeptStatement.branch {f : Function} {s : Statement} (h : KeptStatement source root node f s)
    (hstatement : isStatement node = true) {inner : Node} (hinner : branching? node = some inner)
    (hchild : child ∈ inner.children) (hs : isStatement child = true) :
    ∃ s', KeptStatement source root child f s' := by
  obtain ⟨hkept, hwalk, levels, hok⟩ := h
  obtain ⟨hlevels, hinside, hswalk⟩ := statement_branches hstatement hok
  have hin : node.Within child := .step (branching?_mem hinner) (.child hchild)
  cases levels with
  | zero => simp [hinner] at hlevels
  | succ levels =>
    simp only [branchesOf, hinner] at hinside hswalk
    obtain ⟨s', hs', hok'⟩ := statementsWith_complete hinside.symm child hchild hs
    refine ⟨s', hkept.within hin, Statement.walkAll_subset hwalk ?_, levels, hok'⟩
    rw [hswalk]
    exact List.mem_cons_of_mem _ (Statement.mem_walkAll hs')

/-- **Every statement is kept whole**, by induction from the root down to it. -/
theorem kept_statement (h : Wellformed source root) (hall : (lower source root).2 = [])
    (hin : root.Within node) (hstatement : isStatement node = true) :
    ∃ f s, KeptStatement source root node f s := by
  have hdown : (isStatement node = true → ∃ f s, KeptStatement source root node f s) ∧
      (node.kind = .ifStatement → ∃ outer f s, isStatement outer = true ∧ branching? outer = some node ∧
        KeptStatement source root outer f s) := by
    refine hin.downward (P := fun node =>
      (isStatement node = true → ∃ f s, KeptStatement source root node f s) ∧
      (node.kind = .ifStatement → ∃ outer f s, isStatement outer = true ∧ branching? outer = some node ∧
        KeptStatement source root outer f s)) ?_ ?_
    · simp [isStatement, h.kind]
    · rintro parent child hparent hchild ⟨hkept, hbranch⟩
      refine ⟨fun hs => ?_, fun hk => ?_⟩
      · have hc : child.isComment = false := by
          rcases isStatement_kind hs with hk | hk <;> rw [Node.isComment, hk] <;> rfl
        obtain ⟨hkind, hcode⟩ := h.mem_parents hparent hchild hc
        have hparents : parents child.kind = [.function, .ifStatement] :=
          parents_known.2.2 _ (by simpa using isStatement_kind hs)
        simp only [hparents, List.mem_cons, List.not_mem_nil, or_false] at hkind
        rcases hkind with hkf | hki
        · obtain ⟨header, f, hf, hlowers⟩ := exists_lowersTo h hall hparent hkf
          have hnamed : child.kind.isNamed = true := by
            rcases isStatement_kind hs with hk | hk <;> rw [hk] <;> rfl
          obtain ⟨s, hmem, hok⟩ := statementsWith_complete hlowers.nothing_lost.2.2 child
            (mem_significant_of_code hcode rfl hnamed) hs
          exact ⟨f, s, ⟨hf, parent, header, hparent, hkf, .child hchild, hlowers⟩,
            Statement.mem_walkAll (hlowers.body ▸ hmem), 255, hok⟩
        · obtain ⟨outer, f, s, houter, hinner, hkept⟩ := hbranch hki
          obtain ⟨s', hs'⟩ := hkept.branch houter hinner hchild hs
          exact ⟨f, s', hs'⟩
      · obtain ⟨hkind, hcode⟩ := h.mem_parents hparent hchild (by rw [Node.isComment, hk]; rfl)
        rw [hk, parents_known.1 (.ifStatement, .statementOrExpression) (by decide), List.mem_singleton] at hkind
        have hs : isStatement parent = true := by rw [isStatement, hkind]; rfl
        obtain ⟨f, s, hkept⟩ := hkept hs
        exact ⟨parent, f, s, hs, branching?_of_code (h.portrayed parent hparent) hkind hcode hk, hkept⟩
  exact hdown.1 hstatement

/-! ## Tracing expressions -/

/-- What the node is lowered to is in a program that passes the given arguments. -/
def Traced (source : Source) (given : List Expr) (node : Node) : Prop :=
  match node.kind with
  | .expression | .conditionalStatement | .conditionalAtom => (callIn node).PassesIn source given
  | .expressionAtom => ∀ call ∈ Call.ofAtom node, call.PassesIn source given
  | .functionCall => ∀ argument ∈ node.significant, argument.kind = .expression →
      ∃ e ∈ given, ∃ levels, expression source levels argument = .ok e ∧ e.passed ⊆ given
  | _ => True

theorem KeptStatement.passed_subset {f : Function} {s : Statement} (h : KeptStatement source root node f s) :
    s.passed ⊆ f.passed :=
  fun _ hx => List.mem_flatMap.mpr ⟨s, h.2.1, hx⟩

/-- The calls of a statement that is kept pass what its function passes. -/
theorem KeptStatement.passesIn {f : Function} {s : Statement} (h : KeptStatement source root node f s)
    (hp : Portrayed source node) (hstatement : isStatement node = true) :
    ∀ call ∈ statementCalls node, call.PassesIn source f.passed := by
  obtain ⟨levels, hok⟩ := h.2.2
  exact fun call hcall => (passesIn_of_statement hp hstatement hok call hcall).mono h.passed_subset

/-- The kinds of nodes that are traced. -/
def tracedKinds : List Symbol :=
  [.expression, .expressionAtom, .functionCall, .conditionalStatement, .conditionalAtom]

section

variable {given : List Expr}

theorem traced_of_other (hk : node.kind ∉ tracedKinds) : Traced source given node := by
  rw [Traced]
  split
  all_goals first | trivial | exact absurd (by rename_i hkind; rw [hkind]; decide) hk

theorem traced_functionCall (hk : node.kind = .functionCall)
    (h : (Call.expression node).PassesIn source given) : Traced source given node := by
  obtain ⟨levels, found, hok, hsub⟩ := h
  obtain ⟨e, he, rfl⟩ := map_eq_ok.mp hok
  cases levels with
  | zero => cases he
  | succ levels =>
    rw [expression, expressionWith, hk] at he
    obtain ⟨⟨name, es⟩, hcall, he⟩ := bind_eq_ok.mp he
    cases he
    simp only [Traced, hk]
    intro argument hmem hka
    obtain ⟨e, hes, hlower, hpassed⟩ := passesIn_of_callWith hcall argument hmem hka
    exact ⟨e, hsub (List.mem_append_left _ hes), levels, hlower, List.Subset.trans hpassed hsub⟩

/-- An atom is traced if the expression that it is lowered to is. -/
theorem traced_expressionAtom (h : Portrayed source node) (hk : node.kind = .expressionAtom)
    (hpasses : (Call.expression node).PassesIn source given) : Traced source given node := by
  have hcalls := hpasses.calls (.expression h (by rw [hk]; decide))
  simp only [Traced, hk]
  simpa only [Call.calls, hk] using hcalls

/-- What a call for an expression makes traces its node. -/
theorem traced_of_expression (h : Portrayed source node)
    (hk : node.kind ∈ [Symbol.expression, .expressionAtom, .functionCall])
    (hpasses : (Call.expression node).PassesIn source given) : Traced source given node := by
  have hkinds : node.kind = .expression ∨ node.kind = .expressionAtom ∨ node.kind = .functionCall := by
    simpa using hk
  rcases hkinds with hk | hk | hk
  · simpa only [Traced, callIn, hk] using hpasses
  · exact traced_expressionAtom h hk hpasses
  · exact traced_functionCall hk hpasses

/-- What a call in a condition makes traces its node. -/
theorem traced_of_callIn (hk : node.kind ∈ [Symbol.expression, .functionCall, .conditionalStatement, .conditionalAtom])
    (hpasses : (callIn node).PassesIn source given) : Traced source given node := by
  have hkinds : node.kind = .expression ∨ node.kind = .functionCall ∨ node.kind = .conditionalStatement ∨
      node.kind = .conditionalAtom := by simpa using hk
  rcases hkinds with hk | hk | hk | hk
  · simpa only [Traced, hk] using hpasses
  · exact traced_functionCall hk (by simpa only [callIn, hk] using hpasses)
  · simpa only [Traced, hk] using hpasses
  · simpa only [Traced, hk] using hpasses

/-- **What traces a node traces what is below it.** -/
theorem Traced.below (h : Traced source given node) (hp : Portrayed source node) (hchild : child ∈ node.code)
    (hkind : node.kind ∈ tracedKinds) : Traced source given child := by
  by_cases hc : child.kind ∈ tracedKinds
  swap
  · exact traced_of_other hc
  have hpc := hp.child hchild
  have hrow := hp.kind_mem hchild
  have hkinds : node.kind = .expression ∨ node.kind = .expressionAtom ∨ node.kind = .functionCall ∨
      node.kind = .conditionalStatement ∨ node.kind = .conditionalAtom := by simpa [tracedKinds] using hkind
  rcases hkinds with hk | hk | hk | hk | hk
  · have hpasses : (Call.expression node).PassesIn source given := by
      simpa only [Traced, callIn, hk] using h
    have hcalls := hpasses.calls (.expression hp (by rw [hk]; decide))
    have hbelow : ∀ x ∈ (rowRule .expression).symbols, x ∈ tracedKinds → x = .expression ∨ x = .expressionAtom := by
      decide
    rcases hbelow _ (hk ▸ hrow) hc with hc | hc
    · exact traced_of_expression hpc (by rw [hc]; decide) (hcalls _ (call_of_expression hp hk hchild hc))
    · simp only [Traced, hc]
      exact calls_of_atom hp hk hchild hc ▸ hcalls
  · have hbelow : ∀ x ∈ (rowRule .expressionAtom).symbols, x ∈ tracedKinds →
        x ∈ [Symbol.expression, .expressionAtom, .functionCall] := by decide
    have hc := hbelow _ (hk ▸ hrow) hc
    simp only [Traced, hk] at h
    exact traced_of_expression hpc hc (h _ (call_of_expressionAtom hp hk hchild hc))
  · have hbelow : ∀ x ∈ (rowRule .functionCall).symbols, x ∈ tracedKinds → x = .expression := by decide
    have hc := hbelow _ (hk ▸ hrow) hc
    simp only [Traced, hk] at h
    obtain ⟨e, -, levels, hlower, hsub⟩ := h child (mem_significant_of_code hchild hc rfl) hc
    exact traced_of_expression hpc (by rw [hc]; decide) (passesIn_expression hlower hsub)
  · have hpasses : (Call.condition node).PassesIn source given := by
      simpa only [Traced, callIn, hk] using h
    have hbelow : ∀ x ∈ (rowRule .conditionalStatement).symbols, x ∈ tracedKinds →
        x ∈ [Symbol.expression, .conditionalStatement, .conditionalAtom] := by decide
    have hc := hbelow _ (hk ▸ hrow) hc
    exact traced_of_callIn (by simp at hc ⊢; tauto)
      (hpasses.calls (.condition hp hk) _ (call_of_condition hp hk hchild hc))
  · have hpasses : (Call.atom node).PassesIn source given := by
      simpa only [Traced, callIn, hk] using h
    have hbelow : ∀ x ∈ (rowRule .conditionalAtom).symbols, x ∈ tracedKinds →
        x ∈ [Symbol.functionCall, .conditionalStatement, .conditionalAtom] := by decide
    have hc := hbelow _ (hk ▸ hrow) hc
    exact traced_of_callIn (List.mem_cons_of_mem _ hc)
      (hpasses.calls (.atom hp hk) _ (call_of_conditionalAtom hp hk hchild hc))

end

/-- What a statement calls for is traced to its function. -/
theorem traced_of_statement (h : Wellformed source root) (hall : (lower source root).2 = [])
    {outer : Node} (hin : root.Within outer) (hstatement : isStatement outer = true)
    (hwithin : outer.Within node) (hk : node.kind = .expression ∨ node.kind = .conditionalStatement)
    (hcall : callIn node ∈ statementCalls outer) :
    ∃ f, Kept source root node f ∧ Traced source f.passed node := by
  obtain ⟨f, s, hkept⟩ := kept_statement h hall hin hstatement
  have hpasses := hkept.passesIn (h.portrayed outer hin) hstatement _ hcall
  exact ⟨f, hkept.1.within hwithin, traced_of_callIn (by rcases hk with hk | hk <;> rw [hk] <;> decide) hpasses⟩

/-- The value of an assignment is traced to its function. -/
theorem traced_value (h : Wellformed source root) (hall : (lower source root).2 = []) (hin : root.Within node)
    (hk : node.kind = .expressionVariableAssignments) (hchild : child ∈ node.code)
    (hc : child.kind = .expression) : ∃ f, Kept source root child f ∧ Traced source f.passed child := by
  obtain ⟨assignment, hassignment, hka, hcode⟩ := h.exists_only_parent hin .variableAssignment (by rw [hk]; decide)
  obtain ⟨outer, houter, hko, hcodea⟩ := h.exists_only_parent hassignment .statementOrExpression (by rw [hka]; decide)
  have hstatement : isStatement outer = true := by rw [isStatement, hko]; rfl
  obtain ⟨inner, hs, -, hpi⟩ := (h.portrayed outer houter).statement_shape hko
  have hmem := mem_significant_of_code hcodea hka rfl
  rw [hs, List.mem_singleton] at hmem
  subst hmem
  obtain ⟨-, holder, value, -, -, hholder, hvalue, -, -⟩ := exists_value hpi hka
  have hnode := hpi.find?_eq .expressionVariableAssignments rfl (by rw [hka]; decide) hcode hk
  obtain rfl : node = holder := Option.some.inj (hnode.symm.trans hholder)
  have hrow := (h.portrayed node hin).row_mem hk rfl
  have hrows : (rowRule .expressionVariableAssignments).expansions = [[.expression]] := by decide
  rw [hrows, List.mem_singleton] at hrow
  obtain ⟨only, -, -, -, honly⟩ := (h.portrayed node hin).exists_one hrow
  have hmemc := mem_significant_of_code hchild hc rfl
  rw [show Portrayed.named only .expression = [only] from rfl] at honly
  rw [honly, List.mem_singleton] at hmemc
  rw [honly, List.head?_cons] at hvalue
  obtain rfl : only = value := Option.some.inj hvalue
  subst hmemc
  refine traced_of_statement h hall houter hstatement ?_ (.inl hc) ?_
  · exact within_of_code (within_of_code (.child (List.mem_of_mem_filter hcodea)) hcode) hchild
  · simp [statementCalls, callIn, hko, hs, hka, hholder, honly, hc]

/-- What is returned is traced to its function. -/
theorem traced_result (h : Wellformed source root) (hall : (lower source root).2 = []) (hin : root.Within node)
    (hk : node.kind = .returnStatement) (hchild : child ∈ node.code)
    (hc : child.kind = .expression) : ∃ f, Kept source root child f ∧ Traced source f.passed child := by
  have hstatement : isStatement node = true := by rw [isStatement, hk]; rfl
  have hfind := (h.portrayed node hin).find?_eq .expression rfl (by rw [hk]; decide) hchild hc
  refine traced_of_statement h hall hin hstatement (.child (List.mem_of_mem_filter hchild)) (.inl hc) ?_
  simp [statementCalls, callIn, hk, hfind, hc]

/-- The condition of an IF is traced to its function. -/
theorem traced_test (h : Wellformed source root) (hall : (lower source root).2 = []) (hin : root.Within node)
    (hk : node.kind = .ifStatement) (hchild : child ∈ node.code)
    (hc : child.kind = .conditionalStatement) : ∃ f, Kept source root child f ∧ Traced source f.passed child := by
  obtain ⟨outer, houter, hko, hcode⟩ := h.exists_only_parent hin .statementOrExpression (by rw [hk]; decide)
  have hstatement : isStatement outer = true := by rw [isStatement, hko]; rfl
  obtain ⟨inner, hs, -, hpi⟩ := (h.portrayed outer houter).statement_shape hko
  have hmem := mem_significant_of_code hcode hk rfl
  rw [hs, List.mem_singleton] at hmem
  subst hmem
  obtain ⟨test, htest, hkt, -⟩ := exists_test hpi hk
  have hcodet : test ∈ node.code :=
    List.mem_filter.mpr ⟨List.mem_of_find?_eq_some htest, by rw [Node.isComment, hkt]; rfl⟩
  obtain rfl : test = child := hpi.unique (by rw [hk]; decide) hcodet hchild hkt hc
  refine traced_of_statement h hall houter hstatement ?_ (.inr hc) ?_
  · exact within_of_code (.child (List.mem_of_mem_filter hcode)) hchild
  · simp [statementCalls, callIn, hko, hs, hk, htest, hc]

/-- A call that is a statement is traced to its function. -/
theorem traced_call (h : Wellformed source root) (hall : (lower source root).2 = []) (hin : root.Within node)
    (hk : node.kind = .statementOrExpression) (hchild : child ∈ node.code)
    (hc : child.kind = .functionCall) : ∃ f, Kept source root child f ∧ Traced source f.passed child := by
  obtain ⟨f, s, hkept⟩ := kept_statement h hall hin (by rw [isStatement, hk]; rfl)
  obtain ⟨levels, hok⟩ := hkept.2.2
  have harguments := argument_of_statement (h.portrayed node hin) hk hok hchild hc
  refine ⟨f, hkept.1.within (.child (List.mem_of_mem_filter hchild)), ?_⟩
  simp only [Traced, hc]
  intro argument hmem hka
  obtain ⟨e, he, levels, hlower, hsub⟩ := harguments argument hmem hka
  exact ⟨e, hkept.passed_subset he, levels, hlower, List.Subset.trans hsub hkept.passed_subset⟩

/-- **Every node of these kinds is traced to a function**, by induction from the root down to it. -/
theorem exists_traced (h : Wellformed source root) (hall : (lower source root).2 = [])
    (hin : root.Within node) (hk : node.kind ∈ tracedKinds) :
    ∃ f, Kept source root node f ∧ Traced source f.passed node := by
  revert hk
  refine hin.downward (P := fun node => node.kind ∈ tracedKinds →
    ∃ f, Kept source root node f ∧ Traced source f.passed node) ?_ ?_
  · exact fun hk => absurd (h.kind ▸ hk) (by decide)
  · intro parent child hparent hchild ih hk
    have hc : child.isComment = false := by
      by_contra hc
      rw [show child.kind = .comment by simpa [Node.isComment] using hc] at hk
      exact absurd hk (by decide)
    obtain ⟨hkind, hcode⟩ := h.mem_parents hparent hchild hc
    by_cases hparentKind : parent.kind ∈ tracedKinds
    · obtain ⟨f, hkept, htraced⟩ := ih hparentKind
      exact ⟨f, hkept.within (.child hchild), htraced.below (h.portrayed parent hparent) hcode hparentKind⟩
    · -- The parent belongs to a statement.
      have hentry : ∀ kind ∈ tracedKinds, ∀ p ∈ parents kind, p ∉ tracedKinds →
          kind = .expression ∧ p = .expressionVariableAssignments ∨ kind = .expression ∧ p = .returnStatement ∨
          kind = .conditionalStatement ∧ p = .ifStatement ∨
          kind = .functionCall ∧ p = .statementOrExpression := by
        decide +kernel
      rcases hentry _ hk _ hkind hparentKind with ⟨hc, hp⟩ | ⟨hc, hp⟩ | ⟨hc, hp⟩ | ⟨hc, hp⟩
      · exact traced_value h hall hparent hp hcode hc
      · exact traced_result h hall hparent hp hcode hc
      · exact traced_test h hall hparent hp hcode hc
      · exact traced_call h hall hparent hp hcode hc

/-! ## Completeness -/

theorem Kept.home (h : Wellformed source root) {f : Function} (hkept : Kept source root node f) :
    Home root (lower source root).1 node f := by
  obtain ⟨hf, fn, header, hfn, hk, hin, hlowers⟩ := hkept
  exact ⟨hf, fn, mem_significant_of_function h hfn hk, hk, hlowers.span, hin⟩

/-- A well-formed tree of which nothing is left out is all in the program. -/
theorem complete_lower (h : Wellformed source root) (hall : (lower source root).2 = []) :
    Complete source root (lower source root).1 where
  parameter node hin hk := by
    obtain ⟨f, hkept, p, hp, hok⟩ := kept_parameter h hall hin hk
    exact ⟨f, hkept.home h, p, hp, hok, givesParameter_parameter (h.portrayed node hin) hk hok⟩
  declaration node hin hk := by
    obtain ⟨f, hkept, d, hd, hok⟩ := kept_declaration h hall hin hk
    exact ⟨f, hkept.home h, d, hd, hok, namesType_declaration hok,
      declares_declaration (h.portrayed node hin) hk hok⟩
  statement node hin hs := by
    obtain ⟨f, s, hkept, hwalk, hok⟩ := kept_statement h hall hin hs
    exact ⟨f, hkept.home h, s, hwalk, hok⟩
  argument node argument hin hk hmem hka := by
    obtain ⟨f, hkept, htraced⟩ := exists_traced h hall hin (by rw [hk]; decide)
    simp only [Traced, hk] at htraced
    obtain ⟨e, he, levels, hlower, -⟩ := htraced argument hmem hka
    exact ⟨f, hkept.home h, e, he, levels, hlower⟩

end

theorem report?_span {dropped : Dropped} {d : Diagnostic} (h : dropped.report? = some d) :
    d.span = spanOf dropped.node := by
  rw [Dropped.report?] at h
  split at h <;> cases h
  rfl

/-- What is left out of a tree without repairs is reported where it stands. -/
theorem exists_report {text : String} (hsound : (Node.parse text.toList).hasError = false) {dropped : Dropped}
    (hmem : dropped ∈ (lower (.ofList text.toList) (Node.parse text.toList)).2) :
    ∃ d ∈ reports text, d.span = spanOf dropped.node := by
  have hin := within_leftOut (sound_parse text.toList) hmem
  have herror : dropped.node.hasError = false := by
    by_contra herror
    rw [hin.price (sound_parse text.toList) (by simpa using herror)] at hsound
    cases hsound
  rw [reports_eq]
  exact ⟨_, List.mem_filterMap.mpr ⟨dropped, hmem, by rw [Dropped.report?, herror]; rfl⟩, rfl⟩

theorem eq_nil_of_reports {text : String} (hsound : (Node.parse text.toList).hasError = false)
    (h : reports text = []) : (lower (.ofList text.toList) (Node.parse text.toList)).2 = [] := by
  rw [List.eq_nil_iff_forall_not_mem]
  intro dropped hmem
  obtain ⟨d, hd, -⟩ := exists_report hsound hmem
  rw [h] at hd
  cases hd

/-- **Well-formed trees are lowered completely.**  In the tree of a text without repairs all functions stand
at the top and each becomes a function of the program; lowering fails at limits only, whatever the node;
what is left out passes a limit; and if nothing is reported, the program holds all parameters, declarations,
statements and arguments of the tree. -/
theorem lowering_is_complete (text : String) (hsound : (Node.parse text.toList).hasError = false) :
    (∀ node, (Node.parse text.toList).Within node → node.kind = .function →
      node ∈ (Node.parse text.toList).significant) ∧
    (parse text).1.map (·.span) =
      ((Node.parse text.toList).significant.filter (·.kind == .function)).map spanOf ∧
    FailsAtLimits (.ofList text.toList) (Node.parse text.toList) ∧
    (∀ dropped ∈ (lower (.ofList text.toList) (Node.parse text.toList)).2, dropped.cause.IsLimit) ∧
    (reports text = [] → Complete (.ofList text.toList) (Node.parse text.toList) (parse text).1) := by
  have hwell := wellformed_parse hsound
  have hnothing := eq_nil_of_reports hsound
  rw [fst_parse]
  generalize reports text = found at hnothing ⊢
  generalize Node.parse text.toList = root at hwell hnothing ⊢
  obtain ⟨hspans, hlimits⟩ := limited_lower hwell
  exact ⟨fun _ => mem_significant_of_function hwell, hspans, failsAtLimits hwell, hlimits,
    fun h => complete_lower hwell (hnothing h)⟩

/-- A function with a comment inside each of its parts. -/
def commentedText : String := "FUNCTION F(INT/**/p)\nINT v/**/=1;\nG(/**/v);\nEND"

theorem lowering_is_complete_commentedText : (Node.parse commentedText.toList).hasError = false ∧
    reports commentedText = [] ∧
    Complete (.ofList commentedText.toList) (Node.parse commentedText.toList) (parse commentedText).1 := by
  have hclean : (Node.parse commentedText.toList).hasError = false ∧ reports commentedText = [] := by decide +kernel
  obtain ⟨hsound, hreports⟩ := hclean
  obtain ⟨-, -, -, -, hcomplete⟩ := lowering_is_complete commentedText hsound
  exact ⟨hsound, hreports, hcomplete hreports⟩

end Cicode.Program
