import Cicode.Proofs.Grammar.Disambiguation
import Cicode.Proofs.Tree.Portrait

/-!
# The kinds below a node

The *row* of a node is the row of the kinds of its children, comments left out.  What the rules of the
language say of symbols they say of rows as well, once each symbol is replaced by what it shows: a hidden
symbol by the symbols of its own rule, and a symbol that is renamed by its new name.

Main statement (`row_matches`): the row of a node without repairs matches such a rule (`rowRule`).  Where
all symbols of a rule are shown, the symbols say the fields too (`field_eq`).
-/

namespace Cicode.Grammar.Rule

/-- The rule with each symbol replaced by a rule. -/
def bind (f : Symbol → Rule) : Rule → Rule
  | .never => .never
  | .empty => .empty
  | .symbol s => f s
  | .seq a b => .seq (a.bind f) (b.bind f)
  | .choice a b => .choice (a.bind f) (b.bind f)
  | .many h r => .many h (r.bind f)

/-! ## What rules match -/

section

variable {a b r : Rule} {h s : Symbol} {xs : List Symbol}

@[simp] theorem matches_never : ¬Rule.never.Matches xs := nofun

@[simp] theorem matches_empty : Rule.empty.Matches xs ↔ xs = [] :=
  ⟨fun hm => by cases hm; rfl, fun heq => heq ▸ .empty⟩

@[simp] theorem matches_symbol : (Rule.symbol s).Matches xs ↔ xs = [s] :=
  ⟨fun hm => by cases hm; rfl, fun heq => heq ▸ .symbol s⟩

theorem matches_seq : (Rule.seq a b).Matches xs ↔ ∃ ys zs, xs = ys ++ zs ∧ a.Matches ys ∧ b.Matches zs :=
  ⟨fun hm => by cases hm with | seq h1 h2 => exact ⟨_, _, rfl, h1, h2⟩,
    fun ⟨_, _, heq, h1, h2⟩ => heq ▸ .seq h1 h2⟩

@[simp] theorem matches_choice : (Rule.choice a b).Matches xs ↔ a.Matches xs ∨ b.Matches xs := by
  constructor
  · intro hm
    cases hm with
    | first h1 => exact .inl h1
    | second h2 => exact .inr h2
  · rintro (h1 | h2)
    · exact .first h1
    · exact .second h2

@[simp] theorem matches_symbol_seq : (Rule.seq (.symbol s) b).Matches xs ↔ ∃ zs, xs = s :: zs ∧ b.Matches zs := by
  simp [matches_seq]

@[simp] theorem matches_empty_seq : (Rule.seq .empty b).Matches xs ↔ b.Matches xs := by
  simp [matches_seq]

@[simp] theorem matches_choice_seq {c : Rule} : (Rule.seq (.choice a b) c).Matches xs ↔
    (Rule.seq a c).Matches xs ∨ (Rule.seq b c).Matches xs := by
  simp only [matches_seq, matches_choice]
  constructor
  · rintro ⟨ys, zs, rfl, h1 | h1, h2⟩
    · exact .inl ⟨ys, zs, rfl, h1, h2⟩
    · exact .inr ⟨ys, zs, rfl, h1, h2⟩
  · rintro (⟨ys, zs, rfl, h1, h2⟩ | ⟨ys, zs, rfl, h1, h2⟩)
    · exact ⟨ys, zs, rfl, .inl h1, h2⟩
    · exact ⟨ys, zs, rfl, .inr h1, h2⟩

/-- A repetition matches rounds one after the other. -/
theorem matches_many : (Rule.many h r).Matches xs ↔ ∃ rounds : List (List Symbol),
    xs = rounds.flatten ∧ ∀ round ∈ rounds, r.Matches round := by
  constructor
  · intro hm
    generalize hrule : Rule.many h r = rule at hm
    induction hm with
    | done => exact ⟨[], rfl, fun _ hc => nomatch hc⟩
    | @more _ _ ys _ h1 _ _ ih =>
      cases hrule
      obtain ⟨rounds, rfl, hall⟩ := ih rfl
      exact ⟨ys :: rounds, rfl, List.forall_mem_cons.mpr ⟨h1, hall⟩⟩
    | empty | symbol | seq | first | second => cases hrule
  · rintro ⟨rounds, rfl, hall⟩
    induction rounds with
    | nil => exact .done
    | cons round rounds ih =>
      obtain ⟨h1, hall⟩ := List.forall_mem_cons.mp hall
      exact .more h1 (ih hall)

end

end Cicode.Grammar.Rule

namespace Cicode.Tree

open Grammar Text Cicode.Lex

/-! ## What symbols show -/

/-- The kind that a symbol has below another one. -/
def kindIn (parent symbol : Symbol) : Symbol := (shownAs parent symbol).getD symbol

/-- What a symbol shows below another one, if nothing is shown of what is below it. -/
def shownAlone (parent symbol : Symbol) : Rule :=
  if showsIn parent symbol then .symbol (kindIn parent symbol) else .empty

/-- What a symbol shows below another one: itself, or else what its own rule shows. -/
def shownRule (parent symbol : Symbol) : Rule :=
  if showsIn parent symbol then .symbol (kindIn parent symbol)
  else match rule symbol with
    | some r => r.bind (shownAlone symbol)
    | none => .empty

theorem rule_of_terminal : ∀ symbol : Symbol, symbol.isTerminal = true → rule symbol = none := by
  intro symbol
  cases symbol <;> decide

/-- What a hidden symbol is made of is shown, unless it is a token. -/
theorem shown_of_hidden {symbol : Symbol} (hh : symbol.isHidden = true) {r : Rule}
    (hr : rule symbol = some r) : ∀ x ∈ r.symbols, showsIn symbol x = true ∨ x.isTerminal = true := by
  have hall : ((rule symbol).all fun r => r.symbols.all fun x => showsIn symbol x || x.isTerminal) = true := by
    revert hh
    cases symbol <;> decide
  rw [hr] at hall
  simpa using hall

section

variable {parent : Symbol} {d : Derivation (List Char)} {ds : List (Derivation (List Char))}

theorem matches_bind {f : Symbol → Rule}
    (hf : ∀ d ∈ ds, (f d.symbol).Matches ((parts parent d).map Part.kind)) {r : Rule}
    (hm : r.Matches (ds.map Derivation.symbol)) :
    (r.bind f).Matches ((partsAll parent ds).map Part.kind) := by
  generalize hxs : ds.map Derivation.symbol = xs at hm
  induction hm generalizing ds with
  | empty | done =>
    rw [List.map_eq_nil_iff] at hxs
    subst hxs
    constructor
  | symbol s =>
    obtain ⟨d, rfl, rfl⟩ := List.map_eq_singleton_iff.mp hxs
    rw [partsAll, partsAll, List.append_nil]
    exact hf d List.mem_cons_self
  | seq _ _ iha ihb =>
    obtain ⟨ds, ds', rfl, h1, h2⟩ := List.map_eq_append_iff.mp hxs
    rw [partsAll_append, List.map_append]
    exact .seq (iha (fun d hd => hf d (List.mem_append_left _ hd)) h1)
      (ihb (fun d hd => hf d (List.mem_append_right _ hd)) h2)
  | first _ ih => exact .first (ih hf hxs)
  | second _ ih => exact .second (ih hf hxs)
  | more _ _ iha ihb =>
    obtain ⟨ds, ds', rfl, h1, h2⟩ := List.map_eq_append_iff.mp hxs
    rw [partsAll_append, List.map_append]
    exact .more (iha (fun d hd => hf d (List.mem_append_left _ hd)) h1)
      (ihb (fun d hd => hf d (List.mem_append_right _ hd)) h2)

/-- What a derivation shows, if it is hidden. -/
theorem parts_of_hidden (h : ¬showsIn parent d.symbol = true) :
    parts parent d = partsAll d.symbol d.children := by
  cases d with
  | leaf symbol word => exact if_neg h
  | node symbol children => exact if_neg h

/-- A derivation shows what its symbol shows alone, if it is shown or is a token. -/
theorem matches_shownAlone (h : showsIn parent d.symbol = true ∨ d.symbol.isTerminal = true)
    (hf : d.FollowsRules) : (shownAlone parent d.symbol).Matches ((parts parent d).map Part.kind) := by
  by_cases hs : showsIn parent d.symbol = true
  · rw [shownAlone, if_pos hs, parts_of_shown hs]
    exact .symbol _
  · rw [shownAlone, if_neg hs, parts_of_hidden hs]
    have hrule := rule_of_terminal _ (h.resolve_left hs)
    cases d with
    | leaf symbol word => exact .empty
    | node symbol children =>
      obtain ⟨⟨r, hr, -⟩, -⟩ := hf
      cases hrule.symm.trans hr

/-- A derivation shows what its symbol does. -/
theorem matches_shownRule (hf : d.FollowsRules) :
    (shownRule parent d.symbol).Matches ((parts parent d).map Part.kind) := by
  by_cases hs : showsIn parent d.symbol = true
  · rw [shownRule, if_pos hs, parts_of_shown hs]
    exact .symbol _
  · have hhidden : d.symbol.isHidden = true := by
      simp only [showsIn, Symbol.isVisible, Bool.or_eq_true, Bool.not_eq_true', not_or,
        Bool.not_eq_false] at hs
      exact hs.2
    rw [shownRule, if_neg hs, parts_of_hidden hs]
    cases d with
    | leaf symbol word =>
      rw [show rule (Derivation.leaf symbol word).symbol = none from rule_of_terminal symbol hf]
      exact .empty
    | node symbol children =>
      obtain ⟨⟨r, hr, hm⟩, hall⟩ := hf
      rw [show rule (Derivation.node symbol children).symbol = some r from hr]
      refine matches_bind (fun inner hinner => ?_) hm
      exact matches_shownAlone
        (shown_of_hidden hhidden hr _ (Rule.mem_symbols_of_matches hm _ (List.mem_map_of_mem hinner)))
        (Derivation.allFollowRules_iff.mp hall inner hinner)

/-- What the children of a derivation show. -/
theorem matches_below {s : Symbol} {r : Rule} (hr : rule s = some r)
    (hf : (Derivation.node s ds).FollowsRules) :
    (r.bind (shownRule s)).Matches ((partsAll s ds).map Part.kind) := by
  obtain ⟨⟨r', hr', hm⟩, hall⟩ := hf
  cases hr.symm.trans hr'
  exact matches_bind (fun d hd => matches_shownRule (Derivation.allFollowRules_iff.mp hall d hd)) hm

end

/-- A part is the whole of a derivation that follows the rules, shown as itself or under a new name. -/
def Part.Follows (part : Part) : Prop :=
  part.tree.FollowsRules ∧
    (part.kind = part.tree.symbol ∨ ∃ parent, shownAs parent part.tree.symbol = some part.kind)

theorem Part.follows_of {parent : Symbol} {d : Derivation (List Char)} (hf : d.FollowsRules) :
    (Part.of parent d).Follows := by
  refine ⟨hf, ?_⟩
  have hkind : (Part.of parent d).kind = (shownAs parent d.symbol).getD d.symbol := rfl
  rw [hkind, show (Part.of parent d).tree = d from rfl]
  cases hs : shownAs parent d.symbol with
  | none => exact .inl rfl
  | some kind => exact .inr ⟨parent, hs⟩

mutual

theorem follows_of_mem_parts {parent : Symbol} : ∀ {d : Derivation (List Char)}, d.FollowsRules →
    ∀ part ∈ parts parent d, part.Follows
  | .leaf symbol word, hf, part, hpart => by
    rw [parts] at hpart
    split at hpart
    · exact List.mem_singleton.mp hpart ▸ Part.follows_of hf
    · cases hpart
  | .node symbol children, hf, part, hpart => by
    rw [parts] at hpart
    split at hpart
    · exact List.mem_singleton.mp hpart ▸ Part.follows_of hf
    · exact follows_of_mem_partsAll hf.2 part hpart

theorem follows_of_mem_partsAll {parent : Symbol} : ∀ {ds : List (Derivation (List Char))},
    Derivation.AllFollowRules ds → ∀ part ∈ partsAll parent ds, part.Follows
  | [], _, _, hpart => nomatch hpart
  | d :: ds, hf, part, hpart => by
    rcases List.mem_append.mp hpart with hpart | hpart
    · exact follows_of_mem_parts hf.1 part hpart
    · exact follows_of_mem_partsAll hf.2 part hpart

end

/-! ## Rows -/

namespace Node

/-- The children, comments left out. -/
def code (node : Node) : List Node := node.children.filter (!·.isComment)

/-- The kinds of the children, comments left out. -/
def row (node : Node) : List Symbol := node.code.map kind

theorem significant_eq (node : Node) : node.significant = node.code.filter isNamed := by
  rw [significant, namedChildren, code, List.filter_filter, List.filter_filter]
  exact List.filter_congr fun n _ => Bool.and_comm ..

theorem firstToken_eq (node : Node) : node.firstToken = node.code.head? := by
  rw [firstToken, code, List.head?_filter]

end Node

/-- The symbols that nodes of a kind stand for. -/
def sources : Symbol → List Symbol
  | .functionName | .parameterName | .variableName => [.identifier]
  | .operatorsUsedInStatements => [.bitOperator, .additiveOperator, .multiplicativeOperator]
  | .mathematicalOperators => [.additiveSymbol, .multiplicativeSymbol]
  | .operatorsUsedInConditionals => [.orOperator, .andOperator, .relationalOperator]
  | .logicalOperators => [.orKeyword, .andKeyword]
  | .conditionalAtom => [.conditionalAtom, .conditionalGroup]
  | kind => [kind]

/-- What is shown by a symbol with a rule, and nothing by a token. -/
def below (symbol : Symbol) : Rule :=
  match rule symbol with
  | some r => r.bind (shownRule symbol)
  | none => .empty

/-- What the rows of nodes of a kind match. -/
def rowRule (kind : Symbol) : Rule := Rule.oneOf ((sources kind).map below)

theorem mem_sources {parent symbol kind : Symbol} (h : shownAs parent symbol = some kind) :
    symbol ∈ sources kind := by
  rw [shownAs.eq_def] at h
  split at h <;> cases h <;> decide

theorem mem_sources_self {symbol : Symbol} (h : symbol.isTerminal = true ∨ (rule symbol).isSome = true) :
    symbol ∈ sources symbol := by
  revert h
  cases symbol <;> decide

theorem Rule.matches_oneOf {rules : List Rule} {r : Rule} {xs : List Symbol} (hr : r ∈ rules)
    (h : r.Matches xs) : (Rule.oneOf rules).Matches xs := by
  induction rules with
  | nil => cases hr
  | cons first rest ih =>
    rcases List.mem_cons.mp hr with rfl | hr
    · exact .first h
    · exact .second (ih hr)

theorem matches_rowRule {d : Derivation (List Char)} (hf : d.FollowsRules) {kind : Symbol}
    (hk : kind = d.symbol ∨ ∃ parent, shownAs parent d.symbol = some kind) :
    (rowRule kind).Matches ((partsAll d.symbol d.children).map Part.kind) := by
  have hbelow : (below d.symbol).Matches ((partsAll d.symbol d.children).map Part.kind) := by
    rw [below]
    cases d with
    | leaf symbol word =>
      rw [show rule (Derivation.leaf symbol word).symbol = none from rule_of_terminal symbol hf]
      exact .empty
    | node symbol children =>
      obtain ⟨r, hr, -⟩ := hf.1
      rw [show rule (Derivation.node symbol children).symbol = some r from hr]
      exact matches_below hr hf
  refine Rule.matches_oneOf (List.mem_map_of_mem ?_) hbelow
  rcases hk with rfl | ⟨parent, hk⟩
  · refine mem_sources_self ?_
    cases d with
    | leaf symbol word => exact .inl hf
    | node symbol children =>
      obtain ⟨r, hr, -⟩ := hf.1
      exact .inr (by rw [show rule (Derivation.node symbol children).symbol = some r from hr]; rfl)
  · exact mem_sources hk

/-- **The row of a node without repairs matches the rule of its kind.** -/
theorem Portrayed.row_matches {source : Source} {node : Node} (h : Portrayed source node) :
    (rowRule node.kind).Matches node.row := by
  obtain ⟨d, hf, hk, hportrays⟩ := h
  have hall : List.Forall₂ (· = ·) ((partsAll d.symbol d.children).map Part.kind) node.row := by
    rw [Node.row, Node.code, List.forall₂_map_left_iff, List.forall₂_map_right_iff]
    exact hportrays.children.imp fun _ _ hp => hp.kind_eq.symm
  rw [List.forall₂_eq_eq_eq] at hall
  rw [← hall]
  exact matches_rowRule hf hk

/-- What is below a node without repairs portrays a derivation as well. -/
theorem Portrayed.child {source : Source} {node child : Node} (h : Portrayed source node)
    (hchild : child ∈ node.code) : Portrayed source child := by
  obtain ⟨d, hf, -, hportrays⟩ := h
  obtain ⟨part, hpart, hp⟩ := exists_of_forall₂_right hportrays.children hchild
  cases d with
  | leaf => cases hpart
  | node symbol children =>
    obtain ⟨hfollows, hkind⟩ := follows_of_mem_partsAll hf.2 part hpart
    have hpart : part = ⟨child.kind, child.label.field, part.tree⟩ := by
      rw [hp.kind_eq, hp.field_eq]
    exact ⟨part.tree, hfollows, hp.kind_eq ▸ hkind, hpart ▸ hp⟩

theorem Portrayed.tidy {source : Source} {node : Node} (h : Portrayed source node) : node.Tidy := by
  obtain ⟨d, -, -, hportrays⟩ := h
  exact hportrays.tidy.self

theorem Portrayed.present {source : Source} {node : Node} (h : Portrayed source node) :
    node.isMissing = false := by
  obtain ⟨d, -, -, hportrays⟩ := h
  exact hportrays.present

theorem Portrayed.sound {source : Source} {node : Node} (h : Portrayed source node) :
    node.hasError = false := by
  obtain ⟨d, -, -, hportrays⟩ := h
  exact hportrays.sound

/-- **The fields of the children go by their symbols**, if all of them are shown. -/
theorem Portrayed.field_eq {source : Source} {node child : Node} (h : Portrayed source node)
    {r : Rule} (hr : rule node.kind = some r) (hsources : sources node.kind = [node.kind])
    (hshown : ∀ x ∈ r.symbols, showsIn node.kind x = true) (hchild : child ∈ node.code) :
    ∃ x ∈ r.symbols, child.kind = kindIn node.kind x ∧ child.label.field = labelOf node.kind x := by
  obtain ⟨d, hf, hk, hportrays⟩ := h
  obtain ⟨part, hpart, hp⟩ := exists_of_forall₂_right hportrays.children hchild
  have hsymbol : d.symbol = node.kind := by
    rcases hk with hk | ⟨parent, hk⟩
    · exact hk.symm
    · simpa [hsources] using mem_sources hk
  cases d with
  | leaf => cases hpart
  | node symbol children =>
    obtain rfl : symbol = node.kind := hsymbol
    obtain ⟨⟨r', hr', hm⟩, -⟩ := hf
    cases hr.symm.trans hr'
    have hmem := fun d (hd : d ∈ children) => Rule.mem_symbols_of_matches hm _ (List.mem_map_of_mem hd)
    rw [Part.below, Derivation.symbol, Derivation.children,
      partsAll_of_shown fun d hd => hshown _ (hmem d hd)] at hpart
    obtain ⟨d, hd, rfl⟩ := List.mem_map.mp hpart
    exact ⟨d.symbol, hmem d hd, hp.kind_eq, hp.field_eq⟩

end Cicode.Tree
