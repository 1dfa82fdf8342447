import Cicode.Proofs.Grammar.Disambiguation
import Cicode.Proofs.Lex.Words
import Cicode.Proofs.Program.Printing

/-!
# The derivation of printed expressions and conditions

The words of an expression or a condition have a derivation that is built along with them: an
operation becomes an operation, in parentheses where it is printed so, and everything else an atom.
The derivation is resolved because parentheses stand wherever an operand binds too weakly.

Main statements (`writes_expr`, `writes_condition`): what can be printed has a resolved derivation
whose leaves are the printed words and spell their terminals, and which is as strong as its place asks
for.
-/

namespace Cicode.Grammar.Rule.Matches

variable {r q : Rule} {xs ys : List Symbol}

/-- A symbol, and then what the rest matches. -/
theorem cons (s : Symbol) (h : r.Matches xs) : (Rule.seq (.symbol s) r).Matches (s :: xs) :=
  .seq (.symbol s) h

/-- The last symbol. -/
theorem last (s : Symbol) : (seqOf [.symbol s]).Matches [s] := .cons s .empty

/-- What may be there is there. -/
theorem present (h : q.Matches ys) (h' : r.Matches xs) : (Rule.seq (.optional q) r).Matches (ys ++ xs) :=
  .seq (.first h) h'

/-- What may be there is not there. -/
theorem absent (h : r.Matches xs) : (Rule.seq (.optional q) r).Matches xs := .seq (.second .empty) h

/-- A rule any number of times, for one symbol each. -/
theorem repeated {hidden : Symbol} (h : ∀ x ∈ xs, q.Matches [x]) : (Rule.many hidden q).Matches xs := by
  induction xs with
  | nil => exact .done
  | cons x xs ih =>
    obtain ⟨hx, hrest⟩ := List.forall_mem_cons.mp h
    exact .more hx (ih hrest)

end Cicode.Grammar.Rule.Matches

namespace Cicode.Program

open Grammar Text Cicode.Lex

/-! ## Derivations that write words -/

/-- The derivation is resolved, and its leaves are the words and spell their terminals. -/
structure Writes (symbol : Symbol) (words : List Word) (d : Derivation Word) : Prop where
  good : d.Good symbol
  words_eq : d.yield.map Prod.snd = words
  spelled : ∀ x ∈ d.yield, Spelled x.1 x.2

/-- The derivations are resolved, and their leaves are the words and spell their terminals. -/
structure WriteAll (words : List Word) (ds : List (Derivation Word)) : Prop where
  follows : ∀ d ∈ ds, d.FollowsRules
  resolved : ∀ d ∈ ds, d.Resolved
  words_eq : (Derivation.yieldAll ds).map Prod.snd = words
  spelled : ∀ x ∈ Derivation.yieldAll ds, Spelled x.1 x.2

namespace WriteAll

variable {words words' : List Word} {ds ds' : List (Derivation Word)}

theorem good (h : WriteAll words ds) : ∀ d ∈ ds, d.Good d.symbol :=
  fun d hd => ⟨h.follows d hd, h.resolved d hd, rfl⟩

theorem nil : WriteAll [] [] := ⟨by simp, by simp, rfl, by simp [Derivation.yieldAll]⟩

theorem cons {symbol : Symbol} {d : Derivation Word} (h : Writes symbol words d)
    (h' : WriteAll words' ds) : WriteAll (words ++ words') (d :: ds) := by
  refine ⟨List.forall_mem_cons.mpr ⟨h.good.follows, h'.follows⟩,
    List.forall_mem_cons.mpr ⟨h.good.resolved, h'.resolved⟩, ?_, ?_⟩
  · rw [Derivation.yieldAll, List.map_append, h.words_eq, h'.words_eq]
  · intro x hx
    rw [Derivation.yieldAll] at hx
    exact (List.mem_append.mp hx).elim (h.spelled x) (h'.spelled x)

theorem single {symbol : Symbol} {d : Derivation Word} (h : Writes symbol words d) :
    WriteAll words [d] := by
  have := cons h nil
  rwa [List.append_nil] at this

/-- A derivation of a single word in front of others. -/
theorem word {symbol : Symbol} {word : Word} {d : Derivation Word} (h : Writes symbol [word] d)
    (h' : WriteAll words ds) : WriteAll (word :: words) (d :: ds) := cons h h'

theorem append (h : WriteAll words ds) (h' : WriteAll words' ds') :
    WriteAll (words ++ words') (ds ++ ds') := by
  refine ⟨List.forall_mem_append.mpr ⟨h.follows, h'.follows⟩,
    List.forall_mem_append.mpr ⟨h.resolved, h'.resolved⟩, ?_, ?_⟩
  · rw [Derivation.yieldAll_append, List.map_append, h.words_eq, h'.words_eq]
  · intro x hx
    rw [Derivation.yieldAll_append] at hx
    exact (List.mem_append.mp hx).elim (h.spelled x) (h'.spelled x)

end WriteAll

namespace Writes

variable {symbol : Symbol} {words : List Word} {ds : List (Derivation Word)} {rhs : List Symbol}

theorem leaf {symbol : Symbol} {word : Word} (h : Spelled symbol word) :
    Writes symbol [word] (.leaf symbol word) := by
  refine ⟨⟨spellable_terminal symbol h.spellable, trivial, rfl⟩, rfl, ?_⟩
  intro x hx
  obtain rfl := List.mem_singleton.mp hx
  exact h

theorem node (h : WriteAll words ds) (hrule : ∃ r, rule symbol = some r ∧ r.Matches (ds.map Derivation.symbol))
    (hop : Derivation.OperandsHold ds) (hgroup : Derivation.GroupsCondition symbol ds) :
    Writes symbol words (.node symbol ds) :=
  ⟨⟨⟨hrule, Derivation.allFollowRules_iff.mpr h.follows⟩,
    ⟨hop, hgroup, Derivation.allResolved_iff.mpr h.resolved⟩, rfl⟩, h.words_eq, h.spelled⟩

/-- The symbol has no operations and is no condition in parentheses. -/
def isPlain (symbol : Symbol) : Bool :=
  symbol != .expression && symbol != .conditionalStatement && symbol != .conditionalGroup

/-- Where there are no operators, derivations side by side only have to match the rule. -/
theorem good_plain (hs : isPlain symbol = true) (h : ∀ d ∈ ds, d.Good d.symbol)
    (hrule : ∃ r, rule symbol = some r ∧ r.Matches (ds.map Derivation.symbol)) :
    (Derivation.node symbol ds).Good symbol := by
  simp only [isPlain, Bool.and_eq_true, bne_iff_ne] at hs
  obtain ⟨⟨h1, h2⟩, h3⟩ := hs
  obtain ⟨r, hr, hm⟩ := hrule
  refine ⟨⟨⟨r, hr, hm⟩, Derivation.allFollowRules_iff.mpr fun d hd => (h d hd).follows⟩,
    ⟨?_, fun heq => absurd heq h3, Derivation.allResolved_iff.mpr fun d hd => (h d hd).resolved⟩, rfl⟩
  rcases rule_cases hr with ⟨h4, -⟩ | hnone
  · exact (h4.elim h1 h2).elim
  · exact Derivation.operandsHold_of_plain hm fun x hx => (hnone x hx).1

theorem plain (hs : isPlain symbol = true) (h : WriteAll words ds)
    (hrule : ∃ r, rule symbol = some r ∧ r.Matches (ds.map Derivation.symbol)) :
    Writes symbol words (.node symbol ds) :=
  ⟨good_plain hs h.good hrule, h.words_eq, h.spelled⟩

/-- Whether a rule without repetitions has the right-hand side. -/
def hasRule (symbol : Symbol) (rhs : List Symbol) : Bool :=
  (rule symbol).any fun r => r.IsFlat && r.expansions.contains rhs

theorem matches_of_hasRule (h : hasRule symbol rhs = true) : ∃ r, rule symbol = some r ∧ r.Matches rhs := by
  obtain ⟨r, hr, hboth⟩ := (Option.any_eq_true ..).mp h
  rw [Bool.and_eq_true, List.contains_iff_mem] at hboth
  exact ⟨r, hr, (Rule.matches_iff_mem_expansions hboth.1).mpr hboth.2⟩

theorem good_flat (h : ∀ d ∈ ds, d.Good d.symbol) (hsymbols : ds.map Derivation.symbol = rhs)
    (hrhs : (isPlain symbol && hasRule symbol rhs) = true) : (Derivation.node symbol ds).Good symbol := by
  rw [Bool.and_eq_true] at hrhs
  exact good_plain hrhs.1 h (hsymbols ▸ matches_of_hasRule hrhs.2)

theorem flat (h : WriteAll words ds) (hsymbols : ds.map Derivation.symbol = rhs)
    (hrhs : (isPlain symbol && hasRule symbol rhs) = true) : Writes symbol words (.node symbol ds) :=
  ⟨good_flat h.good hsymbols hrhs, h.words_eq, h.spelled⟩

/-- A derivation that consists of one other. -/
theorem wrap {d : Derivation Word} {inner : Symbol} (h : Writes inner words d)
    (hrhs : (symbol != .conditionalGroup && hasRule symbol [inner]) = true) :
    Writes symbol words (.node symbol [d]) := by
  rw [Bool.and_eq_true, bne_iff_ne] at hrhs
  refine node (.single h) ?_ trivial fun heq => absurd heq hrhs.1
  rw [List.map_singleton, h.good.symbol_eq]
  exact matches_of_hasRule hrhs.2

end Writes

/-! ## Tokens -/

/-- A token that is always spelled the same. -/
def fixed (symbol : Symbol) : Derivation Word := .leaf symbol symbol.name.toList

/-- A name. -/
def named (name : String) : Derivation Word := .leaf .identifier name.toList

theorem writes_fixed {symbol : Symbol} (h : symbol ∈ punctuation ∨ symbol ∈ reservedWords) :
    Writes symbol [symbol.name.toList] (fixed symbol) :=
  .leaf (h.elim .fixed .keyword)

theorem writes_named {name : String} (h : IsName name.toList) :
    Writes .identifier [name.toList] (named name) :=
  .leaf (.name h)

/-- The literals that can be printed. -/
def Literal.Printable : Literal → Prop
  | .number value => value ≤ maxNumber
  | .string value => '\x00' ∉ value.toList

/-- The terminal of a literal. -/
def Literal.symbol : Literal → Symbol
  | .number _ => .number
  | .string _ => .string

/-- The derivation of a literal. -/
def Literal.derivation (value : Literal) : Derivation Word := .leaf value.symbol value.word

theorem isBody_escape {s : List Char} (h : '\x00' ∉ s) : IsBody (escape s) := by
  induction s with
  | nil => exact .nil
  | cons c s ih =>
    rw [List.mem_cons, not_or] at h
    have ih := ih h.2
    rw [escape.eq_def]
    split
    · rename_i heq
      cases heq
    · rename_i heq
      cases heq
      exact .escaped (by decide) ih
    · rename_i heq
      cases heq
      exact .escaped (by decide) ih
    · rename_i heq
      cases heq
      exact .escaped (by decide) ih
    · rename_i hfeed hquote hcaret heq
      cases heq
      refine .plain ?_ ih
      simp only [List.mem_cons, List.not_mem_nil, or_false, not_or]
      exact ⟨fun hc => h.1 hc.symm, hfeed, hquote, hcaret⟩

theorem digits_spelled (value : Nat) : Spelled .number (digits value) := by
  refine .number Nat.toDigits_ne_nil fun c hc => ?_
  have hdigit := Nat.isDigit_of_mem_toDigits (by decide) (Nat.le_refl _) hc
  simp only [Char.isDigit, Bool.and_eq_true, decide_eq_true_eq] at hdigit
  simp only [CharClass.digit, CharClass.contains, CharClass.inRanges, List.any_cons, List.any_nil,
    Bool.or_false, Bool.and_eq_true, decide_eq_true_eq]
  exact hdigit

theorem Literal.Printable.spelled {value : Literal} (h : value.Printable) :
    Spelled value.symbol value.word := by
  cases value with
  | number value => exact digits_spelled value
  | string value => exact .string (isBody_escape h)

theorem writes_literal {value : Literal} (h : value.Printable) :
    Writes value.symbol [value.word] value.derivation := .leaf h.spelled

/-! ## Operators -/

/-- The token of an operator on values. -/
def BinaryOperator.token : BinaryOperator → Symbol
  | .add => .plus
  | .subtract => .minus
  | .multiply => .star
  | .divide => .slash
  | .mod => .kwMod
  | .bitAnd => .kwBitand
  | .bitOr => .kwBitor
  | .bitXor => .kwBitxor

/-- The symbols above the token of an operator on values. -/
def BinaryOperator.symbols : BinaryOperator → Symbol × Symbol
  | .add | .subtract => (.additiveOperator, .additiveSymbol)
  | .multiply | .divide | .mod => (.multiplicativeOperator, .multiplicativeSymbol)
  | .bitAnd | .bitOr | .bitXor => (.bitOperator, .bitOperators)

/-- The derivation of an operator on values. -/
def BinaryOperator.derivation (operator : BinaryOperator) : Derivation Word :=
  .node operator.symbols.1 [.node operator.symbols.2 [fixed operator.token]]

/-- The token of an operator on conditions. -/
def ConditionOperator.token : ConditionOperator → Symbol
  | .equal => .equal
  | .notEqual => .notEqual
  | .less => .less
  | .greater => .greater
  | .lessEqual => .lessEqual
  | .greaterEqual => .greaterEqual
  | .and => .kwAnd
  | .or => .kwOr

/-- The symbols above the token of an operator on conditions. -/
def ConditionOperator.symbols : ConditionOperator → Symbol × Symbol
  | .and => (.andOperator, .andKeyword)
  | .or => (.orOperator, .orKeyword)
  | _ => (.relationalOperator, .relationalOperators)

/-- The derivation of an operator on conditions. -/
def ConditionOperator.derivation (operator : ConditionOperator) : Derivation Word :=
  .node operator.symbols.1 [.node operator.symbols.2 [fixed operator.token]]

theorem writes_binaryOperator (operator : BinaryOperator) :
    Writes operator.symbols.1 [operator.text.toList] operator.derivation := by
  have htoken : operator.token ∈ punctuation ∨ operator.token ∈ reservedWords := by
    cases operator <;> decide
  have hname : operator.token.name = operator.text := by cases operator <;> rfl
  have h := writes_fixed htoken
  rw [hname] at h
  refine .wrap (.wrap h ?_) ?_ <;> cases operator <;> decide

theorem writes_conditionOperator (operator : ConditionOperator) :
    Writes operator.symbols.1 [operator.text.toList] operator.derivation := by
  have htoken : operator.token ∈ punctuation ∨ operator.token ∈ reservedWords := by
    cases operator <;> decide
  have hname : operator.token.name = operator.text := by cases operator <;> rfl
  have h := writes_fixed htoken
  rw [hname] at h
  refine .wrap (.wrap h ?_) ?_ <;> cases operator <;> decide

/-- Operands that are strong enough, with an operator in between. -/
theorem Writes.operation {symbol operator : Symbol} {left right : List Word} {word : Word}
    {l o r : Derivation Word} {q : Nat} (hl : Writes symbol left l) (ho : Writes operator [word] o)
    (hr : Writes symbol right r) (hq : operatorStrength operator = some q)
    (hrule : ∃ rule', rule symbol = some rule' ∧ rule'.Matches [symbol, operator, symbol])
    (hle : q ≤ l.strength) (hlt : q < r.strength) :
    Writes symbol (left ++ word :: right) (.node symbol [l, o, r]) := by
  have hop : Derivation.Operates symbol o q := by
    rw [Derivation.Operates, ho.good.symbol_eq]
    exact ⟨hq, hrule⟩
  have hall := (WriteAll.cons hl (.cons ho (.single hr)))
  exact ⟨hl.good.operation (ho.good.symbol_eq ▸ ho.good) hr.good hop hle hlt, hall.words_eq, hall.spelled⟩

/-! ## Rows with commas -/

/-- Items with commas in between. -/
def joined : List (List (Derivation Word)) → List (Derivation Word)
  | [] => []
  | first :: rest => first ++ rest.flatMap fun item => fixed .comma :: item

theorem writes_comma : Writes .comma [",".toList] (fixed .comma) :=
  writes_fixed (.inl (by decide))

theorem writeAll_joined {items : List (List Word)} {ds : List (List (Derivation Word))}
    (h : List.Forall₂ WriteAll items ds) : WriteAll (separated items) (joined ds) := by
  cases h with
  | nil => exact .nil
  | cons hfirst hrest =>
    refine hfirst.append ?_
    clear hfirst
    induction hrest with
    | nil => exact .nil
    | cons hitem _ ih =>
      rw [List.flatMap_cons, List.flatMap_cons]
      exact (WriteAll.word writes_comma hitem).append ih

/-- The symbols of a row with commas match its rule. -/
theorem matches_joined {hidden : Symbol} {r : Rule} {first : List (Derivation Word)}
    {rest : List (List (Derivation Word))}
    (h : ∀ item ∈ first :: rest, r.Matches (item.map Derivation.symbol)) :
    (Rule.commaSeparated hidden r).Matches ((joined (first :: rest)).map Derivation.symbol) := by
  obtain ⟨hfirst, hrest⟩ := List.forall_mem_cons.mp h
  rw [joined, List.map_append]
  refine .seq hfirst ?_
  clear hfirst h
  induction rest with
  | nil => exact .done
  | cons item rest ih =>
    obtain ⟨hitem, hrest⟩ := List.forall_mem_cons.mp hrest
    rw [List.flatMap_cons, List.map_append]
    exact .more (.seq (.symbol .comma) hitem) (ih hrest)

/-! ## Expressions -/

/-- A derivation in parentheses. -/
def enclosed (symbol : Symbol) (inner : Derivation Word) : Derivation Word :=
  .node symbol [fixed .lparen, inner, fixed .rparen]

/-- A call. -/
def callDerivation (function : String) (arguments : List (Derivation Word)) : Derivation Word :=
  .node .functionCall
    (named function :: fixed .lparen :: (joined (arguments.map ([·])) ++ [fixed .rparen]))

mutual

/-- An expression at a place that asks for some strength. -/
def Expr.derivation (level : Nat) : Expr → Derivation Word
  | .number _ value => .node .expression [.node .expressionAtom [(Literal.number value).derivation]]
  | .string _ value => .node .expression [.node .expressionAtom [(Literal.string value).derivation]]
  | .variable _ name => .node .expression [.node .expressionAtom [named name]]
  | .negate _ operand =>
    .node .expression
      [.node .expressionAtom (fixed .minus :: (operand.derivation atomic).children)]
  | .binary _ operator left right =>
    let operation := .node .expression [left.derivation operator.strength, operator.derivation,
      right.derivation (operator.strength + 1)]
    if operator.strength < level then .node .expression [enclosed .expressionAtom operation]
    else operation
  | .call _ function arguments =>
    .node .expression [.node .expressionAtom [callDerivation function (Expr.derivations arguments)]]

/-- Each of some expressions. -/
def Expr.derivations : List Expr → List (Derivation Word)
  | [] => []
  | first :: rest => first.derivation 1 :: Expr.derivations rest

end

mutual

/-- The expression can be printed. -/
def Expr.Printable : Expr → Prop
  | .number _ value => (Literal.number value).Printable
  | .string _ value => (Literal.string value).Printable
  | .variable _ name => IsName name.toList
  | .negate _ operand => operand.Printable
  | .binary _ _ left right => left.Printable ∧ right.Printable
  | .call _ function arguments => IsName function.toList ∧ Expr.AllPrintable arguments

/-- Some expressions can be printed. -/
def Expr.AllPrintable : List Expr → Prop
  | [] => True
  | first :: rest => first.Printable ∧ Expr.AllPrintable rest

end

theorem writes_punctuation {symbol : Symbol} (h : symbol ∈ punctuation) :
    Writes symbol [symbol.name.toList] (fixed symbol) := writes_fixed (.inl h)

theorem writes_enclosed {symbol inner : Symbol} {words : List Word} {d : Derivation Word}
    (h : Writes inner words d)
    (hrule : (Writes.isPlain symbol && Writes.hasRule symbol [.lparen, inner, .rparen]) = true) :
    Writes symbol (inParentheses words) (enclosed symbol d) := by
  have hopen : Writes .lparen ["(".toList] (fixed .lparen) := writes_punctuation (by decide)
  have hclose : Writes .rparen [")".toList] (fixed .rparen) := writes_punctuation (by decide)
  refine .flat ((WriteAll.word hopen (.single h)).append (.single hclose)) ?_ hrule
  rw [← h.good.symbol_eq]
  rfl

/-- What a derivation that consists of one other writes is written by the other. -/
theorem Writes.only {symbol : Symbol} {words : List Word} {d : Derivation Word}
    (h : Writes symbol words (.node symbol [d])) : Writes d.symbol words d := by
  have hyield : (Derivation.node symbol [d]).yield = d.yield := List.append_nil _
  have hwords := h.words_eq
  have hspelled := h.spelled
  rw [hyield] at hwords hspelled
  exact ⟨⟨h.good.follows.2.1, h.good.resolved.2.2.1, rfl⟩, hwords, hspelled⟩

/-- The arguments of a call are written one by one. -/
theorem writes_call {function : String} (hname : IsName function.toList) {arguments : List (List Word)}
    {ds : List (Derivation Word)} (h : List.Forall₂ (Writes .expression) arguments ds) :
    Writes .functionCall (callWords function arguments) (callDerivation function ds) := by
  have hopen : Writes .lparen ["(".toList] (fixed .lparen) := writes_punctuation (by decide)
  have hclose : Writes .rparen [")".toList] (fixed .rparen) := writes_punctuation (by decide)
  have hjoined : WriteAll (separated arguments) (joined (ds.map ([·]))) := by
    refine writeAll_joined (List.forall₂_map_right_iff.mpr (h.imp fun _ _ => .single))
  refine .plain (by decide) (.word (writes_named hname)
    ((WriteAll.word hopen hjoined).append (.single hclose))) ⟨_, rfl, .cons .identifier (.cons .lparen ?_)⟩
  have hsymbol : ∀ d ∈ ds, (Rule.symbol .expression).Matches ([d].map Derivation.symbol) := by
    intro d hd
    obtain ⟨_, -, hwrites⟩ := exists_of_forall₂_right h hd
    rw [List.map_singleton, hwrites.good.symbol_eq]
    exact .symbol .expression
  rw [List.map_append]
  cases ds with
  | nil => exact .absent (.last .rparen)
  | cons d ds =>
    refine .present (matches_joined ?_) (.last .rparen)
    show ∀ item ∈ (d :: ds).map ([·]), (Rule.symbol .expression).Matches (item.map Derivation.symbol)
    exact List.forall_mem_map.mpr hsymbol

/-- An expression in a place for atoms is an atom. -/
theorem Expr.exists_atom (e : Expr) :
    ∃ atom, e.derivation atomic = .node .expression [atom] ∧ atom.symbol = .expressionAtom := by
  cases e with
  | binary _ operator left right =>
    have hlt : operator.strength < atomic := by cases operator <;> decide
    exact ⟨_, by rw [Expr.derivation, if_pos hlt], rfl⟩
  | number | string | «variable» | negate | call => exact ⟨_, by rw [Expr.derivation], rfl⟩

theorem writes_atom {words : List Word} {d : Derivation Word} (h : Writes .expressionAtom words d) :
    Writes .expression words (.node .expression [d]) := .wrap h (by decide)

theorem writes_literalAtom {value : Literal} (h : value.Printable) :
    Writes .expressionAtom [value.word] (.node .expressionAtom [value.derivation]) := by
  refine .wrap (writes_literal h) ?_
  cases value <;> rfl

theorem writes_negate {words : List Word} {e : Expr}
    (h : Writes .expression words (e.derivation atomic)) :
    Writes .expressionAtom ("-".toList :: words)
      (.node .expressionAtom (fixed .minus :: (e.derivation atomic).children)) := by
  obtain ⟨atom, heq, hsymbol⟩ := e.exists_atom
  rw [heq] at h ⊢
  have hminus : Writes .minus ["-".toList] (fixed .minus) := writes_punctuation (by decide)
  have hatom := h.only
  rw [hsymbol] at hatom
  have hrule : (Writes.isPlain .expressionAtom &&
      Writes.hasRule .expressionAtom [.minus, .expressionAtom]) = true := by decide
  refine .flat (.word hminus (.single hatom)) ?_ hrule
  rw [← hsymbol]
  rfl

/-- Operands that write their words are joined by an operator. -/
theorem writes_binary {operator : BinaryOperator} {level : Nat} (hl : level ≤ atomic)
    {left right : List Word} {l r : Derivation Word}
    (hleft : Writes .expression left l ∧ operator.strength ≤ l.strength)
    (hright : Writes .expression right r ∧ operator.strength + 1 ≤ r.strength) :
    let operation := Derivation.node .expression [l, operator.derivation, r]
    let d := if operator.strength < level then .node .expression [enclosed .expressionAtom operation]
      else operation
    Writes .expression (operationWords operator.strength level left operator.text right) d ∧
      level ≤ d.strength := by
  have hoperation : Writes .expression (left ++ operator.text.toList :: right)
      (.node .expression [l, operator.derivation, r]) := by
    refine .operation hleft.1 (writes_binaryOperator operator) hright.1 ?_ ?_ hleft.2 hright.2
    · cases operator <;> rfl
    · cases operator <;> exact Writes.matches_of_hasRule (by decide)
  rw [operationWords]
  split
  · exact ⟨writes_atom (writes_enclosed hoperation (by decide)), hl⟩
  · rename_i hlt
    refine ⟨hoperation, ?_⟩
    rw [Derivation.strength_operation (q := operator.strength) (by cases operator <;> rfl)]
    exact Nat.le_of_not_lt hlt

mutual

/-- **An expression has a derivation that writes its words**, as strong as its place asks for. -/
theorem writes_expr : ∀ (e : Expr), e.Printable → ∀ {level : Nat}, level ≤ atomic →
    Writes .expression (e.words level) (e.derivation level) ∧ level ≤ (e.derivation level).strength
  | .number _ value, h, _, hl => ⟨writes_atom (writes_literalAtom h), hl⟩
  | .string _ value, h, _, hl => ⟨writes_atom (writes_literalAtom h), hl⟩
  | .variable _ name, h, _, hl => ⟨writes_atom (.wrap (writes_named h) (by decide)), hl⟩
  | .negate _ operand, h, _, hl =>
    ⟨writes_atom (writes_negate (writes_expr operand h (Nat.le_refl _)).1), hl⟩
  | .binary _ operator left right, h, _, hl => by
    have hbound : operator.strength + 1 ≤ atomic := by cases operator <;> decide
    exact writes_binary hl (writes_expr left h.1 (Nat.le_of_succ_le hbound))
      (writes_expr right h.2 hbound)
  | .call _ function arguments, h, _, hl =>
    ⟨writes_atom (.wrap (writes_call h.1 (writes_exprs arguments h.2)) (by decide)), hl⟩

theorem writes_exprs : ∀ (es : List Expr), Expr.AllPrintable es →
    List.Forall₂ (Writes .expression) (Expr.wordsEach es) (Expr.derivations es)
  | [], _ => .nil
  | e :: es, h => .cons (writes_expr e h.1 (by decide)).1 (writes_exprs es h.2)

end

/-! ## Conditions -/

mutual

/-- A condition at a place that asks for some strength. -/
def Condition.derivation (level : Nat) : Condition → Derivation Word
  | .expr _ value => .node .conditionalStatement [value.derivation 1]
  | .not _ operand =>
    .node .conditionalStatement
      [.node .conditionalGroup [fixed .kwNot, operand.operandDerivation]]
  | .binary _ operator left right =>
    let operation := .node .conditionalStatement [left.derivation operator.strength,
      operator.derivation, right.derivation (operator.strength + 1)]
    if operator.strength < level then
      .node .conditionalStatement [enclosed .conditionalGroup operation]
    else operation

/-- A condition after `NOT`. -/
def Condition.operandDerivation : Condition → Derivation Word
  | .expr _ (.variable _ name) => .node .conditionalAtom [named name]
  | .expr _ (.call _ function arguments) =>
    .node .conditionalAtom [callDerivation function (Expr.derivations arguments)]
  | .expr _ value => enclosed .conditionalAtom (.node .conditionalStatement [value.derivation 1])
  | .not _ operand => .node .conditionalAtom [fixed .kwNot, operand.operandDerivation]
  | .binary _ operator left right =>
    enclosed .conditionalAtom (.node .conditionalStatement [left.derivation operator.strength,
      operator.derivation, right.derivation (operator.strength + 1)])

end

/-- The condition can be printed. -/
def Condition.Printable : Condition → Prop
  | .expr _ value => value.Printable
  | .not _ operand => operand.Printable
  | .binary _ _ left right => left.Printable ∧ right.Printable

/-- Operands that write their words are joined by an operator on conditions. -/
theorem writes_comparison {operator : ConditionOperator} {left right : List Word}
    {l r : Derivation Word}
    (hleft : Writes .conditionalStatement left l ∧ operator.strength ≤ l.strength)
    (hright : Writes .conditionalStatement right r ∧ operator.strength + 1 ≤ r.strength) :
    Writes .conditionalStatement (left ++ operator.text.toList :: right)
      (.node .conditionalStatement [l, operator.derivation, r]) := by
  refine .operation hleft.1 (writes_conditionOperator operator) hright.1 ?_ ?_ hleft.2 hright.2
  · cases operator <;> rfl
  · cases operator <;> exact Writes.matches_of_hasRule (by decide)

/-- An operation in parentheses is a condition that holds together. -/
theorem writes_group {words : List Word} {l o r : Derivation Word}
    (h : Writes .conditionalStatement words (.node .conditionalStatement [l, o, r])) :
    Writes .conditionalStatement (inParentheses words)
      (.node .conditionalStatement
        [enclosed .conditionalGroup (.node .conditionalStatement [l, o, r])]) := by
  have hopen : Writes .lparen ["(".toList] (fixed .lparen) := writes_punctuation (by decide)
  have hclose : Writes .rparen [")".toList] (fixed .rparen) := writes_punctuation (by decide)
  have hrule : Writes.hasRule .conditionalGroup [.lparen, .conditionalStatement, .rparen] = true := by
    decide
  have hgroup : Writes .conditionalGroup (inParentheses words)
      (enclosed .conditionalGroup (.node .conditionalStatement [l, o, r])) := by
    refine .node ((WriteAll.word hopen (.single h)).append (.single hclose))
      (Writes.matches_of_hasRule hrule) ?_ ?_
    · rintro q ⟨⟩
    · intro _ condition hmem hsymbols
      rcases List.mem_cons.mp hmem with rfl | hmem
      · cases hsymbols
      rcases List.mem_cons.mp hmem with rfl | hmem
      · cases (List.cons.inj hsymbols).2
      · obtain rfl := List.mem_singleton.mp hmem
        cases hsymbols
  exact .wrap hgroup (by decide)

theorem writes_kwNot : Writes .kwNot ["NOT".toList] (fixed .kwNot) := writes_fixed (.inr (by decide))

/-- `NOT` before an atom is an atom. -/
theorem writes_notAtom {words : List Word} {d : Derivation Word} (h : Writes .conditionalAtom words d) :
    Writes .conditionalAtom ("NOT".toList :: words) (.node .conditionalAtom [fixed .kwNot, d]) := by
  have hrule : (Writes.isPlain .conditionalAtom &&
      Writes.hasRule .conditionalAtom [.kwNot, .conditionalAtom]) = true := by decide
  refine .flat (.word writes_kwNot (.single h)) ?_ hrule
  rw [← h.good.symbol_eq]
  rfl

/-- What follows the rules has a rule that its children match, if its symbol is no terminal. -/
theorem Writes.exists_rule {symbol : Symbol} {words : List Word} {d : Derivation Word}
    (h : Writes symbol words d) (hs : symbol.isTerminal = false) :
    ∃ r, rule symbol = some r ∧ r.Matches (d.children.map Derivation.symbol) := by
  have hsymbol := h.good.symbol_eq
  have hfollows := h.good.follows
  cases d with
  | leaf s word =>
    rw [show s = symbol from hsymbol] at hfollows
    rw [Derivation.FollowsRules, hs] at hfollows
    cases hfollows
  | node s children =>
    obtain rfl : s = symbol := hsymbol
    exact hfollows.1

/-- `NOT` before an atom is a condition. -/
theorem writes_not {words : List Word} {d : Derivation Word} (h : Writes .conditionalAtom words d) :
    Writes .conditionalStatement ("NOT".toList :: words)
      (.node .conditionalStatement [.node .conditionalGroup [fixed .kwNot, d]]) := by
  have hrule : Writes.hasRule .conditionalGroup [.kwNot, .conditionalAtom] = true := by decide
  have hsymbols : [fixed .kwNot, d].map Derivation.symbol = [.kwNot, .conditionalAtom] := by
    rw [← h.good.symbol_eq]
    rfl
  -- an atom does not consist of an expression
  have hother : d.children.map Derivation.symbol ≠ [.expression] := by
    intro heq
    obtain ⟨r, hr, hm⟩ := h.exists_rule rfl
    rw [heq] at hm
    cases hr
    have hmem := (Rule.matches_iff_mem_expansions (by decide)).mp hm
    revert hmem
    decide
  have hgroup : Writes .conditionalGroup ("NOT".toList :: words)
      (.node .conditionalGroup [fixed .kwNot, d]) := by
    refine .node (.word writes_kwNot (.single h)) (hsymbols ▸ Writes.matches_of_hasRule hrule) trivial ?_
    intro _ condition hmem
    rcases List.mem_cons.mp hmem with rfl | hmem
    · exact fun heq => by cases heq
    · obtain rfl := List.mem_singleton.mp hmem
      exact hother
  exact .wrap hgroup (by decide)

theorem writes_condition_binary {operator : ConditionOperator} {level : Nat} (hl : level ≤ atomic)
    {left right : List Word} {l r : Derivation Word}
    (h : Writes .conditionalStatement (left ++ operator.text.toList :: right)
      (.node .conditionalStatement [l, operator.derivation, r])) :
    let operation := Derivation.node .conditionalStatement [l, operator.derivation, r]
    let d := if operator.strength < level then
        .node .conditionalStatement [enclosed .conditionalGroup operation]
      else operation
    Writes .conditionalStatement (operationWords operator.strength level left operator.text right) d ∧
      level ≤ d.strength := by
  rw [operationWords]
  split
  · exact ⟨writes_group h, hl⟩
  · rename_i hlt
    refine ⟨h, ?_⟩
    rw [Derivation.strength_operation (q := operator.strength) (by cases operator <;> rfl)]
    exact Nat.le_of_not_lt hlt

/-- A condition in parentheses is an atom. -/
theorem writes_conditionAtom {words : List Word} {d : Derivation Word}
    (h : Writes .conditionalStatement words d) :
    Writes .conditionalAtom (inParentheses words) (enclosed .conditionalAtom d) :=
  writes_enclosed h (by decide)

theorem writes_exprCondition {e : Expr} (h : e.Printable) :
    Writes .conditionalStatement (e.words 1) (.node .conditionalStatement [e.derivation 1]) :=
  .wrap (writes_expr e h (by decide)).1 (by decide)

mutual

/-- **A condition has a derivation that writes its words**, as strong as its place asks for. -/
theorem writes_condition : ∀ (c : Condition), c.Printable → ∀ {level : Nat}, level ≤ atomic →
    Writes .conditionalStatement (c.words level) (c.derivation level) ∧
      level ≤ (c.derivation level).strength
  | .expr _ value, h, _, hl => ⟨writes_exprCondition h, hl⟩
  | .not _ operand, h, _, hl => ⟨writes_not (writes_operand operand h), hl⟩
  | .binary _ operator left right, h, _, hl => by
    have hbound : operator.strength + 1 ≤ atomic := by cases operator <;> decide
    exact writes_condition_binary hl (writes_comparison
      (writes_condition left h.1 (Nat.le_of_succ_le hbound)) (writes_condition right h.2 hbound))

/-- A condition after `NOT` has a derivation that writes its words. -/
theorem writes_operand : ∀ (c : Condition), c.Printable →
    Writes .conditionalAtom c.operandWords c.operandDerivation
  | .expr _ (.variable _ name), h => .wrap (writes_named h) (by decide)
  | .expr _ (.call _ function arguments), h =>
    .wrap (writes_call h.1 (writes_exprs arguments h.2)) (by decide)
  | .expr _ (.number span value), h => writes_conditionAtom (writes_exprCondition (e := .number span value) h)
  | .expr _ (.string span value), h => writes_conditionAtom (writes_exprCondition (e := .string span value) h)
  | .expr _ (.negate span operand), h =>
    writes_conditionAtom (writes_exprCondition (e := .negate span operand) h)
  | .expr _ (.binary span operator left right), h =>
    writes_conditionAtom (writes_exprCondition (e := .binary span operator left right) h)
  | .not _ operand, h => writes_notAtom (writes_operand operand h)
  | .binary _ operator left right, h => by
    have hbound : operator.strength + 1 ≤ atomic := by cases operator <;> decide
    exact writes_conditionAtom (writes_comparison
      (writes_condition left h.1 (Nat.le_of_succ_le hbound)) (writes_condition right h.2 hbound))

end

end Cicode.Program
