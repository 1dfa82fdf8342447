import Cicode.Proofs.Grammar.Places

/-!
# Every word has a resolved derivation

The rules are ambiguous, but asking for resolved derivations excludes no word: **a word that has a
derivation has a resolved one** (`exists_resolved`).

The proof rebuilds a derivation from its leaves.  Two resolved operands with an operator between
them become one resolved operation (`exists_operation`): a right operand that holds together more
strongly than the operator binds is taken down the right edge of the left one (`exists_appended`),
and any other right operand is an operation, whose own operands are appended one after the other.
A condition in parentheses that holds an expression alone becomes an expression in parentheses.
-/

namespace Cicode.Grammar

namespace Rule

/-- The rule has no repetition. -/
def IsFlat : Rule → Bool
  | .never | .empty | .symbol _ => true
  | .seq a b | .choice a b => a.IsFlat && b.IsFlat
  | .many _ _ => false

/-- The symbols that occur in a rule. -/
def symbols : Rule → List Symbol
  | .never | .empty => []
  | .symbol s => [s]
  | .seq a b | .choice a b => a.symbols ++ b.symbols
  | .many _ r => r.symbols

theorem mem_symbols_of_matches {r : Rule} {xs : List Symbol} (h : r.Matches xs) :
    ∀ x ∈ xs, x ∈ r.symbols := by
  induction h with
  | empty | done => simp
  | symbol s => simp [symbols]
  | seq _ _ iha ihb =>
    intro x hx
    rw [symbols, List.mem_append]
    exact (List.mem_append.mp hx).imp (iha x) (ihb x)
  | first _ ih => exact fun x hx => List.mem_append_left _ (ih x hx)
  | second _ ih => exact fun x hx => List.mem_append_right _ (ih x hx)
  | more _ _ ihr ihm => exact fun x hx => (List.mem_append.mp hx).elim (ihr x) (ihm x)

/-- A rule without repetitions matches its expansions and nothing else. -/
theorem matches_iff_mem_expansions {r : Rule} (hr : r.IsFlat = true) {xs : List Symbol} :
    r.Matches xs ↔ xs ∈ r.expansions := by
  induction r generalizing xs with
  | never => exact ⟨(nomatch ·), (nomatch ·)⟩
  | empty =>
    rw [expansions, List.mem_singleton]
    exact ⟨fun h => by cases h; rfl, fun h => h ▸ .empty⟩
  | symbol s =>
    rw [expansions, List.mem_singleton]
    exact ⟨fun h => by cases h; rfl, fun h => h ▸ .symbol s⟩
  | seq a b iha ihb =>
    rw [IsFlat, Bool.and_eq_true] at hr
    simp only [expansions, List.mem_flatMap, List.mem_map]
    constructor
    · intro h
      cases h with
      | seq ha hb => exact ⟨_, (iha hr.1).mp ha, _, (ihb hr.2).mp hb, rfl⟩
    · rintro ⟨ys, hys, zs, hzs, rfl⟩
      exact .seq ((iha hr.1).mpr hys) ((ihb hr.2).mpr hzs)
  | choice a b iha ihb =>
    rw [IsFlat, Bool.and_eq_true] at hr
    rw [expansions, List.mem_append]
    constructor
    · intro h
      cases h with
      | first h => exact .inl ((iha hr.1).mp h)
      | second h => exact .inr ((ihb hr.2).mp h)
    · rintro (h | h)
      · exact .first ((iha hr.1).mpr h)
      · exact .second ((ihb hr.2).mpr h)
  | many h r => cases hr

end Rule

/-- What corresponds to something on the right. -/
theorem exists_of_forall₂_right {α β : Type} {R : α → β → Prop} {as : List α} {bs : List β}
    (h : List.Forall₂ R as bs) {b : β} (hb : b ∈ bs) : ∃ a ∈ as, R a b := by
  induction h with
  | nil => cases hb
  | cons hfirst _ ih =>
    rcases List.mem_cons.mp hb with rfl | hb
    · exact ⟨_, List.mem_cons_self, hfirst⟩
    · obtain ⟨a, ha, hr⟩ := ih hb
      exact ⟨a, List.mem_cons_of_mem _ ha, hr⟩

/-- Operators and conditions in parentheses occur in the rules of expressions and conditions
only, and those rules have no repetitions. -/
theorem rule_cases {s : Symbol} {r : Rule} (h : rule s = some r) :
    (s = .expression ∨ s = .conditionalStatement) ∧ r.IsFlat = true ∨
      ∀ x ∈ r.symbols, operatorStrength x = none ∧ x ≠ .conditionalGroup := by
  have hall : (rule s).all (fun r => ((s == .expression || s == .conditionalStatement) && r.IsFlat) ||
      r.symbols.all fun x => operatorStrength x == none && x != .conditionalGroup) = true := by
    cases s <;> decide
  rw [h] at hall
  simpa using hall

namespace Derivation

variable {α : Type}

theorem allFollowRules_iff {ds : List (Derivation α)} :
    AllFollowRules ds ↔ ∀ d ∈ ds, d.FollowsRules := by
  induction ds with
  | nil => simp [AllFollowRules]
  | cons d ds ih => simp [AllFollowRules, ih]

theorem allResolved_iff {ds : List (Derivation α)} : AllResolved ds ↔ ∀ d ∈ ds, d.Resolved := by
  induction ds with
  | nil => simp [AllResolved]
  | cons d ds ih => simp [AllResolved, ih]

theorem eq_triple_of_symbols {ds : List (Derivation α)} {x y z : Symbol}
    (h : ds.map Derivation.symbol = [x, y, z]) :
    ∃ a b c, ds = [a, b, c] ∧ a.symbol = x ∧ b.symbol = y ∧ c.symbol = z := by
  obtain ⟨a, b, c, rfl⟩ := List.length_eq_three.mp (by simpa using congrArg List.length h)
  exact ⟨a, b, c, rfl, by simpa using h⟩

/-! ## Operations -/

/-- A resolved derivation of a symbol. -/
structure Good (symbol : Symbol) (d : Derivation α) : Prop where
  follows : d.FollowsRules
  resolved : d.Resolved
  symbol_eq : d.symbol = symbol

theorem Good.self {symbol : Symbol} {d : Derivation α} (h : d.Good symbol) : d.Good d.symbol :=
  ⟨h.follows, h.resolved, rfl⟩

theorem Good.leaf {symbol : Symbol} (h : symbol.isTerminal = true) (a : α) :
    (Derivation.leaf symbol a).Good symbol := ⟨h, trivial, rfl⟩

/-- The symbol has operations with the operator. -/
def Operates (symbol : Symbol) (operator : Derivation α) (q : Nat) : Prop :=
  operatorStrength operator.symbol = some q ∧
    ∃ r, rule symbol = some r ∧ r.Matches [symbol, operator.symbol, symbol]

theorem strength_operation {s : Symbol} {left operator right : Derivation α} {q : Nat}
    (h : operatorStrength operator.symbol = some q) :
    (Derivation.node s [left, operator, right]).strength = q := by
  rw [strength, h]
  rfl

/-- Two operands that are strong enough and an operator make a resolved operation. -/
theorem Good.operation {s : Symbol} {left operator right : Derivation α} {q : Nat}
    (hl : left.Good s) (ho : operator.Good operator.symbol) (hr : right.Good s)
    (hop : Operates s operator q) (hle : q ≤ left.strength) (hlt : q < right.strength) :
    (Derivation.node s [left, operator, right]).Good s := by
  obtain ⟨hq, r, hrule, hm⟩ := hop
  refine ⟨⟨⟨r, hrule, ?_⟩, hl.follows, ho.follows, hr.follows, trivial⟩,
    ⟨?_, ?_, hl.resolved, ho.resolved, hr.resolved, trivial⟩, rfl⟩
  · simpa [hl.symbol_eq, hr.symbol_eq] using hm
  · intro q' hq'
    rw [hq] at hq'
    cases hq'
    exact ⟨hle, hlt⟩
  · rintro rfl
    cases hrule
    have hmem := Rule.mem_symbols_of_matches hm operator.symbol (by simp)
    have hnone : ∀ x ∈ ((rule .conditionalGroup).getD .never).symbols, operatorStrength x = none := by
      decide
    rw [hnone _ hmem] at hq
    cases hq

/-- The operands of an operation are of the operation's own symbol. -/
theorem operands_symbol {s x o y : Symbol} {r : Rule} {q : Nat} (h : rule s = some r)
    (hm : r.Matches [x, o, y]) (hq : operatorStrength o = some q) : x = s ∧ y = s := by
  rcases rule_cases h with ⟨hs, hflat⟩ | hnone
  · have hmem := (Rule.matches_iff_mem_expansions hflat).mp hm
    have hall : ∀ s, s = .expression ∨ s = .conditionalStatement →
        ((rule s).getD .never).expansions.all (fun rhs => rhs.length != 3 ||
          rhs.head? == some s && rhs.getLast? == some s) = true := by
      rintro s (rfl | rfl) <;> decide
    have hrhs := List.all_eq_true.mp (hall s hs) [x, o, y] (by rw [h]; exact hmem)
    simpa using hrhs
  · rw [(hnone o (Rule.mem_symbols_of_matches hm o (by simp))).1] at hq
    cases hq

/-- What is weaker than an atom is an operation of resolved operands. -/
theorem Good.cases_strength {s : Symbol} {d : Derivation α} (h : d.Good s)
    (hlt : d.strength < atomStrength) :
    ∃ left operator right, d = .node s [left, operator, right] ∧ left.Good s ∧
      operator.Good operator.symbol ∧ right.Good s ∧ Operates s operator d.strength ∧
      d.strength ≤ left.strength ∧ d.strength < right.strength := by
  obtain ⟨hf, hr, hs⟩ := h
  rw [strength.eq_def] at hlt
  split at hlt
  · rename_i s' left operator right
    cases hq : operatorStrength operator.symbol with
    | none =>
      rw [hq] at hlt
      exact absurd hlt (Nat.lt_irrefl _)
    | some q =>
      obtain ⟨⟨r, hrule, hm⟩, hfl, hfo, hfr, -⟩ := hf
      obtain ⟨hold, -, hrl, hro, hrr, -⟩ := hr
      obtain rfl : s' = s := hs
      obtain ⟨hl, hr⟩ := operands_symbol hrule hm hq
      rw [strength_operation hq]
      refine ⟨left, operator, right, rfl, ⟨hfl, hrl, hl⟩, ⟨hfo, hro, rfl⟩, ⟨hfr, hrr, hr⟩,
        ⟨hq, r, hrule, ?_⟩, hold q hq⟩
      simpa [hl, hr] using hm
  · exact absurd hlt (Nat.lt_irrefl _)

/-- A strong right operand goes down the right edge of the left one, to where the operator binds
no more strongly than what stands there. -/
theorem exists_appended (s : Symbol) (operator right : Derivation α) (q : Nat)
    (ho : operator.Good operator.symbol) (hop : Operates s operator q) (hr : right.Good s)
    (hlt : q < right.strength) : ∀ left : Derivation α, left.Good s →
    ∃ d : Derivation α, d.Good s ∧ d.yield = left.yield ++ operator.yield ++ right.yield ∧
      d.strength = min left.strength q := by
  intro left hl
  by_cases hle : q ≤ left.strength
  · refine ⟨_, hl.operation ho hr hop hle hlt, by simp [yield, yieldAll], ?_⟩
    rw [strength_operation hop.1]
    omega
  · have hq := (strength_le_atom right).2
    obtain ⟨l, o, r, rfl, hgl, hgo, hgr, hop', hll, hlr⟩ := hl.cases_strength (by omega)
    obtain ⟨d, hd, hy, hs⟩ := exists_appended s operator right q ho hop hr hlt r hgr
    refine ⟨_, hgl.operation hgo hd hop' hll (by omega), by simp [yield, yieldAll, hy], ?_⟩
    rw [strength_operation hop'.1]
    omega
  termination_by left => sizeOf left
  decreasing_by subst_vars; simp; omega

/-- Two resolved operands with an operator between them have a resolved operation. -/
theorem exists_operation (s : Symbol) (left : Derivation α) (hl : left.Good s) :
    ∀ (right operator : Derivation α) (q : Nat), operator.Good operator.symbol →
    Operates s operator q → right.Good s →
    ∃ d : Derivation α, d.Good s ∧ d.yield = left.yield ++ operator.yield ++ right.yield := by
  intro right operator q ho hop hr
  by_cases hlt : q < right.strength
  · obtain ⟨d, hd, hy, -⟩ := exists_appended s operator right q ho hop hr hlt left hl
    exact ⟨d, hd, hy⟩
  · have hq : q < atomStrength := by
      have hop1 := hop.1
      revert hop1
      cases operator.symbol <;> simp +decide [operatorStrength] <;> rintro rfl <;> decide
    obtain ⟨l, o, r, rfl, hgl, hgo, hgr, hop', -, hlr⟩ := hr.cases_strength (by omega)
    obtain ⟨d, hd, hy⟩ := exists_operation s left hl l operator q ho hop hgl
    obtain ⟨d', hd', hy', -⟩ := exists_appended s o r _ hgo hop' hgr hlr d hd
    exact ⟨d', hd', by simp [hy', hy, yield, yieldAll]⟩
  termination_by right => sizeOf right
  decreasing_by subst_vars; simp; omega

/-! ## All derivations -/

/-- A resolved derivation in the place of another one.  The place of a condition in parentheses may
be taken by an expression. -/
structure Replaces (d' d : Derivation α) : Prop where
  follows : d'.FollowsRules
  resolved : d'.Resolved
  symbol_eq : d'.symbol = d.symbol ∨ d.symbol = .conditionalGroup ∧ d'.symbol = .expression
  yield_eq : d'.yield = d.yield

theorem Good.replaces {d' d : Derivation α} (h : d'.Good d.symbol) (hy : d'.yield = d.yield) :
    d'.Replaces d :=
  ⟨h.follows, h.resolved, .inl h.symbol_eq, hy⟩

theorem yieldAll_replaced {ds' ds : List (Derivation α)} (h : List.Forall₂ Replaces ds' ds) :
    yieldAll ds' = yieldAll ds := by
  induction h with
  | nil => rfl
  | cons hd _ ih => rw [yieldAll, yieldAll, hd.yield_eq, ih]

theorem follows_replaced {ds' ds : List (Derivation α)} (h : List.Forall₂ Replaces ds' ds) :
    AllFollowRules ds' ∧ AllResolved ds' := by
  induction h with
  | nil => exact ⟨trivial, trivial⟩
  | cons hd _ ih => exact ⟨⟨hd.follows, ih.1⟩, hd.resolved, ih.2⟩

theorem symbols_replaced {ds' ds : List (Derivation α)} (h : List.Forall₂ Replaces ds' ds)
    (hne : ∀ d ∈ ds, d.symbol ≠ .conditionalGroup) :
    ds'.map Derivation.symbol = ds.map Derivation.symbol := by
  induction h with
  | nil => rfl
  | @cons d' d _ _ hd _ ih =>
    rw [List.map_cons, List.map_cons, ih fun e he => hne e (by simp [he])]
    rw [hd.symbol_eq.resolve_right fun hg => hne d (by simp) hg.1]

theorem operandsHold_of_plain {ds : List (Derivation α)} {r : Rule}
    (hm : r.Matches (ds.map Derivation.symbol)) (hr : ∀ x ∈ r.symbols, operatorStrength x = none) :
    OperandsHold ds := by
  unfold OperandsHold
  split
  · rename_i left operator right
    intro q hq
    rw [hr _ (Rule.mem_symbols_of_matches hm _ (by simp))] at hq
    cases hq
  · trivial

/-- An expression in parentheses is an expression. -/
theorem good_parenthesised {a e c : Derivation α} (ha : a.Good .lparen) (he : e.Good .expression)
    (hc : c.Good .rparen) :
    (Derivation.node .expression [.node .expressionAtom [a, e, c]]).Good .expression := by
  refine ⟨⟨⟨_, rfl, ?_⟩, ⟨⟨_, rfl, ?_⟩, ha.follows, he.follows, hc.follows, trivial⟩, trivial⟩,
    ⟨trivial, nofun, ⟨?_, nofun, ha.resolved, he.resolved, hc.resolved, trivial⟩, trivial⟩, rfl⟩
  · exact (Rule.matches_iff_mem_expansions (by decide)).mpr (by simp only [List.map, symbol]; decide)
  · simp only [List.map_cons, List.map_nil, ha.symbol_eq, he.symbol_eq, hc.symbol_eq]
    exact (Rule.matches_iff_mem_expansions (by decide)).mpr (by decide)
  · intro q hq
    rw [he.symbol_eq] at hq
    cases hq

/-- The parentheses around a condition that is an expression alone belong to an expression. -/
theorem exists_group {ds : List (Derivation α)} {r : Rule} (hrule : rule .conditionalGroup = some r)
    (hm : r.Matches (ds.map Derivation.symbol)) (hf : AllFollowRules ds) (hr : AllResolved ds) :
    ∃ d : Derivation α, d.Replaces (.node .conditionalGroup ds) := by
  cases hrule
  by_cases hg : GroupsCondition .conditionalGroup ds
  · have hhold := operandsHold_of_plain hm (by decide)
    exact ⟨.node .conditionalGroup ds, ⟨⟨_, rfl, hm⟩, hf⟩, ⟨hhold, hg, hr⟩, .inl rfl, rfl⟩
  · simp only [GroupsCondition, not_forall, not_not] at hg
    obtain ⟨-, b, hb, hchild⟩ := hg
    have hmem := (Rule.matches_iff_mem_expansions (by decide)).mp hm
    obtain ⟨s, e, rfl, he⟩ : ∃ s e, b = .node s [e] ∧ e.symbol = .expression := by
      cases b with
      | leaf s a => cases hchild
      | node s children =>
        obtain ⟨e, rfl, he⟩ := List.map_eq_singleton_iff.mp hchild
        exact ⟨s, e, rfl, he⟩
    obtain ⟨⟨r', hrule', hm'⟩, hfe, -⟩ := allFollowRules_iff.mp hf _ hb
    obtain ⟨-, -, hre, -⟩ := allResolved_iff.mp hr _ hb
    -- Of the parts of a group, only a condition may consist of an expression.
    have hs : s = .conditionalStatement := by
      have hsym := Rule.mem_symbols_of_matches hm s (List.mem_map.mpr ⟨_, hb, rfl⟩)
      have hsplit : s = .conditionalStatement ∨ rule s = none ∨ s = .conditionalAtom := by
        revert hsym
        cases s <;> decide
      rcases hsplit with hs | hs | rfl
      · exact hs
      · rw [hs] at hrule'
        cases hrule'
      · cases hrule'
        rw [List.map_singleton, he] at hm'
        exact absurd ((Rule.matches_iff_mem_expansions (by decide)).mp hm') (by decide)
    subst hs
    obtain ⟨a, c, rfl, ha, hc⟩ : ∃ a c, ds = [a, .node .conditionalStatement [e], c] ∧
        a.symbol = .lparen ∧ c.symbol = .rparen := by
      have hmem' : ds.map Derivation.symbol = [.lparen, .conditionalStatement, .rparen] ∨
          ds.map Derivation.symbol = [.kwNot, .conditionalAtom] := by
        simpa [Rule.oneOf, Rule.row, Rule.seqOf, Rule.expansions] using hmem
      rcases hmem' with h | h
      · obtain ⟨a, b, c, rfl, ha, -, hc⟩ := eq_triple_of_symbols h
        refine ⟨a, c, ?_, ha, hc⟩
        simp only [List.mem_cons, List.not_mem_nil, or_false] at hb
        rcases hb with rfl | rfl | rfl
        · cases ha
        · rfl
        · cases hc
      · have hb' := List.mem_map_of_mem (f := Derivation.symbol) hb
        rw [h] at hb'
        exact absurd hb' (by simp [symbol])
    obtain ⟨hfa, -, hfc, -⟩ := hf
    obtain ⟨hra, -, hrc, -⟩ := hr
    have hgood := good_parenthesised ⟨hfa, hra, ha⟩ ⟨hfe, hre, he⟩ ⟨hfc, hrc, hc⟩
    exact ⟨_, hgood.follows, hgood.resolved, .inr ⟨rfl, rfl⟩, by simp [yield, yieldAll]⟩

/-- An expansion of expressions or conditions: two operands and an operator, or a single symbol. -/
def isOperationOrSingle (s : Symbol) (r : Rule) : List Symbol → Bool
  | [x, o, y] => x == s && y == s && (operatorStrength o).isSome
  | [x] => x != .conditionalGroup || r.expansions.contains [.expression]
  | _ => false

/-- An expression or a condition is an operation, or consists of one part. -/
theorem operation_or_single {s : Symbol} {r : Rule} (hs : s = .expression ∨ s = .conditionalStatement)
    (hrule : rule s = some r) {rhs : List Symbol} (hmem : rhs ∈ r.expansions) :
    (∃ o q, rhs = [s, o, s] ∧ operatorStrength o = some q) ∨
      ∃ x, rhs = [x] ∧ (x = .conditionalGroup → [.expression] ∈ r.expansions) := by
  have hall : (rule s).all (fun r => r.expansions.all (isOperationOrSingle s r)) = true := by
    rcases hs with rfl | rfl <;> decide
  rw [hrule] at hall
  have hrhs := List.all_eq_true.mp hall rhs hmem
  unfold isOperationOrSingle at hrhs
  split at hrhs
  · rename_i x o y
    simp only [Bool.and_eq_true, beq_iff_eq, Option.isSome_iff_exists] at hrhs
    obtain ⟨⟨rfl, rfl⟩, q, hq⟩ := hrhs
    exact .inl ⟨o, q, rfl, hq⟩
  · rename_i x
    refine .inr ⟨x, rfl, fun hx => ?_⟩
    simpa [hx] using hrhs
  · cases hrhs

/-- A node over resolved parts can be replaced. -/
theorem exists_node {s : Symbol} {r : Rule} {ds' ds : List (Derivation α)} (hrule : rule s = some r)
    (hm : r.Matches (ds.map Derivation.symbol)) (hds : List.Forall₂ Replaces ds' ds) :
    ∃ d : Derivation α, d.Replaces (.node s ds) := by
  obtain ⟨hf, hr⟩ := follows_replaced hds
  have hy := yieldAll_replaced hds
  rcases rule_cases hrule with ⟨hs, hflat⟩ | hplain
  · rcases operation_or_single hs hrule ((Rule.matches_iff_mem_expansions hflat).mp hm) with
      ⟨o, q, hsym, hq⟩ | ⟨x, hsym, hgroup⟩
    · -- An operation is put together anew.
      have hsame := symbols_replaced hds (by
        intro d hd hg
        have hmem := List.mem_map_of_mem (f := Derivation.symbol) hd
        rw [hsym, hg] at hmem
        rcases hs with rfl | rfl <;> simp at hmem <;> rw [← hmem] at hq <;> cases hq)
      rw [hsym] at hsame hm
      obtain ⟨left, operator, right, rfl, hl, rfl, hr'⟩ := eq_triple_of_symbols hsame
      obtain ⟨hfl, hfo, hfr, -⟩ := hf
      obtain ⟨hrl, hro, hrr, -⟩ := hr
      obtain ⟨d, hd, hyd⟩ := exists_operation s left ⟨hfl, hrl, hl⟩ right operator q
        ⟨hfo, hro, rfl⟩ ⟨hq, r, hrule, hm⟩ ⟨hfr, hrr, hr'⟩
      refine ⟨d, Good.replaces hd ?_⟩
      rw [hyd, yield, ← hy]
      simp [yieldAll]
    · -- A single part is kept, or an expression instead of a group.
      obtain ⟨c, rfl, hc⟩ := List.map_eq_singleton_iff.mp hsym
      cases hds with
      | @cons c' _ _ _ hcc hnil =>
        cases hnil
        refine ⟨.node s [c'], ⟨⟨r, hrule, ?_⟩, hf⟩, ⟨trivial, ?_, hr⟩, .inl rfl, hy⟩
        · rcases hcc.symbol_eq with heq | ⟨hg, he⟩
          · simpa [heq] using hm
          · rw [List.map_singleton, he]
            exact (Rule.matches_iff_mem_expansions hflat).mpr (hgroup (hc ▸ hg))
        · rintro rfl
          rcases hs with hs | hs <;> cases hs
  · have hsame := symbols_replaced hds fun d hd =>
      (hplain _ (Rule.mem_symbols_of_matches hm _ (List.mem_map_of_mem hd))).2
    rw [← hsame] at hm
    by_cases hg : s = .conditionalGroup
    · subst hg
      obtain ⟨d, hd⟩ := exists_group hrule hm hf hr
      exact ⟨d, hd.follows, hd.resolved, hd.symbol_eq, by rw [hd.yield_eq, yield, yield, hy]⟩
    · have hhold := operandsHold_of_plain hm fun x hx => (hplain x hx).1
      exact ⟨.node s ds', ⟨⟨r, hrule, hm⟩, hf⟩, ⟨hhold, fun h => absurd h hg, hr⟩, .inl rfl, hy⟩

mutual

theorem exists_replacement : ∀ d : Derivation α, d.FollowsRules → ∃ d' : Derivation α, d'.Replaces d
  | .leaf s a, hf => ⟨.leaf s a, hf, trivial, .inl rfl, rfl⟩
  | .node s ds, hf => by
    obtain ⟨⟨r, hrule, hm⟩, hall⟩ := hf
    obtain ⟨ds', hds⟩ := exists_replacements ds hall
    exact exists_node hrule hm hds

theorem exists_replacements : ∀ ds : List (Derivation α), AllFollowRules ds →
    ∃ ds' : List (Derivation α), List.Forall₂ Replaces ds' ds
  | [], _ => ⟨[], .nil⟩
  | d :: ds, hf => by
    obtain ⟨d', hd⟩ := exists_replacement d hf.1
    obtain ⟨ds', hds⟩ := exists_replacements ds hf.2
    exact ⟨d' :: ds', .cons hd hds⟩

end

/-- **A word that has a derivation has a resolved one.** -/
theorem exists_resolved {s : Symbol} {word : List (Symbol × α)} {d : Derivation α}
    (h : d.Derives s word) (hs : s ≠ .conditionalGroup) :
    ∃ d' : Derivation α, d'.Derives s word ∧ d'.Resolved := by
  obtain ⟨d', hd⟩ := exists_replacement d h.follows
  rw [← h.symbol_eq] at hs
  have hsym := hd.symbol_eq.resolve_right fun hg => hs hg.1
  exact ⟨d', ⟨hd.follows, hsym.trans h.symbol_eq, hd.yield_eq.trans h.yield_eq⟩, hd.resolved⟩

end Derivation

end Cicode.Grammar
