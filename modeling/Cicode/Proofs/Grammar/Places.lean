import Cicode.Proofs.Grammar.Rules

/-!
# Derivations as the parsing table sees them

The parsing table knows no repetitions.  It replaces each of them by a hidden symbol that stands
for one or more rounds and is made of two parts, each again one or more rounds, or of a single
round.  The right-hand sides that remain are the *expansions* of the rules (`rightSides`).

A *place* says which symbol stands somewhere in a tree of the table and how strongly it has to hold
together there.  `Fits` describes the trees of resolved derivations in these terms, one node at a
time: the right-hand side determines the places of the children.  Main statements: dissolving the
hidden symbols of a tree that follows the table gives a derivation with the same yield
(`followsRules_dissolve`), and every resolved derivation arises in this way from a tree that fits
(`exists_fits`).
-/

namespace Cicode.Grammar

/-! ## Right-hand sides -/

/-- What a hidden symbol repeats. -/
def repeated : Symbol → Option Rule
  | .topLevelItems => some (.anyOf [.function, .docComment])
  | .declarations => some (.symbol .variableDeclaration)
  | .bodyStatements => some (.symbol .bodyStatement)
  | .branchStatements => some (.symbol .bodyStatement)
  | .furtherParameters => some (.seq (.symbol .comma) (.symbol .functionParameter))
  | .furtherVariables =>
    some (.seq (.symbol .comma) (.seqOf [.symbol .identifier, .optional (.symbol .assignToValue)]))
  | .furtherArguments => some (.seq (.symbol .comma) (.symbol .expression))
  | _ => none

namespace Rule

/-- Every repetition of the rule is known under its hidden symbol. -/
def Marked : Rule → Bool
  | .never | .empty => true
  | .symbol s => repeated s == none
  | .seq a b | .choice a b => a.Marked && b.Marked
  | .many h r => repeated h == some r

/-- The rows of symbols that a rule matches if each of its repetitions is left out or replaced by
its hidden symbol. -/
def expansions : Rule → List (List Symbol)
  | .never => []
  | .empty => [[]]
  | .symbol s => [[s]]
  | .seq a b => a.expansions.flatMap fun xs => b.expansions.map (xs ++ ·)
  | .choice a b => a.expansions ++ b.expansions
  | .many h _ => [[], [h]]

theorem Matches.append {h : Symbol} {r : Rule} {xs ys : List Symbol}
    (hx : Matches (.many h r) xs) (hy : Matches (.many h r) ys) : Matches (.many h r) (xs ++ ys) := by
  generalize hm : Rule.many h r = m at hx
  induction hx with
  | empty | symbol | seq | first | second => cases hm
  | done =>
    cases hm
    exact hy
  | more h1 _ _ ih =>
    cases hm
    rw [List.append_assoc]
    exact .more h1 (ih rfl)

theorem Matches.once {h : Symbol} {r : Rule} {xs : List Symbol} (hx : Matches r xs) :
    Matches (.many h r) xs := by
  have hm : Matches (.many h r) (xs ++ []) := .more hx .done
  rwa [List.append_nil] at hm

end Rule

/-- The right-hand sides of a nonterminal in the table. -/
def rightSides (symbol : Symbol) : List (List Symbol) :=
  match rule symbol with
  | some r => r.expansions
  | none => match repeated symbol with
    | some r => [symbol, symbol] :: r.expansions
    | none => []

/-- The rules mark their repetitions, and only hidden symbols are repeated. -/
theorem marked_rule : ∀ s r, rule s = some r → r.Marked = true ∧ repeated s = none := by
  intro s r hr
  have h : ((rule s).all fun r => r.Marked && repeated s == none) = true := by
    cases s <;> decide
  rw [hr] at h
  simpa using h

/-- A round of a repetition has no repetition inside it and is no operation. -/
theorem marked_repeated : ∀ h r, repeated h = some r → r.Marked = true ∧ rule h = none := by
  intro h r hr
  have hall : ((repeated h).all fun r => r.Marked && rule h == none) = true := by
    cases h <;> decide
  rw [hr] at hall
  simpa using hall

/-! ## Trees of the table -/

/-- A row with hidden symbols spells a row without them: each hidden symbol stands for some rounds
of what it repeats. -/
inductive Spells : List Symbol → List Symbol → Prop
  | nil : Spells [] []
  | shown {x : Symbol} {xs ys : List Symbol} :
      repeated x = none → Spells xs ys → Spells (x :: xs) (x :: ys)
  | hidden {h : Symbol} {r : Rule} {zs xs ys : List Symbol} :
      repeated h = some r → (Rule.many h r).Matches zs → Spells xs ys → Spells (h :: xs) (zs ++ ys)

theorem Spells.split {xs xs' ys : List Symbol} (h : Spells (xs ++ xs') ys) :
    ∃ zs zs', ys = zs ++ zs' ∧ Spells xs zs ∧ Spells xs' zs' := by
  induction xs generalizing ys with
  | nil => exact ⟨[], ys, rfl, .nil, h⟩
  | cons x xs ih =>
    cases h with
    | shown hx h =>
      obtain ⟨zs, zs', rfl, h1, h2⟩ := ih h
      exact ⟨x :: zs, zs', rfl, .shown hx h1, h2⟩
    | hidden hx hm h =>
      obtain ⟨zs, zs', rfl, h1, h2⟩ := ih h
      exact ⟨_, zs', (List.append_assoc ..).symm, .hidden hx hm h1, h2⟩

theorem Spells.append {xs xs' ys ys' : List Symbol} (h : Spells xs ys) (h' : Spells xs' ys') :
    Spells (xs ++ xs') (ys ++ ys') := by
  induction h with
  | nil => exact h'
  | shown hx _ ih => exact .shown hx ih
  | hidden hx hm _ ih =>
    rw [List.append_assoc]
    exact .hidden hx hm ih

/-- What is spelled by an expansion of a rule matches the rule. -/
theorem Rule.matches_of_spells {r : Rule} {xs ys : List Symbol} (hr : r.Marked = true)
    (hx : xs ∈ r.expansions) (h : Spells xs ys) : r.Matches ys := by
  induction r generalizing xs ys with
  | never => cases hx
  | empty =>
    obtain rfl := List.mem_singleton.mp hx
    cases h
    exact .empty
  | symbol s =>
    obtain rfl := List.mem_singleton.mp hx
    cases h with
    | shown _ h =>
      cases h
      exact .symbol s
    | hidden hs _ _ => simp [Marked, hs] at hr
  | seq a b iha ihb =>
    simp only [Marked, Bool.and_eq_true] at hr
    simp only [expansions, List.mem_flatMap, List.mem_map] at hx
    obtain ⟨u, hu, v, hv, rfl⟩ := hx
    obtain ⟨zs, zs', rfl, h1, h2⟩ := h.split
    exact .seq (iha hr.1 hu h1) (ihb hr.2 hv h2)
  | choice a b iha ihb =>
    simp only [Marked, Bool.and_eq_true] at hr
    rcases List.mem_append.mp hx with hx | hx
    · exact .first (iha hr.1 hx h)
    · exact .second (ihb hr.2 hx h)
  | many hid r _ =>
    have hmark : repeated hid = some r := by simpa [Marked] using hr
    simp only [expansions, List.mem_cons, List.not_mem_nil, or_false] at hx
    rcases hx with rfl | rfl
    · cases h
      exact .done
    · cases h with
      | shown hs _ => rw [hmark] at hs; cases hs
      | hidden hs hm h =>
        cases h
        rw [hmark] at hs
        cases hs
        simpa using hm

namespace Derivation

variable {α : Type}

mutual

/-- The tree follows the table: its leaves are terminals, and the children of every inner node are
a right-hand side of its symbol. -/
def FollowsTable : Derivation α → Prop
  | .leaf symbol _ => symbol.isTerminal
  | .node symbol children =>
    children.map Derivation.symbol ∈ rightSides symbol ∧ AllFollowTable children

/-- Several trees follow the table. -/
def AllFollowTable : List (Derivation α) → Prop
  | [] => True
  | first :: rest => FollowsTable first ∧ AllFollowTable rest

end

mutual

/-- A tree without hidden symbols: each of them gives way to its children. -/
def dissolve : Derivation α → List (Derivation α)
  | .leaf symbol token => [.leaf symbol token]
  | .node symbol children =>
    if (repeated symbol).isSome then dissolveAll children else [.node symbol (dissolveAll children)]

/-- Several trees without hidden symbols. -/
def dissolveAll : List (Derivation α) → List (Derivation α)
  | [] => []
  | first :: rest => dissolve first ++ dissolveAll rest

end

@[simp] theorem yieldAll_append (xs ys : List (Derivation α)) :
    yieldAll (xs ++ ys) = yieldAll xs ++ yieldAll ys := by
  induction xs with
  | nil => rfl
  | cons x xs ih => simp [yieldAll, ih]

theorem allFollowRules_append {xs ys : List (Derivation α)} (hx : AllFollowRules xs)
    (hy : AllFollowRules ys) : AllFollowRules (xs ++ ys) := by
  induction xs with
  | nil => exact hy
  | cons x xs ih => exact ⟨hx.1, ih hx.2⟩

mutual

theorem yieldAll_dissolve : ∀ tree : Derivation α, yieldAll tree.dissolve = tree.yield
  | .leaf _ _ => rfl
  | .node symbol children => by
    have h := yieldAll_dissolveAll children
    rw [dissolve]
    split
    · exact h
    · simpa [yieldAll, yield] using h

theorem yieldAll_dissolveAll : ∀ trees : List (Derivation α), yieldAll (dissolveAll trees) = yieldAll trees
  | [] => rfl
  | first :: rest => by
    rw [dissolveAll, yieldAll_append, yieldAll_dissolve first, yieldAll_dissolveAll rest, yieldAll]

end

mutual

/-- **Dissolving the hidden symbols gives derivations.**  A tree of a hidden symbol dissolves into
the rounds it stands for, any other tree into a single derivation of its symbol. -/
theorem followsRules_dissolve : ∀ tree : Derivation α, tree.FollowsTable →
    AllFollowRules tree.dissolve ∧ Spells [tree.symbol] (tree.dissolve.map Derivation.symbol)
  | .leaf symbol token, h => by
    have hs : repeated symbol = none := by
      rw [FollowsTable] at h
      revert h
      cases symbol <;> decide
    exact ⟨⟨h, trivial⟩, .shown hs .nil⟩
  | .node symbol children, h => by
    rw [FollowsTable] at h
    obtain ⟨hrhs, hall⟩ := h
    obtain ⟨hrules, hspell⟩ := followsRules_dissolveAll children hall
    rw [dissolve]
    cases hrep : repeated symbol with
    | none =>
      have hr : ∃ r, rule symbol = some r ∧ children.map Derivation.symbol ∈ r.expansions := by
        rw [rightSides, hrep] at hrhs
        split at hrhs
        · exact ⟨_, ‹_›, hrhs⟩
        · cases hrhs
      obtain ⟨r, hr, hmem⟩ := hr
      refine ⟨⟨⟨⟨r, hr, ?_⟩, hrules⟩, trivial⟩, .shown hrep .nil⟩
      exact Rule.matches_of_spells (marked_rule symbol r hr).1 hmem hspell
    | some r =>
      obtain ⟨hmark, hnone⟩ := marked_repeated symbol r hrep
      have hmany : (Rule.many symbol r).Matches ((dissolveAll children).map Derivation.symbol) := by
        rw [rightSides, hnone, hrep] at hrhs
        rcases List.mem_cons.mp hrhs with heq | hmem
        · rw [heq] at hspell
          have hpair : ∀ ys, Spells [symbol, symbol] ys → (Rule.many symbol r).Matches ys := by
            intro ys hys
            cases hys with
            | shown hs _ => rw [hrep] at hs; cases hs
            | hidden hs hm1 hys =>
              rw [hrep] at hs
              cases hs
              cases hys with
              | shown hs _ => rw [hrep] at hs; cases hs
              | hidden hs hm2 hys =>
                rw [hrep] at hs
                cases hs
                cases hys
                rw [List.append_nil]
                exact hm1.append hm2
          exact hpair _ hspell
        · exact (Rule.matches_of_spells hmark hmem hspell).once
      refine ⟨hrules, ?_⟩
      have hsp : Spells [symbol] ((dissolveAll children).map Derivation.symbol ++ []) :=
        .hidden hrep hmany .nil
      simpa [Derivation.symbol] using hsp

theorem followsRules_dissolveAll : ∀ trees : List (Derivation α), AllFollowTable trees →
    AllFollowRules (dissolveAll trees) ∧
      Spells (trees.map Derivation.symbol) ((dissolveAll trees).map Derivation.symbol)
  | [], _ => ⟨trivial, .nil⟩
  | first :: rest, h => by
    obtain ⟨hrules, hspell⟩ := followsRules_dissolve first h.1
    obtain ⟨hrules', hspell'⟩ := followsRules_dissolveAll rest h.2
    refine ⟨allFollowRules_append hrules hrules', ?_⟩
    simp only [dissolveAll, List.map_append]
    exact hspell.append hspell'

end

end Derivation

/-! ## Places -/

/-- How strongly the operator of a right-hand side binds.  Two parts of a repetition count as an
operation of the least strength, so that repetitions group to the left as well. -/
def strengthOf : List Symbol → Option Nat
  | [_, operator, _] => operatorStrength operator
  | [a, b] => if a = b then some 1 else none
  | _ => none

/-- A place in a tree of the table. -/
structure Place where
  /-- The symbol that stands there. -/
  symbol : Symbol
  /-- How strongly it has to hold together. -/
  level : Nat := 1
  /-- Whether a condition there has to be more than an expression. -/
  compound : Bool := false
  deriving DecidableEq, Repr, Inhabited

namespace Place

/-- Whether a right-hand side of the place's symbol may stand there. -/
def allows (place : Place) (rhs : List Symbol) : Bool :=
  place.level ≤ (strengthOf rhs).getD atomStrength && !(place.compound && rhs == [.expression])

end Place

/-- The place of a symbol on a right-hand side without an operator. -/
def plainPlace (parent symbol : Symbol) : Place :=
  { symbol, compound := parent == .conditionalGroup && symbol == .conditionalStatement }

/-- The places of a right-hand side.  The operands of an operator must hold together at least as
strongly as the operator binds, the right one more strongly. -/
def placesOf (parent : Symbol) (rhs : List Symbol) : List Place :=
  match rhs, strengthOf rhs with
  | [left, operator, right], some q =>
    [{ symbol := left, level := q }, { symbol := operator }, { symbol := right, level := q + 1 }]
  | [first, second], some q =>
    [{ symbol := first, level := q }, { symbol := second, level := q + 1 }]
  | _, _ => rhs.map (plainPlace parent)

namespace Derivation

variable {α : Type}

mutual

/-- The tree may stand at the place. -/
def Fits (place : Place) : Derivation α → Prop
  | .leaf symbol _ => symbol = place.symbol ∧ symbol.isTerminal
  | .node symbol children =>
    symbol = place.symbol ∧ children.map Derivation.symbol ∈ rightSides symbol ∧
      place.allows (children.map Derivation.symbol) ∧
      FitAll (placesOf symbol (children.map Derivation.symbol)) children

/-- The trees may stand at the places, one at each. -/
def FitAll : List Place → List (Derivation α) → Prop
  | [], [] => True
  | place :: places, first :: rest => Fits place first ∧ FitAll places rest
  | _, _ => False

end

theorem symbol_of_fits {place : Place} : ∀ {tree : Derivation α}, tree.Fits place →
    tree.symbol = place.symbol
  | .leaf _ _, h => h.1
  | .node _ _, h => h.1

theorem strength_le_atom : ∀ tree : Derivation α, 1 ≤ tree.strength ∧ tree.strength ≤ atomStrength := by
  intro tree
  rw [strength.eq_def]
  split
  · rename_i operator _
    cases h : operatorStrength operator.symbol with
    | none => decide
    | some q =>
      have hq : 1 ≤ q ∧ q ≤ atomStrength := by
        revert h
        cases operator.symbol <;> simp +decide [operatorStrength] <;> rintro rfl <;> decide
      exact hq
  · decide

/-- Presenting a derivation to the table: a tree that dissolves into it and fits every place that
asks for no more than the derivation has. -/
structure Presents (tree : Derivation α) (derivation : Derivation α) : Prop where
  dissolve_eq : tree.dissolve = [derivation]
  fits : ∀ place : Place, place.symbol = derivation.symbol → place.level ≤ derivation.strength →
    (place.compound = true → derivation.children.map Derivation.symbol ≠ [.expression]) →
    tree.Fits place

/-- Presenting a row of derivations: each by a tree of its own, or several rounds of a repetition
by one tree of the hidden symbol. -/
inductive PresentsAll : List (Derivation α) → List (Derivation α) → Prop
  | nil : PresentsAll [] []
  | one {tree d : Derivation α} {trees ds : List (Derivation α)} :
      tree.Presents d → PresentsAll trees ds → PresentsAll (tree :: trees) (d :: ds)
  | rounds {h : Symbol} {tree : Derivation α} {ds trees ds' : List (Derivation α)} :
      (repeated h).isSome → tree.Fits { symbol := h } → tree.dissolve = ds →
      PresentsAll trees ds' → PresentsAll (tree :: trees) (ds ++ ds')

theorem PresentsAll.append {trees trees' ds ds' : List (Derivation α)} (h : PresentsAll trees ds)
    (h' : PresentsAll trees' ds') : PresentsAll (trees ++ trees') (ds ++ ds') := by
  induction h with
  | nil => exact h'
  | one ht _ ih => exact .one ht ih
  | rounds hh hf hd _ ih =>
    rw [List.append_assoc]
    exact .rounds hh hf hd ih

theorem PresentsAll.dissolve_eq {trees ds : List (Derivation α)} (h : PresentsAll trees ds) :
    dissolveAll trees = ds := by
  induction h with
  | nil => rfl
  | one ht _ ih => simp [dissolveAll, ht.dissolve_eq, ih]
  | rounds _ _ hd _ ih => simp [dissolveAll, hd, ih]

theorem Presents.symbol_eq {tree d : Derivation α} (h : tree.Presents d) :
    tree.symbol = d.symbol := by
  have hf := h.fits { symbol := d.symbol } rfl (strength_le_atom d).1 (by simp)
  exact symbol_of_fits hf

/-- Presented derivations fit the plain places of a right-hand side. -/
theorem PresentsAll.fitAll_plain {trees ds : List (Derivation α)} (h : PresentsAll trees ds)
    {parent : Symbol} (hg : GroupsCondition parent ds) :
    FitAll ((trees.map Derivation.symbol).map (plainPlace parent)) trees := by
  induction h with
  | nil => trivial
  | @one tree d trees ds ht _ ih =>
    refine ⟨ht.fits _ ht.symbol_eq (strength_le_atom d).1 ?_, ih fun hp c hc => hg hp c (by simp [hc])⟩
    intro hc
    simp only [plainPlace, Bool.and_eq_true, beq_iff_eq] at hc
    exact hg hc.1 d (by simp)
  | @rounds h tree ds trees ds' hh hf hd _ ih =>
    refine ⟨?_, ih fun hp c hc => hg hp c (by simp [hc])⟩
    have hplain : plainPlace parent tree.symbol = { symbol := h } := by
      rw [symbol_of_fits hf]
      have hne : (h == .conditionalStatement) = false := by
        revert hh
        cases h <;> decide
      simp [plainPlace, hne]
    rwa [hplain]

theorem strengthOf_round : ∀ h r, repeated h = some r → ∀ rhs ∈ r.expansions, strengthOf rhs = none := by
  intro h r hr
  have hall : ((repeated h).all fun r => r.expansions.all fun rhs => strengthOf rhs == none) = true := by
    cases h <;> decide
  rw [hr] at hall
  simpa using hall

theorem placesOf_plain {parent : Symbol} {rhs : List Symbol} (h : strengthOf rhs = none) :
    placesOf parent rhs = rhs.map (plainPlace parent) := by
  unfold placesOf
  split
  · simp_all
  · simp_all
  · rfl

/-- One round of a repetition as a tree of the hidden symbol; it fits where one round is asked
for. -/
theorem fits_round {h : Symbol} {r : Rule} {trees ds : List (Derivation α)} {l : Nat}
    (hr : repeated h = some r) (hp : PresentsAll trees ds)
    (hmem : trees.map Derivation.symbol ∈ r.expansions) (hl : l ≤ atomStrength) :
    (Derivation.node h trees).Fits { symbol := h, level := l } ∧
      (Derivation.node h trees).dissolve = ds := by
  have hs := strengthOf_round h r hr _ hmem
  have hne : h ≠ .conditionalGroup := by rintro rfl; cases hr
  refine ⟨⟨rfl, ?_, ?_, ?_⟩, ?_⟩
  · rw [rightSides, (marked_repeated h r hr).2, hr]
    exact List.mem_cons_of_mem _ hmem
  · simpa [Place.allows, hs] using hl
  · rw [placesOf_plain hs]
    exact hp.fitAll_plain fun hc => absurd hc hne
  · rw [dissolve, hr]
    exact hp.dissolve_eq

/-- A further round after the rounds of a tree. -/
theorem fits_further {h : Symbol} {tree round : Derivation α} (hh : (repeated h).isSome)
    (ht : tree.Fits { symbol := h }) (hr : round.Fits { symbol := h, level := 2 }) :
    (Derivation.node h [tree, round]).Fits { symbol := h } ∧
      (Derivation.node h [tree, round]).dissolve = tree.dissolve ++ round.dissolve := by
  have h1 := symbol_of_fits ht
  have h2 := symbol_of_fits hr
  obtain ⟨r, hr'⟩ := Option.isSome_iff_exists.mp hh
  constructor
  · refine ⟨rfl, ?_, ?_, ?_⟩
    · simp [rightSides, (marked_repeated h r hr').2, hr', h1, h2]
    · simp [Place.allows, strengthOf, h1, h2]
    · simp only [List.map_cons, List.map_nil, h1, h2, placesOf, strengthOf, ↓reduceIte]
      exact ⟨ht, hr, trivial⟩
  · simp [dissolve, hh, dissolveAll]

/-- **A row of presented derivations that matches a rule is presented by an expansion of the
rule.**  The second half carries the induction through repetitions: the rounds are taken up one
after the other by the tree of the rounds before. -/
theorem presents_expansion {r : Rule} {xs : List Symbol} (hm : r.Matches xs) :
    r.Marked = true → ∀ ds : List (Derivation α), ds.map Derivation.symbol = xs →
      (∀ d ∈ ds, ∃ tree : Derivation α, tree.Presents d) →
      (∃ trees, PresentsAll trees ds ∧ trees.map Derivation.symbol ∈ r.expansions) ∧
      ∀ h r', r = .many h r' → ∀ before : Derivation α, before.Fits { symbol := h } →
        ∃ tree : Derivation α, tree.Fits { symbol := h } ∧ tree.dissolve = before.dissolve ++ ds := by
  induction hm with
  | empty =>
    intro _ ds hds _
    rw [List.map_eq_nil_iff] at hds
    subst hds
    exact ⟨⟨[], .nil, by simp [Rule.expansions]⟩, fun _ _ h => by cases h⟩
  | symbol s =>
    intro _ ds hds hpres
    obtain ⟨d, rfl, hd⟩ : ∃ d, ds = [d] ∧ d.symbol = s := by
      match ds, hds with
      | [d], hds => exact ⟨d, rfl, by simpa using hds⟩
    obtain ⟨tree, ht⟩ := hpres d (by simp)
    refine ⟨⟨[tree], .one ht .nil, ?_⟩, fun _ _ h => by cases h⟩
    simp [Rule.expansions, ht.symbol_eq, hd]
  | seq _ _ iha ihb =>
    intro hr ds hds hpres
    simp only [Rule.Marked, Bool.and_eq_true] at hr
    obtain ⟨ds1, ds2, rfl, h1, h2⟩ := List.map_eq_append_iff.mp hds
    obtain ⟨⟨ts1, hp1, hm1⟩, -⟩ := iha hr.1 ds1 h1 fun d hd => hpres d (by simp [hd])
    obtain ⟨⟨ts2, hp2, hm2⟩, -⟩ := ihb hr.2 ds2 h2 fun d hd => hpres d (by simp [hd])
    refine ⟨⟨ts1 ++ ts2, hp1.append hp2, ?_⟩, fun _ _ h => by cases h⟩
    simp only [Rule.expansions, List.mem_flatMap, List.mem_map, List.map_append]
    exact ⟨_, hm1, _, hm2, rfl⟩
  | first _ ih =>
    intro hr ds hds hpres
    simp only [Rule.Marked, Bool.and_eq_true] at hr
    obtain ⟨⟨ts, hp, hmem⟩, -⟩ := ih hr.1 ds hds hpres
    exact ⟨⟨ts, hp, List.mem_append_left _ hmem⟩, fun _ _ h => by cases h⟩
  | second _ ih =>
    intro hr ds hds hpres
    simp only [Rule.Marked, Bool.and_eq_true] at hr
    obtain ⟨⟨ts, hp, hmem⟩, -⟩ := ih hr.2 ds hds hpres
    exact ⟨⟨ts, hp, List.mem_append_right _ hmem⟩, fun _ _ h => by cases h⟩
  | done =>
    intro _ ds hds _
    rw [List.map_eq_nil_iff] at hds
    subst hds
    refine ⟨⟨[], .nil, by simp [Rule.expansions]⟩, fun _ _ h before hb => ?_⟩
    exact ⟨before, by cases h; exact hb, by simp⟩
  | @more h r xs ys _ _ ihr ihm =>
    intro hmark ds hds hpres
    have hr : repeated h = some r := by simpa [Rule.Marked] using hmark
    obtain ⟨ds1, ds2, rfl, h1, h2⟩ := List.map_eq_append_iff.mp hds
    obtain ⟨⟨ts, hp, hmem⟩, -⟩ := ihr (marked_repeated h r hr).1 ds1 h1 fun d hd => hpres d (by simp [hd])
    obtain ⟨-, hrest⟩ := ihm hmark ds2 h2 fun d hd => hpres d (by simp [hd])
    constructor
    · obtain ⟨hf, hd⟩ := fits_round (l := 1) hr hp hmem (by decide)
      obtain ⟨tree, ht, hdis⟩ := hrest h r rfl _ hf
      refine ⟨[tree], ?_, by simp [Rule.expansions, symbol_of_fits ht]⟩
      have hall : PresentsAll [tree] ((ds1 ++ ds2) ++ []) :=
        .rounds (by rw [hr]; rfl) ht (by rw [hdis, hd]) .nil
      simpa using hall
    · intro h' r' heq before hb
      cases heq
      obtain ⟨hf, hd⟩ := fits_round (l := 2) hr hp hmem (by decide)
      obtain ⟨hb', hdb⟩ := fits_further (by rw [hr]; rfl) hb hf
      obtain ⟨tree, ht, hdis⟩ := hrest h r rfl _ hb'
      exact ⟨tree, ht, by rw [hdis, hdb, hd, List.append_assoc]⟩

/-- A right-hand side with an operator, in a rule, has no hidden symbol. -/
theorem operands_of_strengthOf : ∀ s r, rule s = some r → ∀ rhs ∈ r.expansions,
    strengthOf rhs = none ∨
      ∃ x operator y q, rhs = [x, operator, y] ∧ operatorStrength operator = some q ∧
        repeated x = none ∧ repeated operator = none ∧ repeated y = none := by
  intro s r hr rhs hmem
  have hall : ((rule s).all fun r => r.expansions.all fun rhs => strengthOf rhs == none ||
      (rhs.length == 3 && rhs.all fun x => repeated x == none)) = true := by
    cases s <;> decide
  rw [hr] at hall
  have hrhs := List.all_eq_true.mp hall rhs hmem
  cases hs : strengthOf rhs with
  | none => exact .inl rfl
  | some q =>
    right
    simp only [hs, Bool.or_eq_true, Bool.and_eq_true, beq_iff_eq, List.all_eq_true] at hrhs
    obtain ⟨hlen, hnone⟩ := hrhs.resolve_left (by simp)
    match rhs, hlen with
    | [x, operator, y], _ =>
      exact ⟨x, operator, y, q, rfl, hs, hnone x (by simp), hnone operator (by simp), hnone y (by simp)⟩

/-- Trees without a hidden symbol among them present as many derivations. -/
theorem PresentsAll.cons_of_shown {tree : Derivation α} {trees ds : List (Derivation α)}
    (h : PresentsAll (tree :: trees) ds) (hs : repeated tree.symbol = none) :
    ∃ d ds', ds = d :: ds' ∧ tree.Presents d ∧ PresentsAll trees ds' := by
  cases h with
  | one ht h => exact ⟨_, _, rfl, ht, h⟩
  | rounds hh hf _ _ =>
    rw [symbol_of_fits hf] at hs
    rw [hs] at hh
    cases hh

theorem PresentsAll.eq_nil {ds : List (Derivation α)} (h : PresentsAll [] ds) : ds = [] := by
  cases h
  rfl

/-- The node over presented children presents the derivation. -/
theorem presents_node {s : Symbol} {r : Rule} {trees ds : List (Derivation α)}
    (hr : rule s = some r) (hp : PresentsAll trees ds)
    (hmem : trees.map Derivation.symbol ∈ r.expansions)
    (ho : OperandsHold ds) (hg : GroupsCondition s ds) :
    (Derivation.node s trees).Presents (.node s ds) := by
  have hrep := (marked_rule s r hr).2
  have hsides : trees.map Derivation.symbol ∈ rightSides s := by rw [rightSides, hr]; exact hmem
  refine ⟨by simp [dissolve, hrep, hp.dissolve_eq], fun place hsym hlevel hcomp => ?_⟩
  rcases operands_of_strengthOf s r hr _ hmem with hs | ⟨x, o, y, q, hrhs, hq, hx, ho', hy⟩
  · refine ⟨hsym.symm, hsides, ?_, ?_⟩
    · simp only [Place.allows, hs, Option.getD_none, Bool.and_eq_true, decide_eq_true_eq,
        Bool.not_eq_true', Bool.and_eq_false_imp]
      refine ⟨Nat.le_trans hlevel (strength_le_atom _).2, fun hc => ?_⟩
      -- An expression alone is presented as such, so the derivation is no more than that.
      have hne := hcomp hc
      simp only [beq_eq_false_iff_ne, ne_eq]
      intro heq
      obtain ⟨tree, rfl, hsym'⟩ := List.map_eq_singleton_iff.mp heq
      obtain ⟨d, ds', rfl, ht, hnil⟩ := hp.cons_of_shown (by rw [hsym']; rfl)
      obtain rfl := hnil.eq_nil
      exact hne (by simp [children, ← ht.symbol_eq, hsym'])
    · rw [placesOf_plain hs]
      exact hp.fitAll_plain hg
  · -- An operation: three trees for three derivations, the operands as strong as they have to be.
    match trees, hp, hrhs with
    | [t1, t2, t3], hp, hrhs =>
      simp only [List.map_cons, List.map_nil, List.cons.injEq, and_true] at hrhs
      obtain ⟨rfl, rfl, rfl⟩ := hrhs
      obtain ⟨d1, ds1, rfl, p1, hp⟩ := hp.cons_of_shown hx
      obtain ⟨d2, ds2, rfl, p2, hp⟩ := hp.cons_of_shown ho'
      obtain ⟨d3, ds3, rfl, p3, hp⟩ := hp.cons_of_shown hy
      obtain rfl := hp.eq_nil
      have hstrength : (Derivation.node s [d1, d2, d3]).strength = q := by
        simp [strength, ← p2.symbol_eq, hq]
      obtain ⟨h1, h3⟩ := ho q (by rw [← p2.symbol_eq]; exact hq)
      refine ⟨hsym.symm, hsides, ?_, ?_⟩
      · rw [hstrength] at hlevel
        simpa [Place.allows, strengthOf, hq] using hlevel
      · simp only [List.map_cons, List.map_nil, placesOf, strengthOf, hq]
        refine ⟨p1.fits _ p1.symbol_eq h1 (by simp), ?_, ?_, trivial⟩
        · exact p2.fits _ p2.symbol_eq (strength_le_atom d2).1 (by simp)
        · exact p3.fits _ p3.symbol_eq h3 (by simp)

mutual

theorem exists_presents : ∀ d : Derivation α, d.FollowsRules → d.Resolved →
    ∃ tree : Derivation α, tree.Presents d
  | .leaf s a, hf, _ => by
    refine ⟨.leaf s a, rfl, fun place hsym _ _ => ⟨hsym.symm, hf⟩⟩
  | .node s ds, hf, hr => by
    rw [FollowsRules] at hf
    rw [Resolved] at hr
    obtain ⟨⟨r, hrule, hm⟩, hall⟩ := hf
    obtain ⟨ho, hg, hres⟩ := hr
    have hpres := exists_presents_all ds hall hres
    obtain ⟨⟨trees, hp, hmem⟩, -⟩ := presents_expansion hm (marked_rule s r hrule).1 ds rfl hpres
    exact ⟨.node s trees, presents_node hrule hp hmem ho hg⟩

theorem exists_presents_all : ∀ ds : List (Derivation α), AllFollowRules ds → AllResolved ds →
    ∀ d ∈ ds, ∃ tree : Derivation α, tree.Presents d
  | [], _, _ => by simp
  | d :: ds, hf, hr => by
    have hd := exists_presents d hf.1 hr.1
    have hds := exists_presents_all ds hf.2 hr.2
    intro e he
    rcases List.mem_cons.mp he with rfl | he
    · exact hd
    · exact hds e he

end

/-- **Every resolved derivation is what a tree of the table dissolves into**, and that tree fits
the unrestricted place of the symbol. -/
theorem exists_fits (d : Derivation α) (hf : d.FollowsRules) (hr : d.Resolved) :
    ∃ tree : Derivation α, tree.Fits { symbol := d.symbol } ∧ tree.dissolve = [d] := by
  obtain ⟨tree, ht⟩ := exists_presents d hf hr
  exact ⟨tree, ht.fits _ rfl (strength_le_atom d).1 (by simp), ht.dissolve_eq⟩

end Derivation

end Cicode.Grammar
