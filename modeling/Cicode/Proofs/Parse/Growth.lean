import Mathlib
import Cicode.Parse.Run
import Cicode.Proofs.Grammar.ShiftReduce

/-!
# The trees that the parser builds

Whatever the text, the parser builds trees of a few kinds only (`Grown`): tokens of the text,
invented tokens, productions whose children spell one of their right-hand sides, and trees for
skipped text.  Extras among the children of a production are comments or trees for skipped text.

Two neighbouring nodes of the parser's stack are joined by such a tree in one of five ways
(`Joins`), and along a way down (`Way`) from a state that asks for a reduction lie the children
that the reduction needs (`Way.reduction`).
-/

namespace Cicode.Parse

open Grammar Text

namespace Subtree

/-! ## Facts of a tree from those of its children -/

theorem addChildren_kept (facts : Facts) (place : Nat) (isFirst : Bool) (cs : List Subtree) :
    (addChildren facts place isFirst cs).symbol = facts.symbol ∧
    (addChildren facts place isFirst cs).production = facts.production ∧
    (addChildren facts place isFirst cs).extra = facts.extra ∧
    (addChildren facts place isFirst cs).missing = facts.missing := by
  induction cs generalizing facts place isFirst with
  | nil => exact ⟨rfl, rfl, rfl, rfl⟩
  | cons c cs ih =>
    rw [addChildren]
    obtain ⟨hs, hp, he, hm⟩ := ih (addChild facts place isFirst c) _ false
    rw [hs, hp, he, hm]
    cases isFirst <;> exact ⟨rfl, rfl, rfl, rfl⟩

@[simp] theorem symbol_ofChildren (s : Symbol) (p : Nat) (cs : List Subtree) :
    (ofChildren s p cs).symbol = s := (addChildren_kept ..).1

@[simp] theorem production_ofChildren (s : Symbol) (p : Nat) (cs : List Subtree) :
    (ofChildren s p cs).facts.production = p := (addChildren_kept ..).2.1

@[simp] theorem isExtra_ofChildren (s : Symbol) (p : Nat) (cs : List Subtree) :
    (ofChildren s p cs).isExtra = false := (addChildren_kept ..).2.2.1

@[simp] theorem missing_ofChildren (s : Symbol) (p : Nat) (cs : List Subtree) :
    (ofChildren s p cs).facts.missing = false := (addChildren_kept ..).2.2.2

@[simp] theorem children_ofChildren (s : Symbol) (p : Nat) (cs : List Subtree) :
    (ofChildren s p cs).children = cs := rfl

@[simp] theorem symbol_withExtra (e : Bool) (t : Subtree) : (t.withExtra e).symbol = t.symbol := by
  cases t; rfl

@[simp] theorem errorCost_withExtra (e : Bool) (t : Subtree) :
    (t.withExtra e).errorCost = t.errorCost := by
  cases t; rfl

@[simp] theorem isExtra_withExtra (e : Bool) (t : Subtree) : (t.withExtra e).isExtra = e := by
  cases t; rfl

@[simp] theorem children_withExtra (e : Bool) (t : Subtree) :
    (t.withExtra e).children = t.children := by
  cases t; rfl

/-- What a child adds to the price of its parent. -/
def priceIn (parent : Symbol) (child : Subtree) : Nat :=
  (if child.symbol == .errorRepeat then 0 else child.errorCost) +
    if parent.isSkipped then child.skipCost else 0

theorem addChildren_errorCost (facts : Facts) (place : Nat) (isFirst : Bool) (cs : List Subtree) :
    (addChildren facts place isFirst cs).errorCost =
      facts.errorCost + (cs.map (priceIn facts.symbol)).sum := by
  induction cs generalizing facts place isFirst with
  | nil => rfl
  | cons c cs ih =>
    have hs : (addChild facts place isFirst c).symbol = facts.symbol := by cases isFirst <;> rfl
    have hc : (addChild facts place isFirst c).errorCost = facts.errorCost + priceIn facts.symbol c := by
      cases isFirst <;> exact Nat.add_assoc ..
    rw [addChildren, ih, hs, hc, List.map_cons, List.sum_cons, Nat.add_assoc]

theorem errorCost_ofChildren (s : Symbol) (p : Nat) (cs : List Subtree) :
    (ofChildren s p cs).errorCost = (cs.map (priceIn s)).sum +
      ownCost (addChildren { symbol := s, production := p, padding := 0, size := 0 } 0 true cs) := by
  have h : (ofChildren s p cs).errorCost =
      (addChildren { symbol := s, production := p, padding := 0, size := 0 } 0 true cs).errorCost +
        ownCost (addChildren { symbol := s, production := p, padding := 0, size := 0 } 0 true cs) := rfl
  rw [h, addChildren_errorCost, Nat.zero_add]

/-- The tree of a production costs nothing exactly if no child does. -/
theorem errorCost_ofChildren_eq_zero {s : Symbol} (hs : s.isSkipped = false) (p : Nat)
    (cs : List Subtree) : (ofChildren s p cs).errorCost = 0 ↔
      ∀ c ∈ cs, c.symbol = .errorRepeat ∨ c.errorCost = 0 := by
  have hown : ownCost (addChildren { symbol := s, production := p, padding := 0, size := 0 } 0 true cs)
      = 0 := by
    rw [ownCost, (addChildren_kept ..).1, hs]
    rfl
  rw [errorCost_ofChildren, hown, Nat.add_zero, List.sum_eq_zero_iff_forall_eq_nat]
  simp only [List.mem_map, forall_exists_index, and_imp, forall_apply_eq_imp_iff₂, priceIn, hs]
  refine forall₂_congr fun c _ => ?_
  by_cases h : c.symbol = .errorRepeat <;> simp [h]

/-- A tree for skipped text always costs something. -/
theorem errorCost_skipped_pos {s : Symbol} (hs : s.isSkipped = true) (p : Nat) (cs : List Subtree) :
    0 < (ofChildren s p cs).errorCost := by
  rw [errorCost_ofChildren, ownCost, (addChildren_kept ..).1, hs, if_pos rfl, recoveryCost]
  omega

/-- The bytes that trees take up together. -/
def bytesOf (trees : List Subtree) : Nat := (trees.map (·.totalSize.bytes)).sum

theorem addChildren_size (facts : Facts) (place : Nat) (cs : List Subtree) :
    (addChildren facts place false cs).padding = facts.padding ∧
    (addChildren facts place false cs).size.bytes = facts.size.bytes + bytesOf cs := by
  induction cs generalizing facts place with
  | nil => exact ⟨rfl, rfl⟩
  | cons c cs ih =>
    obtain ⟨hp, hs⟩ := ih (addChild facts place false c) (if c.isExtra then place else place + 1)
    rw [addChildren, hp, hs]
    refine ⟨rfl, ?_⟩
    rw [bytesOf, bytesOf, List.map_cons, List.sum_cons, ← Nat.add_assoc]
    rfl

/-- A tree begins where its first child does and is as long as its children together. -/
theorem size_ofChildren (s : Symbol) (p : Nat) (c : Subtree) (cs : List Subtree) :
    (ofChildren s p (c :: cs)).facts.padding = c.facts.padding ∧
    (ofChildren s p (c :: cs)).facts.size.bytes = c.facts.size.bytes + bytesOf cs := by
  exact addChildren_size (addChild { symbol := s, production := p, padding := 0, size := 0 } 0 true c)
    (if c.isExtra then 0 else 0 + 1) cs

end Subtree

end Cicode.Parse

namespace Cicode.Grammar

/-! ## What the table says of tokens -/

/-- A row that asks for a reduction on some terminal. -/
def Row.startsReduce (row : Row) : Bool :=
  row.actions.any fun group => match group.1 with
    | .reduce .. :: _ => true
    | _ => false

/-- A state that asks for a reduction on some terminal. -/
def StartsReduce (state : StateId) : Prop := ∃ row, rowAt state = some row ∧ row.startsReduce = true

theorem startsReduce_of {state : StateId} {terminal : Symbol}
    (h : startsWithReduce state terminal = true) : StartsReduce state := by
  unfold startsWithReduce at h
  split at h
  · rename_i symbol count production rest heq
    have hmem : Action.reduce symbol count production ∈ actionsAt state terminal := by simp [heq]
    cases ht : terminal.isTerminal with
    | false =>
      rw [actionsAt_not_terminal state ht] at hmem
      cases hmem
    | true =>
      rw [actionsAt_terminal state ht] at hmem heq
      split at hmem
      · rename_i row hrow
        rw [hrow] at heq
        obtain ⟨group, hg, -, hgroup⟩ := mem_group_of_actionsOn hmem
        refine ⟨row, hrow, List.any_eq_true.mpr ⟨group, hg, ?_⟩⟩
        simp only at heq
        rw [hgroup, heq]
      · cases hmem
  · cases h

/-- The states that ask for a reduction on some terminal, as bits. -/
def reducingBits : Nat :=
  rowList.zipIdx.foldl (fun bits q => if q.1.startsReduce then bits ||| 1 <<< q.2 else bits) 0

theorem testBit_reducingBits {state : StateId} (h : StartsReduce state) :
    reducingBits.testBit state = true := by
  obtain ⟨row, hrow, hr⟩ := h
  refine testBit_foldl_of_mem _ _ _ (fun n q hn => ?_) (rowAt_mem hrow) (fun n => ?_) 0
  · split
    · simp [hn]
    · exact hn
  · simp [hr, Nat.testBit_or, Nat.one_shiftLeft]

/-- The tokens that the parser may invent. -/
def inventable : List Symbol :=
  [.identifier, .summaryEnd, .paramEnd, .returnsEnd, .rparen, .lineFeed, .equal, .number, .string,
    .semicolon, .plus, .minus, .star, .slash, .notEqual, .less, .greater, .lessEqual,
    .greaterEqual, .kwEnd, .kwPublic, .kwPrivate, .kwInt, .kwString, .kwReal, .kwQuality,
    .kwTimestamp, .kwBool, .kwObject, .kwLong, .kwVoid, .kwMod, .kwBitand, .kwBitor, .kwBitxor,
    .kwOr, .kwAnd]

/-- What is tested of the arrows of a row. -/
def arrowTested (row : Row) (source : StateId) (arrow : Symbol × StateId) : Bool :=
  (!(arrow.1.isTerminal && reducingBits.testBit arrow.2) || inventable.contains arrow.1) &&
    source != 0 && (arrow.1.isTerminal || Symbol.nonterminals.contains arrow.1) &&
    arrow.1 != .endOfInput && arrow.1 != .comment &&
    (arrow.1 != .expressionVariableAssignments || !row.startsReduce)

theorem arrowTested_rows : (rowList.zipIdx.all fun q =>
    q.1.arrows.all (arrowTested q.1 q.2)) = true := by
  decide +kernel

theorem shiftExtra_rows : (rowList.zipIdx.all fun q => q.1.actions.all fun group =>
    !group.1.contains .shiftExtra || group.2 == [.comment]) = true := by
  decide +kernel

theorem Arrow.tested {source target : StateId} {symbol : Symbol} (h : Arrow source symbol target) :
    (symbol.isTerminal = true → StartsReduce target → symbol ∈ inventable) ∧ source ≠ 0 ∧
    (symbol.isTerminal = true ∨ symbol ∈ Symbol.nonterminals) ∧ symbol ≠ .endOfInput ∧
    symbol ≠ .comment ∧ (symbol = .expressionVariableAssignments → ¬StartsReduce source) := by
  obtain ⟨row, hrow, hmem⟩ := h
  have htest := List.all_eq_true.mp (of_all_rows arrowTested_rows hrow) _ hmem
  simp only [arrowTested, Bool.and_eq_true, Bool.or_eq_true, Bool.not_eq_true', bne_iff_ne,
    List.contains_iff_mem, Bool.and_eq_false_imp] at htest
  obtain ⟨⟨⟨⟨⟨hinv, hsrc⟩, hsym⟩, hend⟩, hcom⟩, hva⟩ := htest
  refine ⟨fun ht hr => ?_, hsrc, hsym, hend, hcom, fun he hr => ?_⟩
  · refine hinv.resolve_left fun hn => ?_
    rw [testBit_reducingBits hr] at hn
    exact absurd (hn ht) (by simp)
  · obtain ⟨row', hrow', hr⟩ := hr
    rw [hrow] at hrow'
    cases hrow'
    rw [hva.resolve_left (not_not_intro he)] at hr
    cases hr

/-- Skipped text, comments and the end of the text are part of no right-hand side. -/
theorem mem_rightSide {s : Symbol} {rhs : List Symbol} (h : rhs ∈ rightSides s) :
    ∀ x ∈ rhs, x.isSkipped = false ∧ x ≠ .comment ∧ x ≠ .endOfInput := by
  have hall : ∀ rhs ∈ rightSides s, ∀ x ∈ rhs,
      x.isSkipped = false ∧ x ≠ .comment ∧ x ≠ .endOfInput := by
    cases s <;> decide
  exact hall rhs h

theorem Descent.arrow {top state : StateId} {x : Symbol} {xs : List Symbol}
    (h : Descent top (x :: xs) state) : ∃ target, Arrow state x target := by
  cases h with
  | cons ha _ => exact ⟨_, ha⟩

/-- Only comments are taken as extras. -/
theorem comment_of_shiftExtra {state : StateId} {terminal : Symbol}
    (h : Action.shiftExtra ∈ actionsAt state terminal) : terminal = .comment := by
  cases ht : terminal.isTerminal with
  | false =>
    rw [actionsAt_not_terminal state ht] at h
    cases h
  | true =>
    rw [actionsAt_terminal state ht] at h
    split at h
    · rename_i row hrow
      obtain ⟨group, hg, hs, heq⟩ := mem_group_of_actionsOn h
      have htest := List.all_eq_true.mp (of_all_rows shiftExtra_rows hrow) group hg
      rw [Bool.or_eq_true, Bool.not_eq_true', beq_iff_eq] at htest
      have hne : ¬ group.1.contains .shiftExtra = false := by
        rw [heq]
        simpa using h
      rw [htest.resolve_left hne] at hs
      simpa using hs
    · cases h

end Cicode.Grammar

namespace Cicode.Parse

open Grammar Text

/-! ## Grown trees -/

/-- The facts of a token of the text. -/
structure IsToken (facts : Facts) : Prop where
  terminal : facts.symbol.isTerminal = true
  free : facts.errorCost = 0
  present : facts.missing = false
  wide : facts.symbol ≠ .endOfInput → 0 < facts.size.bytes
  extra : facts.extra = true → facts.symbol = .comment ∨ facts.symbol = .endOfInput

/-- The facts of a piece of text that begins no token. -/
structure IsUnreadable (facts : Facts) : Prop where
  symbol_eq : facts.symbol = .error
  free : facts.errorCost = 0
  present : facts.missing = false
  notExtra : facts.extra = false

/-- The symbols of trees, extras left out. -/
def spelling (trees : List Subtree) : List Symbol :=
  (trees.filter (!·.isExtra)).map Subtree.symbol

/-- The children of a production. -/
structure IsProduction (symbol : Symbol) (production : Nat) (children : List Subtree) : Prop where
  rhs : spelling children ∈ rightSides symbol
  number : production = productionNumber symbol (spelling children)
  first : ∀ c, children.head? = some c → c.isExtra = false
  assigned : symbol = .variableAssignment → ∀ c ∈ children, c.symbol = .equal →
    c.facts.missing = false

/-- The trees that the parser builds. -/
inductive Grown : Subtree → Prop
  | token {facts : Facts} : IsToken facts → Grown (.node facts [])
  | invented {s : Symbol} : s ∈ inventable → Grown (.missingToken s)
  | production {s : Symbol} {p : Nat} {cs : List Subtree} :
      IsProduction s p cs → (∀ c ∈ cs, Grown c) → Grown (.ofChildren s p cs)
  | skipped {cs : List Subtree} (extra : Bool) : (∀ c ∈ cs, Grown c) →
      (extra = true → ∃ c ∈ cs, c.isExtra = false) → Grown (.skipped cs extra)
  | skipping {cs : List Subtree} : (∀ c ∈ cs, Grown c) → Grown (.ofChildren .errorRepeat 0 cs)
  | unreadable {facts : Facts} : IsUnreadable facts → Grown (.node facts [])

/-- Extras are comments, trees for skipped text, or the end of the text. -/
theorem Grown.cases_extra {tree : Subtree} (h : Grown tree) (he : tree.isExtra = true) :
    tree.symbol = .comment ∨ tree.symbol = .endOfInput ∨ tree.symbol = .error ∧ 0 < tree.errorCost := by
  cases h with
  | token ht => exact (ht.extra he).imp_right .inl
  | invented => cases he
  | production | skipping => simp at he
  | skipped extra =>
    refine .inr (.inr ⟨by simp [Subtree.skipped], ?_⟩)
    rw [Subtree.skipped, Subtree.errorCost_withExtra]
    exact Subtree.errorCost_skipped_pos rfl ..
  | unreadable hu => exact absurd he (by simp [Subtree.isExtra, Subtree.facts, hu.notExtra])

theorem Grown.children {tree : Subtree} (h : Grown tree) : ∀ c ∈ tree.children, Grown c := by
  cases h with
  | token | invented | unreadable => exact fun c hc => absurd hc List.not_mem_nil
  | production _ h | skipping h => exact h
  | skipped extra h =>
    rw [Subtree.skipped, Subtree.children_withExtra]
    exact h

theorem mem_spelling {trees : List Subtree} {t : Subtree} (h : t ∈ trees) (he : t.isExtra = false) :
    t.symbol ∈ spelling trees :=
  List.mem_map_of_mem (List.mem_filter.mpr ⟨h, by simp [he]⟩)

/-- Skipped text below a production is wrapped up and has its price. -/
theorem IsProduction.skipped {s : Symbol} {p : Nat} {cs : List Subtree} (h : IsProduction s p cs)
    (hg : ∀ c ∈ cs, Grown c) : ∀ c ∈ cs, c.symbol.isSkipped = true →
      c.symbol = .error ∧ 0 < c.errorCost := by
  intro c hc hskip
  by_cases he : c.isExtra = true
  · rcases (hg c hc).cases_extra he with hsym | hsym | herr
    · rw [hsym] at hskip
      cases hskip
    · rw [hsym] at hskip
      cases hskip
    · exact herr
  · rw [(mem_rightSide h.rhs _ (mem_spelling hc (by simpa using he))).1] at hskip
    cases hskip

/-- How a tree leads from a state of the stack to the one above it. -/
inductive Joins : StateId → Subtree → StateId → Prop
  /-- A symbol that the table has an arrow for. -/
  | arrow {q n : StateId} {t : Subtree} : Arrow q t.symbol n → t.isExtra = false →
      (t.facts.missing = true → StartsReduce n) → Joins q t n
  /-- An extra. -/
  | stray {q : StateId} {t : Subtree} : t.isExtra = true → Joins q t q
  /-- Text that is being skipped. -/
  | skipping {q : StateId} {t : Subtree} : t.symbol = .errorRepeat → Joins q t 0
  /-- What is left of a text that was given up at its end. -/
  | gaveUp {t : Subtree} : t.symbol = .error → 0 < t.errorCost → t.isExtra = false → Joins 0 t 1
  /-- The end of the text. -/
  | ending {q : StateId} {t : Subtree} : t.symbol = .endOfInput → t.isExtra = true →
      q = 1 ∨ q = 2 → Joins q t 1

/-- From the upper state one comes down to the lower one past the trees, the lowest of them first.
Every link but extras counts, the marks of errors included, and no step is taken once `limit` have
been counted. -/
inductive Way (limit : Nat) (upper : StateId) : StateId → List Subtree → Nat → Prop
  | start : Way limit upper upper [] 0
  | tree {q m : StateId} {t : Subtree} {ts : List Subtree} {d : Nat} : d < limit → Grown t →
      Joins q t m → Way limit upper m ts d →
      Way limit upper q (t :: ts) (if t.isExtra then d else d + 1)
  | mark {q : StateId} {ts : List Subtree} {d : Nat} : d < limit → Way limit upper 0 ts d →
      Way limit upper q ts (d + 1)

namespace Way

variable {limit : Nat} {upper q : StateId} {ts : List Subtree} {d : Nat}

theorem mono (h : Way limit upper q ts d) {limit' : Nat} (hle : limit ≤ limit') :
    Way limit' upper q ts d := by
  induction h with
  | start => exact .start
  | tree hd ht hj _ ih => exact .tree (Nat.lt_of_lt_of_le hd hle) ht hj ih
  | mark hd _ ih => exact .mark (Nat.lt_of_lt_of_le hd hle) ih

theorem grown (h : Way limit upper q ts d) : ∀ t ∈ ts, Grown t := by
  induction h with
  | start => simp
  | tree _ ht _ _ ih =>
    intro t h
    rcases List.mem_cons.mp h with rfl | h
    · exact ht
    · exact ih t h
  | mark _ _ ih => exact ih

end Way

theorem spelling_cons (t : Subtree) (ts : List Subtree) :
    spelling (t :: ts) = if t.isExtra then spelling ts else t.symbol :: spelling ts := by
  unfold spelling
  cases h : t.isExtra <;> simp [h]

theorem spelling_append (ts us : List Subtree) : spelling (ts ++ us) = spelling ts ++ spelling us := by
  simp [spelling]

/-- What a way down from a state that asks for a reduction passes.  An invented token is followed by
nothing that its upper state cannot go on with. -/
structure Passes (count : Nat) (top q : StateId) (ts : List Subtree) (d : Nat) : Prop where
  descent : Grammar.Descent top (spelling ts) q
  length : (spelling ts).length = d
  le : d ≤ count
  first : ∀ t, ts.head? = some t → t.isExtra = true → d < count
  assigned : ∀ pre t post, ts = pre ++ t :: post → t.isExtra = false → t.facts.missing = true →
    (spelling post).head? ≠ some .expressionVariableAssignments

theorem Way.passes {count production : Nat} {symbol : Symbol} {top q : StateId} {ts : List Subtree}
    {d : Nat} (h : Way count top q ts d) (hr : Reduces top symbol count production) :
    Passes count top q ts d := by
  induction h with
  | start => exact ⟨.nil, rfl, Nat.zero_le _, by simp, by simp⟩
  | @tree q m t ts d hd ht hj _ ih =>
    -- The state above is not at the bottom, so the tree is a symbol of the table or an extra.
    have hm : 1 < m := (ih.descent.reduction hr).1 (ih.length ▸ hd)
    cases hj with
    | arrow ha hex hmiss =>
      simp only [hex, Bool.false_eq_true, ↓reduceIte]
      have hsp : spelling (t :: ts) = t.symbol :: spelling ts := by simp [spelling_cons, hex]
      refine ⟨hsp ▸ .cons ha ih.descent, by simp [hsp, ih.length], hd, ?_, ?_⟩
      · intro u hu he
        cases hu
        rw [hex] at he
        cases he
      · intro pre u post heq hu hum
        cases pre with
        | nil =>
          simp only [List.nil_append, List.cons.injEq] at heq
          obtain ⟨rfl, rfl⟩ := heq
          intro hhead
          obtain ⟨x, xs, hx⟩ : ∃ x xs, spelling ts = x :: xs := by
            cases hs : spelling ts with
            | nil => rw [hs] at hhead; cases hhead
            | cons x xs => exact ⟨x, xs, rfl⟩
          rw [hx] at hhead
          cases hhead
          obtain ⟨target, ha'⟩ := (hx ▸ ih.descent).arrow
          exact ha'.tested.2.2.2.2.2 rfl (hmiss hum)
        | cons p pre =>
          simp only [List.cons_append, List.cons.injEq] at heq
          exact ih.assigned pre u post heq.2 hu hum
    | stray hex =>
      simp only [hex, ↓reduceIte]
      have hsp : spelling (t :: ts) = spelling ts := by simp [spelling_cons, hex]
      refine ⟨hsp ▸ ih.descent, hsp ▸ ih.length, ih.le, fun _ _ _ => hd, ?_⟩
      · intro pre u post heq hu hum
        cases pre with
        | nil =>
          simp only [List.nil_append, List.cons.injEq] at heq
          obtain ⟨rfl, rfl⟩ := heq
          rw [hex] at hu
          cases hu
        | cons p pre =>
          simp only [List.cons_append, List.cons.injEq] at heq
          exact ih.assigned pre u post heq.2 hu hum
    | skipping | gaveUp | ending => exact absurd hm (by decide)
  | @mark q ts d hd _ ih =>
    exact absurd ((ih.descent.reduction hr).1 (ih.length ▸ hd)) (by decide)

/-- **On a way down that is long enough lie the children of a production.** -/
theorem Way.reduction {count production : Nat} {symbol : Symbol} {top q : StateId}
    {ts : List Subtree} (h : Way count top q ts count) (hr : Reduces top symbol count production) :
    IsProduction symbol production ts ∧ symbol ∈ Symbol.nonterminals ∧ gotoAt q symbol ≠ 0 := by
  have hp := h.passes hr
  obtain ⟨hrhs, hnum, hnon, hgoto⟩ := (hp.descent.reduction hr).2 hp.length
  refine ⟨⟨hrhs, hnum, ?_, ?_⟩, hnon, hgoto⟩
  · intro c hc
    by_contra he
    exact absurd (hp.first c hc (by simpa using he)) (Nat.lt_irrefl _)
  · rintro rfl c hc hs
    have hex : c.isExtra = false := by
      by_contra he
      rcases (h.grown c hc).cases_extra (by simpa using he) with hcom | hend | ⟨herr, -⟩
      · rw [hs] at hcom
        cases hcom
      · rw [hs] at hend
        cases hend
      · rw [hs] at herr
        cases herr
    obtain ⟨pre, post, rfl⟩ := List.append_of_mem hc
    by_contra hm
    refine hp.assigned pre c post rfl hex (by simpa using hm) ?_
    have hsp : spelling pre ++ .equal :: spelling post =
        [.identifier, .equal, .expressionVariableAssignments, .semicolon] := by
      rw [spelling_append, spelling_cons, hex, hs] at hrhs
      simpa using (show _ ∈ [[Symbol.identifier, .equal, .expressionVariableAssignments, .semicolon]]
        from hrhs)
    cases hpre : spelling pre with
    | nil =>
      rw [hpre] at hsp
      cases hsp
    | cons x xs =>
      rw [hpre, List.cons_append, List.cons.injEq] at hsp
      cases xs with
      | nil => rw [(List.cons.inj hsp.2).2]; rfl
      | cons y ys =>
        -- There is one equals sign only.
        have hys : ys ++ .equal :: spelling post = [.expressionVariableAssignments, .semicolon] :=
          (List.cons.inj hsp.2).2
        have hmem : Symbol.equal ∈ ys ++ .equal :: spelling post := by simp
        rw [hys] at hmem
        exact absurd hmem (by decide)

end Cicode.Parse
