import Cicode.Proofs.Grammar.Lookahead
import Cicode.Proofs.Tree.Repairs

/-!
# How the nodes of a syntax tree lie

The children of a node lie inside it, one after the other.  A node without repairs takes up some
text, and so does a statement whatever it holds.  A node has its price if one of its children has, and
outside documentation there is a problem to report below every node that has its price.

Main statement (`sound_parse`): all this holds at every node of every syntax tree (`Node.Sound`).
-/

namespace Cicode.Parse

open Grammar

/-! ## The width of a tree -/

theorem Subtree.bytes_totalSize (t : Subtree) :
    t.totalSize.bytes = t.facts.padding.bytes + t.facts.size.bytes := rfl

theorem Subtree.bytesOf_cons (t : Subtree) (ts : List Subtree) :
    Subtree.bytesOf (t :: ts) = t.facts.padding.bytes + t.facts.size.bytes + Subtree.bytesOf ts := rfl

theorem Subtree.bytes_le_bytesOf {c : Subtree} {cs : List Subtree} (hc : c ∈ cs) :
    c.totalSize.bytes ≤ Subtree.bytesOf cs := by
  obtain ⟨pre, post, rfl⟩ := List.append_of_mem hc
  simp only [Subtree.bytesOf, List.map_append, List.map_cons, List.sum_append_nat, List.sum_cons]
  omega

/-- A tree is at least as wide as each of its children. -/
theorem Subtree.size_child {s : Symbol} {p : Nat} {cs : List Subtree} {c : Subtree} (hc : c ∈ cs) :
    c.facts.size.bytes ≤ (Subtree.ofChildren s p cs).facts.size.bytes := by
  cases cs with
  | nil => cases hc
  | cons d ds =>
    rw [(Subtree.size_ofChildren s p d ds).2]
    rcases List.mem_cons.mp hc with rfl | hc
    · exact Nat.le_add_right ..
    · have hle := Subtree.bytes_le_bytesOf hc
      rw [Subtree.bytes_totalSize] at hle
      omega

/-- The tree is filled by its children. -/
def Subtree.Filled (t : Subtree) : Prop := ∀ c rest, t.children = c :: rest →
  t.facts.padding = c.facts.padding ∧
    t.facts.size.bytes = c.facts.size.bytes + Subtree.bytesOf rest

theorem Subtree.filled_ofChildren (s : Symbol) (p : Nat) (cs : List Subtree) :
    (Subtree.ofChildren s p cs).Filled := by
  rintro c rest hcs
  rw [Subtree.children_ofChildren] at hcs
  subst hcs
  exact Subtree.size_ofChildren ..

theorem Grown.filled {t : Subtree} (h : Grown t) : t.Filled := by
  cases h with
  | token | invented | unreadable => exact fun c rest hcs => nomatch hcs
  | production | skipping => exact Subtree.filled_ofChildren _ _ _
  | @skipped cs =>
    intro c rest hcs
    rw [Subtree.skipped, Subtree.children_withExtra] at hcs
    exact Subtree.filled_ofChildren .error 0 cs c rest hcs

theorem rightSide_nonempty {s : Symbol} {rhs : List Symbol} (h : rhs ∈ rightSides s)
    (hs : s ≠ .sourceFile) : ∃ x ∈ rhs, x ≠ .sourceFile := by
  have hall : ∀ rhs ∈ rightSides s, s ≠ .sourceFile → ∃ x ∈ rhs, x ≠ .sourceFile := by
    cases s <;> decide
  exact hall rhs h hs

theorem exists_of_mem_spelling {trees : List Subtree} {x : Symbol} (h : x ∈ spelling trees) :
    ∃ t ∈ trees, t.isExtra = false ∧ t.symbol = x := by
  obtain ⟨t, ht, rfl⟩ := List.mem_map.mp h
  obtain ⟨hmem, hx⟩ := List.mem_filter.mp ht
  exact ⟨t, hmem, by simpa using hx, rfl⟩

/-- A tree without repairs takes up some text. -/
theorem Grown.wide {t : Subtree} (h : Grown t) (hfree : t.errorCost = 0) (hs : t.symbol.isSkipped = false)
    (hroot : t.symbol ≠ .sourceFile) (hend : t.symbol ≠ .endOfInput) : 0 < t.facts.size.bytes := by
  induction h with
  | token ht => exact ht.wide hend
  | invented => cases hfree
  | @production s p cs hp hg ih =>
    rw [Subtree.symbol_ofChildren] at hroot
    obtain ⟨x, hx, hne⟩ := rightSide_nonempty hp.rhs hroot
    obtain ⟨c, hc, -, rfl⟩ := exists_of_mem_spelling hx
    obtain ⟨hskip, -, hendc⟩ := mem_rightSide hp.rhs _ hx
    have hcost : c.errorCost = 0 := by
      rcases (Subtree.errorCost_ofChildren_eq_zero hp.not_repair.1 ..).mp hfree c hc with h | h
      · rw [h] at hskip
        cases hskip
      · exact h
    exact Nat.lt_of_lt_of_le (ih c hc hcost hskip hne hendc) (Subtree.size_child hc)
  | skipped => simp [Subtree.skipped, Symbol.isSkipped] at hs
  | skipping => simp [Symbol.isSkipped] at hs
  | unreadable hu =>
    have hsym : (Subtree.node _ []).symbol = .error := hu.symbol_eq
    rw [hsym] at hs
    cases hs

/-- A token that is never invented takes up some text. -/
theorem Grown.wide_token {t : Subtree} (h : Grown t) (hterm : t.symbol.isTerminal = true)
    (hinv : t.facts.missing = false ∨ t.symbol ∉ inventable) (hend : t.symbol ≠ .endOfInput) :
    0 < t.facts.size.bytes := by
  cases h with
  | token ht => exact ht.wide hend
  | invented hi =>
    rcases hinv with hm | hn
    · cases hm
    · exact absurd hi hn
  | production hp =>
    rw [Subtree.symbol_ofChildren, (mem_nonterminals hp.rhs).2] at hterm
    cases hterm
  | skipped | skipping => simp [Subtree.skipped] at hterm; cases hterm
  | unreadable hu =>
    have hsym : (Subtree.node _ []).symbol = .error := hu.symbol_eq
    rw [hsym] at hterm
    cases hterm

/-- What a production must have: a token of the text, which is never invented in its place. -/
theorem IsProduction.wide {s : Symbol} {p : Nat} {cs : List Subtree} (hp : IsProduction s p cs)
    (hg : ∀ c ∈ cs, Grown c) {x : Symbol} (hx : x ∈ spelling cs) (hterm : x.isTerminal = true)
    (hinv : x ∉ inventable ∨ s = .variableAssignment ∧ x = .equal) (hend : x ≠ .endOfInput) :
    0 < (Subtree.ofChildren s p cs).facts.size.bytes := by
  obtain ⟨c, hc, -, rfl⟩ := exists_of_mem_spelling hx
  refine Nat.lt_of_lt_of_le ((hg c hc).wide_token hterm ?_ hend) (Subtree.size_child hc)
  rcases hinv with hn | ⟨rfl, heq⟩
  · exact .inr hn
  · exact .inl (hp.assigned rfl c hc heq)

/-- The first part of each kind of statement, with the token that it always has. -/
def anchors : List (Symbol × Symbol) :=
  [(.variableAssignment, .equal), (.ifStatement, .kwIf), (.functionCall, .lparen),
    (.returnStatement, .kwReturn)]

theorem anchor_of_rightSide : ∀ a ∈ anchors, (∀ rhs ∈ rightSides a.1, a.2 ∈ rhs) ∧
    a.2.isTerminal = true ∧ a.2 ≠ .endOfInput ∧ a.1.isSkipped = false ∧ a.1.isTerminal = false ∧
    (a.2 ∉ inventable ∨ a.1 = .variableAssignment ∧ a.2 = .equal) ∧ a.1 ∉ inventable := by
  decide

theorem Grown.wide_anchor {t : Subtree} (h : Grown t) {a : Symbol × Symbol} (ha : a ∈ anchors)
    (hs : t.symbol = a.1) : 0 < t.facts.size.bytes := by
  obtain ⟨hrhs, hterm, hend, hskip, hnt, hinv, hni⟩ := anchor_of_rightSide a ha
  rw [← hs] at hrhs hskip hnt hinv hni
  cases h with
  | token ht =>
    have htt : (Subtree.node _ []).symbol.isTerminal = true := ht.terminal
    rw [hnt] at htt
    cases htt
  | invented hi => exact absurd hi hni
  | production hp hg =>
    rw [Subtree.symbol_ofChildren] at hrhs hinv
    exact hp.wide hg (hrhs _ hp.rhs) hterm hinv hend
  | skipped | skipping => simp [Subtree.skipped, Symbol.isSkipped] at hskip
  | unreadable hu =>
    have hsym : (Subtree.node _ []).symbol = .error := hu.symbol_eq
    rw [hsym] at hskip
    cases hskip

theorem statement_rightSide : ∀ rhs ∈ rightSides .statementOrExpression,
    ∃ a ∈ anchors, a.1 ∈ rhs := by
  decide

/-- **A statement takes up some text**, whatever was repaired in it. -/
theorem Grown.wide_statement {t : Subtree} (h : Grown t)
    (hs : t.symbol = .statementOrExpression ∨ t.symbol = .returnStatement) : 0 < t.facts.size.bytes := by
  rcases hs with hs | hs
  · cases h with
    | token ht =>
      have htt : (Subtree.node _ []).symbol.isTerminal = true := ht.terminal
      rw [hs] at htt
      cases htt
    | @invented s hi =>
      obtain rfl : s = .statementOrExpression := hs
      exact absurd hi (by decide)
    | @production s p cs hp hg =>
      rw [Subtree.symbol_ofChildren] at hs
      subst hs
      obtain ⟨a, ha, hmem⟩ := statement_rightSide _ hp.rhs
      obtain ⟨c, hc, -, hsym⟩ := exists_of_mem_spelling hmem
      exact Nat.lt_of_lt_of_le ((hg c hc).wide_anchor ha hsym) (Subtree.size_child hc)
    | skipped | skipping => simp [Subtree.skipped] at hs
    | unreadable hu => cases hs.symm.trans hu.symbol_eq
  · exact h.wide_anchor (a := (.returnStatement, .kwReturn)) (by decide) hs

/-! ## Repairs outside documentation -/

/-- Outside documentation there is none. -/
theorem not_doc_rightSide {s : Symbol} {rhs : List Symbol} (h : rhs ∈ rightSides s)
    (hs : s ∉ Tree.docSymbols) : ∀ x ∈ rhs, x ∉ Tree.docSymbols := by
  have hall : ∀ rhs ∈ rightSides s, s ∉ Tree.docSymbols → ∀ x ∈ rhs, x ∉ Tree.docSymbols := by
    cases s <;> decide
  exact hall rhs h hs

theorem IsProduction.not_doc {s : Symbol} {p : Nat} {cs : List Subtree} (hp : IsProduction s p cs)
    (hg : ∀ c ∈ cs, Grown c) (hs : s ∉ Tree.docSymbols) : ∀ c ∈ cs, c.symbol ∉ Tree.docSymbols := by
  intro c hc
  by_cases he : c.isExtra = true
  · rcases (hg c hc).cases_extra he with h | h | ⟨h, -⟩ <;> rw [h] <;> decide
  · exact not_doc_rightSide hp.rhs hs _ (mem_spelling hc (by simpa using he))

/-- A production that has its price has a child that has. -/
theorem IsProduction.price {s : Symbol} {p : Nat} {cs : List Subtree} (hp : IsProduction s p cs)
    (hg : ∀ c ∈ cs, Grown c) :
    0 < (Subtree.ofChildren s p cs).errorCost ↔ ∃ c ∈ cs, 0 < c.errorCost := by
  rw [Nat.pos_iff_ne_zero, ne_eq, Subtree.errorCost_ofChildren_eq_zero hp.not_repair.1]
  constructor
  · intro h
    by_contra hall
    refine h fun c hc => .inr (Nat.eq_zero_of_not_pos fun hpos => hall ⟨c, hc, hpos⟩)
  · rintro ⟨c, hc, hpos⟩ hall
    rcases hall c hc with h | h
    · have herr := (hp.skipped hg c hc (by rw [h]; rfl)).1
      rw [h] at herr
      cases herr
    · omega

/-- Outside documentation, one of the repairs is no closing tag. -/
theorem exists_reported {t : Subtree} (h : Grown t) (hw : Wrapped t) (hs : t.symbol ∉ Tree.docSymbols)
    (hcost : 0 < t.errorCost) : ∃ r ∈ t.repairs, r.symbol ∉ Tree.closingTags := by
  induction h with
  | token ht => exact absurd ht.free (Nat.ne_of_gt hcost)
  | invented =>
    exact ⟨_, Subtree.mem_repairs_self rfl, fun hc => hs (List.mem_append_right _ hc)⟩
  | @production s p cs hp hg ih =>
    rw [Subtree.symbol_ofChildren] at hs
    obtain ⟨c, hc, hpos⟩ := (hp.price hg).mp hcost
    obtain ⟨r, hr, htag⟩ := ih c hc (hp.skipped hg c hc) (hp.not_doc hg hs c hc) hpos
    refine ⟨r, ?_, htag⟩
    rw [Subtree.repairs_eq, Subtree.children_ofChildren]
    exact List.mem_append_right _ (List.mem_flatMap.mpr ⟨c, hc, hr⟩)
  | skipped extra =>
    refine ⟨_, Subtree.mem_repairs_self (skipped_repair _ extra).1, ?_⟩
    simp [Subtree.skipped, Tree.closingTags]
  | skipping =>
    have herr := (hw (by simp [Symbol.isSkipped])).1
    simp at herr
  | unreadable hu => exact absurd hu.free (Nat.ne_of_gt hcost)

theorem IsRoot.children {root : Subtree} (h : IsRoot root) :
    (∀ c ∈ root.children, Grown c) ∧ root.facts.production = 0 := by
  cases h with
  | whole hg | gaveUp hg => exact ⟨hg, Subtree.production_ofChildren ..⟩

end Cicode.Parse

namespace Cicode.Tree

open Grammar Text Parse Cicode.Lex

/-! ## Nodes one after the other -/

namespace Node

/-- The byte at which a node begins. -/
def first (node : Node) : Nat := node.label.start.bytes

/-- The byte at which a node ends. -/
def last (node : Node) : Nat := node.label.stop.bytes

end Node

/-- Nodes stand one after the other between two places. -/
def Spread (low high : Nat) : List Node → Prop
  | [] => low ≤ high
  | node :: rest => low ≤ node.first ∧ node.first ≤ node.last ∧ Spread node.last high rest

namespace Spread

variable {low mid high : Nat} {a b : List Node}

theorem le (h : Spread low high a) : low ≤ high := by
  induction a generalizing low with
  | nil => exact h
  | cons node rest ih => exact Nat.le_trans h.1 (Nat.le_trans h.2.1 (ih h.2.2))

theorem append (h : Spread low mid a) (h' : Spread mid high b) : Spread low high (a ++ b) := by
  induction a generalizing low with
  | nil =>
    cases b with
    | nil => exact Nat.le_trans h h'
    | cons node rest => exact ⟨Nat.le_trans h h'.1, h'.2⟩
  | cons node rest ih => exact ⟨h.1, h.2.1, ih h.2.2⟩

theorem mono_low {low' : Nat} (h : Spread low high a) (hle : low' ≤ low) : Spread low' high a := by
  cases a with
  | nil => exact Nat.le_trans hle h
  | cons node rest => exact ⟨Nat.le_trans hle h.1, h.2⟩

theorem mono_high {high' : Nat} (h : Spread low high a) (hle : high ≤ high') : Spread low high' a := by
  induction a generalizing low with
  | nil => exact Nat.le_trans h hle
  | cons node rest ih => exact ⟨h.1, h.2.1, ih h.2.2⟩

/-- The nodes of a first and of a second part are separated by a place. -/
theorem of_append (h : Spread low high (a ++ b)) : ∃ mid, Spread low mid a ∧ Spread mid high b := by
  induction a generalizing low with
  | nil => exact ⟨low, Nat.le_refl low, h⟩
  | cons node rest ih =>
    obtain ⟨mid, h1, h2⟩ := ih h.2.2
    exact ⟨mid, ⟨h.1, h.2.1, h1⟩, h2⟩

/-- The same holds of some of the nodes. -/
theorem sublist (h : Spread low high a) (hb : b.Sublist a) : Spread low high b := by
  induction hb generalizing low with
  | slnil => exact h
  | cons node _ ih => exact (ih h.2.2).mono_low (Nat.le_trans h.1 h.2.1)
  | cons_cons node _ ih => exact ⟨h.1, h.2.1, ih h.2.2⟩

/-- Each of the nodes lies between the places. -/
theorem inside (h : Spread low high a) {node : Node} (hn : node ∈ a) :
    low ≤ node.first ∧ node.first ≤ node.last ∧ node.last ≤ high := by
  induction a generalizing low with
  | nil => cases hn
  | cons other rest ih =>
    rcases List.mem_cons.mp hn with rfl | hn
    · exact ⟨h.1, h.2.1, h.2.2.le⟩
    · obtain ⟨h1, h2⟩ := ih h.2.2 hn
      exact ⟨Nat.le_trans (Nat.le_trans h.1 h.2.1) h1, h2⟩

/-- Of two of the nodes one ends before the other begins. -/
theorem pairwise (h : Spread low high a) : a.Pairwise fun x y => x.last ≤ y.first := by
  induction a generalizing low with
  | nil => exact .nil
  | cons node rest ih =>
    exact .cons (fun other ho => (h.2.2.inside ho).1) (ih h.2.2)

end Spread

/-- Where the tree begins in bytes. -/
def View.first (v : View) : Nat := v.position.bytes + v.tree.facts.padding.bytes

/-- Where it ends. -/
def View.last (v : View) : Nat := v.first + v.tree.facts.size.bytes

/-- The nodes of the children of a production stand one after the other. -/
theorem spread_views {production : Nat} {inherited : Option Field} {cs : List Subtree} (place : Nat)
    (position : Extent) (low : Nat) (hlow : low ≤ position.bytes ∨
      ∃ c rest, cs = c :: rest ∧ low ≤ position.bytes + c.facts.padding.bytes)
    (h : ∀ v ∈ views production place position inherited cs, Spread v.first v.last v.nodes) :
    Spread low (position.bytes + Subtree.bytesOf cs)
      ((views production place position inherited cs).flatMap View.nodes) := by
  induction cs generalizing place position low with
  | nil =>
    rcases hlow with hlow | ⟨c, rest, hcs, -⟩
    · exact hlow
    · cases hcs
  | cons c cs ih =>
    rw [views] at h ⊢
    rw [List.flatMap_cons]
    have hfirst := h _ List.mem_cons_self
    have hrest := ih _ (position + c.totalSize) (position + c.totalSize).bytes (.inl (Nat.le_refl _))
      fun v hv => h v (List.mem_cons_of_mem _ hv)
    have hlow' : low ≤ position.bytes + c.facts.padding.bytes := by
      rcases hlow with hlow | ⟨d, rest, hcs, hlow⟩
      · exact Nat.le_trans hlow (Nat.le_add_right ..)
      · obtain ⟨rfl, -⟩ := List.cons.inj hcs
        exact hlow
    have hend : position.bytes + Subtree.bytesOf (c :: cs) =
        (position + c.totalSize).bytes + Subtree.bytesOf cs := by
      rw [Subtree.bytesOf_cons, Extent.bytes_add, Subtree.bytes_totalSize]
      omega
    rw [hend]
    refine Spread.append ?_ hrest
    have hplace : ∀ w : View, w.position = position → w.tree = c → Spread w.first w.last w.nodes →
        Spread low (position + c.totalSize).bytes w.nodes := by
      rintro w rfl rfl hw
      rw [Extent.bytes_add, Subtree.bytes_totalSize, ← Nat.add_assoc]
      exact hw.mono_low hlow'
    refine hplace _ ?_ ?_ hfirst <;> split <;> rfl

/-! ## Sound nodes -/

/-- The node is no part of documentation, and has its price if it stands for skipped text. -/
def Node.IsCode (node : Node) : Prop :=
  node.kind ∉ docSymbols ∧ node.kind ≠ .endOfInput ∧ (node.kind = .error → node.hasError = true)

/-- What is known of a single node. -/
structure Node.Fair (node : Node) : Prop where
  spread : Spread node.first node.last node.children
  price : ∀ child ∈ node.children, child.hasError = true → node.hasError = true
  wide : node.hasError = false → node.kind ∉ [.sourceFile, .error, .endOfInput] → node.first < node.last
  wide_statement : node.kind = .statementOrExpression ∨ node.kind = .returnStatement →
    node.first < node.last
  code : node.kind ∉ docSymbols → node.kind ≠ .error → ∀ child ∈ node.children, child.IsCode
  field : ∀ child ∈ node.children, child.label.field.isSome = true → child.kind ≠ .error
  reported : node.kind ∉ docSymbols → node.hasError = true → ∀ source, Problem.under source node ≠ []

/-- What is known of all nodes of a tree. -/
inductive Node.Sound : Node → Prop
  | mk {node : Node} : node.Fair → (∀ child ∈ node.children, child.Sound) → node.Sound

theorem Node.Sound.fair {node : Node} (h : node.Sound) : node.Fair := by
  cases h with
  | mk hf _ => exact hf

theorem Node.Sound.child {node child : Node} (h : node.Sound) (hc : child ∈ node.children) :
    child.Sound := by
  cases h with
  | mk _ hall => exact hall child hc

/-- What a production may show of a tree. -/
structure View.Coded (v : View) : Prop where
  plain : v.Plain
  kind : ∀ kind, v.shown = some kind →
    kind ∉ docSymbols ∧ kind ≠ .statementOrExpression ∧ kind ≠ .returnStatement ∧ kind ≠ .endOfInput
  symbol : v.shown.isSome = true → v.tree.symbol ∉ docSymbols ∧ v.tree.symbol ≠ .endOfInput
  field : v.field.isSome = true → v.tree.symbol.isSkipped = false

/-- A field refers to the children that a production spells. -/
theorem field_views {production place : Nat} {position : Extent} {inherited : Option Field}
    {trees : List Subtree} {v : View} (h : v ∈ views production place position inherited trees)
    (hf : v.field.isSome = true) : v.tree.isExtra = false ∧
      (inherited.isSome = true ∨ ∃ place, (fieldAt production place).isSome = true) := by
  induction trees generalizing place position with
  | nil => cases h
  | cons tree rest ih =>
    rw [views] at h
    rcases List.mem_cons.mp h with rfl | h
    · by_cases hx : tree.isExtra = true
      · rw [if_pos hx] at hf
        cases hf
      · rw [if_neg hx] at hf ⊢
        refine ⟨by simpa using hx, ?_⟩
        cases hat : fieldAt production place with
        | none =>
          refine .inl ?_
          simpa [hat] using hf
        | some field => exact .inr ⟨place, by rw [hat]; rfl⟩
    · exact ih h

theorem coded_views {s : Symbol} {p : Nat} {cs : List Subtree} (hp : IsProduction s p cs)
    {position : Extent} {inherited : Option Field} {v : View} (h : v ∈ views p 0 position inherited cs) :
    v.Coded := by
  refine ⟨plain_views hp h, fun kind hk => ?_, fun hs => ?_, fun hf => ?_⟩
  · obtain ⟨-, pre, post, -, heq⟩ := (mem_views h).2 (by rw [hk]; rfl)
    exact (shownKind_kinds (heq.symm.trans hk)).2
  · obtain ⟨hmem, hdoc⟩ := shown_views hp h hs
    exact ⟨hdoc, (mem_rightSide hp.rhs _ hmem).2.2⟩
  · exact (mem_rightSide hp.rhs _ (mem_spelling (mem_views h).1 (field_views h hf).1)).1

theorem shown_views_zero {cs : List Subtree} {position : Extent} {inherited : Option Field} {v : View}
    (h : v ∈ views 0 0 position inherited cs) : v.shown = none := by
  by_contra hne
  have hs := Option.isSome_iff_ne_none.mpr hne
  obtain ⟨-, pre, post, -, heq⟩ := (mem_views h).2 hs
  rw [heq, shownKind_zero] at hs
  cases hs

theorem coded_views_zero {cs : List Subtree} {position : Extent} {v : View}
    (h : v ∈ views 0 0 position none cs) : v.Coded := by
  have hnone := shown_views_zero h
  refine ⟨plain_views_zero h, fun kind hk => ?_, fun hs => ?_, fun hf => ?_⟩
  · rw [hnone] at hk
    cases hk
  · rw [hnone] at hs
    cases hs
  · obtain ⟨place, hplace⟩ := (field_views h hf).2.resolve_left (by simp)
    cases hplace

/-- What is known of the nodes that a tree becomes. -/
structure View.Laid (v : View) : Prop where
  spread : Spread v.first v.last v.nodes
  sound : ∀ node ∈ v.nodes, node.Sound
  price : ∀ node ∈ v.nodes, node.hasError = true → 0 < v.tree.errorCost
  code : v.tree.symbol ∉ docSymbols → Wrapped v.tree → ∀ node ∈ v.nodes, node.IsCode
  field : ∀ node ∈ v.nodes, node.label.field.isSome = true → node.kind ≠ .error

namespace View

variable {v : View}

/-- The nodes of the children stand one after the other inside the tree. -/
theorem spread_inner (hsize : v.tree.Filled) (hin : ∀ w ∈ v.inner, w.Laid) :
    Spread v.first v.last (v.inner.flatMap nodes) := by
  have hspread : ∀ w ∈ v.inner, Spread w.first w.last w.nodes := fun w hw => (hin w hw).spread
  rw [inner] at hspread ⊢
  cases hcs : v.tree.children with
  | nil => exact Nat.le_add_right ..
  | cons c rest =>
    obtain ⟨hpad, hbytes⟩ := hsize c rest hcs
    have hlast : v.last = v.position.bytes + Subtree.bytesOf (c :: rest) := by
      rw [View.last, View.first, hpad, hbytes, Subtree.bytesOf_cons]
      omega
    rw [hlast]
    rw [hcs] at hspread
    exact spread_views 0 v.position v.first
      (.inr ⟨c, rest, rfl, by rw [View.first, hpad]⟩) hspread

/-- A tree whose child has its price has its price. -/
theorem price_inner (h : Grown v.tree) : ∀ w ∈ v.inner, 0 < w.tree.errorCost → 0 < v.tree.errorCost := by
  intro w hw hcost
  have hmem : w.tree ∈ v.tree.children := (mem_views hw).1
  generalize v.tree = t at h hmem ⊢
  cases h with
  | token | invented | unreadable => cases hmem
  | production hp hg => exact (hp.price hg).mpr ⟨w.tree, hmem, hcost⟩
  | skipped extra => exact (skipped_repair _ extra).2
  | skipping => exact Subtree.errorCost_skipped_pos rfl ..

/-- Outside documentation there is none. -/
theorem code_inner (h : Grown v.tree) (hdoc : v.tree.symbol ∉ docSymbols)
    (hskip : v.tree.symbol.isSkipped = false) :
    ∀ w ∈ v.inner, w.tree.symbol ∉ docSymbols ∧ Wrapped w.tree := by
  intro w hw
  have hmem : w.tree ∈ v.tree.children := (mem_views hw).1
  generalize v.tree = t at h hmem hdoc hskip
  cases h with
  | token | invented | unreadable => cases hmem
  | production hp hg =>
    rw [Subtree.symbol_ofChildren] at hdoc
    exact ⟨hp.not_doc hg hdoc _ hmem, hp.skipped hg _ hmem⟩
  | skipped | skipping => simp [Subtree.skipped, Symbol.isSkipped] at hskip

/-- The kind of a node that is not shown under another one is the symbol of its tree. -/
theorem isSkipped_of_shown (hc : v.Coded) (hs : v.isShown = true) (hk : v.label.kind ≠ .error) :
    v.tree.symbol.isSkipped = false := by
  cases hshown : v.shown with
  | some kind => exact (hc.plain.symbol (by rw [hshown]; rfl)).1
  | none =>
    have hkind : v.label.kind = v.tree.symbol := by simp [label, hshown]
    rw [hkind] at hk
    simp only [isShown, hshown, Option.isSome_none, Bool.false_or, Subtree.isVisible] at hs
    revert hk hs
    cases v.tree.symbol <;> decide

theorem not_doc_of_shown (hc : v.Coded) (hk : v.label.kind ∉ docSymbols) : v.tree.symbol ∉ docSymbols := by
  cases hshown : v.shown with
  | some kind => exact (hc.symbol (by rw [hshown]; rfl)).1
  | none =>
    have hkind : v.label.kind = v.tree.symbol := by simp [label, hshown]
    exact hkind ▸ hk

theorem wide_label (h : Grown v.tree) (hc : v.Coded) (hs : v.isShown = true)
    (hfree : v.tree.errorCost = 0) (hroot : v.label.kind ≠ .sourceFile) (hk : v.label.kind ≠ .error) :
    0 < v.tree.facts.size.bytes := by
  have hskip := isSkipped_of_shown hc hs hk
  cases hshown : v.shown with
  | some kind =>
    obtain ⟨hdoc, hend⟩ := hc.symbol (by rw [hshown]; rfl)
    exact h.wide hfree hskip (fun hr => hdoc (by rw [hr]; decide)) hend
  | none =>
    have hkind : v.label.kind = v.tree.symbol := by simp [label, hshown]
    rw [hkind] at hroot
    refine h.wide hfree hskip hroot fun hend => ?_
    simp only [isShown, hshown, Option.isSome_none, Bool.false_or, Subtree.isVisible, hend] at hs
    cases hs

theorem wide_statement_label (h : Grown v.tree) (hc : v.Coded)
    (hk : v.label.kind = .statementOrExpression ∨ v.label.kind = .returnStatement) :
    0 < v.tree.facts.size.bytes := by
  cases hshown : v.shown with
  | some kind =>
    obtain ⟨-, h1, h2, -⟩ := hc.kind kind hshown
    have hkind : v.label.kind = kind := by simp [label, hshown]
    rw [hkind] at hk
    rcases hk with hk | hk
    · exact absurd hk h1
    · exact absurd hk h2
  | none =>
    have hkind : v.label.kind = v.tree.symbol := by simp [label, hshown]
    exact h.wide_statement (hkind ▸ hk)

theorem reported_node (h : Grown v.tree) (hc : v.Coded) (hs : v.isShown = true)
    (hk : v.label.kind ∉ docSymbols) (hcost : 0 < v.tree.errorCost) (source : Source) :
    Problem.under source (.node v.label (v.inner.flatMap nodes)) ≠ [] := by
  have hw : Wrapped v.tree := by
    intro hskip
    refine ⟨?_, hcost⟩
    have hnone : v.shown = none := by
      by_contra hne
      have := (hc.plain.symbol (Option.isSome_iff_ne_none.mpr hne)).1
      rw [hskip] at this
      cases this
    simp only [isShown, hnone, Option.isSome_none, Bool.false_or, Subtree.isVisible] at hs
    revert hskip hs
    cases v.tree.symbol <;> decide
  obtain ⟨r, hr, htag⟩ := exists_reported h hw (not_doc_of_shown hc hk) hcost
  intro hnil
  refine htag ((@under_eq_nil_iff source _ h hw v rfl hc.plain).mp (fun node hn => ?_) r hr)
  rw [v.nodes_eq, if_pos hs, List.mem_singleton] at hn
  rw [hn]
  exact hnil

/-- A tree outside documentation becomes a node outside documentation. -/
theorem isCode_label (hc : v.Coded) (hs : v.isShown = true) (hdoc : v.tree.symbol ∉ docSymbols)
    (hw : Wrapped v.tree) {children : List Node} : (Node.node v.label children).IsCode := by
  show v.label.kind ∉ docSymbols ∧ v.label.kind ≠ .endOfInput ∧
    (v.label.kind = .error → decide (0 < v.tree.errorCost) = true)
  cases hshown : v.shown with
  | some kind =>
    obtain ⟨h1, -, -, h2⟩ := hc.kind kind hshown
    have hkind : v.label.kind = kind := by simp [label, hshown]
    rw [hkind]
    exact ⟨h1, h2, fun hk => absurd (hshown.trans (congrArg some hk)) hc.plain.shown_ne⟩
  | none =>
    have hkind : v.label.kind = v.tree.symbol := by simp [label, hshown]
    rw [hkind]
    refine ⟨hdoc, fun hend => ?_, fun hk => decide_eq_true (hw (by rw [hk]; rfl)).2⟩
    simp only [isShown, hshown, Option.isSome_none, Bool.false_or, Subtree.isVisible, hend] at hs
    cases hs

/-- The node of a visible tree, above those of the children. -/
theorem fair_node (h : Grown v.tree) (hc : v.Coded) (hin : ∀ w ∈ v.inner, w.Laid)
    (hs : v.isShown = true) : (Node.node v.label (v.inner.flatMap nodes)).Fair := by
  have hcost : ∀ b, (Node.node v.label (v.inner.flatMap nodes)).hasError = b ↔
      decide (0 < v.tree.errorCost) = b := fun b => Iff.rfl
  have hwide : 0 < v.tree.facts.size.bytes → v.first < v.last := by
    rw [View.last]
    omega
  refine ⟨spread_inner h.filled hin, ?_, ?_, ?_, ?_, ?_, ?_⟩
  · intro child hchild herr
    obtain ⟨w, hw, hmem⟩ := List.mem_flatMap.mp hchild
    rw [hcost, decide_eq_true_iff]
    exact price_inner h w hw ((hin w hw).price child hmem herr)
  · intro herr hk
    simp only [List.mem_cons, not_or] at hk
    rw [hcost, decide_eq_false_iff_not, Nat.not_lt, Nat.le_zero] at herr
    exact hwide (wide_label h hc hs herr hk.1 hk.2.1)
  · exact fun hk => hwide (wide_statement_label h hc hk)
  · intro hdoc hk child hchild
    obtain ⟨w, hw, hmem⟩ := List.mem_flatMap.mp hchild
    obtain ⟨h1, h2⟩ := code_inner h (not_doc_of_shown hc hdoc) (isSkipped_of_shown hc hs hk) w hw
    exact (hin w hw).code h1 h2 child hmem
  · intro child hchild hf
    obtain ⟨w, hw, hmem⟩ := List.mem_flatMap.mp hchild
    exact (hin w hw).field child hmem hf
  · intro hk herr source
    rw [hcost, decide_eq_true_iff] at herr
    exact reported_node h hc hs hk herr source

/-- A tree is laid out if its children are. -/
theorem laid_of_inner (h : Grown v.tree) (hc : v.Coded) (hin : ∀ w ∈ v.inner, w.Laid) : v.Laid := by
  have hnodes := v.nodes_eq
  by_cases hs : v.isShown = true
  · rw [if_pos hs] at hnodes
    have hfair := fair_node h hc hin hs
    refine ⟨?_, ?_, ?_, ?_, ?_⟩ <;> rw [hnodes]
    · exact ⟨Nat.le_refl _, hfair.spread.le, Nat.le_refl _⟩
    · intro node hn
      obtain rfl := List.mem_singleton.mp hn
      refine .mk hfair fun child hchild => ?_
      obtain ⟨w, hw, hmem⟩ := List.mem_flatMap.mp hchild
      exact (hin w hw).sound child hmem
    · intro node hn herr
      obtain rfl := List.mem_singleton.mp hn
      exact of_decide_eq_true herr
    · intro hdoc hw node hn
      obtain rfl := List.mem_singleton.mp hn
      exact isCode_label hc hs hdoc hw
    · intro node hn hf hk
      obtain rfl := List.mem_singleton.mp hn
      have hskip := hc.field hf
      cases hshown : v.shown with
      | some kind =>
        have hkind : v.label.kind = kind := by simp [label, hshown]
        exact hc.plain.shown_ne (hshown.trans (congrArg some (hkind.symm.trans hk)))
      | none =>
        have hkind : v.label.kind = v.tree.symbol := by simp [label, hshown]
        rw [← hkind, show v.label.kind = .error from hk] at hskip
        cases hskip
  · rw [if_neg hs] at hnodes
    refine ⟨?_, ?_, ?_, ?_, ?_⟩ <;> rw [hnodes]
    · exact spread_inner h.filled hin
    · intro node hn
      obtain ⟨w, hw, hmem⟩ := List.mem_flatMap.mp hn
      exact (hin w hw).sound node hmem
    · intro node hn herr
      obtain ⟨w, hw, hmem⟩ := List.mem_flatMap.mp hn
      exact price_inner h w hw ((hin w hw).price node hmem herr)
    · intro hdoc hw node hn
      obtain ⟨w, hmemw, hmem⟩ := List.mem_flatMap.mp hn
      have hskip : v.tree.symbol.isSkipped = false := by
        by_contra hne
        simp only [isShown, Bool.or_eq_true, not_or, Subtree.isVisible] at hs
        rw [(hw (by simpa using hne)).1] at hs
        exact hs.2 rfl
      obtain ⟨h1, h2⟩ := code_inner h hdoc hskip w hmemw
      exact (hin w hmemw).code h1 h2 node hmem
    · intro node hn hf
      obtain ⟨w, hw, hmem⟩ := List.mem_flatMap.mp hn
      exact (hin w hw).field node hmem hf

end View

/-- **The nodes that a tree becomes are sound.** -/
theorem laid_of_grown {t : Subtree} (h : Grown t) (v : View) (ht : v.tree = t) (hc : v.Coded) :
    v.Laid := by
  induction h generalizing v with
  | @token facts hf =>
    have hinner : v.inner = [] := by rw [View.inner, ht]; rfl
    exact View.laid_of_inner (ht ▸ .token hf) hc (by simp [hinner])
  | @invented s hs =>
    have hinner : v.inner = [] := by rw [View.inner, ht]; rfl
    exact View.laid_of_inner (ht ▸ .invented hs) hc (by simp [hinner])
  | @unreadable facts hu =>
    have hinner : v.inner = [] := by rw [View.inner, ht]; rfl
    exact View.laid_of_inner (ht ▸ .unreadable hu) hc (by simp [hinner])
  | @production s p cs hp hg ih =>
    refine View.laid_of_inner (ht ▸ .production hp hg) hc fun w hw => ?_
    rw [View.inner, ht, Subtree.production_ofChildren, Subtree.children_ofChildren] at hw
    exact ih w.tree (mem_views hw).1 w rfl (coded_views hp hw)
  | @skipped cs extra hg hnotExtra ih =>
    refine View.laid_of_inner (ht ▸ .skipped extra hg hnotExtra) hc fun w hw => ?_
    have hprod : (Subtree.skipped cs extra).facts.production = 0 := Subtree.production_ofChildren ..
    have hnone : (if v.isShown = true then none else v.field) = none := if_pos (by
      have hvisible : (Subtree.skipped cs extra).isVisible = true := by
        rw [Subtree.isVisible, Subtree.skipped, Subtree.symbol_withExtra, Subtree.symbol_ofChildren]
        rfl
      rw [View.isShown, ht, hvisible, Bool.or_true])
    rw [View.inner, hnone, ht, hprod, Subtree.skipped, Subtree.children_withExtra,
      Subtree.children_ofChildren] at hw
    exact ih w.tree (mem_views hw).1 w rfl (coded_views_zero hw)
  | @skipping cs hg ih =>
    refine View.laid_of_inner (ht ▸ .skipping hg) hc fun w hw => ?_
    have hnone : (if v.isShown = true then none else v.field) = none := by
      cases hf : v.field with
      | none => exact ite_self none
      | some field =>
        have hskip := hc.field (by rw [hf]; rfl)
        rw [ht, Subtree.symbol_ofChildren] at hskip
        cases hskip
    rw [View.inner, hnone, ht, Subtree.production_ofChildren, Subtree.children_ofChildren] at hw
    exact ih w.tree (mem_views hw).1 w rfl (coded_views_zero hw)

/-- The root is fair if its children are laid out. -/
theorem fair_root {root : Subtree} (h : IsRoot root) (hin : ∀ w ∈ (rootView root).inner, w.Laid) :
    (Node.ofSubtree root).Fair := by
  have herror := hasError_ofSubtree root
  have hkind : (Node.ofSubtree root).kind = root.symbol := by rw [ofSubtree_eq]; rfl
  have hchild : ∀ child ∈ (Node.ofSubtree root).children, child.hasError = true →
      ∃ c ∈ root.children, 0 < c.errorCost := by
    rw [ofSubtree_eq]
    intro child hmem herr
    obtain ⟨w, hw, hn⟩ := List.mem_flatMap.mp hmem
    exact ⟨w.tree, (mem_views hw).1, (hin w hw).price child hn herr⟩
  have hspread : Spread (Node.ofSubtree root).first (Node.ofSubtree root).last
      (Node.ofSubtree root).children := by
    rw [ofSubtree_eq]
    refine View.spread_inner ?_ hin
    cases h <;> exact Subtree.filled_ofChildren _ _ _
  have hfield : ∀ child ∈ (Node.ofSubtree root).children, child.label.field.isSome = true →
      child.kind ≠ .error := by
    rw [ofSubtree_eq]
    intro child hmem
    obtain ⟨w, hw, hn⟩ := List.mem_flatMap.mp hmem
    exact (hin w hw).field child hn
  cases h with
  | @whole cs hg hskip =>
    rw [Subtree.symbol_ofChildren] at hkind
    refine ⟨hspread, fun child hmem herr => ?_, ?_, ?_, ?_, hfield, ?_⟩
    · obtain ⟨c, hc, hcost⟩ := hchild child hmem herr
      rw [herror, decide_eq_true_iff, Nat.pos_iff_ne_zero, ne_eq,
        Subtree.errorCost_ofChildren_eq_zero rfl]
      intro hall
      rcases hall c hc with hr | h0
      · obtain ⟨d, hd, hsym, hpos⟩ := hskip ⟨c, hc, by rw [hr]; rfl⟩
        rcases hall d hd with hr | h0
        · rw [hsym] at hr
          cases hr
        · omega
      · omega
    · exact fun _ hk => absurd hkind (by simp_all)
    · rw [hkind]
      exact fun hk => absurd hk (by decide)
    · rw [hkind]
      exact fun hk => absurd hk (by decide)
    · rw [hkind]
      exact fun hk => absurd hk (by decide)
  | @gaveUp cs hg =>
    rw [Subtree.symbol_ofChildren] at hkind
    have hcost : 0 < (Subtree.ofChildren .error 0 cs).errorCost := Subtree.errorCost_skipped_pos rfl ..
    have herr : (Node.ofSubtree (.ofChildren .error 0 cs)).hasError = true := by
      rw [herror]
      exact decide_eq_true hcost
    refine ⟨hspread, fun _ _ _ => herr, ?_, ?_, ?_, hfield, ?_⟩
    · exact fun h => absurd (herr.symm.trans h) (by decide)
    · rw [hkind]
      exact fun hk => absurd hk (by decide)
    · exact fun _ hk => absurd hkind hk
    · intro _ _ source hnil
      rw [Problem.under_eq, herr, if_pos rfl] at hnil
      split at hnil
      · cases hnil
      · rename_i hnone
        exact beq_eq_false_iff_ne.mp (ofNode?_eq_none.mp hnone).2 hkind

theorem sound_root {root : Subtree} (h : IsRoot root) : (Node.ofSubtree root).Sound := by
  obtain ⟨hgrown, hprod⟩ := h.children
  have hin : ∀ w ∈ (rootView root).inner, w.Laid := by
    intro w hw
    have hw' : w ∈ views 0 0 0 none root.children := by
      rw [View.inner, if_pos (isShown_rootView _)] at hw
      exact hprod ▸ hw
    exact laid_of_grown (hgrown _ (mem_views hw').1) w rfl (coded_views_zero hw')
  refine .mk (fair_root h hin) fun child hchild => ?_
  rw [ofSubtree_eq] at hchild
  obtain ⟨w, hw, hmem⟩ := List.mem_flatMap.mp hchild
  exact (hin w hw).sound child hmem

/-- **All nodes of the syntax tree of a text are sound.** -/
theorem sound_parse (chars : List Char) : (Node.parse chars).Sound := sound_root (isRoot_parse chars)

end Cicode.Tree
