import Cicode.Proofs.Program.Counter
import Cicode.Proofs.Program.Failures
import Cicode.Proofs.Program.Relocation

/-!
# Twin trees

Two syntax trees are *twins* if a relation between their nodes keeps what lowering asks of a node: its kind,
the field it has, the text of its words and its children without comments (`Twins`).  Their places may
differ, as long as two relocations bring the places of related nodes together.

Lowering of related nodes gives the same in other places (`Meets`), or fails in both trees; it fails with the
same error where a limit is passed (`Agrees`).

Main statement (`Twins.lower`): twins are lowered to the same functions in other places, and the same is left
out.
-/

namespace Cicode.Program

open Grammar Text Cicode.Lex Cicode.Tree

/-! ## Results that agree -/

/-- The errors are the same, if one of them says that a limit is passed. -/
def LowerError.Alike (e e' : LowerError) : Prop := e.IsLimit ∨ e'.IsLimit → e = e'

/-- Both become the same. -/
def Meets {α β : Type} (f f' : α → β) (a a' : α) : Prop := f a = f' a'

theorem Meets.fst {α β γ : Type} {f f' : β → γ} {a a' : α × β} (h : Meets (Prod.map id f) (Prod.map id f') a a') :
    a.1 = a'.1 := by
  have hfirst := congrArg Prod.fst (h : Prod.map id f a = Prod.map id f' a')
  exact hfirst

theorem Meets.snd {α β γ : Type} {f f' : β → γ} {a a' : α × β} (h : Meets (Prod.map id f) (Prod.map id f') a a') :
    f a.2 = f' a'.2 := by
  have hsecond := congrArg Prod.snd (h : Prod.map id f a = Prod.map id f' a')
  exact hsecond

/-- Both results are values that are related, or errors that are alike. -/
inductive Agrees {α β : Type} (S : α → β → Prop) : Lowered α → Lowered β → Prop
  | ok {a : α} {b : β} : S a b → Agrees S (.ok a) (.ok b)
  | error {e e' : LowerError} : e.Alike e' → Agrees S (.error e) (.error e')

namespace Agrees

variable {α α' β β' : Type} {S : α → α' → Prop} {T : β → β' → Prop} {x : Lowered α} {x' : Lowered α'}

theorem same (e : LowerError) : Agrees S (.error e) (.error e) := .error fun _ => rfl

theorem unexpected (text text' : String) : Agrees S (.error (.unexpected text)) (.error (.unexpected text')) :=
  .error fun h => h.elim False.elim False.elim

theorem refl (x : Lowered α) : Agrees Eq x x := by
  cases x with
  | ok a => exact .ok rfl
  | error e => exact .same e

theorem bind {f : α → Lowered β} {f' : α' → Lowered β'} (h : Agrees S x x')
    (hf : ∀ a a', S a a' → Agrees T (f a) (f' a')) : Agrees T (x >>= f) (x' >>= f') := by
  cases h with
  | ok hs => exact hf _ _ hs
  | error he => exact .error he

theorem map {f : α → β} {f' : α' → β'} (h : Agrees S x x') (hf : ∀ a a', S a a' → T (f a) (f' a')) :
    Agrees T (x.map f) (x'.map f') := by
  cases h with
  | ok hs => exact .ok (hf _ _ hs)
  | error he => exact .error he

theorem mapM {γ γ' : Type} {R : γ → γ' → Prop} {f : γ → Lowered α} {f' : γ' → Lowered α'} {l : List γ}
    {l' : List γ'} (h : List.Forall₂ R l l') (hf : ∀ c c', R c c' → Agrees S (f c) (f' c')) :
    Agrees (List.Forall₂ S) (l.mapM f) (l'.mapM f') := by
  induction h with
  | nil => exact .ok .nil
  | cons hc _ ih =>
    rw [List.mapM_cons, List.mapM_cons]
    exact (hf _ _ hc).bind fun _ _ ha => ih.bind fun _ _ has => .ok (.cons ha has)

theorem foldlM {γ γ' : Type} {R : γ → γ' → Prop} {f : α → γ → Lowered α} {f' : α' → γ' → Lowered α'}
    {l : List γ} {l' : List γ'} (h : List.Forall₂ R l l')
    (hf : ∀ a a' c c', S a a' → R c c' → Agrees S (f a c) (f' a' c')) {a : α} {a' : α'} (ha : S a a') :
    Agrees S (l.foldlM f a) (l'.foldlM f' a') := by
  induction h generalizing a a' with
  | nil => exact .ok ha
  | cons hc _ ih =>
    rw [List.foldlM_cons, List.foldlM_cons]
    exact (hf _ _ _ _ ha hc).bind fun _ _ hb => ih hb

theorem require (part : Part) {o : Option α} {o' : Option α'} (h : Option.Rel S o o') :
    Agrees S (require part o) (require part o') := by
  cases h with
  | some hs => exact .ok hs
  | none => exact .same _

end Agrees

/-- The nodes that were left out are related, and the errors are alike. -/
def Lost (R : Node → Node → Prop) (d d' : Dropped) : Prop := R d.node d'.node ∧ d.cause.Alike d'.cause

/-- Both values become the same, and the same was left out of them. -/
def Leaves {α β : Type} (R : Node → Node → Prop) (f f' : α → β) (a a' : α × List Dropped) : Prop :=
  f a.1 = f' a'.1 ∧ List.Forall₂ (Lost R) a.2 a'.2

/-- One more value in front, with what was left out of it. -/
theorem Leaves.cons {α β : Type} {R : Node → Node → Prop} {f f' : α → β} {a a' : α × List Dropped}
    {l l' : List α × List Dropped} (h : Leaves R f f' a a') (hl : Leaves R (List.map f) (List.map f') l l') :
    Leaves R (List.map f) (List.map f') (a.1 :: l.1, a.2 ++ l.2) (a'.1 :: l'.1, a'.2 ++ l'.2) := by
  refine ⟨?_, List.rel_append h.2 hl.2⟩
  show f a.1 :: l.1.map f = f' a'.1 :: l'.1.map f'
  rw [h.1, show l.1.map f = l'.1.map f' from hl.1]

/-! ## Related lists -/

section

variable {α β : Type} {R : α → β → Prop} {l : List α} {l' : List β}

theorem rel_head? (h : List.Forall₂ R l l') : Option.Rel R l.head? l'.head? := by
  cases h with
  | nil => exact .none
  | cons hr _ => exact .some hr

theorem rel_find? {p : α → Bool} {p' : β → Bool} (h : List.Forall₂ R l l')
    (hp : ∀ a b, R a b → p a = p' b) : Option.Rel R (l.find? p) (l'.find? p') := by
  induction h with
  | nil => exact .none
  | @cons a b l l' hr _ ih =>
    rw [List.find?_cons, List.find?_cons, hp a b hr]
    cases p' b with
    | true => exact .some hr
    | false => exact ih

theorem rel_bind {γ δ : Type} {S : γ → δ → Prop} {o : Option α} {o' : Option β} {f : α → Option γ}
    {f' : β → Option δ} (h : Option.Rel R o o') (hf : ∀ a b, R a b → Option.Rel S (f a) (f' b)) :
    Option.Rel S (o.bind f) (o'.bind f') := by
  cases h with
  | some hr => exact hf _ _ hr
  | none => exact .none

theorem rel_takeWhile {p : α → Bool} {p' : β → Bool} (h : List.Forall₂ R l l')
    (hp : ∀ a b, R a b → p a = p' b) : List.Forall₂ R (l.takeWhile p) (l'.takeWhile p') := by
  induction h with
  | nil => exact .nil
  | @cons a b l l' hr _ ih =>
    rw [List.takeWhile_cons, List.takeWhile_cons, hp a b hr]
    split
    · exact .cons hr ih
    · exact .nil

theorem rel_dropWhile {p : α → Bool} {p' : β → Bool} (h : List.Forall₂ R l l')
    (hp : ∀ a b, R a b → p a = p' b) : List.Forall₂ R (l.dropWhile p) (l'.dropWhile p') := by
  induction h with
  | nil => exact .nil
  | @cons a b l l' hr h ih =>
    rw [List.dropWhile_cons, List.dropWhile_cons, hp a b hr]
    split
    · exact ih
    · exact .cons hr h

theorem meets_map {γ : Type} {f f' : α → γ} {l l' : List α} (h : List.Forall₂ (Meets f f') l l') :
    l.map f = l'.map f' := by
  induction h with
  | nil => rfl
  | cons hm _ ih => rw [List.map_cons, List.map_cons, hm, ih]

end

/-! ## Documentation in other places -/

section

variable (g : Span → Span) (doc : Doc)

theorem Doc.relocate_addSummary (content : String) :
    (doc.addSummary content).relocate g = (doc.relocate g).addSummary content := rfl

theorem Doc.relocate_addReturns (content : String) :
    (doc.addReturns content).relocate g = (doc.relocate g).addReturns content := rfl

theorem Doc.relocate_addParam (tag content : String) (span : Span) :
    (doc.addParam tag content span).relocate g = (doc.relocate g).addParam tag content (g span) := by
  rw [addParam, addParam]
  split
  · rfl
  · rw [relocate, relocate, List.map_append]
    rfl

theorem Doc.isEmpty_relocate : (doc.relocate g).isEmpty = doc.isEmpty := by
  rw [isEmpty, isEmpty, relocate, List.isEmpty_map]

end

/-! ## Twins -/

/-- The kinds of nodes whose text is read. -/
def wordKinds : List Symbol :=
  [.functionName, .parameterName, .variableName, .number, .string, .paramTag, .summaryContent, .paramContent,
    .returnsContent]

/-- The relation between the nodes of two trees keeps what lowering asks of them. -/
structure Twins (source source' : Source) (g g' : Span → Span) (R : Node → Node → Prop) : Prop where
  portrayed : ∀ {n n'}, R n n' → Portrayed source n ∧ Portrayed source' n'
  kind_eq : ∀ {n n'}, R n n' → n.kind = n'.kind
  field_eq : ∀ {n n'}, R n n' → n.label.field = n'.label.field
  span_eq : ∀ {n n'}, R n n' → g (spanOf n) = g' (spanOf n')
  text_eq : ∀ {n n'}, R n n' → n.kind ∈ wordKinds → textOf source n = textOf source' n'
  code : ∀ {n n'}, R n n' → List.Forall₂ R n.code n'.code
  merge : ∀ a b, g (a.merge b) = (g a).merge (g b)
  merge' : ∀ a b, g' (a.merge b) = (g' a).merge (g' b)

/-- A tidy node finds a field among its children without comments. -/
theorem child?_code {n : Node} (h : n.Tidy) (field : Field) :
    n.child? field = n.code.find? (·.label.field == some field) := by
  rw [Node.child?, ← List.head?_filter, ← List.head?_filter, Node.code, List.filter_filter]
  congr 1
  refine List.filter_congr fun child hchild => ?_
  by_cases hc : child.isComment = true
  · rw [h.field child hchild hc]
    rfl
  · simp [hc]

/-- A tidy operator begins with a node that is no comment. -/
theorem head?_namedChildren_eq {n : Node} (h : n.Tidy) (hk : n.kind ∈ Node.operatorKinds) :
    n.namedChildren.head? = n.significant.head? := by
  rw [Node.significant, Node.namedChildren]
  cases hc : n.children with
  | nil => rfl
  | cons child rest =>
    obtain ⟨hname, hcomment⟩ := h.first hk child (by rw [hc]; rfl)
    simp [hname, hcomment]

/-! ## Nodes without comments -/

/-- Some nodes without the comments among them. -/
def uncommented (nodes : List Node) : List Node := nodes.filter (!·.isComment)

theorem uncommented_cons {node : Node} (nodes : List Node) (h : node.isComment = false) :
    uncommented (node :: nodes) = node :: uncommented nodes :=
  List.filter_cons_of_pos (by rw [h]; rfl)

/-- The first node of a kind is found without the comments. -/
theorem find?_code {kind : Symbol} (hk : kind ≠ .comment) (n : Node) :
    n.children.find? (·.kind == kind) = n.code.find? (·.kind == kind) := by
  rw [← List.head?_filter, ← List.head?_filter, Node.code, List.filter_filter]
  congr 1
  refine List.filter_congr fun child _ => ?_
  by_cases hc : child.kind = kind
  · simp [hc, Node.isComment, hk]
  · simp [hc]

/-- What comes before `ELSE` and what begins with it, without comments. -/
theorem takeWhile_uncommented (nodes : List Node) :
    (uncommented nodes).takeWhile (·.kind != .kwElse) = uncommented (nodes.takeWhile (·.kind != .kwElse)) ∧
    (uncommented nodes).dropWhile (·.kind != .kwElse) = uncommented (nodes.dropWhile (·.kind != .kwElse)) := by
  induction nodes with
  | nil => exact ⟨rfl, rfl⟩
  | cons node nodes ih =>
    by_cases hc : node.kind = .comment
    · simpa [uncommented, Node.isComment, hc] using ih
    · by_cases he : node.kind = .kwElse
      · simp [uncommented, Node.isComment, he]
      · simpa [uncommented, Node.isComment, hc, he] using ih

/-- The first node that is not passed over is `ELSE`. -/
theorem kind_of_dropWhile {nodes rest : List Node} {node : Node}
    (h : nodes.dropWhile (·.kind != .kwElse) = node :: rest) : node.kind = .kwElse := by
  induction nodes with
  | nil => cases h
  | cons first nodes ih =>
    rw [List.dropWhile_cons] at h
    split at h
    · exact ih h
    · rename_i hne
      obtain ⟨rfl, -⟩ := List.cons.inj h
      simpa using hne

/-- Comments are no statements. -/
theorem statementsWith_uncommented (source : Source) (levels : Nat) (block : BlockLowerer) (nodes : List Node) :
    statementsWith source levels block nodes = statementsWith source levels block (uncommented nodes) := by
  induction nodes with
  | nil => rfl
  | cons node nodes ih =>
    by_cases hc : node.isComment = true
    · have hkind : node.kind = .comment := by simpa [Node.isComment] using hc
      rw [statementsWith_cons, if_neg (by rw [isStatement, hkind]; decide), uncommented,
        List.filter_cons_of_neg (by simp [hc]), ih]
      rfl
    · rw [uncommented_cons nodes (by simpa using hc), statementsWith_cons, statementsWith_cons, ih]

namespace Twins

variable {source source' : Source} {g g' : Span → Span} {R : Node → Node → Prop} {n n' : Node}
  (ht : Twins source source' g g' R)

include ht

theorem filter {l l' : List Node} (h : List.Forall₂ R l l') (p : Symbol → Bool) :
    List.Forall₂ R (l.filter (p ·.kind)) (l'.filter (p ·.kind)) := by
  refine List.rel_filter (fun a b hr => ?_) h
  show p a.kind = true ↔ p b.kind = true
  rw [ht.kind_eq hr]

theorem find? {l l' : List Node} (h : List.Forall₂ R l l') (p : Symbol → Bool) :
    Option.Rel R (l.find? (p ·.kind)) (l'.find? (p ·.kind)) :=
  rel_find? h fun a b hr => by rw [ht.kind_eq hr]

/-- What is found is of the kind that is looked for. -/
theorem found {l l' : List Node} (h : List.Forall₂ R l l') (p : Symbol → Bool) :
    Option.Rel (fun m m' => R m m' ∧ p m.kind = true) (l.find? (p ·.kind)) (l'.find? (p ·.kind)) := by
  have hfind := ht.find? h p
  have hkind : ∀ m, l.find? (p ·.kind) = some m → p m.kind = true :=
    fun m hm => List.find?_some (p := fun m : Node => p m.kind) hm
  generalize l.find? (p ·.kind) = o at hfind hkind
  generalize l'.find? (p ·.kind) = o' at hfind
  cases hfind with
  | none => exact .none
  | some hr => exact .some ⟨hr, hkind _ rfl⟩

theorem significant (hr : R n n') : List.Forall₂ R n.significant n'.significant := by
  rw [Node.significant_eq, Node.significant_eq]
  exact ht.filter (ht.code hr) Symbol.isNamed

theorem head (hr : R n n') : Option.Rel R n.significant.head? n'.significant.head? :=
  rel_head? (ht.significant hr)

theorem firstToken (hr : R n n') : Option.Rel R n.firstToken n'.firstToken := by
  rw [Node.firstToken_eq, Node.firstToken_eq]
  exact rel_head? (ht.code hr)

theorem child? (hr : R n n') (field : Field) : Option.Rel R (n.child? field) (n'.child? field) := by
  obtain ⟨hp, hp'⟩ := ht.portrayed hr
  rw [child?_code hp.tidy, child?_code hp'.tidy]
  exact rel_find? (ht.code hr) fun a b hab => by rw [ht.field_eq hab]

theorem present (hr : R n n') : n.isMissing = false ∧ n'.isMissing = false :=
  ⟨(ht.portrayed hr).1.present, (ht.portrayed hr).2.present⟩

theorem exists_first (hr : R n n') {first : Node} (h : n.firstToken = some first) :
    ∃ first', n'.firstToken = some first' ∧ R first first' := by
  have hrel := ht.firstToken hr
  rw [h] at hrel
  generalize n'.firstToken = o at hrel
  cases hrel with
  | some hrf => exact ⟨_, rfl, hrf⟩

theorem exists_one (hr : R n n') {a : Node} (h : n.significant = [a]) :
    ∃ a', n'.significant = [a'] ∧ R a a' := by
  have hrel := ht.significant hr
  rw [h, List.forall₂_cons_left_iff] at hrel
  obtain ⟨a', rest, hra, hrest, heq⟩ := hrel
  rw [List.forall₂_nil_left_iff.mp hrest] at heq
  exact ⟨a', heq, hra⟩

theorem exists_three (hr : R n n') {a b c : Node} (h : n.significant = [a, b, c]) :
    ∃ a' b' c', n'.significant = [a', b', c'] ∧ R a a' ∧ R b b' ∧ R c c' := by
  have hrel := ht.significant hr
  rw [h, List.forall₂_cons_left_iff] at hrel
  obtain ⟨a', rest, hra, hrest, heq⟩ := hrel
  rw [List.forall₂_cons_left_iff] at hrest
  obtain ⟨b', rest, hrb, hrest, rfl⟩ := hrest
  rw [List.forall₂_cons_left_iff] at hrest
  obtain ⟨c', rest, hrc, hrest, rfl⟩ := hrest
  rw [List.forall₂_nil_left_iff.mp hrest] at heq
  exact ⟨a', b', c', heq, hra, hrb, hrc⟩

/-! ## Leaves -/

theorem identifier (part : Part) {o o' : Option Node} (h : Option.Rel R o o')
    (hk : ∀ node, o = some node → node.kind ∈ wordKinds) :
    Agrees (Meets (Prod.map id g) (Prod.map id g')) (identifier source part o)
      (identifier source' part o') := by
  cases h with
  | none => exact .same _
  | @some n n' hr =>
    obtain ⟨hp, hp'⟩ := ht.present hr
    rw [Program.identifier, Program.identifier, hp, hp', ht.text_eq hr (hk n rfl)]
    refine .ok ?_
    show (_, _) = (_, _)
    rw [ht.span_eq hr]

theorem literal (hr : R n n') : Agrees Eq (literal source n) (literal source' n') := by
  obtain ⟨hp, hp'⟩ := ht.present hr
  have hk := ht.kind_eq hr
  rw [Program.literal, Program.literal, hp, hp']
  simp only [Bool.false_eq_true, if_false]
  by_cases hword : n.kind = .number ∨ n.kind = .string
  · have htext := ht.text_eq hr (by rcases hword with h | h <;> rw [h] <;> decide)
    rw [htext, hk]
    split
    · exact .refl _
    · exact .refl _
    · exact .unexpected ..
  · rw [← hk]
    split
    · rename_i h
      exact absurd (.inl h) hword
    · rename_i h
      exact absurd (.inr h) hword
    · exact .unexpected ..

theorem operatorOf {α : Type} (ofToken : Symbol → Option α) (hr : R n n') (hk : n.kind ∈ Node.operatorKinds) :
    Agrees Eq (operatorOf ofToken n) (operatorOf ofToken n') := by
  obtain ⟨hp, hp'⟩ := ht.portrayed hr
  rw [Program.operatorOf, Program.operatorOf, head?_namedChildren_eq hp.tidy hk,
    head?_namedChildren_eq hp'.tidy (ht.kind_eq hr ▸ hk)]
  refine (Agrees.require .operator (rel_bind (ht.head hr) fun _ _ h => ht.firstToken h)).bind
    fun token token' htoken => ?_
  rw [ht.kind_eq htoken]
  split
  · exact .ok rfl
  · exact .unexpected ..

/-! ## Expressions -/

section

variable {inner inner' : Node → Lowered Expr}
  (hi : ∀ m m', R m m' → Agrees (Meets (Expr.relocate g) (Expr.relocate g')) (inner m) (inner' m'))

include hi

theorem callWith (hr : R n n') :
    Agrees (Meets (Prod.map id (List.map (Expr.relocate g))) (Prod.map id (List.map (Expr.relocate g'))))
      (callWith source inner n) (callWith source' inner' n') := by
  rw [Program.callWith, Program.callWith]
  have hname := ht.find? (ht.significant hr) (· == .functionName)
  refine (ht.identifier .functionName hname fun node hnode => ?_).bind fun a a' ha => ?_
  · rw [show node.kind = .functionName by simpa using List.find?_some hnode]
    decide
  · refine (Agrees.mapM (ht.filter (ht.significant hr) (· == .expression)) hi).bind fun es es' hes => .ok ?_
    show (a.1, _) = (a'.1, _)
    rw [meets_map hes, ha.fst]

theorem atomWith (hr : R n n') :
    Agrees (Meets (Expr.relocate g) (Expr.relocate g')) (atomWith source inner n)
      (atomWith source' inner' n') := by
  rw [Program.atomWith, Program.atomWith]
  have hspan := ht.span_eq hr
  refine (Agrees.require .expression (ht.firstToken hr)).bind fun first first' hfirst => ?_
  have hoperand := Agrees.require .expression (ht.head hr)
  have hinner := hoperand.bind hi
  obtain ⟨hp, hp'⟩ := ht.present hfirst
  rw [← ht.kind_eq hfirst]
  split
  · refine hoperand.bind fun m m' hm => (hi m m' hm).bind fun e e' he => .ok ?_
    show Expr.negate _ _ = Expr.negate _ _
    rw [hspan, show e.relocate g = e'.relocate g' from he]
  · refine hoperand.bind fun m m' hm => (hi m m' hm).bind fun e e' he => .ok ?_
    show (e.withSpan _).relocate g = (e'.withSpan _).relocate g'
    rw [Expr.relocate_withSpan, Expr.relocate_withSpan, hspan, show e.relocate g = e'.relocate g' from he]
  · exact .unexpected ..
  · rw [hp, hp']
    exact hi first first' hfirst

omit hi in
/-- A literal is the same expression in another place. -/
theorem literalExpr (hr : R n n') :
    Agrees (Meets (Expr.relocate g) (Expr.relocate g'))
      (Program.literal source n >>= fun value => match value with
        | .number value => pure (.number (spanOf n) value)
        | .string value => pure (.string (spanOf n) value))
      (Program.literal source' n' >>= fun value => match value with
        | .number value => pure (.number (spanOf n') value)
        | .string value => pure (.string (spanOf n') value)) := by
  refine (ht.literal hr).bind fun a a' ha => ?_
  rw [ha]
  cases a' with
  | number value =>
    refine .ok ?_
    show Expr.number _ _ = Expr.number _ _
    rw [ht.span_eq hr]
  | string value =>
    refine .ok ?_
    show Expr.string _ _ = Expr.string _ _
    rw [ht.span_eq hr]

theorem expressionWith (hr : R n n') :
    Agrees (Meets (Expr.relocate g) (Expr.relocate g')) (expressionWith source inner n)
      (expressionWith source' inner' n') := by
  have hspan := ht.span_eq hr
  rw [Program.expressionWith, Program.expressionWith, ← ht.kind_eq hr]
  split
  · rename_i hkind
    cases (ht.portrayed hr).1.expression_shape hkind with
    | atom atom hs hka _ =>
      obtain ⟨atom', hs', hra⟩ := ht.exists_one hr hs
      rw [hs, hs']
      simp only [← ht.kind_eq hra, hka, beq_self_eq_true, if_true]
      exact ht.atomWith hi hra
    | operation left operator right hs _ hko _ _ _ _ =>
      obtain ⟨left', operator', right', hs', hrl, hro, hrr⟩ := ht.exists_three hr hs
      rw [hs, hs']
      refine (ht.operatorOf binaryOperator? hro (by rw [hko]; decide)).bind fun op op' hop => ?_
      refine (hi _ _ hrl).bind fun l l' hl => (hi _ _ hrr).bind fun r r' hr => .ok ?_
      show Expr.binary _ _ _ _ = Expr.binary _ _ _ _
      rw [hspan, hop, show l.relocate g = l'.relocate g' from hl, show r.relocate g = r'.relocate g' from hr]
  · exact ht.atomWith hi hr
  · refine (ht.callWith hi hr).bind fun a a' ha => .ok ?_
    show Expr.call _ _ _ = Expr.call _ _ _
    rw [Expr.relocateAll_eq, Expr.relocateAll_eq, hspan, ha.fst, ha.snd]
  · rename_i hkind
    refine (ht.identifier .expression (.some hr) fun node hnode => ?_).bind fun a a' ha => .ok ?_
    · rw [← Option.some.inj hnode, hkind]
      decide
    · show Expr.variable _ _ = Expr.variable _ _
      rw [ha.fst, ha.snd]
  · exact ht.literalExpr hr
  · exact ht.literalExpr hr
  · exact .unexpected ..

end

theorem expression (levels : Nat) (hr : R n n') :
    Agrees (Meets (Expr.relocate g) (Expr.relocate g')) (expression source levels n)
      (expression source' levels n') := by
  induction levels generalizing n n' with
  | zero => exact .same _
  | succ levels ih => exact ht.expressionWith (fun m m' hm => ih hm) hr

/-! ## Conditions -/

section

variable {expr expr' : Node → Lowered Expr} {cond cond' atom atom' : Node → Lowered Condition}
  (he : ∀ m m', R m m' → Agrees (Meets (Expr.relocate g) (Expr.relocate g')) (expr m) (expr' m'))
  (ha : ∀ m m', R m m' → m.kind = .conditionalAtom →
    Agrees (Meets (Condition.relocate g) (Condition.relocate g')) (atom m) (atom' m'))

include he ha

theorem conditionalAtomWith (hr : R n n') (hk : n.kind = .conditionalAtom)
    (hc : ∀ m m', R m m' → m.kind = .conditionalStatement →
      Agrees (Meets (Condition.relocate g) (Condition.relocate g')) (cond m) (cond' m')) :
    Agrees (Meets (Condition.relocate g) (Condition.relocate g'))
      (conditionalAtomWith expr cond atom n) (conditionalAtomWith expr' cond' atom' n') := by
  have hspan := ht.span_eq hr
  rw [Program.conditionalAtomWith, Program.conditionalAtomWith]
  cases (ht.portrayed hr).1.conditionalAtom_shape hk with
  | plain first hfirst hs hkf _ =>
    obtain ⟨first', hfirst', hrf⟩ := ht.exists_first hr hfirst
    obtain ⟨operand', hs', hro⟩ := ht.exists_one hr hs
    rw [hfirst, hfirst', hs, hs']
    simp only [require, ok_bind, List.head?_cons, ← ht.kind_eq hrf]
    have hplain : Agrees (Meets (Condition.relocate g) (Condition.relocate g'))
        (expr first >>= fun value => pure (Condition.expr (spanOf n) value))
        (expr' operand' >>= fun value => pure (Condition.expr (spanOf n') value)) := by
      refine (he _ _ hro).bind fun e e' hm => .ok ?_
      show Condition.expr _ _ = Condition.expr _ _
      rw [hspan, show e.relocate g = e'.relocate g' from hm]
    rcases List.mem_cons.mp hkf with hkf | hkf
    · simp only [hkf]
      exact hplain
    · simp only [List.mem_singleton.mp hkf]
      exact hplain
  | group opening operand hfirst hkf hs hko _ =>
    obtain ⟨first', hfirst', hrf⟩ := ht.exists_first hr hfirst
    obtain ⟨operand', hs', hro⟩ := ht.exists_one hr hs
    rw [hfirst, hfirst', hs, hs']
    simp only [require, ok_bind, List.head?_cons, ← ht.kind_eq hrf, hkf]
    refine (hc _ _ hro hko).bind fun c c' hm => .ok ?_
    show (c.withSpan _).relocate g = (c'.withSpan _).relocate g'
    rw [Condition.relocate_withSpan, Condition.relocate_withSpan, hspan,
      show c.relocate g = c'.relocate g' from hm]
  | negation not operand hfirst hkf hs hko _ =>
    obtain ⟨first', hfirst', hrf⟩ := ht.exists_first hr hfirst
    obtain ⟨operand', hs', hro⟩ := ht.exists_one hr hs
    rw [hfirst, hfirst', hs, hs']
    simp only [require, ok_bind, List.head?_cons, ← ht.kind_eq hrf, hkf, ← ht.kind_eq hro, hko,
      beq_self_eq_true, if_true]
    refine (ha _ _ hro hko).bind fun c c' hm => .ok ?_
    show Condition.not _ _ = Condition.not _ _
    rw [hspan, show c.relocate g = c'.relocate g' from hm]

theorem conditionWith {nested nested' : Lowered (Node → Lowered Condition)} (hr : R n n')
    (hk : n.kind = .conditionalStatement)
    (hnested : Agrees (fun c c' => ∀ m m', R m m' → m.kind = .conditionalStatement →
      Agrees (Meets (Condition.relocate g) (Condition.relocate g')) (c m) (c' m')) nested nested') :
    Agrees (Meets (Condition.relocate g) (Condition.relocate g'))
      (conditionWith expr atom nested n) (conditionWith expr' atom' nested' n') := by
  -- What both consist of is found with the same fuel.
  have hinner : ∀ fuel {m m' : Node}, R m m' → m.kind = .conditionalStatement →
      R (innermost fuel m) (innermost fuel m') ∧ (innermost fuel m).kind = .conditionalStatement := by
    intro fuel
    induction fuel with
    | zero => exact fun hm hkm => ⟨hm, hkm⟩
    | succ fuel ih =>
      intro m m' hm hkm
      cases (ht.portrayed hm).1.condition_shape hkm with
      | single operand hs _ _ =>
        obtain ⟨operand', hs', hro⟩ := ht.exists_one hm hs
        rw [innermost, innermost, hs, hs']
        simp only [← ht.kind_eq hro]
        split
        · rename_i hko
          exact ih hro (by simpa using hko)
        · exact ⟨hm, hkm⟩
      | operation left operator right hs _ _ _ _ _ _ =>
        obtain ⟨left', operator', right', hs', _⟩ := ht.exists_three hm hs
        rw [innermost, innermost, hs, hs']
        exact ⟨hm, hkm⟩
  obtain ⟨hrm, hkm⟩ := hinner (n.size + n'.size) hr hk
  rw [Program.conditionWith, Program.conditionWith,
    Counted.innermost_fuel (Nat.le_refl _) (Nat.le_add_right n.size n'.size),
    Counted.innermost_fuel (Nat.le_refl _) (Nat.le_add_left n'.size n.size)]
  generalize innermost (n.size + n'.size) n = m at hrm hkm
  generalize innermost (n.size + n'.size) n' = m' at hrm
  have hspan := ht.span_eq hrm
  cases (ht.portrayed hrm).1.condition_shape hkm with
  | single operand hs _ _ =>
    obtain ⟨operand', hs', hro⟩ := ht.exists_one hrm hs
    rw [hs, hs']
    simp only [← ht.kind_eq hro]
    split
    · rename_i hko
      exact ha _ _ hro (by simpa using hko)
    · refine (he _ _ hro).map fun e e' hm => ?_
      show Condition.expr _ _ = Condition.expr _ _
      rw [hspan, show e.relocate g = e'.relocate g' from hm]
  | operation left operator right hs hkl hko hkr _ _ _ =>
    obtain ⟨left', operator', right', hs', hrl, hro, hrr⟩ := ht.exists_three hrm hs
    rw [hs, hs']
    refine hnested.bind fun c c' hc => ?_
    refine (ht.operatorOf conditionOperator? hro (by rw [hko]; decide)).bind fun op op' hop => ?_
    refine (hc _ _ hrl hkl).bind fun l l' hl => (hc _ _ hrr hkr).bind fun r r' hr => .ok ?_
    show Condition.binary _ _ _ _ = Condition.binary _ _ _ _
    rw [hspan, hop, show l.relocate g = l'.relocate g' from hl, show r.relocate g = r'.relocate g' from hr]

end

/-- Conditions and their atoms, by the number of levels. -/
theorem conditions (levels : Nat) :
    (∀ n n', R n n' → n.kind = .conditionalStatement →
      Agrees (Meets (Condition.relocate g) (Condition.relocate g')) (condition source levels n)
        (condition source' levels n')) ∧
    ∀ n n', R n n' → n.kind = .conditionalAtom →
      Agrees (Meets (Condition.relocate g) (Condition.relocate g')) (conditionalAtom source levels n)
        (conditionalAtom source' levels n') := by
  induction levels with
  | zero =>
    refine ⟨fun n n' hr hk => ?_, fun n n' hr hk => ?_⟩
    · rw [condition, condition]
      exact ht.conditionWith (fun _ _ _ => .same _) (fun _ _ _ _ => .same _) hr hk (.same _)
    · rw [conditionalAtom, conditionalAtom]
      exact .same _
  | succ levels ih =>
    refine ⟨fun n n' hr hk => ?_, fun n n' hr hk => ?_⟩
    · rw [condition, condition]
      refine ht.conditionWith (fun _ _ h => ht.expression _ h) (fun m m' hm hkm => ?_) hr hk (.ok ih.1)
      exact ht.conditionalAtomWith (fun _ _ h => ht.expression _ h) ih.2 hm hkm ih.1
    · rw [conditionalAtom, conditionalAtom]
      exact ht.conditionalAtomWith (fun _ _ h => ht.expression _ h) ih.2 hr hk ih.1

/-! ## Statements -/

section

variable {block block' : BlockLowerer}
  (hb : ∀ nodes nodes', List.Forall₂ R (uncommented nodes) (uncommented nodes') →
    Agrees (Leaves R (List.map (Statement.relocate g)) (List.map (Statement.relocate g'))) (block nodes)
      (block' nodes'))

include hb

theorem branchWith (levels : Nat) (hr : R n n') {span span' : Span} (hspan : g span = g' span') :
    Agrees (Leaves R (Statement.relocate g) (Statement.relocate g'))
      (branchWith (Program.condition source levels) block span n)
      (branchWith (Program.condition source' levels) block' span' n') := by
  rw [Program.branchWith, Program.branchWith, find?_code (by decide), find?_code (by decide)]
  have hcode : List.Forall₂ R (uncommented n.children) (uncommented n'.children) := ht.code hr
  have hfound := ht.found (ht.code hr) (· == .conditionalStatement)
  generalize n.code.find? (·.kind == .conditionalStatement) = o at hfound
  generalize n'.code.find? (·.kind == .conditionalStatement) = o' at hfound
  cases hfound with
  | none => exact .same _
  | some htest =>
    simp only [require, ok_bind, List.span_eq_takeWhile_dropWhile]
    refine ((ht.conditions levels).1 _ _ htest.1 (by simpa using htest.2)).bind fun c c' hc => ?_
    have hsame : ∀ a b, R a b → (a.kind != .kwElse) = (b.kind != .kwElse) :=
      fun a b hab => by rw [ht.kind_eq hab]
    have hbefore := rel_takeWhile hcode hsame
    have hafter := rel_dropWhile hcode hsame
    rw [(takeWhile_uncommented _).1, (takeWhile_uncommented _).1] at hbefore
    rw [(takeWhile_uncommented _).2, (takeWhile_uncommented _).2] at hafter
    refine (hb _ _ hbefore).bind fun before before' hm => ?_
    have helse : ∀ {nodes rest : List Node} {node : Node}, nodes.dropWhile (·.kind != .kwElse) = node :: rest →
        uncommented (node :: rest) = node :: uncommented rest := by
      intro nodes rest node h
      refine uncommented_cons rest ?_
      rw [Node.isComment, kind_of_dropWhile h]
      rfl
    cases hd : n.children.dropWhile (·.kind != .kwElse) with
    | nil =>
      cases hd' : n'.children.dropWhile (·.kind != .kwElse) with
      | nil =>
        refine .ok ⟨?_, hm.2⟩
        simp only [Statement.relocate, Statement.relocateAll_eq, Statement.relocateElse]
        rw [hspan, show c.relocate g = c'.relocate g' from hc, hm.1]
      | cons first' rest' =>
        rw [hd, hd', helse hd'] at hafter
        cases hafter
    | cons first rest =>
      cases hd' : n'.children.dropWhile (·.kind != .kwElse) with
      | nil =>
        rw [hd, hd', helse hd] at hafter
        cases hafter
      | cons first' rest' =>
        rw [hd, hd', helse hd, helse hd'] at hafter
        obtain ⟨-, hrest⟩ := List.forall₂_cons.mp hafter
        refine (hb _ _ hrest).bind fun last last' hl => .ok ⟨?_, List.rel_append hm.2 hl.2⟩
        simp only [Statement.relocate, Statement.relocateAll_eq, Statement.relocateElse]
        rw [hspan, show c.relocate g = c'.relocate g' from hc, hm.1, hl.1]

theorem statementWith (levels : Nat) (hr : R n n') (hk : n.kind = .statementOrExpression) :
    Agrees (Leaves R (Statement.relocate g) (Statement.relocate g')) (statementWith source levels block n)
      (statementWith source' levels block' n') := by
  have hspan := ht.span_eq hr
  obtain ⟨inner, hs, hki, -⟩ := (ht.portrayed hr).1.statement_shape hk
  obtain ⟨inner', hs', hri⟩ := ht.exists_one hr hs
  rw [Program.statementWith, Program.statementWith, hs, hs']
  simp only [require, ok_bind, List.head?_cons, ← ht.kind_eq hri]
  simp only [List.mem_cons, List.not_mem_nil, or_false] at hki
  rcases hki with hki | hki | hki
  · simp only [hki]
    have htarget := ht.find? (ht.significant hri) (· == .variableName)
    refine (ht.identifier .assignmentTarget htarget fun node hnode => ?_).bind fun a a' ha => ?_
    · rw [show node.kind = .variableName by simpa using List.find?_some hnode]
      decide
    · have hholder := ht.find? (ht.significant hri) (· == .expressionVariableAssignments)
      refine (Agrees.require .assignedValue (rel_bind hholder fun _ _ h => ht.head h)).bind fun v v' hv => ?_
      refine (ht.expression levels hv).bind fun e e' he => .ok ⟨?_, .nil⟩
      show Statement.assign _ _ _ _ = Statement.assign _ _ _ _
      rw [hspan, ha.fst, ha.snd, show e.relocate g = e'.relocate g' from he]
  · simp only [hki]
    exact ht.branchWith hb levels hri hspan
  · simp only [hki]
    refine (ht.callWith (fun _ _ h => ht.expression levels h) hri).bind fun a a' ha => .ok ⟨?_, .nil⟩
    show Statement.call _ _ _ = Statement.call _ _ _
    rw [Expr.relocateAll_eq, Expr.relocateAll_eq, hspan, ha.fst, ha.snd]

omit hb in
theorem returnStatement (levels : Nat) (hr : R n n') :
    Agrees (Leaves R (Statement.relocate g) (Statement.relocate g')) (returnStatement source levels n)
      (returnStatement source' levels n') := by
  have hspan := ht.span_eq hr
  have hfind := ht.find? (ht.significant hr) (· == .expression)
  rw [Program.returnStatement, Program.returnStatement]
  generalize n.significant.find? (·.kind == .expression) = o at hfind
  generalize n'.significant.find? (·.kind == .expression) = o' at hfind
  cases hfind with
  | none =>
    refine .ok ⟨?_, .nil⟩
    show Statement.return _ _ = Statement.return _ _
    rw [hspan]
    rfl
  | some hv =>
    refine (ht.expression levels hv).map fun e e' he => ⟨?_, .nil⟩
    show Statement.return _ (some _) = Statement.return _ (some _)
    rw [hspan, show e.relocate g = e'.relocate g' from he]

theorem statementsWith (levels : Nat) {nodes nodes' : List Node}
    (h : List.Forall₂ R (uncommented nodes) (uncommented nodes')) :
    Leaves R (List.map (Statement.relocate g)) (List.map (Statement.relocate g'))
      (statementsWith source levels block nodes) (statementsWith source' levels block' nodes') := by
  rw [statementsWith_uncommented, statementsWith_uncommented source']
  generalize uncommented nodes = l at h
  generalize uncommented nodes' = l' at h
  induction h with
  | nil => exact ⟨rfl, .nil⟩
  | @cons n n' l l' hr _ ih =>
    have hkind := ht.kind_eq hr
    have hstatement : Agrees (Leaves R (Statement.relocate g) (Statement.relocate g'))
        (statement source levels block n) (statement source' levels block' n') ∨ isStatement n = false := by
      rw [statement, statement, ← hkind]
      by_cases hreturn : n.kind = .returnStatement
      · simp only [hreturn, beq_self_eq_true, if_true]
        exact .inl (ht.returnStatement levels hr)
      · by_cases hplain : n.kind = .statementOrExpression
        · rw [if_neg (by simpa using hreturn), if_neg (by simpa using hreturn)]
          exact .inl (ht.statementWith hb levels hr hplain)
        · exact .inr (by simp [isStatement, hreturn, hplain])
    rw [statementsWith_cons, statementsWith_cons, show isStatement n' = isStatement n by simp [isStatement, hkind]]
    rcases hstatement with hstatement | hnone
    · split
      · generalize statement source levels block n = x at hstatement
        generalize statement source' levels block' n' = x' at hstatement
        cases hstatement with
        | ok hm => exact hm.cons ih
        | error he => exact ⟨ih.1, .cons ⟨hr, he⟩ ih.2⟩
      · exact ih
    · rw [if_neg (by simp [hnone]), if_neg (by simp [hnone])]
      exact ih

end

theorem block (levels : Nat) : ∀ nodes nodes', List.Forall₂ R (uncommented nodes) (uncommented nodes') →
    Agrees (Leaves R (List.map (Statement.relocate g)) (List.map (Statement.relocate g')))
      (block source levels nodes) (block source' levels nodes') := by
  induction levels with
  | zero => exact fun _ _ _ => .same _
  | succ levels ih => exact fun _ _ h => .ok (ht.statementsWith ih levels h)

/-! ## Functions -/

omit ht in
theorem lowerAll {α β : Type} {F F' : α → β} {lower lower' : Node → Lowered α} {l l' : List Node}
    (h : List.Forall₂ R l l') (hl : ∀ m m', R m m' → m ∈ l → Agrees (Meets F F') (lower m) (lower' m')) :
    Leaves R (List.map F) (List.map F') (lowerAll lower l) (lowerAll lower' l') := by
  induction h with
  | nil => exact ⟨rfl, .nil⟩
  | @cons m m' l l' hr _ ih =>
    have hrest := ih fun a a' ha hmem => hl a a' ha (List.mem_cons_of_mem _ hmem)
    have hfirst := hl m m' hr List.mem_cons_self
    rw [Program.lowerAll, Program.lowerAll]
    generalize lower m = x at hfirst
    generalize lower' m' = x' at hfirst
    cases hfirst with
    | @ok a a' hm =>
      have hone : Leaves R F F' (a, []) (a', []) := ⟨hm, .nil⟩
      exact hone.cons hrest
    | error he => exact ⟨hrest.1, .cons ⟨hr, he⟩ hrest.2⟩

theorem typeOf {o o' : Option Node} (h : Option.Rel R o o') : typeOf o = typeOf o' := by
  cases h with
  | none => rfl
  | @some n n' hr =>
    obtain ⟨hp, hp'⟩ := ht.present hr
    have htoken := ht.firstToken hr
    rw [Program.typeOf, Program.typeOf]
    simp only [Option.filter, hp, hp', Bool.not_false, if_true, Option.bind_some]
    generalize n.firstToken = token at htoken
    generalize n'.firstToken = token' at htoken
    cases htoken with
    | none => rfl
    | some hr => rw [Option.bind_some, Option.bind_some, ht.kind_eq hr]

/-- The kind of what a field begins with. -/
theorem fieldKind {o o' : Option Node} (h : Option.Rel R o o') :
    (o.bind (·.firstToken)).map Node.kind = (o'.bind (·.firstToken)).map Node.kind := by
  have htoken := rel_bind h fun _ _ hr => ht.firstToken hr
  generalize o.bind (·.firstToken) = token at htoken
  generalize o'.bind (·.firstToken) = token' at htoken
  cases htoken with
  | none => rfl
  | some hr => rw [Option.map_some, Option.map_some, ht.kind_eq hr]

/-- The type of what a field begins with. -/
theorem fieldType {o o' : Option Node} (h : Option.Rel R o o') :
    (o.bind (·.firstToken)).bind (dataType? ·.kind) = (o'.bind (·.firstToken)).bind (dataType? ·.kind) := by
  have hkind := congrArg (Option.bind · dataType?) (ht.fieldKind h)
  rw [Option.bind_map, Option.bind_map] at hkind
  exact hkind

/-- The name that a field refers to. -/
theorem nameOf (part : Part) (hr : R n n') {kind : Symbol} (hk : n.kind = kind)
    (hf : Portrayed.isFieldOf kind .identifier .name = true) (hword : kindIn kind .identifier ∈ wordKinds) :
    Agrees (Meets (Prod.map id g) (Prod.map id g')) (Program.identifier source part (n.child? .name))
      (Program.identifier source' part (n'.child? .name)) := by
  subst hk
  refine ht.identifier part (ht.child? hr .name) fun node hnode => ?_
  rw [((ht.portrayed hr).1.child?_spec .identifier hf hnode).2]
  exact hword

theorem parameter (hr : R n n') (hk : n.kind = .functionParameter) :
    Agrees (Meets (Parameter.relocate g) (Parameter.relocate g')) (parameter source n)
      (parameter source' n') := by
  rw [Program.parameter, Program.parameter, ht.typeOf (ht.child? hr .type)]
  refine (Agrees.refl _).bind fun type type' htype => ?_
  refine (ht.nameOf .parameterName hr hk (by decide) (by decide)).bind fun a a' ha => ?_
  have hdefault := ht.child? hr .defaultval
  generalize n.child? .defaultval = o at hdefault
  generalize n'.child? .defaultval = o' at hdefault
  have hend : ∀ default : Option Literal, Parameter.relocate g ⟨a.1, type, default, spanOf n⟩ =
      Parameter.relocate g' ⟨a'.1, type', default, spanOf n'⟩ := by
    intro default
    rw [Parameter.relocate, Parameter.relocate, ht.span_eq hr, ha.fst, htype]
  cases hdefault with
  | none => exact .ok (hend none)
  | some hgiven =>
    refine (Agrees.require .defaultValue (ht.head hgiven)).bind fun v v' hv => ?_
    have hvalue : Agrees Eq ((Program.literal source v).map some) ((Program.literal source' v').map some) :=
      (ht.literal hv).map fun _ _ => congrArg some
    exact hvalue.bind fun d d' hd => .ok (hd ▸ hend d)

/-- The last variable gets the same initial value. -/
theorem initializeLast (initializer : Initializer) {valueSpan valueSpan' span span' : Span}
    (hvalue : g valueSpan = g' valueSpan') (hspan : g span = g' span') {before before' : List Variable}
    (h : Meets (List.map (Variable.relocate g)) (List.map (Variable.relocate g')) before before') :
    Meets (List.map (Variable.relocate g)) (List.map (Variable.relocate g'))
      (initializeLast initializer valueSpan span before)
      (initializeLast initializer valueSpan' span' before') := by
  have hlist : before.map (Variable.relocate g) = before'.map (Variable.relocate g') := h
  show (Program.initializeLast ..).map _ = (Program.initializeLast ..).map _
  cases before with
  | nil =>
    rw [List.map_nil] at hlist
    rw [List.map_eq_nil_iff.mp hlist.symm]
    rfl
  | cons last rest =>
    cases before' with
    | nil => cases hlist
    | cons last' rest' =>
      rw [List.map_cons, List.map_cons] at hlist
      obtain ⟨hlast, hrest⟩ := List.cons.inj hlist
      rw [Variable.relocate, Variable.relocate, Variable.mk.injEq] at hlast
      obtain ⟨hname, -, hplace⟩ := hlast
      rw [Program.initializeLast, Program.initializeLast, List.map_cons, List.map_cons, hrest, Variable.relocate,
        Variable.relocate]
      simp only [Option.map_some, hvalue, ht.merge, ht.merge', hname, hplace, hspan]

/-- Variables so far are moved alike. -/
theorem declarationPart (hr : R n n') {before before' : List Variable}
    (h : Meets (List.map (Variable.relocate g)) (List.map (Variable.relocate g')) before before') :
    Agrees (Meets (List.map (Variable.relocate g)) (List.map (Variable.relocate g')))
      (declarationPart source before n) (declarationPart source' before' n') := by
  have hspan := ht.span_eq hr
  rw [Program.declarationPart, Program.declarationPart, ← ht.kind_eq hr]
  split
  · rename_i hk
    refine (ht.identifier .variableName (.some hr) fun node hnode => ?_).bind fun a a' ha => .ok ?_
    · rw [← Option.some.inj hnode, hk]
      decide
    · show Variable.relocate g ⟨a.1, none, a.2⟩ :: _ = Variable.relocate g' ⟨a'.1, none, a'.2⟩ :: _
      rw [Variable.relocate, Variable.relocate, ha.fst, ha.snd]
      exact congrArg _ h
  · refine (Agrees.require .initialValue (ht.head hr)).bind fun v v' hv => ?_
    have hend : ∀ i, Meets (List.map (Variable.relocate g)) (List.map (Variable.relocate g'))
        (Program.initializeLast i (spanOf v) (spanOf n) before)
        (Program.initializeLast i (spanOf v') (spanOf n') before') :=
      fun i => ht.initializeLast i (ht.span_eq hv) hspan h
    dsimp only
    rw [← ht.kind_eq hv]
    split
    · rename_i hk
      refine Agrees.bind ((ht.identifier .value (.some hv) fun node hnode => ?_).map
        (T := Eq) fun a a' ha => ?_) fun i i' hi => .ok (hi ▸ hend i)
      · rw [← Option.some.inj hnode, hk]
        decide
      · rw [ha.fst]
    · refine Agrees.bind ((ht.literal hv).map (T := Eq) fun a a' ha => ?_) fun i i' hi => .ok (hi ▸ hend i)
      rw [ha]
  · exact .ok h

theorem declaration (hr : R n n') :
    Agrees (Meets (Declaration.relocate g) (Declaration.relocate g')) (declaration source n)
      (declaration source' n') := by
  rw [Program.declaration, Program.declaration, ht.typeOf (ht.child? hr .varType)]
  refine (Agrees.refl _).bind fun type type' htype => ?_
  refine (Agrees.foldlM (ht.significant hr) (fun a a' c c' ha hc => ht.declarationPart hc ha)
    (show Meets _ _ [] [] from rfl)).bind fun vs vs' hvs => .ok ?_
  have hlist : vs.map (Variable.relocate g) = vs'.map (Variable.relocate g') := hvs
  show Declaration.relocate g ⟨type, vs.reverse, spanOf n⟩ = Declaration.relocate g' ⟨type', vs'.reverse, spanOf n'⟩
  rw [Declaration.relocate, Declaration.relocate]
  simp only [List.map_reverse, hlist, ht.span_eq hr, htype]

theorem function (hr : R n n') {doc doc' : Option Doc}
    (hd : doc.map (Doc.relocate g) = doc'.map (Doc.relocate g')) :
    Agrees (Leaves R (Function.relocate g) (Function.relocate g')) (function source n doc)
      (function source' n' doc') := by
  have hspan := ht.span_eq hr
  rw [Program.function, Program.function]
  have hfound := ht.found (ht.significant hr) (· == .functionDefinition)
  generalize n.significant.find? (·.kind == .functionDefinition) = o at hfound
  generalize n'.significant.find? (·.kind == .functionDefinition) = o' at hfound
  cases hfound with
  | none => exact .same _
  | @some header header' hfound =>
    have hh := hfound.1
    have hk : header.kind = .functionDefinition := by simpa using hfound.2
    simp only [require, ok_bind]
    refine (ht.nameOf .functionName hh hk (by decide) (by decide)).bind fun a a' ha => ?_
    have hscope := ht.fieldKind (ht.child? hh .scope)
    have hreturn := ht.fieldType (ht.child? hh .returnType)
    have hlisted : List.Forall₂ R (listed header) (listed header') := by
      have hlist := ht.child? hh .parameters
      rw [listed, listed]
      generalize header.child? .parameters = o at hlist
      generalize header'.child? .parameters = o' at hlist
      cases hlist with
      | none => exact .nil
      | some hl => exact ht.significant hl
    have hparameters := lowerAll hlisted fun m m' hm hmem =>
      ht.parameter hm (portrayed_listed (ht.portrayed hh).1 hk m hmem).2
    have hlocals := lowerAll (ht.filter (ht.significant hr) (· == .variableDeclaration))
      fun m m' hm _ => ht.declaration hm
    have hsignificant : List.Forall₂ R (uncommented n.significant) (uncommented n'.significant) :=
      ht.filter (ht.significant hr) (!· == .comment)
    refine (ht.block maxNesting _ _ hsignificant).bind fun b b' hb => .ok ⟨?_, ?_⟩
    · have hbody : b.1.map (Statement.relocate g) = b'.1.map (Statement.relocate g') := hb.1
      have hps : _ = _ := hparameters.1
      have hds : _ = _ := hlocals.1
      simp only [Function.relocate, Statement.relocateAll_eq, hspan, ha.fst, ha.snd, hd, hbody, hscope, hreturn]
      rw [Function.mk.injEq]
      exact ⟨rfl, rfl, rfl, rfl, hps, hds, rfl, rfl, rfl⟩
    · exact List.rel_append (List.rel_append hparameters.2 hlocals.2) hb.2

/-! ## Programs -/

theorem docContent (hr : R n n') : docContent source n = docContent source' n' := by
  have hfound := ht.found (ht.significant hr) fun kind =>
    [Symbol.summaryContent, .paramContent, .returnsContent].contains kind
  rw [Program.docContent, Program.docContent]
  generalize n.significant.find? (fun child =>
    [Symbol.summaryContent, .paramContent, .returnsContent].contains child.kind) = o at hfound
  generalize n'.significant.find? (fun child =>
    [Symbol.summaryContent, .paramContent, .returnsContent].contains child.kind) = o' at hfound
  cases hfound with
  | none => rfl
  | some hc =>
    have hword : ∀ kind ∈ [Symbol.summaryContent, .paramContent, .returnsContent], kind ∈ wordKinds := by decide
    simp only [ht.text_eq hc.1 (hword _ (by simpa using hc.2))]

theorem functionsFrom {doc doc' : Doc} (hd : Meets (Doc.relocate g) (Doc.relocate g') doc doc')
    {l l' : List Node} (h : List.Forall₂ R l l') :
    Leaves R (List.map (Function.relocate g)) (List.map (Function.relocate g')) (functionsFrom source doc l)
      (functionsFrom source' doc' l') := by
  have hempty : Meets (Doc.relocate g) (Doc.relocate g') {} {} := rfl
  induction h generalizing doc doc' with
  | nil => exact ⟨rfl, .nil⟩
  | @cons n n' l l' hr _ ih =>
    have hdoc : doc.relocate g = doc'.relocate g' := hd
    rw [Program.functionsFrom, Program.functionsFrom, ← ht.kind_eq hr]
    split
    · refine ih ?_
      show (doc.addSummary _).relocate g = (doc'.addSummary _).relocate g'
      rw [Doc.relocate_addSummary, Doc.relocate_addSummary, hdoc, ht.docContent hr]
    · refine ih ?_
      show (doc.addReturns _).relocate g = (doc'.addReturns _).relocate g'
      rw [Doc.relocate_addReturns, Doc.relocate_addReturns, hdoc, ht.docContent hr]
    · have hfound := ht.found (ht.significant hr) (· == .paramTag)
      generalize n.significant.find? (·.kind == .paramTag) = o at hfound
      generalize n'.significant.find? (·.kind == .paramTag) = o' at hfound
      cases hfound with
      | none => exact ih hd
      | @some tag tag' hfound =>
        have htag := hfound.1
        have hkind : tag.kind = .paramTag := by simpa using hfound.2
        refine ih ?_
        show (doc.addParam ..).relocate g = (doc'.addParam ..).relocate g'
        rw [Doc.relocate_addParam, Doc.relocate_addParam, hdoc, ht.docContent hr, ht.span_eq htag,
          ht.text_eq htag (by rw [hkind]; decide)]
    · have hsome : (if doc.isEmpty then none else some doc).map (Doc.relocate g) =
          (if doc'.isEmpty then none else some doc').map (Doc.relocate g') := by
        have hsame : doc.isEmpty = doc'.isEmpty := by
          rw [← Doc.isEmpty_relocate g, hdoc, Doc.isEmpty_relocate]
        rw [hsame]
        split
        · rfl
        · exact congrArg some hdoc
      have hrest := ih hempty
      have hfunction := ht.function hr hsome
      generalize Program.function source n _ = x at hfunction
      generalize Program.function source' n' _ = x' at hfunction
      cases hfunction with
      | ok hm => exact hm.cons hrest
      | error he => exact ⟨hrest.1, .cons ⟨hr, he⟩ hrest.2⟩
    · exact ih hempty

/-- **Twins are lowered to the same functions in other places**, and the same is left out. -/
theorem lower {root root' : Node} (h : List.Forall₂ R root.significant root'.significant) :
    Leaves R (List.map (Function.relocate g)) (List.map (Function.relocate g')) (lower source root)
      (lower source' root') :=
  ht.functionsFrom (show Meets (Doc.relocate g) (Doc.relocate g') {} {} from rfl) h

/-- What is left out because it passes a limit is reported alike. -/
theorem reports {lost lost' : List Dropped} (h : List.Forall₂ (Lost R) lost lost')
    (hlimits : LimitsPassed lost) : (lost.filterMap (·.report?)).map (Diagnostic.relocate g) =
      (lost'.filterMap (·.report?)).map (Diagnostic.relocate g') := by
  induction h with
  | nil => rfl
  | @cons d d' lost lost' hd _ ih =>
    obtain ⟨hlimit, hlimits⟩ := List.forall_mem_cons.mp hlimits
    obtain ⟨hp, hp'⟩ := ht.portrayed hd.1
    have hreport : ∀ {d : Dropped}, d.node.hasError = false → d.report? =
        some ⟨d.cause.message, spanOf d.node, .error, .lowering⟩ := by
      intro d hd
      rw [Dropped.report?, hd]
      rfl
    rw [List.filterMap_cons_some (hreport hp.sound), List.filterMap_cons_some (hreport hp'.sound), List.map_cons,
      List.map_cons, ih hlimits, Diagnostic.relocate, Diagnostic.relocate, hd.2 (.inl hlimit), ht.span_eq hd.1]

end Twins

end Cicode.Program
