import Cicode.Program.Function
import Cicode.Text.LineIndex

/-!
# Arranged programs

The spans in a program stand inside each other as its parts do, and spans of parts that follow each other
do so too.  A span *holds* others (`Span.Holds`) if these stand in it one after the other; what is
*arranged* (`Expr.Arranged` and so on) holds the spans of its parts, and its parts are arranged.  So an
arranged function holds all spans in it (`Function.Arranged.holds`).
-/

namespace Cicode.Text.Span

/-- The spans stand one after the other between two places. -/
def Row (low high : Nat) : List Span → Prop
  | [] => low ≤ high
  | span :: rest => low ≤ span.start ∧ span.start ≤ span.stop ∧ Row span.stop high rest

/-- The spans stand one after the other in a span. -/
def Holds (outer : Span) (spans : List Span) : Prop := Row outer.start outer.stop spans

variable {low mid high : Nat} {a b : List Span} {s outer inner : Span}

namespace Row

theorem le (h : Row low high a) : low ≤ high := by
  induction a generalizing low with
  | nil => exact h
  | cons s rest ih => exact Nat.le_trans h.1 (Nat.le_trans h.2.1 (ih h.2.2))

theorem mono_low {low' : Nat} (h : Row low high a) (hle : low' ≤ low) : Row low' high a := by
  cases a with
  | nil => exact Nat.le_trans hle h
  | cons s rest => exact ⟨Nat.le_trans hle h.1, h.2⟩

theorem mono_high {high' : Nat} (h : Row low high a) (hle : high ≤ high') : Row low high' a := by
  induction a generalizing low with
  | nil => exact Nat.le_trans h hle
  | cons s rest ih => exact ⟨h.1, h.2.1, ih h.2.2⟩

theorem append (h : Row low mid a) (h' : Row mid high b) : Row low high (a ++ b) := by
  induction a generalizing low with
  | nil => exact h'.mono_low h
  | cons s rest ih => exact ⟨h.1, h.2.1, ih h.2.2⟩

theorem of_append (h : Row low high (a ++ b)) : ∃ mid, Row low mid a ∧ Row mid high b := by
  induction a generalizing low with
  | nil => exact ⟨low, Nat.le_refl low, h⟩
  | cons s rest ih =>
    obtain ⟨mid, h1, h2⟩ := ih h.2.2
    exact ⟨mid, ⟨h.1, h.2.1, h1⟩, h2⟩

/-- Each of the spans lies between the places. -/
theorem inside (h : Row low high a) (hs : s ∈ a) : low ≤ s.start ∧ s.start ≤ s.stop ∧ s.stop ≤ high := by
  induction a generalizing low with
  | nil => cases hs
  | cons first rest ih =>
    rcases List.mem_cons.mp hs with rfl | hs
    · exact ⟨h.1, h.2.1, h.2.2.le⟩
    · obtain ⟨h1, h2⟩ := ih h.2.2 hs
      exact ⟨Nat.le_trans (Nat.le_trans h.1 h.2.1) h1, h2⟩

end Row

namespace Holds

theorem le (h : outer.Holds a) : outer.start ≤ outer.stop := Row.le h

theorem inside (h : outer.Holds a) (hs : s ∈ a) : outer.Holds [s] := by
  obtain ⟨h1, h2, h3⟩ := Row.inside h hs
  exact ⟨h1, h2, h3⟩

/-- What stands in a span stands in every span around it. -/
theorem trans (h : outer.Holds [inner]) (h' : inner.Holds a) : outer.Holds a :=
  (Row.mono_low h' h.1).mono_high h.2.2

theorem self (h : s.start ≤ s.stop) : s.Holds [s] := ⟨Nat.le_refl _, h, Nat.le_refl _⟩

/-- Whoever holds the spans of several parts holds the spans in them. -/
theorem parts {α : Type} {span : α → Span} {spans : α → List Span} {parts : List α}
    (h : outer.Holds (parts.map span)) (hin : ∀ part ∈ parts, ∀ s ∈ spans part, (span part).Holds [s])
    (hs : ∃ part ∈ parts, s ∈ spans part) : outer.Holds [s] := by
  obtain ⟨part, hpart, hmem⟩ := hs
  exact (h.inside (List.mem_map_of_mem hpart)).trans (hin part hpart s hmem)

end Holds

end Cicode.Text.Span

namespace Cicode.Program

open Text

/-! ## Arranged programs -/

/-- The expression holds its operands or arguments, at every depth. -/
inductive Expr.Arranged : Expr → Prop
  | number {span : Span} {value : Nat} : span.Holds [] → Arranged (.number span value)
  | string {span : Span} {value : String} : span.Holds [] → Arranged (.string span value)
  | variable {span : Span} {name : String} : span.Holds [] → Arranged (.variable span name)
  | negate {span : Span} {operand : Expr} : span.Holds [operand.span] → Arranged operand →
    Arranged (.negate span operand)
  | binary {span : Span} {operator : BinaryOperator} {left right : Expr} :
    span.Holds [left.span, right.span] → Arranged left → Arranged right →
    Arranged (.binary span operator left right)
  | call {span : Span} {function : String} {arguments : List Expr} :
    span.Holds (arguments.map Expr.span) → (∀ argument ∈ arguments, Arranged argument) →
    Arranged (.call span function arguments)

/-- The condition holds its operands, at every depth. -/
inductive Condition.Arranged : Condition → Prop
  | expr {span : Span} {value : Expr} : span.Holds [value.span] → value.Arranged →
    Arranged (.expr span value)
  | not {span : Span} {operand : Condition} : span.Holds [operand.span] → Arranged operand →
    Arranged (.not span operand)
  | binary {span : Span} {operator : ConditionOperator} {left right : Condition} :
    span.Holds [left.span, right.span] → Arranged left → Arranged right →
    Arranged (.binary span operator left right)

/-- The statement holds its parts, at every depth: its target and its value; its arguments in their order;
its condition, then the statements of the first branch, then those of the second. -/
inductive Statement.Arranged : Statement → Prop
  | assign {span targetSpan : Span} {target : String} {value : Expr} : span.Holds [targetSpan] →
    span.Holds [value.span] → value.Arranged → Arranged (.assign span target targetSpan value)
  | call {span : Span} {function : String} {arguments : List Expr} :
    span.Holds (arguments.map Expr.span) → (∀ argument ∈ arguments, argument.Arranged) →
    Arranged (.call span function arguments)
  | branch {span : Span} {condition : Condition} {thenPart : List Statement}
      {elsePart : Option (List Statement)} :
    span.Holds (condition.span ::
      (thenPart.map Statement.span ++ (elsePart.getD []).map Statement.span)) →
    condition.Arranged → (∀ statement ∈ thenPart, Arranged statement) →
    (∀ statement ∈ elsePart.getD [], Arranged statement) →
    Arranged (.branch span condition thenPart elsePart)
  | return {span : Span} {value : Option Expr} : span.Holds (value.map Expr.span).toList →
    (∀ e ∈ value, e.Arranged) → Arranged (.return span value)

/-- The variable holds its name, as it stands in the text, and then what it begins with. -/
def Variable.Arranged (chars : List Char) (v : Variable) : Prop :=
  ∃ pre post, chars = pre ++ v.name.toList ++ post ∧
    v.span.Holds (⟨byteLength pre, byteLength (pre ++ v.name.toList)⟩ ::
      (v.initializer.map (·.2)).toList)

/-- All parts of a function are in it, and those of one kind follow each other. -/
structure Function.Arranged (chars : List Char) (f : Function) : Prop where
  span : Span.Holds ⟨0, byteLength chars⟩ [f.span]
  name : f.span.Holds [f.nameSpan]
  parameters : f.span.Holds (f.parameters.map (·.span))
  locals : f.span.Holds (f.locals.map (·.span))
  declared : ∀ d ∈ f.locals, d.span.Holds (d.declared.map (·.span))
  named : ∀ d ∈ f.locals, ∀ v ∈ d.declared, v.Arranged chars
  body : f.span.Holds (f.body.map Statement.span)
  statements : ∀ statement ∈ f.body, statement.Arranged
  documented : ∀ doc, f.doc = some doc → ∀ param ∈ doc.params,
    Span.Holds ⟨0, byteLength chars⟩ [param.span]

/-! ## All spans -/

mutual

/-- The spans in an expression. -/
def Expr.spans : Expr → List Span
  | .number span _ => [span]
  | .string span _ => [span]
  | .variable span _ => [span]
  | .negate span operand => span :: operand.spans
  | .binary span _ left right => span :: (left.spans ++ right.spans)
  | .call span _ arguments => span :: Expr.spansAll arguments

/-- The spans in several expressions. -/
def Expr.spansAll : List Expr → List Span
  | [] => []
  | first :: rest => first.spans ++ Expr.spansAll rest

end

/-- The spans in a condition. -/
def Condition.spans : Condition → List Span
  | .expr span value => span :: value.spans
  | .not span operand => span :: operand.spans
  | .binary span _ left right => span :: (left.spans ++ right.spans)

mutual

/-- The spans in a statement. -/
def Statement.spans : Statement → List Span
  | .assign span _ targetSpan value => span :: targetSpan :: value.spans
  | .call span _ arguments => span :: Expr.spansAll arguments
  | .branch span condition thenPart elsePart =>
    span :: (condition.spans ++ (Statement.spansAll thenPart ++ Statement.spansElse elsePart))
  | .return span value => span :: (value.map Expr.spans).getD []

/-- The spans in several statements. -/
def Statement.spansAll : List Statement → List Span
  | [] => []
  | first :: rest => first.spans ++ Statement.spansAll rest

/-- The spans in an optional branch. -/
def Statement.spansElse : Option (List Statement) → List Span
  | none => []
  | some block => Statement.spansAll block

end

/-- The spans of a variable and of what it begins with. -/
def Variable.spans (v : Variable) : List Span := v.span :: (v.initializer.map (·.2)).toList

/-- All spans in a function, those of its documentation included. -/
def Function.spans (f : Function) : List Span :=
  f.span :: f.nameSpan :: (f.parameters.map (·.span) ++
    (f.locals.flatMap (fun d => d.span :: d.declared.flatMap Variable.spans) ++
      (Statement.spansAll f.body ++ (f.doc.map fun doc => doc.params.map (·.span)).getD [])))

theorem Expr.mem_spansAll {span : Span} {expressions : List Expr} :
    span ∈ Expr.spansAll expressions ↔ ∃ e ∈ expressions, span ∈ e.spans := by
  induction expressions with
  | nil => simp [Expr.spansAll]
  | cons first rest ih => simp [Expr.spansAll, ih]

theorem Statement.mem_spansAll {span : Span} {statements : List Statement} :
    span ∈ Statement.spansAll statements ↔ ∃ s ∈ statements, span ∈ s.spans := by
  induction statements with
  | nil => simp [Statement.spansAll]
  | cons first rest ih => simp [Statement.spansAll, ih]

/-- An arranged expression holds all spans in it. -/
theorem Expr.Arranged.holds {e : Expr} (h : e.Arranged) : ∀ s ∈ e.spans, e.span.Holds [s] := by
  induction h with
  | number hin | string hin | «variable» hin =>
    intro s hs
    obtain rfl := List.mem_singleton.mp hs
    exact .self hin.le
  | negate hin _ ih =>
    intro s hs
    rcases List.mem_cons.mp hs with rfl | hs
    · exact .self hin.le
    · exact hin.trans (ih s hs)
  | binary hin _ _ ihl ihr =>
    intro s hs
    rcases List.mem_cons.mp hs with rfl | hs
    · exact .self hin.le
    · rcases List.mem_append.mp hs with hs | hs
      · exact (hin.inside (by simp)).trans (ihl s hs)
      · exact (hin.inside (by simp)).trans (ihr s hs)
  | call hin _ ih =>
    intro s hs
    rcases List.mem_cons.mp hs with rfl | hs
    · exact .self hin.le
    · exact Span.Holds.parts hin ih (Expr.mem_spansAll.mp hs)

theorem Condition.Arranged.holds {c : Condition} (h : c.Arranged) : ∀ s ∈ c.spans, c.span.Holds [s] := by
  induction h with
  | expr hin hv =>
    intro s hs
    rcases List.mem_cons.mp hs with rfl | hs
    · exact .self hin.le
    · exact hin.trans (hv.holds s hs)
  | not hin _ ih =>
    intro s hs
    rcases List.mem_cons.mp hs with rfl | hs
    · exact .self hin.le
    · exact hin.trans (ih s hs)
  | binary hin _ _ ihl ihr =>
    intro s hs
    rcases List.mem_cons.mp hs with rfl | hs
    · exact .self hin.le
    · rcases List.mem_append.mp hs with hs | hs
      · exact (hin.inside (by simp)).trans (ihl s hs)
      · exact (hin.inside (by simp)).trans (ihr s hs)

theorem Statement.Arranged.holds {statement : Statement} (h : statement.Arranged) :
    ∀ s ∈ statement.spans, statement.span.Holds [s] := by
  induction h with
  | assign htarget hvalue hv =>
    intro s hs
    rcases List.mem_cons.mp hs with rfl | hs
    · exact .self hvalue.le
    · rcases List.mem_cons.mp hs with rfl | hs
      · exact htarget
      · exact hvalue.trans (hv.holds s hs)
  | call hin ha =>
    intro s hs
    rcases List.mem_cons.mp hs with rfl | hs
    · exact .self hin.le
    · exact Span.Holds.parts hin (fun e he => (ha e he).holds) (Expr.mem_spansAll.mp hs)
  | @branch span test thenPart elsePart hin htest _ _ ihThen ihElse =>
    have helse : Statement.spansElse elsePart = Statement.spansAll (elsePart.getD []) := by
      cases elsePart <;> rfl
    have hboth : span.Holds ((thenPart ++ elsePart.getD []).map Statement.span) := by
      rw [List.map_append]
      exact (Span.Row.mono_low hin.2.2 (Nat.le_trans hin.1 hin.2.1))
    intro s hs
    rcases List.mem_cons.mp hs with rfl | hs
    · exact .self hin.le
    · rcases List.mem_append.mp hs with hs | hs
      · exact (hin.inside List.mem_cons_self).trans (htest.holds s hs)
      · refine Span.Holds.parts hboth (List.forall_mem_append.mpr ⟨ihThen, ihElse⟩) ?_
        rw [helse] at hs
        rcases List.mem_append.mp hs with hs | hs
        · obtain ⟨part, hpart, hmem⟩ := Statement.mem_spansAll.mp hs
          exact ⟨part, List.mem_append_left _ hpart, hmem⟩
        · obtain ⟨part, hpart, hmem⟩ := Statement.mem_spansAll.mp hs
          exact ⟨part, List.mem_append_right _ hpart, hmem⟩
  | @«return» span value hin hv =>
    intro s hs
    rcases List.mem_cons.mp hs with rfl | hs
    · exact .self hin.le
    · cases value with
      | none => cases hs
      | some e => exact hin.trans ((hv e rfl).holds s hs)

/-- No span in an arranged function ends before it begins or beyond the text. -/
theorem Function.Arranged.holds {chars : List Char} {f : Function} (h : f.Arranged chars) :
    ∀ s ∈ f.spans, Span.Holds ⟨0, byteLength chars⟩ [s] := by
  intro s hs
  simp only [Function.spans, List.mem_cons, List.mem_append] at hs
  rcases hs with rfl | rfl | hs | hs | hs | hs
  · exact h.span
  · exact h.span.trans h.name
  · exact h.span.trans (h.parameters.inside hs)
  · obtain ⟨d, hd, hs⟩ := List.mem_flatMap.mp hs
    have hin := h.span.trans (h.locals.inside (List.mem_map_of_mem hd))
    rcases List.mem_cons.mp hs with rfl | hs
    · exact hin
    · obtain ⟨v, hv, hs⟩ := List.mem_flatMap.mp hs
      have hin := hin.trans ((h.declared d hd).inside (List.mem_map_of_mem hv))
      obtain ⟨pre, post, -, hv⟩ := h.named d hd v hv
      rcases List.mem_cons.mp hs with rfl | hs
      · exact hin
      · exact hin.trans (hv.inside (List.mem_cons_of_mem _ hs))
  · exact h.span.trans (Span.Holds.parts h.body (fun part hpart => (h.statements part hpart).holds)
      (Statement.mem_spansAll.mp hs))
  · cases hdoc : f.doc with
    | none =>
      rw [hdoc] at hs
      cases hs
    | some doc =>
      rw [hdoc] at hs
      obtain ⟨param, hparam, rfl⟩ := List.mem_map.mp hs
      exact h.documented doc hdoc param hparam

end Cicode.Program
