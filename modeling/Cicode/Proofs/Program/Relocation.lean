import Cicode.Program.Validate

/-!
# Programs in other places

A program is *relocated* by changing each of its spans alike.  Nothing but its places changes: validation
compares names and looks at the shape of statements, so it finds the same faults, at the new places.

Main statement (`validate_relocate`): validation of a relocated program reports the relocated diagnostics.
-/

namespace Cicode.Program

open Text

variable (g : Span → Span)

/-! ## Relocation -/

mutual

/-- The expression in another place. -/
def Expr.relocate : Expr → Expr
  | .number span value => .number (g span) value
  | .string span value => .string (g span) value
  | .variable span name => .variable (g span) name
  | .negate span operand => .negate (g span) operand.relocate
  | .binary span operator left right => .binary (g span) operator left.relocate right.relocate
  | .call span function arguments => .call (g span) function (Expr.relocateAll arguments)

/-- Each of some expressions in another place. -/
def Expr.relocateAll : List Expr → List Expr
  | [] => []
  | first :: rest => first.relocate :: Expr.relocateAll rest

end

/-- The condition in another place. -/
def Condition.relocate : Condition → Condition
  | .expr span value => .expr (g span) (value.relocate g)
  | .not span operand => .not (g span) operand.relocate
  | .binary span operator left right => .binary (g span) operator left.relocate right.relocate

mutual

/-- The statement in another place. -/
def Statement.relocate : Statement → Statement
  | .assign span target targetSpan value => .assign (g span) target (g targetSpan) (value.relocate g)
  | .call span function arguments => .call (g span) function (Expr.relocateAll g arguments)
  | .branch span condition thenPart elsePart =>
    .branch (g span) (condition.relocate g) (Statement.relocateAll thenPart)
      (Statement.relocateElse elsePart)
  | .return span value => .return (g span) (value.map (Expr.relocate g))

/-- The statements of a block in another place. -/
def Statement.relocateAll : List Statement → List Statement
  | [] => []
  | first :: rest => first.relocate :: Statement.relocateAll rest

/-- The branch after `ELSE` in another place, if there is one. -/
def Statement.relocateElse : Option (List Statement) → Option (List Statement)
  | none => none
  | some block => some (Statement.relocateAll block)

end

/-- The parameter in another place. -/
def Parameter.relocate (parameter : Parameter) : Parameter := { parameter with span := g parameter.span }

/-- The variable in another place. -/
def Variable.relocate (v : Variable) : Variable :=
  { v with initializer := v.initializer.map fun given => (given.1, g given.2), span := g v.span }

/-- The declaration in another place. -/
def Declaration.relocate (d : Declaration) : Declaration :=
  { d with declared := d.declared.map (Variable.relocate g), span := g d.span }

/-- The description of a parameter in another place. -/
def DocParam.relocate (param : DocParam) : DocParam := { param with span := g param.span }

/-- The documentation in another place. -/
def Doc.relocate (doc : Doc) : Doc := { doc with params := doc.params.map (DocParam.relocate g) }

/-- The function in another place, with its documentation. -/
def Function.relocate (f : Function) : Function :=
  { f with
    nameSpan := g f.nameSpan
    parameters := f.parameters.map (Parameter.relocate g)
    locals := f.locals.map (Declaration.relocate g)
    body := Statement.relocateAll g f.body
    doc := f.doc.map (Doc.relocate g)
    span := g f.span }

/-- The diagnostic about another place. -/
def Diagnostic.relocate (d : Diagnostic) : Diagnostic := { d with span := g d.span }

theorem Expr.relocateAll_eq (es : List Expr) : Expr.relocateAll g es = es.map (Expr.relocate g) := by
  induction es with
  | nil => rw [Expr.relocateAll, List.map_nil]
  | cons e es ih => rw [Expr.relocateAll, List.map_cons, ih]

theorem Statement.relocateAll_eq (block : List Statement) :
    Statement.relocateAll g block = block.map (Statement.relocate g) := by
  induction block with
  | nil => rw [Statement.relocateAll, List.map_nil]
  | cons s block ih => rw [Statement.relocateAll, List.map_cons, ih]

@[simp] theorem Expr.span_relocate (e : Expr) : (e.relocate g).span = g e.span := by
  cases e <;> simp only [Expr.relocate, Expr.span]

@[simp] theorem Expr.relocate_withSpan (span : Span) (e : Expr) :
    (e.withSpan span).relocate g = (e.relocate g).withSpan (g span) := by
  cases e <;> simp only [Expr.relocate, Expr.withSpan]

@[simp] theorem Condition.relocate_withSpan (span : Span) (c : Condition) :
    (c.withSpan span).relocate g = (c.relocate g).withSpan (g span) := by
  cases c <;> simp only [Condition.relocate, Condition.withSpan]

/-! ## The same place -/

mutual

@[simp] theorem Expr.relocate_id : ∀ e : Expr, e.relocate id = e
  | .number .. | .string .. | .variable .. => by rw [Expr.relocate]; rfl
  | .negate span operand => by rw [Expr.relocate, Expr.relocate_id operand]; rfl
  | .binary span operator left right => by
    rw [Expr.relocate, Expr.relocate_id left, Expr.relocate_id right]
    rfl
  | .call span function arguments => by rw [Expr.relocate, Expr.relocateAll_id arguments]; rfl

@[simp] theorem Expr.relocateAll_id : ∀ es : List Expr, Expr.relocateAll id es = es
  | [] => by rw [Expr.relocateAll]
  | e :: es => by rw [Expr.relocateAll, Expr.relocate_id e, Expr.relocateAll_id es]

end

@[simp] theorem Condition.relocate_id : ∀ c : Condition, c.relocate id = c
  | .expr span value => by rw [Condition.relocate, Expr.relocate_id]; rfl
  | .not span operand => by rw [Condition.relocate, Condition.relocate_id operand]; rfl
  | .binary span operator left right => by
    rw [Condition.relocate, Condition.relocate_id left, Condition.relocate_id right]
    rfl

mutual

@[simp] theorem Statement.relocate_id : ∀ s : Statement, s.relocate id = s
  | .assign span target targetSpan value => by rw [Statement.relocate, Expr.relocate_id]; rfl
  | .call span function arguments => by rw [Statement.relocate, Expr.relocateAll_id]; rfl
  | .branch span condition thenPart elsePart => by
    rw [Statement.relocate, Condition.relocate_id, Statement.relocateAll_id thenPart,
      Statement.relocateElse_id elsePart]
    rfl
  | .return span value => by
    rw [Statement.relocate, show Expr.relocate id = id from funext Expr.relocate_id, Option.map_id]
    rfl

@[simp] theorem Statement.relocateAll_id : ∀ block : List Statement, Statement.relocateAll id block = block
  | [] => by rw [Statement.relocateAll]
  | s :: block => by rw [Statement.relocateAll, Statement.relocate_id s, Statement.relocateAll_id block]

@[simp] theorem Statement.relocateElse_id : ∀ block : Option (List Statement), Statement.relocateElse id block = block
  | none => by rw [Statement.relocateElse]
  | some block => by rw [Statement.relocateElse, Statement.relocateAll_id block]

end

/-- **A function in its own place is itself.** -/
@[simp] theorem Function.relocate_id (f : Function) : f.relocate id = f := by
  have hparameter : Parameter.relocate id = id := rfl
  have hvariable : Variable.relocate id = id := by
    funext v
    obtain ⟨name, initializer, span⟩ := v
    cases initializer <;> rfl
  have hdeclaration : Declaration.relocate id = id := by
    funext d
    rw [Declaration.relocate, hvariable, List.map_id]
    rfl
  have hdoc : Doc.relocate id = id := by
    funext doc
    rw [Doc.relocate, show DocParam.relocate id = id from rfl, List.map_id]
    rfl
  rw [Function.relocate, hparameter, hdeclaration, hdoc, List.map_id, List.map_id, Option.map_id,
    Statement.relocateAll_id]
  rfl

/-! ## Statements of a block -/

mutual

theorem walk_relocate : ∀ s : Statement, (s.relocate g).walk = s.walk.map (Statement.relocate g)
  | .assign .. | .call .. | .return .. => by simp [Statement.relocate, Statement.walk]
  | .branch span condition thenPart elsePart => by
    simp only [Statement.relocate, Statement.walk, List.map_cons, List.map_append, walkAll_relocate thenPart,
      walkElse_relocate elsePart]

theorem walkAll_relocate : ∀ block : List Statement,
    Statement.walkAll (Statement.relocateAll g block) = (Statement.walkAll block).map (Statement.relocate g)
  | [] => by rw [Statement.relocateAll, Statement.walkAll, List.map_nil]
  | s :: rest => by
    rw [Statement.relocateAll, Statement.walkAll, Statement.walkAll, walk_relocate s, walkAll_relocate rest,
      List.map_append]

theorem walkElse_relocate : ∀ block : Option (List Statement),
    Statement.walkElse (Statement.relocateElse g block) = (Statement.walkElse block).map (Statement.relocate g)
  | none => by rw [Statement.relocateElse, Statement.walkElse, List.map_nil]
  | some block => by rw [Statement.relocateElse, Statement.walkElse, Statement.walkElse, walkAll_relocate block]

end

/-! ## Validation -/

/-- Names are repeated wherever they stand. -/
theorem repeated_map {α β : Type} (name : α → String) (name' : β → String) (f : α → β)
    (hname : ∀ a, name' (f a) = name a) (seen : List String) (l : List α) :
    repeated name' seen (l.map f) = (repeated name seen l).map f := by
  induction l generalizing seen with
  | nil => rfl
  | cons a l ih =>
    rw [List.map_cons, repeated, repeated, hname]
    split
    · rw [ih, List.map_cons]
    · rw [ih]

theorem relocate_reportAt (fault : Fault) (span : Span) :
    (fault.reportAt span).relocate g = fault.reportAt (g span) := rfl

namespace Function

variable (f : Function)

theorem declared_relocate :
    (f.relocate g).declared = f.declared.map fun entry => (entry.1, entry.2.1, g entry.2.2) := by
  simp only [declared, relocate, Declaration.relocate, List.map_append, List.map_map, List.map_flatMap,
    List.flatMap_map]
  rfl

theorem checkDeclarations_relocate :
    (f.relocate g).checkDeclarations = f.checkDeclarations.map (Diagnostic.relocate g) := by
  rw [checkDeclarations, declared_relocate, repeated_map (fun entry : String × String × Span => entry.2.1)
    (fun entry : String × String × Span => entry.2.1) (fun entry => (entry.1, entry.2.1, g entry.2.2))
    (fun _ => rfl), List.map_map, checkDeclarations, List.map_map]
  rfl

theorem checkDoc_relocate : (f.relocate g).checkDoc = f.checkDoc.map (Diagnostic.relocate g) := by
  rw [checkDoc, checkDoc]
  cases hdoc : f.doc with
  | none => simp [relocate, hdoc]
  | some doc =>
    simp only [relocate, hdoc, Option.map_some, Doc.relocate, List.filter_map, List.map_map, List.any_map]
    rfl

theorem checkDefaults_relocate (seen : Bool) (parameters : List Parameter) :
    checkDefaults seen (parameters.map (Parameter.relocate g)) =
      (checkDefaults seen parameters).map (Diagnostic.relocate g) := by
  induction parameters generalizing seen with
  | nil => rfl
  | cons p parameters ih =>
    rw [List.map_cons, checkDefaults, checkDefaults, show (p.relocate g).default = p.default from rfl]
    split
    · exact ih true
    · split
      · rw [ih, List.map_cons]
        rfl
      · exact ih seen

theorem checkReturn_relocate (s : Statement) :
    (f.relocate g).checkReturn (s.relocate g) = (f.checkReturn s).map (Diagnostic.relocate g) := by
  cases s with
  | assign | call | branch => simp [Statement.relocate, checkReturn]
  | «return» span value =>
    have htype : (f.relocate g).returnType = f.returnType := rfl
    simp only [Statement.relocate, checkReturn, htype]
    cases f.returnType with
    | void =>
      cases value with
      | none => rfl
      | some value =>
        simp only [Option.map_some, Expr.span_relocate, relocate_reportAt]
        rfl
    | value type => cases value <;> rfl

theorem returnsValue_relocate (s : Statement) : returnsValue (s.relocate g) = returnsValue s := by
  cases s with
  | assign | call | branch => simp [Statement.relocate, returnsValue]
  | «return» span value =>
    rw [Statement.relocate]
    cases value <;> rfl

theorem checkReturns_relocate :
    (f.relocate g).checkReturns = f.checkReturns.map (Diagnostic.relocate g) := by
  have hwrong : ((Statement.walkAll f.body).map (Statement.relocate g)).filterMap (f.relocate g).checkReturn =
      ((Statement.walkAll f.body).filterMap f.checkReturn).map (Diagnostic.relocate g) := by
    rw [List.filterMap_map, List.map_filterMap]
    exact congrArg (List.filterMap · _) (funext (checkReturn_relocate g f))
  have hany : ((Statement.walkAll f.body).map (Statement.relocate g)).any returnsValue =
      (Statement.walkAll f.body).any returnsValue := by
    rw [List.any_map]
    congr 1
    exact funext (returnsValue_relocate g)
  have hbody : Statement.walkAll (f.relocate g).body = (Statement.walkAll f.body).map (Statement.relocate g) :=
    walkAll_relocate g f.body
  rw [checkReturns, checkReturns, hbody, hwrong, hany, show (f.relocate g).returnType = f.returnType from rfl]
  cases f.returnType with
  | void => rfl
  | value type =>
    simp only
    split
    · rfl
    · rw [List.map_append]
      rfl

theorem validate_relocate : (f.relocate g).validate = f.validate.map (Diagnostic.relocate g) := by
  rw [validate, checkDeclarations_relocate, checkDoc_relocate, checkReturns_relocate,
    show (f.relocate g).parameters = f.parameters.map (Parameter.relocate g) from rfl, checkDefaults_relocate,
    validate, List.map_append, List.map_append, List.map_append]

end Function

/-- **Validation finds the same faults in other places.** -/
theorem validate_relocate (functions : List Function) :
    validate (functions.map (Function.relocate g)) = (validate functions).map (Diagnostic.relocate g) := by
  rw [validate, repeated_map Function.name Function.name (Function.relocate g) fun _ => rfl, List.map_map, List.flatMap_map, validate,
    List.map_append, List.map_map, List.map_flatMap]
  congr 1
  exact congrArg (functions.flatMap ·) (funext fun f => f.validate_relocate g)

end Cicode.Program
