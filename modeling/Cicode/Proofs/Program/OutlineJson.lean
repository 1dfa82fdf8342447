import Cicode.Program.Symbols
import Cicode.Proofs.Json.Reader

/-!
# Reading an outline back

An outline is written as JSON in which what is not known is left out, and in which a return type and a
default have no tag that says what they are.  `outlineOf?` maps JSON back to an outline: it looks the
fields of an object up by their keys, takes an absent key for something that is not known, and tells a
number from a string.

Main statement (`outline_reads_back`): an outline that is written on one line is read back, and different
outlines are written differently.
-/

namespace Cicode.Program

open Json

/-! ## From JSON to outlines -/

/-- The text that a value is. -/
def textOf? : Value → Option String
  | .string text => some text
  | _ => none

/-- The natural number that a value is. -/
def naturalOf? : Value → Option Nat
  | .number false value 0 => some value
  | _ => none

/-- The literal that a value is: a number or a string. -/
def literalOf? : Value → Option Literal
  | .number false value 0 => some (.number value)
  | .string value => some (.string value)
  | _ => none

/-- The items of an array, each of them mapped. -/
def itemsOf? {α : Type} (item? : Value → Option α) : Value → Option (List α)
  | .array items => items.mapM item?
  | _ => none

/-- The scope of a keyword. -/
def scopeOf? (word : String) : Option Scope :=
  if word = "PUBLIC" then some .public else if word = "PRIVATE" then some .private else none

/-- The return type of a keyword. -/
def returnTypeOf? (word : String) : Option ReturnType :=
  if word = "VOID" then some .void else (DataType.ofKeyword? word).map .value

/-- A field that is there, mapped. -/
def required? {α : Type} (value? : Value → Option α) (key : String) (fields : List (String × Value)) :
    Option α :=
  (fields.lookup key).bind value?

/-- A field that may be absent, mapped. -/
def optional? {α : Type} (value? : Value → Option α) (key : String) (fields : List (String × Value)) :
    Option (Option α) :=
  match fields.lookup key with
  | none => some none
  | some value => (value? value).map some

/-- The parameter that a value is. -/
def parameterOf? : Value → Option ParameterSymbol
  | .object fields => do
    let name ← required? textOf? "name" fields
    let type ← required? (fun value => (textOf? value).bind DataType.ofKeyword?) "type" fields
    let default ← optional? literalOf? "default" fields
    let description ← optional? textOf? "description" fields
    return { name, type, default, description }
  | _ => none

/-- The function that a value is. -/
def functionOf? : Value → Option FunctionSymbol
  | .object fields => do
    let name ← required? textOf? "name" fields
    let scope ← required? (fun value => (textOf? value).bind scopeOf?) "scope" fields
    let returnType ← required? (fun value => (textOf? value).bind returnTypeOf?) "return_type" fields
    let parameters ← required? (itemsOf? parameterOf?) "parameters" fields
    let summary ← optional? textOf? "summary" fields
    let line ← required? naturalOf? "line" fields
    return { name, scope, returnType, parameters, summary, line }
  | _ => none

/-- The outline that a value is. -/
def outlineOf? : Value → Option (List FunctionSymbol) := itemsOf? functionOf?

/-- The outline that a JSON text is. -/
def readOutline (text : String) : Option (List FunctionSymbol) := (Json.read text).bind outlineOf?

/-! ## Back and forth -/

theorem literalOf?_toJson (value : Literal) : literalOf? value.toJson.toValue = some value := by
  cases value <;> rfl

theorem scopeOf?_keyword (scope : Scope) : scopeOf? scope.keyword = some scope := by
  cases scope <;> decide

theorem ofKeyword?_keyword (type : DataType) : DataType.ofKeyword? type.keyword = some type := by
  cases type <;> decide

theorem returnTypeOf?_keyword (type : ReturnType) : returnTypeOf? type.keyword = some type := by
  cases type with
  | void => rfl
  | value type => cases type <;> decide

theorem toValues_eq (items : List Json) : toValues items = items.map (·.toValue) := by
  induction items with
  | nil => rfl
  | cons item items ih => rw [toValues, ih, List.map_cons]

theorem toFields_eq (fields : List (String × Json)) :
    toFields fields = fields.map fun (key, value) => (key, value.toValue) := by
  induction fields with
  | nil => rfl
  | cons field fields ih =>
    obtain ⟨key, value⟩ := field
    rw [toFields, ih, List.map_cons]

/-- An array is read back if its items are. -/
theorem itemsOf?_toValue {α : Type} {item? : Value → Option α} {toJson : α → Json}
    (h : ∀ a, item? (toJson a).toValue = some a) (as : List α) :
    itemsOf? item? (Json.array (as.map toJson)).toValue = some as := by
  rw [toValue, toValues_eq, itemsOf?, List.map_map]
  induction as with
  | nil => rfl
  | cons a as ih => rw [List.map_cons, List.mapM_cons, Function.comp_apply, h, ih]; rfl

section

variable {α : Type} {value? : Value → Option α} {key : String} {a : α} {fields : List (String × Value)}

theorem required?_found (value : Value) (h : fields.lookup key = some value) (hvalue : value? value = some a) :
    required? value? key fields = some a := by
  rw [required?, h, Option.bind_some, hvalue]

theorem optional?_found (value : Value) (h : fields.lookup key = some value) (hvalue : value? value = some a) :
    optional? value? key fields = some (some a) := by
  rw [optional?, h]
  simp only [hvalue, Option.map_some]

theorem optional?_absent (h : fields.lookup key = none) : optional? value? key fields = some none := by
  rw [optional?, h]

end

/-- A parameter is read back: whether a default and a description are there does not matter for the other
fields. -/
theorem parameterOf?_toJson (parameter : ParameterSymbol) :
    parameterOf? parameter.toJson.toValue = some parameter := by
  obtain ⟨name, type, default, description⟩ := parameter
  rw [ParameterSymbol.toJson, toValue, toFields_eq]
  generalize hfields : List.map _ _ = fields
  have hname : required? textOf? "name" fields = some name :=
    required?_found (.string name) (by rw [← hfields]; rfl) rfl
  have htype : required? (fun value => (textOf? value).bind DataType.ofKeyword?) "type" fields = some type :=
    required?_found (.string type.keyword) (by rw [← hfields]; rfl) (ofKeyword?_keyword type)
  have hdefault : optional? literalOf? "default" fields = some default := by
    cases default with
    | none => exact optional?_absent (by rw [← hfields]; cases description <;> rfl)
    | some value => exact optional?_found _ (by rw [← hfields]; rfl) (literalOf?_toJson value)
  have hdescription : optional? textOf? "description" fields = some description := by
    cases description with
    | none => exact optional?_absent (by rw [← hfields]; cases default <;> rfl)
    | some text =>
      exact optional?_found (.string text) (by rw [← hfields]; cases default <;> rfl) rfl
  rw [parameterOf?, hname, htype, hdefault, hdescription]
  rfl

theorem functionOf?_toJson (function : FunctionSymbol) :
    functionOf? function.toJson.toValue = some function := by
  obtain ⟨name, scope, returnType, parameters, summary, line⟩ := function
  rw [FunctionSymbol.toJson, toValue, toFields_eq]
  generalize hfields : List.map _ _ = fields
  have hname : required? textOf? "name" fields = some name :=
    required?_found (.string name) (by rw [← hfields]; rfl) rfl
  have hscope : required? (fun value => (textOf? value).bind scopeOf?) "scope" fields = some scope :=
    required?_found (.string scope.keyword) (by rw [← hfields]; rfl) (scopeOf?_keyword scope)
  have hreturn : required? (fun value => (textOf? value).bind returnTypeOf?) "return_type" fields =
      some returnType :=
    required?_found (.string returnType.keyword) (by rw [← hfields]; rfl)
      (returnTypeOf?_keyword returnType)
  have hparameters : required? (itemsOf? parameterOf?) "parameters" fields = some parameters :=
    required?_found _ (by rw [← hfields]; rfl) (itemsOf?_toValue parameterOf?_toJson parameters)
  have hsummary : optional? textOf? "summary" fields = some summary := by
    cases summary with
    | none => exact optional?_absent (by rw [← hfields]; rfl)
    | some text => exact optional?_found (.string text) (by rw [← hfields]; rfl) rfl
  have hline : required? naturalOf? "line" fields = some line :=
    required?_found (.number false line 0) (by rw [← hfields]; cases summary <;> rfl) rfl
  rw [functionOf?, hname, hscope, hreturn, hparameters, hsummary, hline]
  rfl

theorem outlineOf?_outlineJson (symbols : List FunctionSymbol) :
    outlineOf? (outlineJson symbols).toValue = some symbols := itemsOf?_toValue functionOf?_toJson symbols

theorem readOutline_compact (symbols : List FunctionSymbol) :
    readOutline (outlineJson symbols).compact = some symbols := by
  rw [readOutline, read_compact, Option.bind_some, outlineOf?_outlineJson]

/-- **The JSON of an outline is lossless**: it is read back, so that different outlines are never written
alike. -/
theorem outline_reads_back :
    (∀ symbols, readOutline (outlineJson symbols).compact = some symbols) ∧
    ∀ symbols others, (outlineJson symbols).compact = (outlineJson others).compact → symbols = others := by
  refine ⟨readOutline_compact, fun symbols others h => ?_⟩
  have hread := congrArg readOutline h
  rw [readOutline_compact, readOutline_compact] at hread
  exact Option.some.inj hread

end Cicode.Program
