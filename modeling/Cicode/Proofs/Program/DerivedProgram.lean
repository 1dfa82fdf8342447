import Cicode.Proofs.Program.Derivation

/-!
# The derivation of a printed program

Statements, declarations and functions are written one after the other, and so are their derivations.

Main statement (`writes_program`): a program that can be printed (`Function.Printable`) has a resolved
derivation whose leaves are the printed words and spell their terminals.
-/

namespace Cicode.Program

open Grammar Text Cicode.Lex

/-! ## Statements -/

mutual

/-- A statement. -/
def Statement.derivation : Statement → Derivation Word
  | .assign _ target _ value =>
    .node .statementOrExpression [.node .variableAssignment
      [named target, fixed .equal, .node .expressionVariableAssignments [value.derivation 1],
        fixed .semicolon]]
  | .call _ function arguments =>
    .node .statementOrExpression
      [callDerivation function (Expr.derivations arguments), fixed .semicolon]
  | .branch _ condition thenPart elsePart =>
    .node .statementOrExpression [.node .ifStatement
      (fixed .kwIf :: condition.derivation 1 :: fixed .kwThen ::
        (Statement.derivations thenPart ++ (Statement.elseDerivations elsePart ++ [fixed .kwEnd])))]
  | .return _ none => .node .returnStatement [fixed .kwReturn, fixed .semicolon]
  | .return _ (some value) =>
    .node .returnStatement [fixed .kwReturn, value.derivation 1, fixed .semicolon]

/-- The statements of a block. -/
def Statement.derivations : List Statement → List (Derivation Word)
  | [] => []
  | first :: rest => .node .bodyStatement [first.derivation] :: Statement.derivations rest

/-- The branch after `ELSE`, if there is one. -/
def Statement.elseDerivations : Option (List Statement) → List (Derivation Word)
  | none => []
  | some block => fixed .kwElse :: Statement.derivations block

end

mutual

/-- The statement can be printed. -/
def Statement.Printable : Statement → Prop
  | .assign _ target _ value => IsName target.toList ∧ value.Printable
  | .call _ function arguments => IsName function.toList ∧ Expr.AllPrintable arguments
  | .branch _ condition thenPart elsePart =>
    condition.Printable ∧ Statement.AllPrintable thenPart ∧ Statement.ElsePrintable elsePart
  | .return _ none => True
  | .return _ (some value) => value.Printable

/-- The statements of a block can be printed. -/
def Statement.AllPrintable : List Statement → Prop
  | [] => True
  | first :: rest => first.Printable ∧ Statement.AllPrintable rest

/-- The branch after `ELSE` can be printed. -/
def Statement.ElsePrintable : Option (List Statement) → Prop
  | none => True
  | some block => Statement.AllPrintable block

end

theorem writes_keyword {symbol : Symbol} (h : symbol ∈ reservedWords) :
    Writes symbol [symbol.name.toList] (fixed symbol) := writes_fixed (.inr h)

theorem writes_semicolon : Writes .semicolon [";".toList] (fixed .semicolon) :=
  writes_punctuation (by decide)

theorem writes_equal : Writes .equal ["=".toList] (fixed .equal) := writes_punctuation (by decide)

theorem writes_assign {target : String} (hname : IsName target.toList) {value : Expr}
    (h : value.Printable) :
    Writes .variableAssignment (target.toList :: "=".toList :: value.words 1 ++ [";".toList])
      (.node .variableAssignment [named target, fixed .equal,
        .node .expressionVariableAssignments [value.derivation 1], fixed .semicolon]) := by
  have hvalue : Writes .expressionVariableAssignments (value.words 1)
      (.node .expressionVariableAssignments [value.derivation 1]) :=
    .wrap (writes_expr value h (by decide)).1 (by decide)
  have hrule : (Writes.isPlain .variableAssignment && Writes.hasRule .variableAssignment
      [.identifier, .equal, .expressionVariableAssignments, .semicolon]) = true := by decide
  exact .flat (.word (writes_named hname) (.word writes_equal (.cons hvalue (.single writes_semicolon))))
    rfl hrule

theorem writes_callStatement {function : String} (hname : IsName function.toList)
    {arguments : List Expr} (h : Expr.AllPrintable arguments) :
    Writes .statementOrExpression (callWords function (Expr.wordsEach arguments) ++ [";".toList])
      (.node .statementOrExpression
        [callDerivation function (Expr.derivations arguments), fixed .semicolon]) := by
  have hrule : (Writes.isPlain .statementOrExpression &&
      Writes.hasRule .statementOrExpression [.functionCall, .semicolon]) = true := by decide
  exact .flat (.cons (writes_call hname (writes_exprs arguments h)) (.single writes_semicolon)) rfl hrule

theorem writes_returnNothing :
    Writes .returnStatement ["RETURN".toList, ";".toList]
      (.node .returnStatement [fixed .kwReturn, fixed .semicolon]) := by
  have hkeyword : Writes .kwReturn ["RETURN".toList] (fixed .kwReturn) := writes_keyword (by decide)
  have hrule : (Writes.isPlain .returnStatement &&
      Writes.hasRule .returnStatement [.kwReturn, .semicolon]) = true := by decide
  exact .flat (.word hkeyword (.single writes_semicolon)) rfl hrule

theorem writes_return {value : Expr} (h : value.Printable) :
    Writes .returnStatement ("RETURN".toList :: value.words 1 ++ [";".toList])
      (.node .returnStatement [fixed .kwReturn, value.derivation 1, fixed .semicolon]) := by
  have hkeyword : Writes .kwReturn ["RETURN".toList] (fixed .kwReturn) := writes_keyword (by decide)
  have hvalue := (writes_expr value h (show 1 ≤ atomic by decide)).1
  have hrule : (Writes.isPlain .returnStatement &&
      Writes.hasRule .returnStatement [.kwReturn, .expression, .semicolon]) = true := by decide
  refine .flat (.word hkeyword (.cons hvalue (.single writes_semicolon))) ?_ hrule
  rw [← hvalue.good.symbol_eq]
  rfl

/-- The derivations are those of statements and write the words. -/
structure WriteBlock (words : List Word) (ds : List (Derivation Word)) : Prop where
  all : WriteAll words ds
  symbols : ∀ d ∈ ds, d.symbol = .bodyStatement

namespace WriteBlock

theorem nil : WriteBlock [] [] := ⟨.nil, by simp⟩

theorem cons {words words' : List Word} {d : Derivation Word} {ds : List (Derivation Word)}
    (h : Writes .bodyStatement words d) (h' : WriteBlock words' ds) :
    WriteBlock (words ++ words') (d :: ds) :=
  ⟨.cons h h'.all, List.forall_mem_cons.mpr ⟨h.good.symbol_eq, h'.symbols⟩⟩

theorem matches_many {words : List Word} {ds : List (Derivation Word)} (h : WriteBlock words ds)
    (hidden : Symbol) :
    (Rule.many hidden (.symbol .bodyStatement)).Matches (ds.map Derivation.symbol) := by
  refine .repeated (List.forall_mem_map.mpr fun d hd => ?_)
  rw [h.symbols d hd]
  exact .symbol .bodyStatement

end WriteBlock

/-- What stands after `ELSE`, and `ELSE` itself. -/
def elseRule : Rule := .seq (.symbol .kwElse) (.many .branchStatements (.symbol .bodyStatement))

/-- The derivations are those of a branch after `ELSE`, if there is one, and write the words. -/
structure WriteElse (words : List Word) (ds : List (Derivation Word)) : Prop where
  all : WriteAll words ds
  fits : (Rule.optional elseRule).Matches (ds.map Derivation.symbol)

theorem WriteElse.none : WriteElse [] [] := ⟨.nil, .second .empty⟩

theorem WriteElse.some {words : List Word} {ds : List (Derivation Word)} (h : WriteBlock words ds) :
    WriteElse ("ELSE".toList :: words) (fixed .kwElse :: ds) := by
  have hkeyword : Writes .kwElse ["ELSE".toList] (fixed .kwElse) := writes_keyword (by decide)
  exact ⟨.word hkeyword h.all, .first (.seq (.symbol .kwElse) (h.matches_many .branchStatements))⟩

theorem writes_branch {condition : Condition} (hcondition : condition.Printable)
    {thenWords elseWords : List Word} {thenPart elsePart : List (Derivation Word)}
    (hthen : WriteBlock thenWords thenPart) (helse : WriteElse elseWords elsePart) :
    Writes .ifStatement
      ("IF".toList :: condition.words 1 ++ "THEN".toList :: thenWords ++ elseWords ++ ["END".toList])
      (.node .ifStatement (fixed .kwIf :: condition.derivation 1 :: fixed .kwThen ::
        (thenPart ++ (elsePart ++ [fixed .kwEnd])))) := by
  have hif : Writes .kwIf ["IF".toList] (fixed .kwIf) := writes_keyword (by decide)
  have hthenWord : Writes .kwThen ["THEN".toList] (fixed .kwThen) := writes_keyword (by decide)
  have hend : Writes .kwEnd ["END".toList] (fixed .kwEnd) := writes_keyword (by decide)
  have htest := (writes_condition condition hcondition (show 1 ≤ atomic by decide)).1
  have hall := WriteAll.word hif (.cons htest (.word hthenWord
    (hthen.all.append (helse.all.append (.single hend)))))
  have hwords : "IF".toList :: condition.words 1 ++ "THEN".toList :: thenWords ++ elseWords ++
      ["END".toList] = "IF".toList :: (condition.words 1 ++ ("THEN".toList ::
        (thenWords ++ (elseWords ++ ["END".toList])))) := by simp
  rw [hwords]
  refine .plain (by decide) hall ⟨_, rfl, .cons .kwIf ?_⟩
  rw [← htest.good.symbol_eq]
  refine .cons _ (.cons .kwThen ?_)
  rw [List.map_append, List.map_append]
  exact .seq (hthen.matches_many .branchStatements) (.seq helse.fits (.last .kwEnd))

mutual

/-- **A statement has a derivation that writes its words.** -/
theorem writes_statement : ∀ (s : Statement), s.Printable →
    Writes .bodyStatement s.words (.node .bodyStatement [s.derivation])
  | .assign _ _ _ _, h => .wrap (.wrap (writes_assign h.1 h.2) (by decide)) (by decide)
  | .call _ _ _, h => .wrap (writes_callStatement h.1 h.2) (by decide)
  | .branch _ _ thenPart elsePart, h =>
    .wrap (.wrap (writes_branch h.1 (writes_block thenPart h.2.1) (writes_else elsePart h.2.2))
      (by decide)) (by decide)
  | .return _ none, _ => .wrap writes_returnNothing (by decide)
  | .return _ (some _), h => .wrap (writes_return h) (by decide)

/-- The statements of a block have derivations that write their words. -/
theorem writes_block : ∀ (block : List Statement), Statement.AllPrintable block →
    WriteBlock (Statement.wordsAll block) (Statement.derivations block)
  | [], _ => .nil
  | s :: block, h => .cons (writes_statement s h.1) (writes_block block h.2)

/-- The branch after `ELSE` has a derivation that writes its words. -/
theorem writes_else : ∀ (block : Option (List Statement)), Statement.ElsePrintable block →
    WriteElse (Statement.wordsElse block) (Statement.elseDerivations block)
  | none, _ => .none
  | some block, h => .some (writes_block block h)

end

/-! ## Functions -/

/-- The token of a type. -/
def DataType.token : DataType → Symbol
  | .int => .kwInt
  | .string => .kwString
  | .real => .kwReal
  | .quality => .kwQuality
  | .timestamp => .kwTimestamp
  | .bool => .kwBool
  | .object => .kwObject
  | .long => .kwLong

/-- The derivation of a type. -/
def DataType.derivation (type : DataType) : Derivation Word := .node .type [fixed type.token]

/-- The derivation of a return type. -/
def ReturnType.derivation : ReturnType → Derivation Word
  | .void => .node .functionTypes [fixed .kwVoid]
  | .value type => .node .functionTypes [type.derivation]

/-- The token of a scope. -/
def Scope.token : Scope → Symbol
  | .public => .kwPublic
  | .private => .kwPrivate

/-- The derivation of a scope. -/
def Scope.derivation (scope : Scope) : Derivation Word := .node .functionScope [fixed scope.token]

/-- The derivation of a parameter. -/
def Parameter.derivation (parameter : Parameter) : Derivation Word :=
  .node .functionParameter (.node .parameterType [parameter.type.derivation] ::
    named parameter.name :: match parameter.default with
      | none => []
      | some value => [.node .defaultValue [fixed .equal, value.derivation]])

/-- The terminal of an initial value. -/
def Initializer.symbol : Initializer → Symbol
  | .literal value => value.symbol
  | .variable _ => .identifier

/-- The derivation of an initial value. -/
def Initializer.derivation (value : Initializer) : Derivation Word := .leaf value.symbol value.word

/-- The derivations of a variable. -/
def Variable.derivations (declared : Variable) : List (Derivation Word) :=
  named declared.name :: match declared.initializer with
    | none => []
    | some (value, _) => [.node .assignToValue [fixed .equal, value.derivation]]

/-- The derivation of a declaration. -/
def Declaration.derivation (declaration : Declaration) : Derivation Word :=
  .node .variableDeclaration (.node .variableType [declaration.type.derivation] ::
    (joined (declaration.declared.map Variable.derivations) ++ [fixed .semicolon]))

/-- The parameters of a function, if there are any. -/
def parametersDerivation : List Parameter → List (Derivation Word)
  | [] => []
  | parameters => [.node .functionParameters (joined (parameters.map fun p => [p.derivation]))]

/-- The derivation of a header. -/
def Function.headerDerivation (function : Function) : Derivation Word :=
  .node .functionDefinition (function.scope.derivation :: function.returnType.derivation ::
    fixed .kwFunction :: named function.name :: fixed .lparen ::
      (parametersDerivation function.parameters ++ [fixed .rparen, fixed .lineFeed]))

/-- The derivation of a function. -/
def Function.derivation (function : Function) : Derivation Word :=
  .node .function (function.headerDerivation :: (function.locals.map Declaration.derivation ++
    (Statement.derivations function.body ++ [fixed .kwEnd])))

/-- The parameter can be printed. -/
structure Parameter.Printable (parameter : Parameter) : Prop where
  name : IsName parameter.name.toList
  default : ∀ value ∈ parameter.default, value.Printable

/-- The initial value can be printed. -/
def Initializer.Printable : Initializer → Prop
  | .literal value => value.Printable
  | .variable name => IsName name.toList

/-- The variable can be printed. -/
structure Variable.Printable (declared : Variable) : Prop where
  name : IsName declared.name.toList
  initializer : ∀ value ∈ declared.initializer, value.1.Printable

/-- The declaration can be printed: there is something to declare. -/
structure Declaration.Printable (declaration : Declaration) : Prop where
  some_declared : declaration.declared ≠ []
  declared : ∀ declared ∈ declaration.declared, declared.Printable

/-- The function can be printed. -/
structure Function.Printable (function : Function) : Prop where
  name : IsName function.name.toList
  parameters : ∀ parameter ∈ function.parameters, parameter.Printable
  locals : ∀ declaration ∈ function.locals, declaration.Printable
  body : Statement.AllPrintable function.body
  no_doc : function.doc = none
  nesting : function.nesting ≤ maxNesting

theorem writes_type (type : DataType) : Writes .type [type.keyword.toList] type.derivation := by
  have htoken : type.token ∈ reservedWords := by cases type <;> decide
  have hname : type.token.name = type.keyword := by cases type <;> rfl
  have h := writes_keyword htoken
  rw [hname] at h
  refine .wrap h ?_
  cases type <;> decide

theorem writes_returnType (type : ReturnType) :
    Writes .functionTypes [type.keyword.toList] type.derivation := by
  cases type with
  | void =>
    have hkeyword : Writes .kwVoid ["VOID".toList] (fixed .kwVoid) := writes_keyword (by decide)
    exact .wrap hkeyword (by decide)
  | value type => exact .wrap (writes_type type) (by decide)

theorem writes_scope (scope : Scope) :
    Writes .functionScope [scope.keyword.toList] scope.derivation := by
  have htoken : scope.token ∈ reservedWords := by cases scope <;> decide
  have hname : scope.token.name = scope.keyword := by cases scope <;> rfl
  have h := writes_keyword htoken
  rw [hname] at h
  refine .wrap h ?_
  cases scope <;> decide

theorem writes_parameter {parameter : Parameter} (h : parameter.Printable) :
    Writes .functionParameter parameter.words parameter.derivation := by
  have htype : Writes .parameterType [parameter.type.keyword.toList]
      (.node .parameterType [parameter.type.derivation]) := .wrap (writes_type _) (by decide)
  have hname := writes_named h.name
  rw [Parameter.words, Parameter.derivation]
  cases hdefault : parameter.default with
  | none =>
    have hrule : (Writes.isPlain .functionParameter &&
        Writes.hasRule .functionParameter [.parameterType, .identifier]) = true := by decide
    exact .flat (.word htype (.single hname)) rfl hrule
  | some value =>
    have hvalue := writes_literal (h.default value hdefault)
    have hdefaultRule : (Writes.isPlain .defaultValue &&
        Writes.hasRule .defaultValue [.equal, value.symbol]) = true := by cases value <;> rfl
    have hgiven : Writes .defaultValue ["=".toList, value.word]
        (.node .defaultValue [fixed .equal, value.derivation]) :=
      .flat (.word writes_equal (.single hvalue)) rfl hdefaultRule
    have hrule : (Writes.isPlain .functionParameter && Writes.hasRule .functionParameter
        [.parameterType, .identifier, .defaultValue]) = true := by decide
    exact .flat (.word htype (.word hname (.single hgiven))) rfl hrule

theorem writes_initializer {value : Initializer} (h : value.Printable) :
    Writes value.symbol [value.word] value.derivation := by
  cases value with
  | literal value => exact writes_literal h
  | «variable» name => exact writes_named h

/-- What a declaration says of a variable. -/
def variableRule : Rule := .seqOf [.symbol .identifier, .optional (.symbol .assignToValue)]

theorem writeAll_variable {declared : Variable} (h : declared.Printable) :
    WriteAll declared.words declared.derivations ∧
      variableRule.Matches (declared.derivations.map Derivation.symbol) := by
  have hname := writes_named h.name
  rw [Variable.words, Variable.derivations]
  cases hinitializer : declared.initializer with
  | none => exact ⟨.single hname, .cons .identifier (.absent .empty)⟩
  | some given =>
    have hvalue := writes_initializer (h.initializer given hinitializer)
    have hrule : (Writes.isPlain .assignToValue &&
        Writes.hasRule .assignToValue [.equal, given.1.symbol]) = true := by
      cases given.1 with
      | literal value => cases value <;> rfl
      | «variable» => rfl
    have hgiven : Writes .assignToValue ["=".toList, given.1.word]
        (.node .assignToValue [fixed .equal, given.1.derivation]) :=
      .flat (.word writes_equal (.single hvalue)) rfl hrule
    exact ⟨.word hname (.single hgiven),
      .cons .identifier (.present (.symbol .assignToValue) .empty)⟩

theorem forall₂_map {α β γ : Type} {R : β → γ → Prop} {f : α → β} {g : α → γ} {as : List α}
    (h : ∀ a ∈ as, R (f a) (g a)) : List.Forall₂ R (as.map f) (as.map g) := by
  rw [List.forall₂_map_left_iff, List.forall₂_map_right_iff, List.forall₂_same]
  exact h

theorem writes_declaration {declaration : Declaration} (h : declaration.Printable) :
    Writes .variableDeclaration declaration.words declaration.derivation := by
  have htype : Writes .variableType [declaration.type.keyword.toList]
      (.node .variableType [declaration.type.derivation]) := .wrap (writes_type _) (by decide)
  have hdeclared : WriteAll (separated (declaration.declared.map Variable.words))
      (joined (declaration.declared.map Variable.derivations)) :=
    writeAll_joined (forall₂_map fun v hv => (writeAll_variable (h.declared v hv)).1)
  have hmatches : ∀ item ∈ declaration.declared.map Variable.derivations,
      variableRule.Matches (item.map Derivation.symbol) :=
    List.forall_mem_map.mpr fun v hv => (writeAll_variable (h.declared v hv)).2
  refine .plain (by decide) (.word htype (hdeclared.append (.single writes_semicolon)))
    ⟨_, rfl, .cons .variableType ?_⟩
  rw [List.map_append]
  refine .seq ?_ (.last .semicolon)
  obtain ⟨first, rest, heq⟩ := List.exists_cons_of_ne_nil h.some_declared
  rw [heq] at hmatches ⊢
  exact matches_joined hmatches

theorem matches_parameters (parameters : List Parameter) : (Rule.optional (.symbol .functionParameters)).Matches
    ((parametersDerivation parameters).map Derivation.symbol) := by
  cases parameters with
  | nil => exact .second .empty
  | cons => exact .first (.symbol .functionParameters)

/-- Parameters with commas in between match their rule. -/
theorem matches_joinedParameters (first : Parameter) (rest : List Parameter) :
    ∃ r, rule .functionParameters = some r ∧
      r.Matches ((joined ((first :: rest).map fun p => [p.derivation])).map Derivation.symbol) := by
  have hmatches : ∀ item ∈ (first :: rest).map fun p => [p.derivation],
      (Rule.symbol .functionParameter).Matches (item.map Derivation.symbol) :=
    List.forall_mem_map.mpr fun _ _ => .symbol .functionParameter
  exact ⟨_, rfl, matches_joined hmatches⟩

theorem writeAll_parameters {parameters : List Parameter} (h : ∀ p ∈ parameters, p.Printable) :
    WriteAll (separated (parameters.map Parameter.words)) (parametersDerivation parameters) := by
  cases parameters with
  | nil => exact .nil
  | cons first rest =>
    have hitems : WriteAll (separated ((first :: rest).map Parameter.words))
        (joined ((first :: rest).map fun p => [p.derivation])) :=
      writeAll_joined (forall₂_map fun p hp => .single (writes_parameter (h p hp)))
    exact .single (.plain (by decide) hitems (matches_joinedParameters first rest))

/-- The symbols of a header, with or without a scope, match its rule. -/
theorem matches_header {scopes : List (Derivation Word)} (returnType : ReturnType) (name : String)
    (parameters : List Parameter)
    (hscopes : (Rule.optional (.symbol .functionScope)).Matches (scopes.map Derivation.symbol)) :
    ∃ r, rule .functionDefinition = some r ∧ r.Matches
      ((scopes ++ returnType.derivation :: fixed .kwFunction :: named name :: fixed .lparen ::
        (parametersDerivation parameters ++ [fixed .rparen, fixed .lineFeed])).map Derivation.symbol) := by
  have htype : returnType.derivation.symbol = .functionTypes := by cases returnType <;> rfl
  rw [List.map_append, List.map_cons, htype]
  refine ⟨_, rfl, .seq hscopes (.seq (.first (.symbol .functionTypes))
    (.cons .kwFunction (.cons .identifier (.cons .lparen ?_))))⟩
  rw [List.map_append]
  exact .seq (matches_parameters parameters) (.cons .rparen (.last .lineFeed))

theorem writes_header {function : Function} (hname : IsName function.name.toList)
    (hparameters : ∀ p ∈ function.parameters, p.Printable) :
    Writes .functionDefinition ([function.scope.keyword.toList, function.returnType.keyword.toList,
        "FUNCTION".toList, function.name.toList] ++
        inParentheses (separated (function.parameters.map Parameter.words)) ++ ["\n".toList])
      function.headerDerivation := by
  have hkeyword : Writes .kwFunction ["FUNCTION".toList] (fixed .kwFunction) := writes_keyword (by decide)
  have hopen : Writes .lparen ["(".toList] (fixed .lparen) := writes_punctuation (by decide)
  have hclose : Writes .rparen [")".toList] (fixed .rparen) := writes_punctuation (by decide)
  have hfeed : Writes .lineFeed ["\n".toList] (fixed .lineFeed) := writes_punctuation (by decide)
  have hwords := WriteAll.word (writes_scope function.scope) (.word (writes_returnType function.returnType)
    (.word hkeyword (.word (writes_named hname) (.word hopen
      ((writeAll_parameters hparameters).append (.word hclose (.single hfeed)))))))
  have heq : [function.scope.keyword.toList, function.returnType.keyword.toList, "FUNCTION".toList,
      function.name.toList] ++ inParentheses (separated (function.parameters.map Parameter.words)) ++
      ["\n".toList] = function.scope.keyword.toList :: function.returnType.keyword.toList ::
        "FUNCTION".toList :: function.name.toList :: "(".toList ::
        (separated (function.parameters.map Parameter.words) ++ [")".toList, "\n".toList]) := by
    simp [inParentheses]
  rw [heq]
  have hscope : (Rule.optional (.symbol .functionScope)).Matches
      ([function.scope.derivation].map Derivation.symbol) := .first (.symbol .functionScope)
  exact .plain (by decide) hwords (matches_header function.returnType function.name function.parameters hscope)

/-- What is written one by one. -/
theorem writeAll_map {α : Type} {words : α → List Word} {derivation : α → Derivation Word}
    {symbol hidden : Symbol} {as : List α} (h : ∀ a ∈ as, Writes symbol (words a) (derivation a))
    {r : Rule} (hr : r.Matches [symbol]) :
    WriteAll (as.flatMap words) (as.map derivation) ∧
      (Rule.many hidden r).Matches ((as.map derivation).map Derivation.symbol) := by
  constructor
  · induction as with
    | nil => exact .nil
    | cons a as ih =>
      obtain ⟨ha, has⟩ := List.forall_mem_cons.mp h
      exact .cons ha (ih has)
  · refine .repeated ?_
    simp only [List.forall_mem_map]
    intro a ha
    rwa [(h a ha).good.symbol_eq]

/-- **A function has a derivation that writes its words.** -/
theorem writes_function {function : Function} (h : function.Printable) :
    Writes .function function.words function.derivation := by
  have hend : Writes .kwEnd ["END".toList] (fixed .kwEnd) := writes_keyword (by decide)
  obtain ⟨hlocals, hmatches⟩ := writeAll_map (fun declaration hd => writes_declaration (h.locals declaration hd))
    (.symbol .variableDeclaration)
  have hbody := writes_block function.body h.body
  have hwords := WriteAll.cons (writes_header h.name h.parameters)
    (hlocals.append (hbody.all.append (.single hend)))
  rw [Function.words, List.append_assoc, List.append_assoc]
  refine .plain (by decide) hwords ⟨_, rfl, .cons .functionDefinition ?_⟩
  rw [List.map_append, List.map_append]
  exact .seq hmatches (.seq (hbody.matches_many .bodyStatements) (.last .kwEnd))

/-- The derivation of a program. -/
def programDerivation (program : List Function) : Derivation Word :=
  .node .sourceFile (program.map Function.derivation)

/-- **A program that can be printed has a resolved derivation that writes its words.** -/
theorem writes_program {program : List Function} (h : ∀ function ∈ program, function.Printable) :
    Writes .sourceFile (program.flatMap Function.words) (programDerivation program) := by
  obtain ⟨hall, hmatches⟩ := writeAll_map (fun function hf => writes_function (h function hf))
    (.first (.symbol .function))
  exact .plain (by decide) hall ⟨_, rfl, hmatches⟩

end Cicode.Program
