import Cicode.Proofs.Program.Names
import Cicode.Proofs.Program.QuotedStrings
import Cicode.Proofs.Program.RoundTrip
import Cicode.Proofs.Tree.Plain

/-!
# Displayed signatures

A function of an outline is displayed as a header.  With `END` on the next line the header is a program
again: it reads as a row of words, whose derivation has no statements, and lowering reads the signature
back from it.  The names of an outline are words that are no keywords, and its numbers are in range,
because they were read from a text; a string is read back exactly if nothing in it is escaped
(`Literal.Verbatim`).

Main statement (`signatures_read_back`): displayed signatures whose strings are verbatim are read back, and
all other strings are misread.
-/

namespace Cicode.Program

open Grammar Text Cicode.Lex Cicode.Tree

/-! ## What is known of an outline -/

/-- The names are words that are no keywords, and the numbers are in range. -/
structure FunctionSymbol.Readable (symbol : FunctionSymbol) : Prop where
  name : IsIdentifier symbol.name.toList
  parameterName : ∀ p ∈ symbol.parameters, IsIdentifier p.name.toList
  inRange : ∀ p ∈ symbol.parameters, ∀ value ∈ p.default, value.InRange

section Outline

variable {source : Source} {node : Node}

theorem inRange_literal {value : Literal} (h : literal source node = .ok value) : value.InRange := by
  rw [literal] at h
  split at h
  · cases h
  · dsimp only at h
    split at h
    · rw [numberOf] at h
      split at h
      · cases h
        assumption
      · cases h
    · cases h
      trivial
    · cases h

theorem inRange_parameter {p : Parameter} (h : parameter source node = .ok p) :
    ∀ value ∈ p.default, value.InRange := by
  rw [parameter] at h
  obtain ⟨type, -, h⟩ := bind_eq_ok.mp h
  obtain ⟨⟨name, span⟩, -, h⟩ := bind_eq_ok.mp h
  simp only at h
  split at h
  · cases h
    intro value hvalue
    cases hvalue
  · obtain ⟨given, -, h⟩ := bind_eq_ok.mp h
    obtain ⟨default, hdefault, h⟩ := bind_eq_ok.mp h
    cases h
    rintro value rfl
    cases hvalue : literal source given with
    | error cause =>
      rw [hvalue] at hdefault
      cases hdefault
    | ok found =>
      rw [hvalue] at hdefault
      cases hdefault
      exact inRange_literal hvalue

theorem inRange_function {doc : Option Doc} {f : Function} {dropped : List Dropped}
    (h : function source node doc = .ok (f, dropped)) :
    ∀ p ∈ f.parameters, ∀ value ∈ p.default, value.InRange := by
  rw [function] at h
  obtain ⟨header, -, h⟩ := bind_eq_ok.mp h
  obtain ⟨⟨name, nameSpan⟩, -, h⟩ := bind_eq_ok.mp h
  obtain ⟨⟨body, lostStatements⟩, -, h⟩ := bind_eq_ok.mp h
  cases h
  intro p hp
  obtain ⟨part, -, hok⟩ := mem_lowerAll hp
  exact inRange_parameter hok

/-- Every function of an outline can be read again, but for its strings. -/
theorem readable_of_mem {text : String} {symbol : FunctionSymbol}
    (h : symbol ∈ outline text (parse text).1) : symbol.Readable := by
  obtain ⟨f, hf, rfl⟩ := List.mem_map.mp h
  rw [fst_parse, lower] at hf
  have hnames := names_functionsFrom (namesIn_parse text.toList).significant f hf
  obtain ⟨node, -, above, dropped, hlowered, -⟩ :=
    mem_functionsFrom (P := fun _ => True) (fun _ _ _ _ _ => trivial) (.empty _) hf
  have hparameters : ∀ p ∈ f.parameters, p.name ∈ f.names := fun p hp =>
    List.mem_cons_of_mem _ (List.mem_append_left _ (List.mem_map_of_mem hp))
  refine ⟨?_, ?_, ?_⟩
  · obtain ⟨-, -, -, -, hname⟩ := hnames f.name List.mem_cons_self
    exact hname
  · refine List.forall_mem_map.mpr fun p hp => ?_
    obtain ⟨-, -, -, -, hname⟩ := hnames p.name (hparameters p hp)
    exact hname
  · exact List.forall_mem_map.mpr fun p hp => inRange_function hlowered p hp

end Outline

/-! ## The derivation of a signature -/

/-- The parameter that is displayed. -/
def ParameterSymbol.parameter (p : ParameterSymbol) : Parameter := ⟨p.name, p.type, p.default, nowhere⟩

/-- The function that has the displayed header and nothing else. -/
def FunctionSymbol.signature (symbol : FunctionSymbol) : Function :=
  { name := symbol.name
    nameSpan := nowhere
    scope := symbol.scope
    returnType := symbol.returnType
    parameters := symbol.parameters.map (·.parameter)
    locals := []
    body := []
    doc := none
    span := nowhere }

/-- What is displayed of a scope. -/
def Scope.displayed : Scope → List (Derivation Word)
  | .public => []
  | .private => [Scope.private.derivation]

theorem Scope.showsScope : (scope : Scope) → ShowsScope scope scope.displayed
  | .public => .left_out
  | .private => .written .private

/-- The derivation of a displayed header and `END`. -/
def Function.displayedDerivation (f : Function) : Derivation Word :=
  .node .function [headerWith f.scope.displayed f, fixed .kwEnd]

theorem good_parameter (p : Parameter) : p.derivation.Good .functionParameter := by
  obtain ⟨name, type, default, span⟩ := p
  have htypeRule : (Writes.isPlain .parameterType && Writes.hasRule .parameterType [.type]) = true := by decide
  have htype : (Derivation.node .parameterType [type.derivation]).Good .parameterType :=
    Writes.good_flat (List.forall_mem_singleton.mpr (writes_type type).good) rfl htypeRule
  have hname : (named name).Good .identifier := .leaf rfl _
  cases default with
  | none =>
    have hrule : (Writes.isPlain .functionParameter &&
        Writes.hasRule .functionParameter [.parameterType, .identifier]) = true := by decide
    exact Writes.good_flat (List.forall_mem_cons.mpr ⟨htype, List.forall_mem_singleton.mpr hname⟩) rfl hrule
  | some value =>
    have hdefaultRule : (Writes.isPlain .defaultValue &&
        Writes.hasRule .defaultValue [.equal, value.symbol]) = true := by cases value <;> rfl
    have hvalue : value.derivation.Good value.symbol := .leaf (by cases value <;> rfl) _
    have hgiven : (Derivation.node .defaultValue [fixed .equal, value.derivation]).Good .defaultValue :=
      Writes.good_flat (List.forall_mem_cons.mpr ⟨.leaf rfl _, List.forall_mem_singleton.mpr hvalue⟩) rfl
        hdefaultRule
    have hrule : (Writes.isPlain .functionParameter && Writes.hasRule .functionParameter
        [.parameterType, .identifier, .defaultValue]) = true := by decide
    exact Writes.good_flat (List.forall_mem_cons.mpr ⟨htype, List.forall_mem_cons.mpr
      ⟨hname, List.forall_mem_singleton.mpr hgiven⟩⟩) rfl hrule

theorem good_parameters (parameters : List Parameter) :
    ∀ d ∈ parametersDerivation parameters, d.Good d.symbol := by
  cases parameters with
  | nil => exact List.forall_mem_nil _
  | cons first rest =>
    have hitems : ∀ d ∈ joined ((first :: rest).map fun p => [p.derivation]), d.Good d.symbol := by
      refine forall_mem_joined (.leaf rfl _) (List.forall_mem_map.mpr fun p _ => ?_)
      exact List.forall_mem_singleton.mpr (good_parameter p).self
    exact List.forall_mem_singleton.mpr
      (Writes.good_plain rfl hitems (matches_joinedParameters first rest))

theorem good_header (f : Function) : (headerWith f.scope.displayed f).Good .functionDefinition := by
  have hscopes : (∀ d ∈ f.scope.displayed, d.Good d.symbol) ∧
      (Rule.optional (.symbol .functionScope)).Matches (f.scope.displayed.map Derivation.symbol) := by
    cases f.scope with
    | «public» => exact ⟨List.forall_mem_nil _, .second .empty⟩
    | «private» =>
      exact ⟨List.forall_mem_singleton.mpr (writes_scope .private).good, .first (.symbol .functionScope)⟩
  refine Writes.good_plain (by decide) ?_ (matches_header f.returnType f.name f.parameters hscopes.2)
  simp only [List.forall_mem_append, List.forall_mem_cons]
  exact ⟨hscopes.1, (writes_returnType f.returnType).good.self, .leaf rfl _, .leaf rfl _, .leaf rfl _,
    good_parameters f.parameters, .leaf rfl _, .leaf rfl _, List.forall_mem_nil _⟩

theorem good_displayed (f : Function) :
    (Derivation.node .sourceFile [f.displayedDerivation]).Good .sourceFile := by
  have hfunction : f.displayedDerivation.Good .function := by
    refine Writes.good_plain (by decide) (List.forall_mem_cons.mpr ⟨good_header f,
      List.forall_mem_singleton.mpr (.leaf rfl _)⟩) ⟨_, rfl, .cons .functionDefinition ?_⟩
    exact .seq .done (.seq .done (.last .kwEnd))
  exact Writes.good_plain (by decide) (List.forall_mem_singleton.mpr hfunction)
    ⟨_, rfl, .repeated (List.forall_mem_singleton.mpr (.first (.symbol .function)))⟩

/-! ## The words of a signature -/

/-- What comes after a displayed parameter. -/
def EndsParameter (text : List Char) : Prop := text.head? = some ',' ∨ text.head? = some ')'

theorem EndsParameter.ends {text : List Char} (h : EndsParameter text) {symbol : Symbol}
    (hs : symbol = .identifier ∨ symbol = .number ∨ symbol = .string) : Ends symbol text := by
  have henders : ',' ∈ enders symbol ∧ ')' ∈ enders symbol := by
    rcases hs with rfl | rfl | rfl <;> decide
  rcases h with h | h
  · exact ⟨',', henders.1, h⟩
  · exact ⟨')', henders.2, h⟩

section Rows

variable {before : Option Symbol} {gap text : List Char} {words : List (Symbol × List Char)}

/-- A blank ends every word. -/
theorem ends_blank {symbol : Symbol} : Ends symbol (' ' :: text) := ⟨' ', blank_mem_enders symbol, rfl⟩

/-- A token that is always spelled the same. -/
theorem readsRow_fixed (symbol : Symbol) (h : symbol ∈ punctuation ∨ symbol ∈ reservedWords) (hgap : IsGap gap)
    (hends : Ends symbol text) (hrow : ReadsRow (some symbol) text words) :
    ReadsRow before (gap ++ (symbol.name.toList ++ text)) ((symbol, symbol.name.toList) :: words) :=
  .cons (.always (h.elim .fixed .keyword)) hgap hends hrow

/-- A token directly after the one before it. -/
theorem readsRow_attached (symbol : Symbol) (h : symbol ∈ punctuation ∨ symbol ∈ reservedWords)
    (hends : Ends symbol text) (hrow : ReadsRow (some symbol) text words) :
    ReadsRow before (symbol.name.toList ++ text) ((symbol, symbol.name.toList) :: words) :=
  readsRow_fixed symbol h (.inl rfl) hends hrow

/-- A displayed parameter reads as its words. -/
theorem readsRow_parameter {p : ParameterSymbol} (hname : IsIdentifier p.name.toList)
    (hdefault : ∀ value ∈ p.default, value.Verbatim ∧ value.InRange) (hgap : IsGap gap)
    (hends : EndsParameter text) (h : ∀ last, ReadsRow last text words) :
    ReadsRow before (gap ++ (p.display.toList ++ text)) (p.parameter.derivation.yield ++ words) := by
  obtain ⟨name, type, default, description⟩ := p
  have htoken : type.token ∈ reservedWords ∧ type.token ∈ heralds := by cases type <;> decide
  have hkeyword : type.keyword = type.token.name := by cases type <;> rfl
  have hherald : SpelledAfter (some type.token) .identifier name.toList := .name htoken.2 hname
  have hblank : IsGap [' '] := .inr rfl
  cases default with
  | none =>
    have hrow : ReadsRow before (gap ++ (type.token.name.toList ++ ([' '] ++ (name.toList ++ text))))
        ((type.token, type.token.name.toList) :: (.identifier, name.toList) :: words) :=
      readsRow_fixed type.token (.inr htoken.1) hgap ends_blank
        (.cons hherald hblank (hends.ends (.inl rfl)) (h _))
    simp only [ParameterSymbol.display, hkeyword, String.toList_append, List.append_assoc]
    exact hrow
  | some value =>
    obtain ⟨hverbatim, hrange⟩ := hdefault value rfl
    have hspelled : SpelledAfter (some .equal) value.symbol value.word :=
      .always (hverbatim.printable hrange).spelled
    have hsymbol : value.symbol = .identifier ∨ value.symbol = .number ∨ value.symbol = .string := by
      cases value <;> simp [Literal.symbol]
    have hrow : ReadsRow before (gap ++ (type.token.name.toList ++ ([' '] ++ (name.toList ++
          ([' '] ++ (Symbol.equal.name.toList ++ ([' '] ++ (value.word ++ text))))))))
        ((type.token, type.token.name.toList) :: (.identifier, name.toList) ::
          (.equal, Symbol.equal.name.toList) :: (value.symbol, value.word) :: words) :=
      readsRow_fixed type.token (.inr htoken.1) hgap ends_blank
        (.cons hherald hblank ends_blank
          (readsRow_fixed .equal (.inl (by decide)) hblank ends_blank
            (.cons hspelled hblank (hends.ends hsymbol) (h _))))
    simp only [ParameterSymbol.display, hkeyword, String.toList_append, toList_display hverbatim,
      List.append_assoc]
    exact hrow

/-- The parameters can be displayed so that they are read back. -/
def AllDisplayed (parameters : List ParameterSymbol) : Prop :=
  ∀ p ∈ parameters, IsIdentifier p.name.toList ∧ ∀ value ∈ p.default, value.Verbatim ∧ value.InRange

/-- What is displayed of some parameters after another one. -/
def moreDisplayed (parameters : List ParameterSymbol) : List Char :=
  parameters.flatMap fun p => [','] ++ ([' '] ++ p.display.toList)

theorem toList_intercalate_display (first : ParameterSymbol) (rest : List ParameterSymbol) :
    (String.intercalate ", " ((first :: rest).map (·.display))).toList =
      first.display.toList ++ moreDisplayed rest := by
  induction rest generalizing first with
  | nil => simp [moreDisplayed]
  | cons second rest ih =>
    have hcomma : (", " : String).toList = [','] ++ [' '] := by decide
    rw [List.map_cons, List.map_cons, String.intercalate_cons_cons, String.toList_append,
      String.toList_append, ← List.map_cons, ih, moreDisplayed, moreDisplayed, List.flatMap_cons, hcomma]
    simp only [List.append_assoc]

theorem yieldAll_joined (first : Parameter) (rest : List Parameter) :
    Derivation.yieldAll (joined ((first :: rest).map fun p => [p.derivation])) =
      first.derivation.yield ++ rest.flatMap fun p => (.comma, [',']) :: p.derivation.yield := by
  rw [List.map_cons, joined, Derivation.yieldAll_append, Derivation.yieldAll, Derivation.yieldAll,
    List.append_nil]
  congr 1
  induction rest with
  | nil => rfl
  | cons p rest ih =>
    rw [List.map_cons, List.flatMap_cons, Derivation.yieldAll_append, ih, List.flatMap_cons]
    congr 1
    simp only [Derivation.yieldAll, List.append_nil]
    rfl

/-- Displayed parameters read as their words, up to the parenthesis. -/
theorem readsRow_more {parameters : List ParameterSymbol} (hp : AllDisplayed parameters)
    (h : ∀ last, ReadsRow last (')' :: text) words) (last : Option Symbol) :
    ReadsRow last (moreDisplayed parameters ++ ')' :: text)
      ((parameters.flatMap fun p => (.comma, [',']) :: p.parameter.derivation.yield) ++ words) := by
  induction parameters generalizing last with
  | nil => exact h last
  | cons p parameters ih =>
    obtain ⟨⟨hname, hdefault⟩, hrest⟩ := List.forall_mem_cons.mp hp
    have hends : EndsParameter (moreDisplayed parameters ++ ')' :: text) := by
      cases parameters with
      | nil => exact .inr rfl
      | cons => exact .inl rfl
    have hrow : ReadsRow last ([','] ++ ([' '] ++ (p.display.toList ++
          (moreDisplayed parameters ++ ')' :: text))))
        ((.comma, [',']) :: (p.parameter.derivation.yield ++
          ((parameters.flatMap fun p => (.comma, [',']) :: p.parameter.derivation.yield) ++ words))) :=
      readsRow_attached .comma (.inl (by decide)) ends_blank
        (readsRow_parameter hname hdefault (.inr rfl) hends (ih hrest))
    rw [moreDisplayed, List.flatMap_cons, List.flatMap_cons]
    simp only [List.append_assoc, List.cons_append, List.nil_append] at hrow ⊢
    exact hrow

theorem readsRow_parameters {parameters : List ParameterSymbol} (hp : AllDisplayed parameters)
    (h : ∀ last, ReadsRow last (')' :: text) words) (before : Option Symbol) :
    ReadsRow before ((String.intercalate ", " (parameters.map (·.display))).toList ++ ')' :: text)
      (Derivation.yieldAll (parametersDerivation (parameters.map (·.parameter))) ++ words) := by
  cases parameters with
  | nil => exact h before
  | cons first rest =>
    obtain ⟨⟨hname, hdefault⟩, hrest⟩ := List.forall_mem_cons.mp hp
    have hends : EndsParameter (moreDisplayed rest ++ ')' :: text) := by
      cases rest with
      | nil => exact .inr rfl
      | cons => exact .inl rfl
    have hrow : ReadsRow before ([] ++ (first.display.toList ++ (moreDisplayed rest ++ ')' :: text)))
        (first.parameter.derivation.yield ++
          ((rest.flatMap fun p => (.comma, [',']) :: p.parameter.derivation.yield) ++ words)) :=
      readsRow_parameter hname hdefault (.inl rfl) hends (readsRow_more hrest h)
    have hyield : Derivation.yieldAll (parametersDerivation ((first :: rest).map (·.parameter))) =
        first.parameter.derivation.yield ++
          rest.flatMap fun p => (.comma, [',']) :: p.parameter.derivation.yield := by
      rw [List.map_cons, parametersDerivation, Derivation.yieldAll, Derivation.yieldAll, Derivation.yield,
        yieldAll_joined, List.append_nil, List.flatMap_map]
      exact fun heq => by cases heq
    rw [toList_intercalate_display, hyield, List.append_assoc, List.append_assoc]
    exact hrow

end Rows

/-- The text of a displayed header with `END` on the next line. -/
def FunctionSymbol.completed (symbol : FunctionSymbol) : String := symbol.display ++ "\nEND\n"

/-- After the opening parenthesis comes a type or the closing one. -/
theorem ends_parameters (parameters : List ParameterSymbol) (text : List Char) :
    Ends .lparen ((String.intercalate ", " (parameters.map (·.display))).toList ++ ')' :: text) := by
  cases parameters with
  | nil => exact ⟨')', by decide, rfl⟩
  | cons first rest =>
    rw [toList_intercalate_display]
    obtain ⟨name, type, default, description⟩ := first
    simp only [ParameterSymbol.display, String.toList_append, List.append_assoc]
    cases type <;> exact ⟨_, by decide, rfl⟩

/-- The words of a header after its parameters, and `END`. -/
def closingRow : List (Symbol × List Char) :=
  [(.rparen, [')']), (.lineFeed, ['\n']), (.kwEnd, "END".toList)]

theorem readsRow_closing (last : Option Symbol) : ReadsRow last (')' :: "\nEND\n".toList) closingRow :=
  readsRow_attached .rparen (.inl (by decide)) ⟨'\n', by decide, rfl⟩
    (readsRow_attached .lineFeed (.inl (by decide)) ⟨'E', by decide, rfl⟩
      (readsRow_attached .kwEnd (.inr (by decide)) ⟨'\n', by decide, rfl⟩ (.done (.inr rfl))))

/-- What is displayed of a header after its scope. -/
def FunctionSymbol.unscoped (symbol : FunctionSymbol) : List Char :=
  symbol.returnType.keyword.toList ++ ([' '] ++ ("FUNCTION".toList ++ ([' '] ++ (symbol.name.toList ++
    (['('] ++ ((String.intercalate ", " (symbol.parameters.map (·.display))).toList ++
      ')' :: "\nEND\n".toList))))))

/-- The words of a header after its scope. -/
def FunctionSymbol.unscopedRow (symbol : FunctionSymbol) : List (Symbol × List Char) :=
  symbol.returnType.derivation.yield ++ (.kwFunction, "FUNCTION".toList) ::
    (.identifier, symbol.name.toList) :: (.lparen, ['(']) ::
      (Derivation.yieldAll (parametersDerivation (symbol.parameters.map (·.parameter))) ++ closingRow)

theorem toList_completed (symbol : FunctionSymbol) : symbol.completed.toList =
    (if symbol.scope == .private then "PRIVATE ".toList else []) ++ symbol.unscoped := by
  have hkeyword : (" FUNCTION " : String).toList = [' '] ++ ("FUNCTION".toList ++ [' ']) := by decide
  rw [FunctionSymbol.completed, FunctionSymbol.display, FunctionSymbol.unscoped]
  simp only [String.toList_append, hkeyword, List.append_assoc]
  split <;> rfl

theorem yield_displayed (symbol : FunctionSymbol) : symbol.signature.displayedDerivation.yield =
    Derivation.yieldAll symbol.scope.displayed ++ symbol.unscopedRow := by
  rw [Function.displayedDerivation, headerWith, FunctionSymbol.unscopedRow, closingRow]
  simp only [Derivation.yield, Derivation.yieldAll, Derivation.yieldAll_append, List.append_assoc,
    List.append_nil]
  rfl

theorem readsRow_unscoped {symbol : FunctionSymbol} (hname : IsIdentifier symbol.name.toList)
    (hp : AllDisplayed symbol.parameters) {before : Option Symbol} {gap : List Char} (hgap : IsGap gap) :
    ReadsRow before (gap ++ symbol.unscoped) symbol.unscopedRow := by
  obtain ⟨token, htoken, hkeyword, hyield⟩ : ∃ token ∈ reservedWords,
      symbol.returnType.keyword = token.name ∧
        symbol.returnType.derivation.yield = [(token, token.name.toList)] := by
    cases symbol.returnType with
    | void => exact ⟨.kwVoid, by decide, rfl, rfl⟩
    | value type => exact ⟨type.token, by cases type <;> decide, by cases type <;> rfl, rfl⟩
  rw [FunctionSymbol.unscoped, FunctionSymbol.unscopedRow, hkeyword, hyield]
  exact readsRow_fixed token (.inr htoken) hgap ends_blank
    (readsRow_fixed .kwFunction (.inr (by decide)) (.inr rfl) ends_blank
      (.cons (.name (by decide) hname) (.inr rfl) ⟨'(', by decide, rfl⟩
        (readsRow_attached .lparen (.inl (by decide)) (ends_parameters symbol.parameters _)
          (readsRow_parameters hp readsRow_closing _))))

/-- **A completed header reads as a row of words.** -/
theorem readsRow_completed {symbol : FunctionSymbol} (hname : IsIdentifier symbol.name.toList)
    (hp : AllDisplayed symbol.parameters) :
    ReadsRow none symbol.completed.toList symbol.signature.displayedDerivation.yield := by
  rw [toList_completed, yield_displayed]
  cases symbol.scope with
  | «public» => exact readsRow_unscoped hname hp (.inl rfl)
  | «private» =>
    exact readsRow_attached .kwPrivate (.inr (by decide)) ends_blank (readsRow_unscoped hname hp (.inr rfl))

/-! ## Reading a signature -/

/-- The signature of a function agrees with the one that is displayed. -/
structure FunctionSymbol.IsReadAs (symbol : FunctionSymbol) (f : Function) : Prop where
  scope : f.scope = symbol.scope
  returnType : f.returnType = symbol.returnType
  name : f.name = symbol.name
  parameters : f.parameters.map (fun p => (p.name, p.type, p.default)) =
    symbol.parameters.map fun p => (p.name, p.type, p.default)

theorem isReadAs_of_unplaced {symbol : FunctionSymbol} {f : Function}
    (h : f.unplaced = symbol.signature.unplaced) : symbol.IsReadAs f := by
  obtain ⟨name, nameSpan, scope, returnType, parameters, locals, body, doc, span⟩ := f
  simp only [Function.unplaced, FunctionSymbol.signature, Function.mk.injEq] at h
  obtain ⟨hname, -, hscope, htype, hparameters, -⟩ := h
  have hmap := congrArg (List.map fun p : Parameter => (p.name, p.type, p.default)) hparameters
  rw [List.map_map, List.map_map, List.map_map] at hmap
  exact ⟨hscope, htype, hname, hmap⟩

section Reading

variable {source : Source} {field : Option Field} {node : Node}

theorem function_of_displayed {f : Function} (hf : f.doc = none ∧ f.locals = [] ∧ f.body = [])
    (hp : ∀ p ∈ f.parameters, ∀ value ∈ p.default, value.Printable)
    (h : Depicts source ⟨.function, field, f.displayedDerivation⟩ node) :
    ∃ f', function source node none = .ok (f', []) ∧ f'.unplaced = f.unplaced := by
  obtain ⟨hdoc, hlocals, hbody⟩ := hf
  obtain ⟨header, hsignificant, hheader⟩ := only_significant [] _ [fixed .kwEnd] h rfl rfl (by decide)
  have hkind : header.kind = .functionDefinition := hheader.kind_eq
  have hother : IsOther header := by
    rw [IsOther, hkind]
    decide
  have hparts : node.significant = header :: ([] ++ []) := hsignificant
  refine function_of_parts hdoc hparts hkind
    (readsHeader_of_depicts hp f.scope.showsScope hheader) (List.forall_mem_nil _) (List.forall_mem_nil _)
    ⟨[], rfl, by rw [hlocals]⟩ (block_of_recovers ?_)
  rw [hbody]
  exact .other hother .nil

/-- **A displayed signature is read back**, if its strings are verbatim. -/
theorem reads_completed {symbol : FunctionSymbol} (hr : symbol.Readable)
    (hv : ∀ p ∈ symbol.parameters, ∀ value ∈ p.default, value.Verbatim) :
    (Node.parse symbol.completed.toList).hasError = false ∧
      ∃ f, parse symbol.completed = ([f], []) ∧ symbol.IsReadAs f := by
  have hp : AllDisplayed symbol.parameters := fun p hmem =>
    ⟨hr.parameterName p hmem, fun value hvalue => ⟨hv p hmem value hvalue, hr.inRange p hmem value hvalue⟩⟩
  have hgood := good_displayed symbol.signature
  have hyield : (Derivation.node .sourceFile [symbol.signature.displayedDerivation]).yield =
      symbol.signature.displayedDerivation.yield := List.append_nil _
  have hroot := depicts_row (readsRow_completed hr.name hp) ⟨hgood.follows, rfl, hyield⟩ hgood.resolved
  have hprintable : ∀ p ∈ symbol.signature.parameters, ∀ value ∈ p.default, value.Printable :=
    List.forall_mem_map.mpr fun p hmem value hvalue =>
      (hv p hmem value hvalue).printable (hr.inRange p hmem value hvalue)
  obtain ⟨node, hsignificant, hnode⟩ := only_significant [] _ [] hroot rfl rfl (by decide)
  obtain ⟨f, hf, hsame⟩ := function_of_displayed ⟨rfl, rfl, rfl⟩ hprintable hnode
  have hdoc : ({} : Doc).isEmpty = true := rfl
  have hkind : node.kind = .function := hnode.kind_eq
  refine ⟨hroot.sound, f, ?_, isReadAs_of_unplaced hsame⟩
  simp only [parse, lower, hsignificant, functionsFrom, hkind, hdoc, if_true, hf,
    list_eq_nil hroot.sound, List.map_nil, List.filterMap_nil, List.append_nil]

end Reading

/-- **Displayed signatures are read back, but for strings with escapes.**  A function of an outline,
displayed and completed with `END` on the next line, is a program without errors that consists of
one function with the same signature, if no default is a string with a quotation mark, a backslash, a
`^` or a character that is not seen.  A string with one of those is misread wherever it is displayed. -/
theorem signatures_read_back (text : String) :
    (∀ symbol ∈ outline text (parse text).1,
      (∀ p ∈ symbol.parameters, ∀ value ∈ p.default, value.Verbatim) →
        (Node.parse (symbol.display ++ "\nEND\n").toList).hasError = false ∧
          ∃ f, parse (symbol.display ++ "\nEND\n") = ([f], []) ∧ symbol.IsReadAs f) ∧
    ∀ value, ¬(Literal.string value).Verbatim → ∀ body post post', IsBody body →
      (Literal.string value).display.toList ++ post = '"' :: (body ++ '"' :: post') →
        stringOf ('"' :: body ++ ['"']) ≠ value :=
  ⟨fun _ hmem hv => reads_completed (readable_of_mem hmem) hv,
    fun _ hvalue _ _ _ hbody htext => misread_of_not_verbatim hvalue hbody htext⟩

/-- A header with defaults of both kinds. -/
def verbatimDefaults : String := "PRIVATE INT FUNCTION Add(INT a = 1, STRING unit = \"kg/s\")\nEND"

theorem signatures_read_back_verbatimDefaults :
    ∃ symbol ∈ outline verbatimDefaults (parse verbatimDefaults).1,
      ∃ f, parse (symbol.display ++ "\nEND\n") = ([f], []) ∧ symbol.IsReadAs f := by
  let symbol : FunctionSymbol := ⟨"Add", .private, .value .int,
    [⟨"a", .int, some (.number 1), none⟩, ⟨"unit", .string, some (.string "kg/s"), none⟩], none, 1⟩
  have houtline : outline verbatimDefaults (parse verbatimDefaults).1 = [symbol] := by decide +kernel
  have hmem : symbol ∈ outline verbatimDefaults (parse verbatimDefaults).1 := by
    rw [houtline]
    exact List.mem_singleton_self _
  refine ⟨symbol, hmem, ((signatures_read_back verbatimDefaults).1 symbol hmem ?_).2⟩
  refine List.forall_mem_cons.mpr ⟨?_, List.forall_mem_singleton.mpr ?_⟩
  · rintro value ⟨⟩
    exact trivial
  · rintro value ⟨⟩
    have hplain : ("kg/s".toList.all fun c => decide (c ∉ ['^', '"', '\\']) && isPlain c) = true := by
      decide +kernel
    intro c hc
    have htest := List.all_eq_true.mp hplain c hc
    rwa [Bool.and_eq_true, decide_eq_true_eq] at htest

/-- A string with a backslash. -/
def backslashDefault : String := "FUNCTION F(STRING s = \"C:\\temp\")\nEND"

/-- The backslash is displayed twice, and both are read back. -/
theorem backslashDefault_misread :
    (Node.parse backslashDefault.toList).hasError = false ∧
      ∃ symbol ∈ outline backslashDefault (parse backslashDefault).1,
        ∀ f ∈ (parse (symbol.display ++ "\nEND\n")).1, ¬symbol.IsReadAs f := by
  have hsound : (Node.parse backslashDefault.toList).hasError = false := by decide +kernel
  let symbol : FunctionSymbol :=
    ⟨"F", .public, .void, [⟨"s", .string, some (.string "C:\\temp"), none⟩], none, 1⟩
  have houtline : outline backslashDefault (parse backslashDefault).1 = [symbol] := by decide +kernel
  have hread : (parse (symbol.display ++ "\nEND\n")).1.all (fun f => f.parameters.map (·.default) ==
      [some (.string "C:\\\\temp")]) = true := by decide +kernel
  refine ⟨hsound, symbol, by rw [houtline]; exact List.mem_singleton_self _, fun f hf hsame => ?_⟩
  have hdefaults := congrArg (List.map fun p : String × DataType × Option Literal => p.2.2) hsame.parameters
  rw [List.map_map, List.map_map] at hdefaults
  have hother := beq_iff_eq.mp (List.all_eq_true.mp hread f hf)
  exact absurd (hother.symm.trans hdefaults) (by decide)

end Cicode.Program
