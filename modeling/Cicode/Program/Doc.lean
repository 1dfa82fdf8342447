import Cicode.Text.Blank
import Cicode.Text.Caseless
import Cicode.Text.Span

/-!
# Documentation of functions

Tags in the comments above a function describe it: `<summary>`, `<param name="…">` and
`<returns>`. Their contents may run over several lines, each of which begins with a comment marker
of its own; the markers are dropped and white space is collapsed. Of several summaries, or several
descriptions of the result, the first counts.
-/

namespace Cicode.Program

open Text

/-- The description of a parameter. -/
structure DocParam where
  name : String
  description : String
  /-- The span of the opening tag. -/
  span : Span
  deriving DecidableEq, Repr, Inhabited

/-- The documentation of a function. -/
structure Doc where
  summary : Option String := none
  params : List DocParam := []
  returns : Option String := none
  deriving DecidableEq, Repr, Inhabited

namespace Doc

/-! ## Contents -/

/-- A line of a comment without its marker. -/
def stripMarker (line : List Char) : List Char :=
  match trimStart line with
  | '/' :: '/' :: rest => rest
  | '!' :: rest => rest
  | line => line

/-- The words of the content of a tag. -/
def contentWords (content : List Char) : List (List Char) :=
  match lines content with
  | [] => []
  | first :: rest => words first ++ rest.flatMap fun line => words (stripMarker line)

/-- The content of a tag as plain text. -/
def clean (content : String) : String :=
  String.ofList (([' '] : List Char).intercalate (contentWords content.toList))

/-! ## Attributes -/

/-- An attribute: its key, and its value if it has one. -/
abbrev Attribute := List Char × Option (List Char)

/-- The value that stands after the `=` of an attribute, and what follows it. A value is quoted, or
runs up to the next white space; there is none if a quotation mark is not closed. -/
def attributeValue (s : List Char) : Option (List Char × List Char) :=
  match trimStart s with
  | '"' :: body => quoted '"' body
  | '\'' :: body => quoted '\'' body
  | s => some (s.takeWhile (!isBlank ·), s.dropWhile (!isBlank ·))
where
  /-- The text up to a quotation mark, and what follows the mark. -/
  quoted (mark : Char) (body : List Char) : Option (List Char × List Char) :=
    match body.dropWhile (· != mark) with
    | [] => none
    | _ :: rest => some (body.takeWhile (· != mark), rest)

/-- The attributes of a tag, up to one whose quotation mark is not closed. Each step consumes a key
or an `=`, so the number of characters bounds the steps. -/
def attributesAux : Nat → List Char → List Attribute
  | 0, _ => []
  | fuel + 1, s =>
    match trimStart s with
    | [] => []
    | s =>
      let isKey : Char → Bool := fun c => !(c == '=' || isBlank c)
      let key := s.takeWhile isKey
      match trimStart (s.dropWhile isKey) with
      | '=' :: after =>
        match attributeValue after with
        | none => []
        | some (value, rest) => (key, some value) :: attributesAux fuel rest
      | after => (key, none) :: attributesAux fuel after

/-- The attributes of a tag. -/
def attributes (s : List Char) : List Attribute := attributesAux s.length s

/-- The value of the first attribute with a key that has one, without regard to case. -/
def attribute? (s : List Char) (key : String) : Option String :=
  ((attributes s).find? fun a => a.1.map Char.toLower == folded key && a.2.isSome).bind fun a =>
    a.2.map String.ofList

/-- What follows the first occurrence of a pattern. -/
def after? (pattern : List Char) : List Char → Option (List Char)
  | [] => if pattern.isEmpty then some [] else none
  | c :: rest =>
    if pattern.isPrefixOf (c :: rest) then some ((c :: rest).drop pattern.length)
    else after? pattern rest

/-- The attribute list of an opening tag. -/
def tagAttributes (tag : List Char) : List Char :=
  match after? "<param".toList tag with
  | none => []
  | some rest => (rest.reverse.dropWhile (· == '>')).reverse

/-! ## Collecting -/

/-- Nothing has been said. -/
def isEmpty (doc : Doc) : Bool := doc.summary.isNone && doc.params.isEmpty && doc.returns.isNone

/-- Record a summary, unless there is one. -/
def addSummary (doc : Doc) (content : String) : Doc :=
  { doc with summary := some (doc.summary.getD (clean content)) }

/-- Record a description of the result, unless there is one. -/
def addReturns (doc : Doc) (content : String) : Doc :=
  { doc with returns := some (doc.returns.getD (clean content)) }

/-- Record the description of a parameter. A tag without a name is ignored. -/
def addParam (doc : Doc) (tag content : String) (span : Span) : Doc :=
  match attribute? (tagAttributes tag.toList) "name" with
  | none => doc
  | some name => { doc with params := doc.params ++ [⟨name, clean content, span⟩] }

/-- The description of a parameter. -/
def param? (doc : Doc) (name : String) : Option String :=
  (doc.params.find? (sameName ·.name name)).map (·.description)

end Doc

end Cicode.Program
