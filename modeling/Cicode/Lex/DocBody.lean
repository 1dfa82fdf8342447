import Cicode.Grammar.Row
import Cicode.Lex.Cursor

/-!
# Bodies of documentation tags

The body of a documentation tag is free text up to its closing tag. The scanner looks at one
character after another. A `<` may open the closing tag, so its position is kept; when the
characters after it do not spell the tag, the character that differs belongs to the body whatever
it is.
-/

namespace Cicode.Lex

open Grammar Text

/-- The characters of a closing tag after its `</`. -/
def closingTag : DocTag → List Char
  | .summary => "summary>".toList
  | .param => "param>".toList
  | .returns => "returns>".toList

/-- The token of a tag's body. -/
def bodySymbol : DocTag → Symbol
  | .summary => .summaryContent
  | .param => .paramContent
  | .returns => .returnsContent

/-- How much of a closing tag has just been read. -/
inductive TagProgress where
  /-- Nothing of it. -/
  | none
  /-- The `<`, at this position. -/
  | opened (mark : Extent)
  /-- The `</`, and the name but for these characters. -/
  | closing (mark : Extent) (missing : List Char)
  deriving DecidableEq, Repr, Inhabited

/-- The end of a tag's body, searched from the given progress. `read` says whether the body has
any character yet; an empty body is no token. -/
def bodyEnd (tag : List Char) (progress : TagProgress) (read : Bool) (position : Extent) :
    List Char → Option Extent
  | [] =>
    match progress with
    | .closing mark [] => if read then some mark else none
    | _ => none
  | c :: rest =>
    let after := position + Extent.ofChar c
    match progress with
    | .none =>
      if c = '<' then bodyEnd tag (.opened position) read after rest
      else bodyEnd tag .none true after rest
    | .opened mark =>
      if c = '/' then bodyEnd tag (.closing mark tag) read after rest
      else bodyEnd tag .none true after rest
    | .closing mark [] => if read then some mark else none
    | .closing mark (d :: missing) =>
      if c = d then bodyEnd tag (.closing mark missing) read after rest
      else bodyEnd tag .none true after rest

/-- The token of a tag's body at a cursor, with its end. -/
def scanDocBody (tag : DocTag) (cursor : Cursor) : Option (Symbol × Extent) :=
  (bodyEnd (closingTag tag) .none false cursor.position cursor.rest).map
    fun finish => (bodySymbol tag, finish)

end Cicode.Lex
