/-!
# JSON

Values of JSON and the two ways to write them: on one line without blanks, and spread over lines
with an indentation of two blanks for each level. The fields of an object are written in the order
in which they are given.
-/

namespace Cicode

/-- A JSON value. The numbers are natural numbers. -/
inductive Json where
  | number (value : Nat)
  | string (value : String)
  | array (items : List Json)
  | object (fields : List (String × Json))
  deriving Inhabited

namespace Json

/-! ## Strings -/

/-- A digit of a hexadecimal number below sixteen. -/
def hexDigit (n : Nat) : Char := Nat.digitChar n

/-- How a character is written inside a string: quotation marks, backslashes and control characters
as escapes, all others as themselves. -/
def escapeChar (c : Char) : List Char :=
  if c = '"' then ['\\', '"']
  else if c = '\\' then ['\\', '\\']
  else if c = '\x08' then ['\\', 'b']
  else if c = '\x0c' then ['\\', 'f']
  else if c = '\n' then ['\\', 'n']
  else if c = '\r' then ['\\', 'r']
  else if c = '\t' then ['\\', 't']
  else if c.toNat < 0x20 then
    ['\\', 'u', '0', '0', hexDigit (c.toNat / 16), hexDigit (c.toNat % 16)]
  else [c]

/-- A string between quotation marks. -/
def writeString (s : String) : List Char := '"' :: (s.toList.flatMap escapeChar ++ ['"'])

/-- A number in decimal. -/
def writeNumber (n : Nat) : List Char := Nat.toDigits 10 n

/-! ## On one line -/

mutual

/-- A value on one line. -/
def compactChars : Json → List Char
  | .number value => writeNumber value
  | .string value => writeString value
  | .array items => '[' :: compactItems items
  | .object fields => '\x7b' :: compactFields fields

/-- The items of an array, up to its closing bracket. -/
def compactItems : List Json → List Char
  | [] => [']']
  | [item] => compactChars item ++ [']']
  | item :: rest => compactChars item ++ ',' :: compactItems rest

/-- The fields of an object, up to its closing brace. -/
def compactFields : List (String × Json) → List Char
  | [] => ['\x7d']
  | [(key, value)] => writeString key ++ ':' :: (compactChars value ++ ['\x7d'])
  | (key, value) :: rest =>
    writeString key ++ ':' :: (compactChars value ++ ',' :: compactFields rest)

end

/-- A value on one line. -/
def compact (value : Json) : String := String.ofList value.compactChars

/-! ## Over several lines -/

/-- The beginning of a line at a level. -/
def newLine (level : Nat) : List Char := '\n' :: List.replicate (2 * level) ' '

mutual

/-- A value over several lines, the first of which stands at a level. -/
def prettyChars (level : Nat) : Json → List Char
  | .number value => writeNumber value
  | .string value => writeString value
  | .array [] => ['[', ']']
  | .array (item :: rest) =>
    '[' :: (newLine (level + 1) ++ prettyChars (level + 1) item ++ prettyItems level rest)
  | .object [] => ['\x7b', '\x7d']
  | .object ((key, value) :: rest) =>
    '\x7b' :: (newLine (level + 1) ++ writeString key ++ ':' :: ' ' ::
      (prettyChars (level + 1) value ++ prettyFields level rest))

/-- The items of an array after the first, up to its closing bracket. -/
def prettyItems (level : Nat) : List Json → List Char
  | [] => newLine level ++ [']']
  | item :: rest =>
    ',' :: (newLine (level + 1) ++ prettyChars (level + 1) item ++ prettyItems level rest)

/-- The fields of an object after the first, up to its closing brace. -/
def prettyFields (level : Nat) : List (String × Json) → List Char
  | [] => newLine level ++ ['\x7d']
  | (key, value) :: rest =>
    ',' :: (newLine (level + 1) ++ writeString key ++ ':' :: ' ' ::
      (prettyChars (level + 1) value ++ prettyFields level rest))

end

/-- A value over several lines. -/
def pretty (value : Json) : String := String.ofList (prettyChars 0 value)

end Json

end Cicode
