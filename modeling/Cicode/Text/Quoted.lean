import Cicode.Text.GraphemeExtend
import Cicode.Text.Unprintable

/-!
# Quoted text

A text between quotation marks in which every character can be seen: quotation marks, backslashes,
control characters, characters without a visible form and marks that would join the character
before them are written as escapes.
-/

namespace Cicode.Text

/-- A number in hexadecimal, without leading zeros. -/
def hexadecimal (n : Nat) : String := String.ofList (Nat.toDigits 16 n)

/-- Whether a character is written as itself between quotation marks. -/
def isPlain (c : Char) : Bool :=
  if c.toNat < 0x7f then ' ' ≤ c
  else !inCodeRanges c.toNat graphemeExtendRanges && !inCodeRanges c.toNat unprintableRanges

/-- How a character is written between quotation marks. -/
def escapeChar (c : Char) : String :=
  if c = '\x00' then "\\0"
  else if c = '\t' then "\\t"
  else if c = '\r' then "\\r"
  else if c = '\n' then "\\n"
  else if c = '"' then "\\\""
  else if c = '\\' then "\\\\"
  else if isPlain c then c.toString
  else "\\u\x7b" ++ hexadecimal c.toNat ++ "\x7d"

/-- A text between quotation marks. -/
def quoted (s : String) : String :=
  "\"" ++ String.join (s.toList.map escapeChar) ++ "\""

end Cicode.Text
