/-!
# Names without regard to case

Cicode names are the same if they differ only in the case of ASCII letters.
-/

namespace Cicode.Text

/-- A name with its ASCII letters in lower case. -/
def folded (name : String) : List Char := name.toList.map Char.toLower

/-- Whether two names are the same without regard to case. -/
def sameName (a b : String) : Bool := folded a == folded b

end Cicode.Text
