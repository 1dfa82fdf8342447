/-!
# Files

A `FileStore` holds directories and files below one top directory. A path is resolved name by name:
every name but the last must lead to a directory, `.` stays and `..` goes up. What a program learns
about a path is a `Found`: the one spelling that all paths to the same entry share, and the content
or the reason why it cannot be read.
-/

namespace Cicode.Files

/-- Why a file cannot be read. -/
inductive FileError where
  /-- There is nothing of this name. -/
  | notFound
  /-- A name on the way belongs to a file. -/
  | notDirectory
  /-- The path leads to a directory. -/
  | isDirectory
  /-- The file may not be read. -/
  | denied
  /-- The content is not a text in UTF-8. -/
  | notText
  deriving DecidableEq, Repr, Inhabited

namespace FileError

/-- The error as a message. -/
def message : FileError → String
  | .notFound => "No such file or directory (os error 2)"
  | .notDirectory => "Not a directory (os error 20)"
  | .isDirectory => "Is a directory (os error 21)"
  | .denied => "Permission denied (os error 13)"
  | .notText => "stream did not contain valid UTF-8"

end FileError

/-- What a path leads to. -/
structure Found where
  /-- The spelling that all paths to it share. -/
  path : String
  /-- The bytes of a file, or why it has none. -/
  content : Except FileError ByteArray

namespace Found

/-- The text of a file. -/
def text (found : Found) : Except FileError String := do
  match String.fromUTF8? (← found.content) with
  | some text => return text
  | none => throw .notText

end Found

/-- What the file system says about each path. -/
abbrev Disk := String → Except FileError Found

/-- A directory or a file. -/
inductive Entry where
  | directory
  | file (content : ByteArray)
  deriving Inhabited

/-- The names that lead to an entry, the innermost first. -/
abbrev Place := List String

/-- Directories and files below a top directory. -/
structure FileStore where
  /-- The name of the top directory. -/
  root : String
  /-- The entries below it. -/
  entries : List (Place × Entry) := []
  deriving Inhabited

namespace FileStore

/-- The names in a path. -/
def names (path : String) : List String :=
  (path.toList.splitOn '/').map String.ofList

/-- The entry at a place. The top directory is always there. -/
def entry? (store : FileStore) : Place → Option Entry
  | [] => some .directory
  | place => (store.entries.find? (·.1 == place)).map (·.2)

/-- Whether a name stays where it is. -/
def isHere (name : String) : Bool := name == "" || name == "."

/-- Follow names from a place. The top directory is its own parent. -/
def follow (store : FileStore) (place : Place) : List String → Except FileError Place
  | [] => .ok place
  | name :: rest =>
    match store.entry? place with
    | none => .error .notFound
    | some (.file _) => .error .notDirectory
    | some .directory =>
      if isHere name then follow store place rest
      else if name == ".." then follow store place.tail rest
      else if (store.entry? (name :: place)).isSome then follow store (name :: place) rest
      else .error .notFound

/-- The spelling of a place. -/
def spell (store : FileStore) (place : Place) : String :=
  String.intercalate "/" (store.root :: place.reverse)

/-- What a path leads to. -/
def locate (store : FileStore) : Disk := fun path => do
  let place ← store.follow [] (names path)
  return { path := store.spell place
           content := match store.entry? place with
             | some (.file content) => .ok content
             | some .directory => .error .isDirectory
             | none => .error .notFound }

/-! ## Changing the files -/

/-- The place that a path means whether it is there or not. -/
def intended (path : String) : Place :=
  (names path).foldl
    (fun place name => if isHere name then place else if name == ".." then place.tail
      else name :: place) []

/-- Put an entry at a place. -/
def put (store : FileStore) (place : Place) (entry : Entry) : FileStore :=
  { store with entries := (place, entry) :: store.entries.filter (·.1 != place) }

/-- Make sure that a place and those above it are directories. -/
def makeDirectories (store : FileStore) : Place → Except FileError FileStore
  | [] => .ok store
  | name :: above => do
    let store ← store.makeDirectories above
    match store.entry? (name :: above) with
    | some .directory => return store
    | some (.file _) => throw .notDirectory
    | none => return store.put (name :: above) .directory

/-- Write a file, making the directories above it. -/
def write (store : FileStore) (path : String) (content : ByteArray) :
    Except FileError FileStore := do
  let place := intended path
  let store ← store.makeDirectories place.tail
  match store.entry? place with
  | some .directory => throw .isDirectory
  | _ => return store.put place (.file content)

/-- Remove a file. The directories above it stay. -/
def remove (store : FileStore) (path : String) : Except FileError FileStore := do
  let place ← store.follow [] (names path)
  match store.entry? place with
  | some (.file _) => return { store with entries := store.entries.filter (·.1 != place) }
  | some .directory => throw .isDirectory
  | none => throw .notFound

end FileStore

end Cicode.Files
