import Cicode.Files.Store

/-!
# Workspaces

A `Workspace` holds the texts that are worked on, its *inputs*. An input is made from a text or
loaded from a file. A file is read once: the workspace remembers under the shared spelling of its
path which input it became, and later loads give that input, whatever has become of the file or of
the input's text meanwhile. A load that fails changes nothing.

`Session.step` runs a workspace beside the files it loads from.
-/

namespace Cicode.Files

/-- The number of an input. -/
abbrev InputId := Nat

/-- A text that is worked on. -/
structure Input where
  /-- Where it comes from. -/
  path : String
  /-- What it is now. -/
  text : String
  deriving DecidableEq, Repr, Inhabited

/-- The inputs, and those among them that were loaded. -/
structure Workspace where
  /-- The inputs by number. -/
  inputs : List Input := []
  /-- The paths of loaded files with the inputs they became. -/
  loaded : List (String × InputId) := []
  deriving DecidableEq, Repr, Inhabited

namespace Workspace

/-- An input by number. -/
def input? (workspace : Workspace) (id : InputId) : Option Input := workspace.inputs[id]?

/-- The input that a path was loaded as. -/
def loaded? (workspace : Workspace) (path : String) : Option InputId :=
  workspace.loaded.lookup path

/-- Add an input. -/
def create (workspace : Workspace) (path text : String) : Workspace × InputId :=
  ({ workspace with inputs := workspace.inputs ++ [⟨path, text⟩] }, workspace.inputs.length)

/-- Change the text of an input. -/
def setText (workspace : Workspace) (id : InputId) (text : String) : Workspace :=
  { workspace with inputs := workspace.inputs.modify id ({ · with text }) }

/-- Load a file. -/
def load (workspace : Workspace) (disk : Disk) (path : String) :
    Workspace × Except FileError InputId :=
  match disk path with
  | .error error => (workspace, .error error)
  | .ok found =>
    match workspace.loaded? found.path with
    | some id => (workspace, .ok id)
    | none =>
      match found.text with
      | .error error => (workspace, .error error)
      | .ok text =>
        let (workspace, id) := workspace.create found.path text
        ({ workspace with loaded := (found.path, id) :: workspace.loaded }, .ok id)

end Workspace

/-! ## Workspaces beside their files -/

/-- A workspace and the files it loads from. -/
structure Session where
  files : FileStore
  workspace : Workspace := {}
  deriving Inhabited

/-- What can be done with files and inputs. -/
inductive Step where
  | write (path : String) (content : ByteArray)
  | remove (path : String)
  | load (path : String)
  | create (path text : String)
  | setText (id : InputId) (text : String)

/-- What a step gives. -/
inductive Answer where
  | done
  | input (id : InputId)
  | failed (error : FileError)
  deriving DecidableEq, Repr, Inhabited

namespace Session

/-- A change of the files, which may fail. -/
def withFiles (session : Session) : Except FileError FileStore → Session × Answer
  | .ok files => ({ session with files }, .done)
  | .error error => (session, .failed error)

/-- Do a step. -/
def step (session : Session) : Step → Session × Answer
  | .write path content => session.withFiles (session.files.write path content)
  | .remove path => session.withFiles (session.files.remove path)
  | .load path =>
    let (workspace, result) := session.workspace.load session.files.locate path
    ({ session with workspace }, match result with
      | .ok id => .input id
      | .error error => .failed error)
  | .create path text =>
    let (workspace, id) := session.workspace.create path text
    ({ session with workspace }, .input id)
  | .setText id text =>
    ({ session with workspace := session.workspace.setText id text }, .done)

/-- Do some steps one after the other. -/
def run (session : Session) : List Step → Session × List Answer
  | [] => (session, [])
  | step :: rest =>
    let (session, answer) := session.step step
    let (session, answers) := session.run rest
    (session, answer :: answers)

end Session

end Cicode.Files
