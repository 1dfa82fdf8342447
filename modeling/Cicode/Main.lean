import Cicode.Command.Run

/-!
# The program

The program looks up the files that its command line asks for, carries the command line out on
what it found, and writes the outcome.
-/

namespace Cicode

open Files Command

/-- Why the system could not read a file. -/
def causeOf : IO.Error → FileError
  | .permissionDenied .. => .denied
  | .inappropriateType _ code _ =>
    if code == 21 then .isDirectory else .notDirectory
  | _ => .notFound

/-- What a path leads to on the system's disk. -/
def lookUp (path : String) : IO (Except FileError Found) := do
  match ← (IO.FS.realPath path).toBaseIO with
  | .error cause => return .error (causeOf cause)
  | .ok place =>
    let content ← (IO.FS.readBinFile place).toBaseIO
    return .ok { path := place.toString, content := content.mapError causeOf }

/-- What the system's disk says about some paths. -/
def lookUpAll (paths : List String) : IO Disk := do
  let found ← paths.mapM fun path => return (path, ← lookUp path)
  return fun path => (found.lookup path).getD (.error .notFound)

end Cicode

/-- Carry out a command line. -/
def main (arguments : List String) : IO UInt32 := do
  let disk ← Cicode.lookUpAll (Cicode.Command.Invocation.filesOf arguments)
  let outcome := Cicode.Command.run (← IO.getEnv "RUST_LOG") disk arguments
  IO.print outcome.stdout
  IO.eprint outcome.stderr
  return outcome.code.toUInt32
