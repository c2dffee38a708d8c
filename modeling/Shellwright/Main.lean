/-
The program itself: the command line on the files of the machine.
-/
import Shellwright.CommandLine

namespace Shellwright

/-- The cause of a failed file operation. -/
def FileError.ofSystem : IO.Error → FileError
  | .noFileOrDirectory _ _ _ => .noSuchEntry
  | .inappropriateType _ 21 _ => .isADirectory
  | .inappropriateType _ 20 _ => .notADirectory
  | error => .other (toString error)

instance : FileAccess IO where
  pathExists path := do
    match ← (IO.FS.realPath path).toBaseIO with
    | .ok _ => return true
    | .error _ => return false
  readText path := do
    match ← (IO.FS.readBinFile path).toBaseIO with
    | .error error => return .error (.ofSystem error)
    | .ok bytes =>
        match String.fromUTF8? bytes with
        | some text => return .ok text
        | none => return .error .notText
  writeText path text := do
    match ← (IO.FS.writeFile path text).toBaseIO with
    | .error error => return .error (.ofSystem error)
    | .ok () => return .ok ()
  markExecutable path := do
    let everybody : IO.AccessRight := ⟨true, false, true⟩
    discard (IO.setAccessRights path ⟨⟨true, true, true⟩, everybody,
      everybody⟩).toBaseIO
  canonical? path := do
    match ← (IO.FS.realPath path).toBaseIO with
    | .ok path => return some path.toString
    | .error _ => return none

end Shellwright

def main (args : List String) : IO UInt32 := do
  let outcome ← Shellwright.CommandLine.run args
  IO.print outcome.stdout
  IO.eprint outcome.stderr
  return outcome.code.toUInt32
