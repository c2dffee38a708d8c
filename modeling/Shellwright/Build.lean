/-
Compiling one source file.  Nothing is written before everything that can be
refused has been accepted.
-/
import Shellwright.Compile
import Shellwright.FileSystem
import Shellwright.Program.Listing

namespace Shellwright

/-- What to do with a program. -/
inductive Action where
  /-- Deliver its script. -/
  | script
  /-- Only see whether it has a script. -/
  | check
  /-- Show its tree. -/
  | tree
deriving DecidableEq, Repr

structure BuildOptions where
  action : Action := .script
  shell : Shell := .bash
  /-- The file for the script. -/
  out : Option String := none
  /-- Lets everybody execute a bash script that is written to a file. -/
  executable : Bool := false
deriving DecidableEq, Repr

inductive BuildError where
  | notFound (path : String)
  | unreadable (path : String) (cause : FileError)
  | notCompiled (cause : CompileError) (base : Option String)
  | notWritten (path : String) (cause : FileError)
deriving DecidableEq, Repr

namespace BuildError

def message : BuildError → String
  | notFound path => "File not found: " ++ path
  | unreadable path cause => s!"Unable to read file: {path} ({cause.message})"
  | notCompiled cause base => cause.render base
  | notWritten path cause => s!"Failed to write to {path}: {cause.message}"

/-- The exit code tells a program at fault from a file at fault. -/
def code : BuildError → Nat
  | notCompiled _ _ => 2
  | _ => 1

end BuildError

/-- The text an action delivers. -/
def SourceFile.deliver (file : SourceFile) (action : Action) (shell : Shell) :
    Except CompileError String := do
  let program ← file.program
  match action with
  | .tree => return program.listing.indented 0
  | .check =>
      let _ ← (program.script shell).mapError CompileError.unwritable
      return "OK"
  | .script => (program.script shell).mapError .unwritable

variable {m : Type → Type} [Monad m] [FileAccess m]

/-- The directory that paths in messages about `path` are relative to. -/
def messageBase (path : String) : m (Option String) :=
  match SourcePath.directory? path with
  | none => return none
  | some directory =>
      return some ((← FileAccess.canonical? directory).getD directory)

/-- Writes a script to a file. -/
def writeScript (path script : String) (executable : Bool) :
    m (Except BuildError Unit) := do
  match ← FileAccess.writeText path script with
  | .error cause => return .error (.notWritten path cause)
  | .ok () =>
      if executable then
        FileAccess.markExecutable path
      return .ok ()

/-- Compiles the file at `path` and returns the text the action delivers.  Only
a script is written to the output file. -/
def buildFile (path : String) (options : BuildOptions) :
    m (Except BuildError String) := do
  let base ← messageBase path
  if !(← FileAccess.pathExists path) then
    return .error (.notFound path)
  match ← FileAccess.readText path with
  | .error cause => return .error (.unreadable path cause)
  | .ok source =>
      match SourceFile.deliver ⟨path, source⟩ options.action options.shell with
      | .error cause => return .error (.notCompiled cause base)
      | .ok text =>
          match options.action, options.out with
          | .script, some out =>
              let executable := options.executable && options.shell = .bash
              match ← writeScript out text executable with
              | .error error => return .error error
              | .ok () => return .ok text
          | _, _ => return .ok text

end Shellwright
