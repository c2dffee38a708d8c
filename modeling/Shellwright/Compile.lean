/-
From a source text to a script.
-/
import Shellwright.Bash.Dialect
import Shellwright.Batch.Dialect
import Shellwright.Diagnostic
import Shellwright.Parse
import Shellwright.Script.Generate

namespace Shellwright

/-- Writes a program in the dialect with state `σ`, starting afresh. -/
def Program.writtenIn (σ : Type) [Dialect σ] (program : Program) :
    Except ScriptError String :=
  ((Script.generate program : Write σ String).run.run Dialect.fresh).1

/-- The script of a program. -/
def Program.script (program : Program) : Shell → Except ScriptError String
  | .bash => program.writtenIn Bash.State
  | .batch => program.writtenIn Batch.State

/-- Why a source text has no script. -/
inductive CompileError where
  | refused (diagnostic : Diagnostic)
  | unwritable (error : ScriptError)
deriving DecidableEq, Repr

/-- The full text of the error, with paths relative to `base`. -/
def CompileError.render (error : CompileError) (base : Option String) :
    String :=
  match error with
  | refused diagnostic => diagnostic.render base
  | unwritable error => "error: " ++ error.message

/-- The program in a source file. -/
def SourceFile.program (file : SourceFile) : Except CompileError Program :=
  (parseSource file.text).mapError fun error => .refused (error.diagnostic file)

/-- The script of a source file. -/
def SourceFile.compile (file : SourceFile) (shell : Shell) :
    Except CompileError String := do
  let program ← file.program
  (program.script shell).mapError .unwritable

end Shellwright
