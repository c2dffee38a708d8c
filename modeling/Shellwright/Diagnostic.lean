/-
Diagnostics: a message tied to a place in a source text, and the way it is
shown to a user.
-/
import Shellwright.SourcePath
import Shellwright.SyntaxError

namespace Shellwright

/-- The text a diagnostic points into and the path it was read from. -/
structure SourceFile where
  path : String
  text : String
deriving DecidableEq, Repr

structure Diagnostic where
  message : String
  pos : Position
  help : Option String
  file : Option SourceFile
deriving DecidableEq, Repr

namespace Diagnostic

/-- Message and position on one line. -/
def headline (d : Diagnostic) : String :=
  s!"{d.message} at row {d.pos.row}, column {d.pos.column}"

/-- A caret below column `column`; column zero counts as one. -/
def caret (column : Nat) : String :=
  String.ofList (List.replicate (column - 1) ' ') ++ "^"

/-- The full text: place, message, source line and caret when the source is
known, and the hint below it. -/
def render (d : Diagnostic) (base : Option String) : String :=
  let main :=
    match d.file with
    | some file =>
        SourcePath.display file.path base ++
          s!":{d.pos.row}:{d.pos.column}: {d.message}\n" ++
          sourceLine file.text d.pos.row ++ "\n" ++ caret d.pos.column
    | none => "error: " ++ d.headline
  match d.help with
  | some help => main ++ "\nhelp: " ++ help
  | none => main

end Diagnostic

/-- The diagnostic that reports a refused program text. -/
def SyntaxError.diagnostic (error : SyntaxError) (file : SourceFile) :
    Diagnostic :=
  ⟨error.fault.message, error.pos, error.fault.help, some file⟩

end Shellwright
