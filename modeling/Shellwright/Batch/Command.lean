/-
Lines of a batch script.
-/
import Shellwright.Batch.Graph

namespace Shellwright

namespace Batch

/-- The commands a script is made of.  `verbatim` is for the fixed lines of the
header and of the subroutines behind the program. -/
inductive Command where
  | flow (instruction : Instruction)
  /-- Runs a subroutine and comes back. -/
  | call (label : String) (args : List String)
  /-- Ends a subroutine. -/
  | comeBack
  | set (name value : String)
  | setArithmetic (name expression : String)
  | setIf (test name value : String)
  /-- Reads the element of a list at an index that is only known at run time. -/
  | fetchElement (name list index : String)
  | readLine (name prompt : String)
  | echo (text : String)
  | writeFile (path content : String) (append : Bool)
  | discardFile (path : String)
  | run (commandLine : String)
  | capture (commandLine : String) (withErrors : Bool)
  /-- Removes the files that hold captured output. -/
  | removeCaptured
  /-- Ends the interpreter. -/
  | quit
  /-- Ends the script or the subroutine. -/
  | exit (code : Nat)
  | nothing
  | verbatim (text : String)
deriving DecidableEq, Repr

def Instruction.text : Instruction → String
  | label name => ":" ++ name
  | jump target => "goto " ++ target
  | jumpUnless condition target =>
      "if not \"" ++ condition ++ "\"==\"1\" goto " ++ target

namespace Command

/-- The setting `name=value` between double quotes. -/
def setting (name value : String) : String :=
  "\"" ++ name ++ "=" ++ value ++ "\""

def text : Command → String
  | flow instruction => instruction.text
  | call label args => "call :" ++ label ++ String.join (args.map (" " ++ ·))
  | comeBack => "goto :eof"
  | set name value => "set " ++ setting name value
  | setArithmetic name expression => "set /a " ++ setting name expression
  | setIf test name value => "if " ++ test ++ " set " ++ setting name value
  | fetchElement name list index =>
      "for %%k in (" ++ index ++ ") do set " ++
        setting name ("!" ++ list ++ "_%%k!")
  | readLine name prompt => "set /p " ++ setting name prompt
  | echo text => "echo(" ++ text
  | writeFile path content append =>
      (if append then ">>" else ">") ++ "\"" ++ path ++ "\" echo(" ++ content
  | discardFile path => "type \"" ++ path ++ "\" >nul"
  | run commandLine => commandLine
  | capture commandLine withErrors =>
      "(" ++ commandLine ++ ") > \"%__sb_cap%.out\"" ++
        if withErrors then " 2> \"%__sb_cap%.err\"" else ""
  | removeCaptured => "del \"!__sb_cap!.out\" \"!__sb_cap!.err\" 2>nul"
  | quit => "exit 1"
  | exit code => "exit /b " ++ toString code
  | nothing => "rem"
  | verbatim text => text

end Command

end Batch

end Shellwright
