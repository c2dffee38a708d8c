/-
The command line: what its arguments ask for, and what a run prints.
-/
import Shellwright.Build

namespace Shellwright

namespace CommandLine

inductive Request where
  | help
  | version
  | build (path : String) (options : BuildOptions)
deriving DecidableEq, Repr

inductive UsageError where
  | missingFile
  | missingArgument (flag : String)
  | unknownShell (name : String)
  | unexpected (arg : String)
  | secondFile (arg : String)
  | executableConflict
  | executableWithoutOut
  | checkWithOut
  | severalActions
deriving DecidableEq, Repr

namespace UsageError

def message : UsageError → String
  | missingFile => "error: missing input file"
  | missingArgument flag => s!"error: {flag} requires an argument"
  | unknownShell name => "error: " ++ Shell.unknownMessage name
  | unexpected arg => "error: Unexpected argument: " ++ arg
  | secondFile arg =>
      s!"error: Unexpected argument: {arg} (program already specified)"
  | executableConflict => "error: --no-chmod-x cannot be used with --chmod-x"
  | executableWithoutOut => "error: --no-chmod-x/--chmod-x require --out"
  | checkWithOut => "error: --check cannot be used with --out"
  | severalActions =>
      "error: multiple action flags specified " ++
        "(choose only one of: --emit-ast, --emit-sh, --check)"

def code : UsageError → Nat
  | checkWithOut => 2
  | _ => 1

end UsageError

/-- What the arguments read so far have set. -/
structure Flags where
  file : Option String := none
  shell : Shell := .bash
  out : Option String := none
  executable : Option Bool := none
  tree : Bool := false
  script : Bool := false
  check : Bool := false
deriving DecidableEq, Repr

namespace Flags

def selectShell (flags : Flags) (name : String) : Except UsageError Flags :=
  match Shell.ofName? name with
  | some shell => .ok { flags with shell }
  | none => .error (.unknownShell name)

/-- The two flags about execution exclude each other; either may be repeated. -/
def setExecutable (flags : Flags) (executable : Bool) :
    Except UsageError Flags :=
  if flags.executable = some !executable then .error .executableConflict
  else .ok { flags with executable := some executable }

def setFile (flags : Flags) (arg : String) : Except UsageError Flags :=
  if flags.file.isSome then .error (.secondFile arg)
  else .ok { flags with file := some arg }

/-- Flags that can be combined with few others are checked in the end. -/
def check? (flags : Flags) : Except UsageError Unit :=
  if flags.check ∧ flags.out.isSome then .error .checkWithOut
  else if flags.executable.isSome ∧ flags.out.isNone then
    .error .executableWithoutOut
  else if [flags.tree, flags.script, flags.check].count true > 1 then
    .error .severalActions
  else .ok ()

def action (flags : Flags) : Action :=
  if flags.tree then .tree else if flags.check then .check else .script

/-- A bash script that goes to a file is executable unless a flag says
otherwise. -/
def request (flags : Flags) : Except UsageError Request := do
  flags.check?
  match flags.file with
  | none => throw .missingFile
  | some path =>
      return .build path
        { action := flags.action, shell := flags.shell, out := flags.out,
          executable := flags.executable.getD true }

end Flags

/-- What follows `flag=` in an argument. -/
def attached? (flag arg : String) : Option String :=
  let start := (flag ++ "=").toList
  if start.isPrefixOf arg.toList then
    some (String.ofList (arg.toList.drop start.length))
  else none

/-- An argument that takes no other with it. -/
def Flags.readSingle (flags : Flags) (arg : String) : Except UsageError Flags :=
  match attached? "--target" arg with
  | some "" => .error (.missingArgument "--target")
  | some name => flags.selectShell name
  | none =>
      if arg = "--no-chmod-x" then flags.setExecutable false
      else if arg = "--chmod-x" then flags.setExecutable true
      else if arg = "--emit-ast" then .ok { flags with tree := true }
      else if arg = "--emit-sh" then .ok { flags with script := true }
      else if arg = "--check" then .ok { flags with check := true }
      else if arg.toList.head? = some '-' then .error (.unexpected arg)
      else flags.setFile arg

/-- Reads the arguments from left to right.  Help and version win over all that
follows them. -/
def Flags.read (flags : Flags) : List String → Except UsageError Request
  | [] => flags.request
  | arg :: rest =>
      if arg = "-h" ∨ arg = "--help" then .ok .help
      else if arg = "-V" ∨ arg = "--version" then .ok .version
      else if arg = "--target" then
        match rest with
        | [] => .error (.missingArgument arg)
        | name :: rest => do (← flags.selectShell name).read rest
      else if arg = "-o" ∨ arg = "--out" then
        match rest with
        | [] => .error (.missingArgument arg)
        | out :: rest => { flags with out := some out }.read rest
      else do (← flags.readSingle arg).read rest

/-- What the arguments ask for. -/
def parse (args : List String) : Except UsageError Request := Flags.read {} args

def usage : String :=
  "Usage: shbat [flags] <program.shb> [flags]\n" ++
  "Flags:\n" ++
  "  --target <bash|batch>  Select output dialect (default: bash)\n" ++
  "  -o, --out <file>       Write output to file instead of stdout\n" ++
  "  --check                Check the program and generate code without emitting it\n" ++
  "  --no-chmod-x           Do not set executable bit on a bash output file\n" ++
  "  --chmod-x              Set executable bit on a bash output file (default)\n" ++
  "  --emit-ast             Emit the typed tree (debug)\n" ++
  "  --emit-sh              Emit the script (default)\n" ++
  "  -h, --help             Print help information\n" ++
  "  -V, --version          Print version information and exit"

def version : String := "shbat 0.1.0"

/-- The visible result of a run. -/
structure Outcome where
  code : Nat
  stdout : String
  stderr : String
deriving DecidableEq, Repr

namespace Outcome

def printed (text : String) : Outcome := ⟨0, text, ""⟩

def failed (code : Nat) (message : String) : Outcome :=
  ⟨code, "", message ++ "\n"⟩

/-- What a finished build prints: nothing if its result went to a file. -/
def built (options : BuildOptions) (text : String) : Outcome :=
  if options.out.isSome then printed ""
  else
    match options.action with
    | .script => printed text
    | .check | .tree => printed (text ++ "\n")

end Outcome

variable {m : Type → Type} [Monad m] [FileAccess m]

def perform : Request → m Outcome
  | .help => return .printed (usage ++ "\n")
  | .version => return .printed (version ++ "\n")
  | .build path options => do
      match ← buildFile path options with
      | .ok text => return .built options text
      | .error error => return .failed error.code error.message

/-- A run with the given arguments. -/
def run (args : List String) : m Outcome :=
  match parse args with
  | .ok request => perform request
  | .error error => return .failed error.code (error.message ++ "\n" ++ usage)

end CommandLine

end Shellwright
