/-
The bash dialect.  Scalars travel as text inside double quotes: truth values
are `1` and `0`, numbers are words arithmetic can read.  Lists are indexed
arrays.  Variables of the program carry the prefix `v_`, and whatever is set
inside a function is local to it.
-/
import Shellwright.Bash.Command
import Shellwright.Script.Dialect
import Shellwright.Text.Word

namespace Shellwright

namespace Bash

/-- What has been written so far.  `flags` holds the first-round flags of the
open loops, the innermost first; the last two fields say which parts of the
prelude the script needs. -/
structure State where
  lines : Array Line
  depth : Nat
  helpers : Nat
  flags : List String
  loops : Nat
  inFunction : Bool
  needsListSet : Bool
  needsCapture : Bool

def State.fresh : State := ⟨#[], 0, 0, [], 0, false, false, false⟩

/-- Bash in double quotes reads these four characters in a way of its own. -/
def isSpecial (c : Char) : Bool := c == '\\' || c == '"' || c == '$' || c == '`'

def escapeChars : List Char → List Char
  | [] => []
  | c :: rest =>
      if isSpecial c then '\\' :: c :: escapeChars rest
      else c :: escapeChars rest

/-- Text that stands for itself inside double quotes. -/
def escape (text : String) : String := String.ofList (escapeChars text.toList)

/-- The script variable of a program variable. -/
def variableName (name : String) : String := "v_" ++ name

/-- Writes a line. -/
def emit (command : Command) : Write State Unit :=
  modify fun s => { s with lines := s.lines.push ⟨s.depth, command⟩ }

def indent : Write State Unit := modify fun s => { s with depth := s.depth + 1 }

/-- Closes a level of indentation; with none open, `construct` is unbalanced. -/
def outdent (construct : Construct) : Write State Unit := do
  let s ← get
  match s.depth with
  | 0 => throw (.unbalanced construct)
  | depth + 1 => set { s with depth }

/-- A fresh helper variable. -/
def helper : Write State String := do
  let s ← get
  set { s with helpers := s.helpers + 1 }
  return "__sb_h" ++ toString (s.helpers + 1)

/-- Whether new variables have to be made local. -/
def isLocal : Write State Bool := return (← get).inFunction

/-- Puts a scalar into a helper variable and returns its name. -/
def store (value : String) : Write State String := do
  let name ← helper
  emit (.assign (← isLocal) name value)
  return name

/-- The name in a fragment that only reads a variable. -/
def plainName? (fragment : String) : Option String :=
  match fragment.toList with
  | '$' :: '\x7b' :: rest =>
      if rest.getLast? = some '\x7d' && isWord rest.dropLast then
        some (String.ofList rest.dropLast)
      else none
  | _ => none

/-- A variable that holds the value of a fragment. -/
def variableFor (fragment : String) : Write State String :=
  match plainName? fragment with
  | some name => return name
  | none => store fragment

def commandLine (stages : List Invocation) : String :=
  String.intercalate " | " (stages.map fun stage =>
    "command " ++ inQuotes (escape stage.program) ++ quotedArguments stage.args)

/-- The function behind stores into lists. -/
def listSetLines : List String :=
  ["__sb_list_set() \x7b",
    "  local __n=\"$1\" __i=\"$2\" __v=\"$3\" __d=\"$4\" __len",
    "  eval \"__len=\\$\x7b#$\x7b__n\x7d[@]\x7d\"",
    "  while [ \"$\x7b__len\x7d\" -lt \"$\x7b__i\x7d\" ]; do",
    "    eval \"$\x7b__n\x7d[$\x7b__len\x7d]=\\\"\\$\x7b__d\x7d\\\"\"",
    "    __len=$(( __len + 1 ))",
    "  done",
    "  eval \"$\x7b__n\x7d[$\x7b__i\x7d]=\\\"\\$\x7b__v\x7d\\\"\"",
    "\x7d"]

/-- The temporary file that receives error output. -/
def captureLines : List String :=
  ["__sb_cap_err=\"$(mktemp)\"", "trap 'rm -f \"$\x7b__sb_cap_err\x7d\"' EXIT"]

/-- What stands before the program's own lines. -/
def State.prelude (s : State) : List String :=
  "#!/usr/bin/env bash" ::
    ((if s.needsListSet then listSetLines else []) ++
      if s.needsCapture then captureLines else [])

/-- Every line of the script. -/
def State.scriptLines (s : State) : List String :=
  s.prelude ++ s.lines.toList.map Line.text

def programEnd : Write State String := do
  let s ← get
  if s.depth ≠ 0 ∨ s.flags ≠ [] then
    throw (.unbalanced .block)
  return String.join (s.scriptLines.map (· ++ Shell.bash.lineEnding))

def defineVariable (name : String) (ty : ValueType) (value : Option String) :
    Write State Unit := do
  let isLocal ← isLocal
  if ty.isList then
    match value with
    | some source => emit (.copyList isLocal (variableName name) source)
    | none => emit (.fillList isLocal (variableName name) [])
  else
    emit (.assign isLocal (variableName name) (value.getD ty.defaultText))

def assignVariable (name : String) (ty : ValueType) (value : String) :
    Write State Unit :=
  if ty.isList then emit (.copyList false (variableName name) value)
  else emit (.assign false (variableName name) value)

def storeElement (name : String) (element : ValueType) (index value : String) :
    Write State Unit := do
  modify fun s => { s with needsListSet := true }
  emit (.storeElement (variableName name) index value element.defaultText)

def readVariable (name : String) (ty : ValueType) : Write State String :=
  return if ty.isList then variableName name else expand (variableName name)

def readElement (list index : String) : Write State String :=
  return expand (list ++ "[" ++ index ++ "]")

def ifStart (condition : String) : Write State Unit := do
  emit (.ifTrue condition)
  indent

def elseIfStart (condition : String) : Write State Unit := do
  outdent .branch
  emit (.elseIfTrue condition)
  indent

def elseStart : Write State Unit := do
  outdent .branch
  emit .otherwise
  indent

def ifEnd : Write State Unit := do
  outdent .branch
  emit .endIf

/-- A loop starts with its flag raised: the first round skips the post
statement. -/
def loopStart : Write State Unit := do
  modify fun s => { s with loops := s.loops + 1 }
  let flag := "__sb_loop" ++ toString (← get).loops
  emit (.setWord (← isLocal) flag "1")
  emit .whileTrue
  indent
  modify fun s => { s with flags := flag :: s.flags }

def postStart : Write State Unit := do
  match (← get).flags with
  | [] => throw (.unbalanced .loop)
  | flag :: _ =>
      ifStart (expand flag)
      emit (.setWord false flag "0")
      elseStart

def postEnd : Write State Unit := do
  outdent .loop
  emit .endIf

def loopEnd : Write State Unit := do
  let s ← get
  match s.flags with
  | [] => throw (.unbalanced .loop)
  | _ :: flags => set { s with flags }
  outdent .loop
  emit .endWhile

def loopExit (exit : LoopExit) (command : Command) : Write State Unit := do
  if (← get).flags.isEmpty then
    throw (.outsideLoop exit)
  emit command

/-- Scalar parameters are the positional ones in order; list parameters arrive
in arrays numbered by their place among all parameters. -/
def bindParameters (place scalars : Nat) : List Binding → Write State Unit
  | [] => return
  | param :: params => do
      if param.ty.isList then
        emit (.copyList true (variableName param.name)
          ("__sb_arg_" ++ toString place))
        bindParameters (place + 1) scalars params
      else
        emit (.assign true (variableName param.name)
          ("$" ++ toString (scalars + 1)))
        bindParameters (place + 1) (scalars + 1) params

def functionStart (name : String) (params : List Binding) :
    Write State Unit := do
  if (← get).inFunction then
    throw (.unbalanced .function)
  emit (.functionOpen name)
  indent
  modify fun s => { s with inFunction := true }
  bindParameters 0 0 params

def functionEnd : Write State Unit := do
  outdent .function
  emit .functionClose
  modify fun s => { s with inFunction := false }

def setResults (place : Nat) : List (String × ValueType) → Write State Unit
  | [] => return
  | (value, ty) :: rest => do
      if ty.isList then
        emit (.copyList false ("__sb_retl_" ++ toString place) value)
      else
        emit (.assign false ("__sb_ret_" ++ toString place) value)
      setResults (place + 1) rest

def giveBack (values : List (String × ValueType)) : Write State Unit := do
  setResults 0 values
  emit .returnSuccess

/-- An arithmetic expansion. -/
def arithmetic (expression : String) : String := "$(( " ++ expression ++ " ))"

def parenthesized (text : String) : String := "(" ++ text ++ ")"

def arithmeticOperation (left symbol right : String) : String :=
  arithmetic (parenthesized left ++ " " ++ symbol ++ " " ++ parenthesized right)

/-- The result of a test command as `1` or `0`. -/
def testResult (test : String) : String :=
  "$( [ " ++ test ++ " ] && echo 1 || echo 0 )"

def unary (op : UnaryOp) (operand : String) (ty : ValueType) :
    Write State String :=
  match op, ty with
  | .neg, ⟨.int, false⟩ => return arithmetic ("-" ++ parenthesized operand)
  | .not, ⟨.bool, false⟩ => return arithmetic ("!" ++ parenthesized operand)
  | _, _ => throw (.unsupportedOperator op.symbol ty)

def binary (op : BinaryOp) (left right : String) (ty : ValueType) :
    Write State String :=
  match op, ty with
  | _, ⟨.int, false⟩ => return arithmeticOperation left op.symbol right
  | .add, ⟨.string, false⟩ => return left ++ right
  | _, _ => throw (.unsupportedOperator op.symbol ty)

def compare (op : CompareOp) (left right : String) (ty : ValueType) :
    Write State String :=
  match op, ty with
  | _, ⟨.int, false⟩ => return arithmeticOperation left op.symbol right
  | .eq, ⟨.bool, false⟩ | .notEq, ⟨.bool, false⟩ =>
      return arithmeticOperation left op.symbol right
  | .eq, ⟨.string, false⟩ =>
      return testResult (inQuotes left ++ " = " ++ inQuotes right)
  | .notEq, ⟨.string, false⟩ =>
      return testResult (inQuotes left ++ " != " ++ inQuotes right)
  | _, _ => throw (.unsupportedOperator op.symbol ty)

def print (value : String) (ty : ValueType) : Write State Unit :=
  if ty.isList then throw (.unprintable ty) else emit (.printLine value)

def panic (message : String) : Write State Unit := do
  emit (.printPanic message)
  emit .exitFailure

def listLiteral (values : List String) (used : Bool) : Write State String := do
  if !used then
    return ""
  let name ← helper
  emit (.fillList (← isLocal) name values)
  return name

def listLength (list : String) : Write State String :=
  return expand ("#" ++ list ++ "[@]")

def substring (value start : String) (stop : Option String) (used : Bool) :
    Write State String := do
  if !used then
    return ""
  let name ← variableFor value
  let length :=
    match stop with
    | some stop => parenthesized stop ++ "-" ++ parenthesized start
    | none => "1"
  return expand (name ++ ":" ++ parenthesized start ++ ":" ++ length)

def stringLength (value : String) (used : Bool) : Write State String := do
  if !used then
    return ""
  let name ← variableFor value
  return expand ("#" ++ name)

/-- List arguments are copied into the arrays their parameters read; the scalar
ones are returned. -/
def passLists (place : Nat) : List (String × ValueType) →
    Write State (List String)
  | [] => return []
  | (arg, ty) :: rest => do
      if ty.isList then
        emit (.copyList false ("__sb_arg_" ++ toString place) arg)
        passLists (place + 1) rest
      else
        return arg :: (← passLists (place + 1) rest)

/-- Copies the results of a call into helpers. -/
def fetchResults (place : Nat) : List ValueType → Write State (List String)
  | [] => return []
  | ty :: rest => do
      let name ← helper
      if ty.isList then
        emit (.copyList (← isLocal) name ("__sb_retl_" ++ toString place))
        return name :: (← fetchResults (place + 1) rest)
      else
        emit (.assign (← isLocal) name (expand ("__sb_ret_" ++ toString place)))
        return expand name :: (← fetchResults (place + 1) rest)

def callFunction (name : String) (args : List (String × ValueType))
    (returns : List ValueType) (used : Bool) : Write State (List String) := do
  let words ← passLists 0 args
  emit (.callFunction name words)
  if used then fetchResults 0 returns else return []

/-- A command substitution. -/
def substitution (commandLine : String) : String := "$( " ++ commandLine ++ " )"

def catOf (path : String) : String := "$(cat " ++ inQuotes path ++ ")"

def capturedErrors : String := expand "__sb_cap_err"

/-- A pipeline whose output and error output, and the exit code if asked for,
are captured. -/
def captureAll (line : String) (wantsCode : Bool) :
    Write State (List String) := do
  modify fun s => { s with needsCapture := true }
  let output ← helper
  let errors ← helper
  let code ← if wantsCode then some <$> helper else pure none
  if ← isLocal then
    emit (.declareLocal ([output, errors] ++ code.toList))
  emit (.assign false output
    (substitution ("( " ++ line ++ " ) 2>" ++ inQuotes capturedErrors)))
  if let some code := code then
    emit (.setWord false code "$?")
  emit (.assign false errors (catOf capturedErrors))
  return ([output, errors] ++ code.toList).map expand

def runProcess (stages : List Invocation) (results : Nat) :
    Write State (List String) := do
  let line := commandLine stages
  match results with
  | 0 =>
      emit (.run line)
      return []
  | 1 =>
      let name ← helper
      emit (.assign (← isLocal) name (substitution line))
      return [expand name]
  | results => captureAll line (results > 2)

def inputLine (prompt : Option String) (used : Bool) : Write State String := do
  if let some prompt := prompt then
    emit (.printPrompt prompt)
  if !used then
    emit (.readLine "_")
    return ""
  let name ← helper
  if ← isLocal then
    emit (.declareLocal [name])
  emit (.readLine name)
  return expand name

def copyList (list : String) (used : Bool) : Write State String := do
  if !used then
    return ""
  let name ← helper
  emit (.copyList (← isLocal) name list)
  return name

def fileExists (path : String) : Write State String :=
  return testResult ("-e " ++ inQuotes path)

def fileContent (path : String) (used : Bool) : Write State String := do
  if !used then
    emit (.discardFile path)
    return ""
  let name ← helper
  emit (.assign (← isLocal) name (catOf path))
  return expand name

def stringToInt (value : String) (used : Bool) : Write State String := do
  if !used then
    return ""
  let name ← store value
  return arithmetic name

instance : Dialect State where
  fresh := State.fresh
  programStart := return
  programEnd := programEnd
  boolLiteral value := return if value then "1" else "0"
  intLiteral value := return toString value
  stringLiteral value := return escape value
  defineVariable := defineVariable
  assignVariable := assignVariable
  storeElement := storeElement
  readVariable := readVariable
  readElement list _ index := readElement list index
  ifStart := ifStart
  elseIfStart := elseIfStart
  elseStart := elseStart
  ifEnd := ifEnd
  loopStart := loopStart
  postStart := postStart
  postEnd := postEnd
  loopCondition condition := emit (.leaveUnless condition)
  loopEnd := loopEnd
  leaveLoop := loopExit .leave .leaveLoop
  nextRound := loopExit .next .nextRound
  functionStart name params _ := functionStart name params
  functionEnd := functionEnd
  giveBack := giveBack
  unary op operand ty _ := unary op operand ty
  binary op left right ty _ := binary op left right ty
  compare op left right ty _ := compare op left right ty
  logical op left right _ := return arithmeticOperation left op.symbol right
  print := print
  panic := panic
  listLiteral _ values used := listLiteral values used
  listLength list _ := listLength list
  substring := substring
  stringLength := stringLength
  group inner _ := return inner
  callFunction := callFunction
  runProcess := runProcess
  inputLine := inputLine
  copyList list _ used := copyList list used
  fileExists path _ := fileExists path
  fileContent := fileContent
  writeFile path content append := emit (.writeFile content append path)
  intToString value _ := return value
  stringToInt := stringToInt
  noOp := emit .nothing

end Bash

end Shellwright
