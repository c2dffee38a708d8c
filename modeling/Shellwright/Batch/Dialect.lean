/-
The batch dialect.  Values are read by delayed expansion, and a value that has
to be computed is put into a helper variable first.  A list is a counter with
the suffix `_len` and one variable for each element.  Variables of the program
carry the number of the function they belong to, zero outside of functions.
If chains and loops become labels and jumps.
-/
import Shellwright.Batch.Command
import Shellwright.Batch.Indent
import Shellwright.Text.Word

namespace Shellwright

namespace Batch

/-- Subroutines and set-up lines the script needs. -/
structure Needs where
  listLen : Bool := false
  listSet : Bool := false
  listCopy : Bool := false
  strlen : Bool := false
  substr : Bool := false
  fileContent : Bool := false
  newline : Bool := false
  capture : Bool := false
deriving DecidableEq, Repr

/-- The function being written and the names that are its own. -/
structure FunctionFrame where
  number : Nat
  name : String
  locals : List String
deriving DecidableEq, Repr

/-- What has been written so far.  `panicExits` holds the line numbers of the
exits that follow a panic message, the latest first. -/
structure State where
  lines : Array Command
  helpers : Nat
  functions : Nat
  current : Option FunctionFrame
  graph : Graph
  needs : Needs
  panicExits : List Nat

def State.fresh : State := ⟨#[], 0, 0, none, .empty, {}, []⟩

/-- Reads a variable by delayed expansion. -/
def read (name : String) : String := "!" ++ name ++ "!"

/-- The name in a fragment that only reads a variable. -/
def plainRead? (fragment : String) : Option String :=
  match fragment.toList with
  | '!' :: rest =>
      let inner := rest.dropLast
      if rest.getLast? = some '!' && !inner.isEmpty && inner.all isWordChar then
        some (String.ofList inner)
      else none
  | _ => none

def mangleChars : List Char → List Char
  | [] => []
  | c :: rest =>
      if c = '_' then '_' :: '_' :: mangleChars rest
      else if c.isUpper then '_' :: c.toLower :: mangleChars rest
      else c :: mangleChars rest

/-- Batch does not tell capitals from small letters: a capital is written as an
underscore and its small letter, and an underscore as two. -/
def mangle (name : String) : String := String.ofList (mangleChars name.toList)

/-- Characters that need no care wherever a fragment is pasted. -/
def isSafeChar (c : Char) : Bool := c.isAlphanum || " _.,:/+-".toList.contains c

/-- Characters that keep an argument a single word. -/
def isPlainChar (c : Char) : Bool := c.isAlphanum || "_.:/+-".toList.contains c

def isPlainWord (text : String) : Bool :=
  text != "" && text.toList.all isPlainChar

/-- The variable that holds a line feed. -/
def lineFeed : String := "!__sb_lf!"

/-- One character of a literal.  A caret is only special in a text that is
expanded once more because of an exclamation mark or a line feed. -/
def escapeChar (delayed : Bool) (c : Char) : List Char :=
  if c = '%' then ['%', '%']
  else if c = '^' && delayed then ['^', '^']
  else if c = '!' then ['^', '!']
  else if c = '\n' then lineFeed.toList
  else [c]

/-- A literal as the value of a quoted `set`. -/
def escape (text : String) : String :=
  let chars := text.toList
  let delayed := chars.contains '!' || chars.contains '\n'
  String.ofList (chars.flatMap (escapeChar delayed))

/-- Writes a line. -/
def emit (command : Command) : Write State Unit :=
  modify fun s => { s with lines := s.lines.push command }

def emitAll (instructions : List Instruction) : Write State Unit :=
  instructions.forM fun instruction => emit (.flow instruction)

def require (change : Needs → Needs) : Write State Unit :=
  modify fun s => { s with needs := change s.needs }

/-- A step of the control-flow graph. -/
def onGraph {α : Type} (step : Write Graph α) : Write State α := do
  let s ← get
  let (result, graph) := step.run.run s.graph
  set { s with graph }
  match result with
  | .ok value => return value
  | .error error => throw error

/-- A step of the control-flow graph whose instructions are written. -/
def emitFlow (step : Write Graph (List Instruction)) : Write State Unit := do
  emitAll (← onGraph step)

/-- A fresh helper variable. -/
def helper : Write State String := do
  let s ← get
  set { s with helpers := s.helpers + 1 }
  return "__sb_h" ++ toString (s.helpers + 1)

/-- Scalars and lists have spaces of their own, so that no scalar meets the
counter or an element of a list. -/
def storageName (number : Nat) (name : String) (isList : Bool) : String :=
  "__sb_" ++ (if isList then "l" else "f") ++ toString number ++ "_" ++
    mangle name

/-- The function a name belongs to, zero for the main program. -/
def State.owner (s : State) (name : String) : Nat :=
  match s.current with
  | some frame => if frame.locals.contains name then frame.number else 0
  | none => 0

def variableName (name : String) (ty : ValueType) : Write State String :=
  return storageName ((← get).owner name) name ty.isList

/-- Makes a name the current function's own. -/
def declareLocal (name : String) : Write State Unit :=
  modify fun s =>
    { s with current := s.current.map fun frame =>
        { frame with locals := name :: frame.locals } }

/-- Puts a value into a helper variable and returns its name. -/
def store (value : String) : Write State String := do
  let name ← helper
  emit (.set name value)
  return name

/-- A variable that holds the value of a fragment. -/
def variableFor (fragment : String) : Write State String :=
  match plainRead? fragment with
  | some name => return name
  | none => store fragment

/-- An argument of a pipeline stage.  Stages run in interpreters without delayed
expansion, so variables are expanded when the line is read. -/
def commandWord (fragment : String) : Write State String := do
  if isPlainWord fragment then
    return fragment
  let name ← variableFor fragment
  return "\"%" ++ name ++ "%\""

def copyListTo (source target : String) : Write State Unit := do
  require ({ · with listCopy := true })
  emit (.call "__sb_list_copy" [source, target])

def listLenRoutine : List Command :=
  [.flow (.label "__sb_list_len"), .set "%~2" "!%~1_len!", .comeBack]

def listSetRoutine : List Command :=
  [.flow (.label "__sb_list_set"), .verbatim "if %~2 GEQ !%~1_len! (",
    .verbatim
      "for /l %%i in (!%~1_len!,1,%~2) do set \"%~1_%%i=!__sb_set_default!\"",
    .setArithmetic "%~1_len" "%~2+1", .verbatim ")",
    .set "%~1_%~2" "!__sb_set_value!", .comeBack]

def listCopyRoutine : List Command :=
  [.flow (.label "__sb_list_copy"), .set "%~2_len" "!%~1_len!",
    .setArithmetic "__sb_lc_last" "!%~1_len!-1",
    .verbatim "for /l %%i in (0,1,!__sb_lc_last!) do set \"%~2_%%i=!%~1_%%i!\"",
    .comeBack]

def strlenRoutine : List Command :=
  [.flow (.label "__sb_strlen"), .set "__sb_sl_s" "!%~1!", .set "%~2" "0",
    .flow (.label "__sb_strlen_loop"), .verbatim "if defined __sb_sl_s (",
    .set "__sb_sl_s" "!__sb_sl_s:~1!", .setArithmetic "%~2+" "1",
    .flow (.jump "__sb_strlen_loop"), .verbatim ")", .comeBack]

def substrRoutine : List Command :=
  [.flow (.label "__sb_substr"), .setArithmetic "__sb_ss_len" "%~3-(%~2)",
    .verbatim ("for /f \"tokens=1,2\" %%a in (\"%~2 !__sb_ss_len!\") do " ++
      "set \"%~4=!%~1:~%%a,%%b!\""),
    .comeBack]

def readFileRoutine : List Command :=
  [.flow (.label "__sb_read_file"), .set "%~2" "", .set "__sb_rf_first" "1",
    .verbatim "for /f \"delims=\" %%l in ('findstr /n \"^\" \"%~1\"') do (",
    .set "__sb_rf_line" "%%l", .set "__sb_rf_line" "!__sb_rf_line:*:=!",
    .verbatim "if defined __sb_rf_first (", .set "%~2" "!__sb_rf_line!",
    .set "__sb_rf_first" "", .verbatim ") else (",
    .set "%~2" "!%~2!!__sb_lf!!__sb_rf_line!", .verbatim ")", .verbatim ")",
    .comeBack]

/-- The subroutines a script needs. -/
def Needs.routines (needs : Needs) : List (List Command) :=
  (if needs.listLen then [listLenRoutine] else []) ++
    (if needs.listSet then [listSetRoutine] else []) ++
    (if needs.listCopy then [listCopyRoutine] else []) ++
    (if needs.strlen then [strlenRoutine] else []) ++
    (if needs.substr then [substrRoutine] else []) ++
    (if needs.fileContent then [readFileRoutine] else [])

/-- The lines in front of the program. -/
def Needs.header (needs : Needs) : List Command :=
  [.verbatim "@echo off", .verbatim "setlocal EnableDelayedExpansion"] ++
    (if needs.newline then
      [.verbatim "(set __sb_lf=^", .verbatim "", .verbatim ")"]
    else []) ++
    (if needs.capture then
      [.set "__sb_cap" "%TEMP%\\__sb_cap_%RANDOM%%RANDOM%"]
    else [])

/-- The program's lines.  If output is captured anywhere, the files that hold it
are removed before every exit after a panic and at the end. -/
def State.body (s : State) : List Command :=
  if s.needs.capture then
    s.panicExits.foldl
      (fun lines place => lines.insertIdx place .removeCaptured)
      s.lines.toList ++ [.removeCaptured]
  else s.lines.toList

/-- Every command of the script. -/
def State.commands (s : State) : List Command :=
  s.needs.header ++ s.body ++ [.exit 0] ++
    s.needs.routines.flatMap fun routine => .verbatim "" :: routine

/-- Every line of the script. -/
def State.scriptLines (s : State) : List String :=
  indentBlocks (s.commands.map Command.text) 2

def programEnd : Write State String := do
  let s ← get
  if s.graph.depth ≠ 0 then
    throw (.unbalanced .block)
  if s.current.isSome then
    throw (.unbalanced .function)
  set { s with lines := #[] }
  return String.join (s.scriptLines.map (· ++ Shell.batch.lineEnding))

def stringLiteral (value : String) : Write State String := do
  if value.toList.all isSafeChar then
    return value
  if value.toList.contains '\n' then
    require ({ · with newline := true })
  return read (← store (escape value))

def defineVariable (name : String) (ty : ValueType) (value : Option String) :
    Write State Unit := do
  declareLocal name
  let var ← variableName name ty
  if ty.isList then
    match value with
    | some source => copyListTo source var
    | none => emit (.set (var ++ "_len") "0")
  else
    emit (.set var (value.getD ty.defaultText))

def assignVariable (name : String) (ty : ValueType) (value : String) :
    Write State Unit := do
  let var ← variableName name ty
  if ty.isList then
    copyListTo value var
  else
    emit (.set var value)

def storeElement (name : String) (element : ValueType) (index value : String) :
    Write State Unit := do
  require ({ · with listSet := true })
  let var ← variableName name (.list element.base)
  emit (.set "__sb_set_value" value)
  emit (.set "__sb_set_default" element.defaultText)
  emit (.call "__sb_list_set" [var, index])

def readVariable (name : String) (ty : ValueType) : Write State String := do
  let var ← variableName name ty
  return if ty.isList then var else read var

def readElement (list index : String) : Write State String := do
  let name ← helper
  emit (.fetchElement name list index)
  return read name

def endLabel (number : Nat) : String := "__sb_f" ++ toString number ++ "_end"

def functionLabel (name : String) : String := "__sb_fn_" ++ mangle name

def argumentSlot (place : Nat) : String := "__sb_arg_" ++ toString place

def resultSlot (place : Nat) : String := "__sb_ret_" ++ toString place

/-- Copies arguments from their slots into the parameters. -/
def bindParameters (place : Nat) : List Binding → Write State Unit
  | [] => return
  | param :: params => do
      let var ← variableName param.name param.ty
      if param.ty.isList then
        copyListTo (argumentSlot place) var
      else
        emit (.set var (read (argumentSlot place)))
      bindParameters (place + 1) params

/-- The program jumps over the body of a function. -/
def functionStart (name : String) (params : List Binding) :
    Write State Unit := do
  let s ← get
  if s.current.isSome ∨ s.graph.depth ≠ 0 then
    throw (.unbalanced .function)
  let number := s.functions + 1
  set { s with functions := number }
  emit (.flow (.jump (endLabel number)))
  emit (.flow (.label (functionLabel name)))
  modify fun s =>
    { s with current := some ⟨number, name, params.map Binding.name⟩ }
  bindParameters 0 params

def functionEnd : Write State Unit := do
  let s ← get
  match s.current with
  | none => throw (.unbalanced .function)
  | some frame =>
      set { s with current := none }
      if s.graph.depth ≠ 0 then
        throw (.unbalanced .block)
      emit .comeBack
      emit (.flow (.label (endLabel frame.number)))

/-- Puts values into slots. -/
def fillSlots (slot : Nat → String) (place : Nat) :
    List (String × ValueType) → Write State Unit
  | [] => return
  | (value, ty) :: rest => do
      if ty.isList then
        copyListTo value (slot place)
      else
        emit (.set (slot place) value)
      fillSlots slot (place + 1) rest

def giveBack (values : List (String × ValueType)) : Write State Unit := do
  fillSlots resultSlot 0 values
  emit .comeBack

/-- A test whether a truth value is true. -/
def isTrue (fragment : String) : String := "\"" ++ fragment ++ "\"==\"1\""

def unary (op : UnaryOp) (operand : String) (ty : ValueType) :
    Write State String := do
  let name ← helper
  match op, ty with
  | .neg, ⟨.int, false⟩ => emit (.setArithmetic name ("-(" ++ operand ++ ")"))
  | .not, ⟨.bool, false⟩ =>
      emit (.set name "1")
      emit (.setIf (isTrue operand) name "0")
  | _, _ => throw (.unsupportedOperator op.symbol ty)
  return read name

/-- A percent sign is doubled in a script. -/
def arithmeticSymbol : BinaryOp → String
  | .mod => "%%"
  | op => op.symbol

def binary (op : BinaryOp) (left right : String) (ty : ValueType) :
    Write State String :=
  match op, ty with
  | _, ⟨.int, false⟩ => do
      let name ← helper
      emit (.setArithmetic name
        ("(" ++ left ++ ")" ++ arithmeticSymbol op ++ "(" ++ right ++ ")"))
      return read name
  | .add, ⟨.string, false⟩ => return left ++ right
  | _, _ => throw (.unsupportedOperator op.symbol ty)

def comparisonWord : CompareOp → String
  | .eq => "EQU"
  | .notEq => "NEQ"
  | .lt => "LSS"
  | .le => "LEQ"
  | .gt => "GTR"
  | .ge => "GEQ"

/-- The test for a comparison, if the type has it. -/
def comparisonTest? (op : CompareOp) (left right : String) (ty : ValueType) :
    Option String :=
  let equal := "\"" ++ left ++ "\"==\"" ++ right ++ "\""
  match op, ty with
  | _, ⟨.int, false⟩ => some (left ++ " " ++ comparisonWord op ++ " " ++ right)
  | .eq, ⟨.bool, false⟩ | .eq, ⟨.string, false⟩ => some equal
  | .notEq, ⟨.bool, false⟩ | .notEq, ⟨.string, false⟩ => some ("not " ++ equal)
  | _, _ => none

/-- Yields `1` if one of the tests holds, else `0`. -/
def anyHolds (tests : List String) : Write State String := do
  let name ← helper
  emit (.set name "0")
  tests.forM fun test => emit (.setIf test name "1")
  return read name

def compare (op : CompareOp) (left right : String) (ty : ValueType) :
    Write State String :=
  match comparisonTest? op left right ty with
  | some test => anyHolds [test]
  | none => throw (.unsupportedOperator op.symbol ty)

def logical (op : LogicalOp) (left right : String) : Write State String :=
  match op with
  | .and => anyHolds [isTrue left ++ " if " ++ isTrue right]
  | .or => anyHolds [isTrue left, isTrue right]

def print (value : String) (ty : ValueType) : Write State Unit :=
  if ty.isList then throw (.unprintable ty) else emit (.echo value)

/-- A panic ends the script; inside a function only ending the interpreter does
that. -/
def panic (message : String) : Write State Unit := do
  emit (.echo ("panic: " ++ message))
  modify fun s => { s with panicExits := s.lines.size :: s.panicExits }
  emit (if (← get).current.isSome then .quit else .exit 1)

def setElements (name : String) (place : Nat) : List String → Write State Unit
  | [] => return
  | value :: rest => do
      emit (.set (name ++ "_" ++ toString place) value)
      setElements name (place + 1) rest

def listLiteral (values : List String) (used : Bool) : Write State String := do
  if !used then
    return ""
  let name ← helper
  emit (.set (name ++ "_len") (toString values.length))
  setElements name 0 values
  return name

def listLength (list : String) : Write State String := do
  require ({ · with listLen := true })
  let name ← helper
  emit (.call "__sb_list_len" [list, name])
  return read name

def substring (value start : String) (stop : Option String) (used : Bool) :
    Write State String := do
  if !used then
    return ""
  require ({ · with substr := true })
  let source ← variableFor value
  let stop ←
    match stop with
    | some stop => pure stop
    | none => do
        let name ← helper
        emit (.setArithmetic name ("(" ++ start ++ ")+1"))
        pure (read name)
  let name ← helper
  emit (.call "__sb_substr" [source, start, stop, name])
  return read name

def stringLength (value : String) (used : Bool) : Write State String := do
  if !used then
    return ""
  require ({ · with strlen := true })
  let source ← variableFor value
  let name ← helper
  emit (.call "__sb_strlen" [source, name])
  return read name

/-- Copies the results of a call into helpers. -/
def fetchResults (place : Nat) : List ValueType → Write State (List String)
  | [] => return []
  | ty :: rest => do
      let name ← helper
      if ty.isList then
        copyListTo (resultSlot place) name
        return name :: (← fetchResults (place + 1) rest)
      else
        emit (.set name (read (resultSlot place)))
        return read name :: (← fetchResults (place + 1) rest)

/-- Storage is fixed for each function, so a function cannot call itself. -/
def callFunction (name : String) (args : List (String × ValueType))
    (returns : List ValueType) (used : Bool) : Write State (List String) := do
  if (← get).current.any fun frame => frame.name == name then
    throw (.recursion name .batch)
  fillSlots argumentSlot 0 args
  emit (.call (functionLabel name) [])
  if used then fetchResults 0 returns else return []

def programWord (program : String) : String :=
  if isPlainWord program then program
  else
    "\"" ++ String.ofList (program.toList.flatMap fun c =>
      if c = '%' then ['%', '%'] else [c]) ++ "\""

/-- The stages of a pipeline as words of a command line. -/
def stageWords : List Invocation → Write State (List String)
  | [] => return []
  | stage :: stages => do
      let words ← stage.args.mapM commandWord
      let rest ← stageWords stages
      return String.intercalate " " (programWord stage.program :: words) :: rest

def readCaptured (suffix : String) : Write State String := do
  let name ← helper
  emit (.call "__sb_read_file" ["\"!__sb_cap!" ++ suffix ++ "\"", name])
  return read name

def runProcess (stages : List Invocation) (results : Nat) :
    Write State (List String) := do
  let line := String.intercalate " | " (← stageWords stages)
  if results = 0 then
    emit (.run line)
    return []
  require ({ · with capture := true, fileContent := true, newline := true })
  emit (.capture line (results ≥ 2))
  let code ←
    if results ≥ 3 then do
      let name ← helper
      emit (.set name "!errorlevel!")
      pure [read name]
    else
      pure []
  let output ← readCaptured ".out"
  let errors ← if results ≥ 2 then do pure [← readCaptured ".err"] else pure []
  return output :: errors ++ code

def inputLine (prompt : Option String) (used : Bool) : Write State String := do
  let name ← helper
  emit (.set name "")
  emit (.readLine name (prompt.getD ""))
  return if used then read name else ""

def copyList (list : String) (used : Bool) : Write State String := do
  if !used then
    return ""
  let name ← helper
  copyListTo list name
  return name

def fileContent (path : String) (used : Bool) : Write State String := do
  if !used then
    emit (.discardFile path)
    return ""
  require ({ · with fileContent := true, newline := true })
  let name ← helper
  emit (.call "__sb_read_file" ["\"" ++ path ++ "\"", name])
  return read name

def stringToInt (value : String) (used : Bool) : Write State String := do
  if !used then
    return ""
  let name ← helper
  emit (.setArithmetic name value)
  return read name

instance : Dialect State where
  fresh := State.fresh
  programStart := return
  programEnd := programEnd
  boolLiteral value := return if value then "1" else "0"
  intLiteral value := return toString value
  stringLiteral := stringLiteral
  defineVariable := defineVariable
  assignVariable := assignVariable
  storeElement := storeElement
  readVariable := readVariable
  readElement list _ index := readElement list index
  ifStart condition := emitFlow (Graph.openBranch condition)
  elseIfStart condition := emitFlow (Graph.elseIf condition)
  elseStart := emitFlow Graph.elseBranch
  ifEnd := emitFlow Graph.closeBranch
  loopStart := emitFlow Graph.openLoop
  postStart := return
  postEnd := emitFlow Graph.loopTest
  loopCondition condition := emitFlow (Graph.leaveUnless condition)
  loopEnd := emitFlow Graph.closeLoop
  leaveLoop := emitFlow (Graph.loopExit .leave)
  nextRound := emitFlow (Graph.loopExit .next)
  functionStart name params _ := functionStart name params
  functionEnd := functionEnd
  giveBack := giveBack
  unary op operand ty _ := unary op operand ty
  binary op left right ty _ := binary op left right ty
  compare op left right ty _ := compare op left right ty
  logical op left right _ := logical op left right
  print := print
  panic := panic
  listLiteral _ values used := listLiteral values used
  listLength list _ := listLength list
  substring := substring
  stringLength := stringLength
  group inner _ := return inner
  callFunction := callFunction
  runProcess := runProcess
  inputLine := inputLine
  copyList list _ used := copyList list used
  fileExists path _ := anyHolds ["exist \"" ++ path ++ "\""]
  fileContent := fileContent
  writeFile path content append := emit (.writeFile path content append)
  intToString value _ := return value
  stringToInt := stringToInt
  noOp := emit .nothing

end Batch

end Shellwright
