/-
The grammar of statements.  Names are declared and types are checked while the
statements are read; range loops and switches are written out as the counted
loops and if chains they stand for.
-/
import Shellwright.Parse.Expr

namespace Shellwright

namespace Parse

/-- Names to be set, each with its position. -/
abbrev Targets := List (String × Position)

/-- Refuses names a program may not bind. -/
def checkNewName (name : String) (pos : Position) : Parse Unit := do
  if isHiddenName name then
    fail (.reservedName name) pos
  if (Builtin.ofName? name).isSome then
    fail (.builtinName name) pos
  if (BaseType.ofName? name).isSome then
    fail (.typeNameTaken name) pos
  if (← lookupFunction? name).isSome then
    fail (.takenByFunction name) pos

/-- Enters a variable into the scope, whatever its name. -/
def enterVariable (name : String) (pos : Position) (var : Variable) :
    Parse Unit := do
  match (← get).scope.declareVariable name var with
  | .ok scope => modifyScope fun _ => scope
  | .error cause => fail (.redeclared cause) pos

/-- Declares a variable a program has named. -/
def declare (name : String) (pos : Position) (var : Variable) : Parse Unit := do
  checkNewName name pos
  enterVariable name pos var

/-- The variable an assignment may change. -/
def assignable (name : String) (pos : Position) : Parse Variable := do
  match ← lookupVariable? name with
  | some var =>
      if var.constant then
        fail (.constantAssigned name) pos
      else
        return var
  | none => undeclaredVariable name pos

/-- The types `count` targets receive from a value.  A pipeline hands out as
many of its three values as are asked for; everything else must match. -/
def typesFor (value : Expr) (count : Nat) (pos : Position) :
    Except SyntaxError (List ValueType) :=
  if value.types.isEmpty then .error ⟨.noValue, pos⟩
  else if value.isProcess then
    if count > value.types.length then .error ⟨.tooManyTargets count, pos⟩
    else .ok (value.types.take count)
  else if value.types.length ≠ count then
    .error ⟨.targetCount value.types.length count, pos⟩
  else .ok value.types

def bindings (names : Targets) (types : List ValueType) : List Binding :=
  (names.zip types).map fun ((name, _), ty) => ⟨name, ty⟩

/-- A definition without a value: every name gets the declared type. -/
def defineEmpty (names : Targets) (ty : ValueType) (constant : Bool) :
    Parse Stmt := do
  names.forM fun (name, pos) => do
    if name = "_" then
      fail .discardWithoutValue pos
    declare name pos ⟨ty, constant⟩
  return .define (names.map fun (name, _) => ⟨name, ty⟩) none constant

/-- A definition from a value.  The name `_` discards its part of it. -/
def defineFrom (names : Targets) (declared : Option ValueType) (value : Expr)
    (valuePos : Position) (constant : Bool) : Parse Stmt := do
  let types ← typesFor value names.length valuePos
  (names.zip types).forM fun ((name, pos), ty) => do
    if let some want := declared then
      if want ≠ ty then
        fail (.declaredOtherwise ty want name) valuePos
    if !ty.isScalar && !ty.isList then
      fail (.undeclarableType name ty) pos
    if name ≠ "_" then
      declare name pos ⟨ty, constant⟩
  return .define (bindings names types) (some value) constant

/-- An assignment to declared variables. -/
def assignFrom (names : Targets) (value : Expr) (valuePos : Position) :
    Parse Stmt := do
  let types ← typesFor value names.length valuePos
  (names.zip types).forM fun ((name, pos), ty) => do
    if name ≠ "_" then
      let var ← assignable name pos
      if var.ty ≠ ty then
        fail (.assignedOtherwise ty name var.ty) valuePos
  return .assign (bindings names types) value

/-- Names separated by commas. -/
def targetNames : Parse Targets := do
  iterate (fun names => do
    if ← accept .comma then
      return .again (names ++ [← identifier .variableName])
    else
      return .done names) [← identifier .variableName]

/-- A definition after `var` or `const`. -/
def definition (constant : Bool) : Parse Stmt := do
  let _ ← advance
  let names ← targetNames
  let declared ← if ← atType then some <$> valueType else pure none
  if ← accept .assign then
    let valuePos ← position
    let value ← expression
    defineFrom names declared value valuePos constant
  else if constant then
    expected .constantValue
  else
    match declared with
    | some ty => defineEmpty names ty constant
    | none => expected .typeOrValue

/-- A store `name[index] = value`. -/
def listStore (name : String) (pos : Position) : Parse Stmt := do
  let var ← assignable name pos
  if !var.ty.isList then
    fail (.storeIntoNonList name var.ty) pos
  let _ ← advance
  expect .lbracket
  let index ← typed expression .int .listIndex
  expect .rbracket
  expect .assign
  let value ← typed expression var.ty.element .listElement
  return .store ⟨name, var.ty⟩ index value

/-- The statement `panic(message)`. -/
def panicStatement : Parse Stmt := do
  let _ ← advance
  expect .lparen
  let message ← typed expression .string .panicMessage
  expect .rparen
  return .panic message

/-- The statement `write(path, content)`, with an optional truth value that asks
for the content to be appended. -/
def writeStatement : Parse Stmt := do
  let _ ← advance
  expect .lparen
  let path ← typed expression .string .filePath
  expect .comma
  let content ← typed expression .string .fileContent
  let append ←
    if ← accept .comma then
      match ← peekKind with
      | .bool value =>
          let _ ← advance
          pure value
      | _ => expected .appendFlag
    else
      pure false
  expect .rparen
  return .writeFile path content append

/-- An expression run for what it does. -/
def actionStatement : Parse Stmt := do
  let pos ← position
  let value ← expression
  if value.isAction then
    return .action value
  else
    fail .unusedValue pos

/-- The statement `name += value` and its kin. -/
def compoundAssignment (name : String) (pos : Position) (op : BinaryOp) :
    Parse Stmt := do
  let _ ← advance
  let token ← advance
  let var ← assignable name pos
  let right ← single expression
  let value ← op.apply (.var name [var.ty]) right token.pos
  return .assign [⟨name, var.ty⟩] value

/-- The statements `name++` and `name--`. -/
def countStatement (name : String) (pos : Position) (op : BinaryOp) :
    Parse Stmt := do
  let _ ← advance
  let token ← advance
  let var ← assignable name pos
  if var.ty ≠ .int then
    fail (.needsIntVariable token.kind var.ty) token.pos
  return .assign [⟨name, .int⟩]
    (.binary op (.var name [.int]) (.int 1 [.int]) [.int])

/-- A definition by `:=` or an assignment by `=` to one or more names. -/
def targetStatement : Parse Stmt := do
  let names ← targetNames
  if ← accept .shortDeclare then
    let valuePos ← position
    let value ← expression
    defineFrom names none value valuePos false
  else if ← accept .assign then
    let valuePos ← position
    let value ← expression
    assignFrom names value valuePos
  else
    expected .declareOrAssign

/-- A statement that starts with a name. -/
def namedStatement (name : String) (pos : Position) : Parse Stmt := do
  match ← peekAfter 1 with
  | some .lparen =>
      match Builtin.ofName? name with
      | some .panic => panicStatement
      | some .write => writeStatement
      | _ => actionStatement
  | some .shortDeclare | some .comma | some .assign => targetStatement
  | some (.compoundAssign op) => compoundAssignment name pos op
  | some .increment => countStatement name pos .add
  | some .decrement => countStatement name pos .sub
  | some .lbracket => listStore name pos
  | _ =>
      if (← lookupVariable? name).isNone then
        undeclaredVariable name pos
      let _ ← advance
      expected .assignment

/-- The statements a loop header may hold. -/
def simpleStatement : Parse Stmt := do
  let token ← peek
  match token.kind with
  | .ident name => namedStatement name token.pos
  | .keyword .varWord => definition false
  | _ => expected .statement

def printStatement : Parse Stmt := do
  let _ ← advance
  expect .lparen
  if ← accept .rparen then
    return .print (.string "" [.string])
  let pos ← position
  let value ← single expression
  if !value.ty.isScalar then
    fail (.printOfNonScalar value.ty) pos
  expect .rparen
  return .print value

/-- The values after `return`, each with its position. -/
def returnValues : Parse (List (Expr × Position)) := do
  match ← peekKind with
  | .newline | .semicolon | .rbrace | .eof => return []
  | _ =>
      iterate (fun values => do
        let pos ← position
        let values := values ++ [(← expression, pos)]
        if ← accept .comma then
          return .again values
        else
          return .done values) []

/-- The types a `return` hands back: those of a single call with several
results, else one for each value. -/
def returnedTypes (values : List (Expr × Position)) :
    Except SyntaxError (List ValueType) :=
  match values with
  | [(value, pos)] =>
      if value.types.length > 1 && !value.isProcess then .ok value.types
      else return [← value.singleType pos]
  | _ => values.mapM fun (value, pos) => value.singleType pos

/-- Checks returned types against the declared ones, counting from `number`.
Types without a value of their own are reported at `pos`. -/
def checkReturns (pos : Position) (number : Nat) (positions : List Position) :
    List ValueType → List ValueType → Except SyntaxError Unit
  | got :: gots, required :: rest =>
      if got = required then
        checkReturns pos (number + 1) positions.tail gots rest
      else .error ⟨.wrongType (.returnValue number) required got,
        positions.headD pos⟩
  | _, _ => .ok ()

def returnStatement : Parse Stmt := do
  let token ← advance
  match (← get).scope.returns with
  | none => fail .returnOutsideFunction token.pos
  | some required =>
      let values ← returnValues
      let got ← returnedTypes values
      if got.length ≠ required.length then
        fail (.returnCount required.length got.length) token.pos
      checkReturns token.pos 1 (values.map Prod.snd) got required
      return .giveBack (values.map Prod.fst)

/-- The statements `break` and `continue`. -/
def loopExit (exit : LoopExit) : Parse Stmt := do
  let token ← advance
  let scope := (← get).scope
  match exit with
  | .leave =>
      if !scope.canBreak then
        fail (.outsideLoop .leave) token.pos
      return .leaveLoop
  | .next =>
      if !scope.canContinue then
        fail (.outsideLoop .next) token.pos
      return .nextRound

/-- Statements up to a token for which `stop` holds, which is not read.  At the
end of the input `wanted` is missing. -/
def statementsUntil (statement : Parse (List Stmt)) (stop : TokenKind → Bool)
    (wanted : Wanted) : Parse (List Stmt) :=
  iterate (fun body => do
    skipSeparators
    let kind ← peekKind
    if stop kind then
      return .done body
    if kind = .eof then
      expected wanted
    return .again (body ++ (← statement))) []

/-- Statements up to the closing brace. -/
def blockBody (statement : Parse (List Stmt)) : Parse (List Stmt) :=
  statementsUntil statement (· == .rbrace) (.token .rbrace)

/-- A block in braces. -/
def block (statement : Parse (List Stmt)) (kind : BlockKind) :
    Parse (List Stmt) := do
  expect .lbrace
  modifyScope (·.push kind)
  let body ← blockBody statement
  modifyScope Scope.pop
  expect .rbrace
  return body

def parameter (before : List (Binding × Position)) :
    Parse (Binding × Position) := do
  let (name, pos) ← identifier .parameterName
  if before.any fun (param, _) => param.name == name then
    fail (.duplicateParameter name) pos
  return (⟨name, ← valueType⟩, pos)

/-- The result types of a function: none, one, or several in parentheses. -/
def resultTypes : Parse (List ValueType) := do
  if ← atType then
    return [← valueType]
  else if ← accept .lparen then
    let types ← iterate (fun types => do
      let types := types ++ [← valueType]
      if ← accept .comma then
        return .again types
      else
        return .done types) []
    expect .rparen
    return types
  else
    return []

/-- A function definition.  The function is known inside its own body. -/
def functionStatement (statement : Parse (List Stmt)) : Parse Stmt := do
  let token ← advance
  if (← get).scope.current ≠ .program then
    fail .nestedFunction token.pos
  let (name, pos) ← identifier .functionName
  checkNewName name pos
  if (← lookupVariable? name).isSome then
    fail (.takenByVariable name) pos
  expect .lparen
  let params ← commaSeparated .rparen parameter
  expect .rparen
  let returns ← resultTypes
  let signature : Signature := ⟨params.map (·.1.ty), returns⟩
  match (← get).scope.declareFunction name signature with
  | .ok scope => modifyScope fun _ => scope
  | .error cause => fail (.redeclared cause) pos
  modifyScope (·.enterFunction returns)
  params.forM fun (param, paramPos) =>
    declare param.name paramPos ⟨param.ty, false⟩
  expect .lbrace
  let body ← blockBody statement
  if !returns.isEmpty && !(body.getLast?.any Stmt.isReturn) then
    fail (.missingReturn name) (← position)
  expect .rbrace
  modifyScope Scope.exitFunction
  return .function name (params.map Prod.fst) returns body

/-- A condition and the block it guards. -/
def guarded (statement : Parse (List Stmt)) : Parse (Expr × List Stmt) := do
  let condition ← typed expression .bool .condition
  let body ← block statement .branch
  return (condition, body)

/-- An if chain. -/
def ifStatement (statement : Parse (List Stmt)) : Parse Stmt := do
  let _ ← advance
  iterate (fun branches => do
    if ← accept (.keyword .elseWord) then
      if ← accept (.keyword .ifWord) then
        return .again (branches ++ [← guarded statement])
      else
        return .done (.choose branches (some (← block statement .branch)))
    else
      return .done (.choose branches none)) [← guarded statement]

/-- Whether the header of a range loop is next. -/
def atRangeHeader : Parse Bool := do
  let isIdent : Option TokenKind → Bool
    | some (.ident _) => true
    | _ => false
  let first ← peekAfter 0
  let second ← peekAfter 1
  let third ← peekAfter 2
  let fourth ← peekAfter 3
  let fifth ← peekAfter 4
  let range := some (TokenKind.keyword .rangeWord)
  return isIdent first &&
    ((second == some .shortDeclare && third == range) ||
      (second == some .comma && isIdent third && fourth == some .shortDeclare &&
        fifth == range))

/-- Whether a loop header starts with a statement and not with a condition. -/
def atSimpleStatement : Parse Bool := do
  match ← peekKind with
  | .keyword .varWord => return true
  | .ident _ =>
      match ← peekAfter 1 with
      | some .shortDeclare | some .assign | some (.compoundAssign _)
      | some .increment | some .decrement | some .comma => return true
      | _ => return false
  | _ => return false

/-- The parts of a loop header: what is done first, the condition and what is
done after each round. -/
def loopHeader : Parse (Option Stmt × Option Expr × Option Stmt) := do
  if (← peekKind) = .lbrace then
    return (none, none, none)
  else if (← peekKind) = .semicolon || (← atSimpleStatement) then
    let init ←
      if (← peekKind) = .semicolon then pure none else some <$> simpleStatement
    expect .semicolon
    let condition ←
      if (← peekKind) = .semicolon then pure none
      else some <$> typed expression .bool .loopCondition
    expect .semicolon
    let post ← if (← peekKind) = .lbrace then pure none
      else some <$> simpleStatement
    return (init, condition, post)
  else
    return (none, some (← typed expression .bool .loopCondition), none)

def removeVariables (names : List String) : Parse Unit :=
  modifyScope fun scope =>
    names.foldl (fun scope name => scope.removeVariable name) scope

/-- A counted or conditional loop.  Names from its header end with it. -/
def countedLoop (statement : Parse (List Stmt)) : Parse Stmt := do
  let before := (← get).scope.variableNames
  let (init, condition, post) ← loopHeader
  let header := (← get).scope.variableNames.filter
    fun name => !before.contains name
  let body ← block statement .loop
  removeVariables header
  return .loop init condition post body

/-- A list or string `source` walked by the variable `index`: the element at
the index. -/
def elementAt (source index : Expr) : Expr :=
  if source.ty.isList then .listElement source index [source.ty.element]
  else .substring source index none [source.ty.element]

def lengthAsInt (source : Expr) : Expr :=
  if source.ty.isList then .listLength source [.int]
  else .stringLength source [.int]

/-- The loop `for i, v := range e` stands for
`for i := 0; i < len(e); i = i + 1` with `v := e[i]` in front of its body. -/
def rangeLoop (statement : Parse (List Stmt)) : Parse Stmt := do
  let (indexName, indexPos) ← identifier .indexVariable
  let valueName ←
    if ← accept .comma then some <$> identifier .valueVariable else pure none
  expect .shortDeclare
  expect (.keyword .rangeWord)
  let sourcePos ← position
  let source ← single expression
  if !source.ty.isList && source.ty != .string then
    fail (.rangeOver source.ty) sourcePos
  let index ←
    if indexName = "_" then
      let hidden ← hiddenName "idx"
      enterVariable hidden indexPos ⟨.int, false⟩
      pure hidden
    else
      declare indexName indexPos ⟨.int, false⟩
      pure indexName
  let indexExpr : Expr := .var index [.int]
  let (header, prologue) ←
    match valueName with
    | some (name, pos) =>
        if name = "_" then
          pure ([index], [])
        else
          let ty := source.ty.element
          declare name pos ⟨ty, false⟩
          pure ([index, name],
            [.define [⟨name, ty⟩] (some (elementAt source indexExpr)) false])
    | none => pure ([index], [])
  let body ← block statement .loop
  removeVariables header
  return .loop
    (some (.define [⟨index, .int⟩] (some (.int 0 [.int])) false))
    (some (.compare .lt indexExpr (lengthAsInt source) [.bool]))
    (some (.assign [⟨index, .int⟩]
      (.binary .add indexExpr (.int 1 [.int]) [.int])))
    (prologue ++ body)

def forStatement (statement : Parse (List Stmt)) : Parse Stmt := do
  let _ ← advance
  if ← atRangeHeader then
    rangeLoop statement
  else
    countedLoop statement

/-- What a switch looks at.  Anything but a name or a literal is put into a
hidden constant first. -/
structure SwitchTag where
  tag : Option Expr
  prologue : List Stmt
  hidden : List String

def switchTag : Parse SwitchTag := do
  if (← peekKind) = .lbrace then
    return ⟨none, [], []⟩
  let pos ← position
  let tag ← single expression
  let ty := tag.ty
  if !ty.isScalar then
    fail (.switchOn ty) pos
  if tag.isSimple then
    return ⟨some tag, [], []⟩
  else
    let name ← hiddenName "sw"
    enterVariable name pos ⟨ty, true⟩
    return ⟨some (.var name [ty]),
      [.define [⟨name, ty⟩] (some tag) true], [name]⟩

/-- One value of a case as a condition. -/
def caseTest (tag : Option Expr) (pos : Position) : Parse Expr := do
  match tag with
  | some tag => CompareOp.eq.apply tag (← single expression) pos
  | none => typed expression .bool .caseCondition

/-- The values of a case, any of which selects it. -/
def caseCondition (tag : Option Expr) : Parse Expr := do
  iterate (fun condition => do
    if ← accept .comma then
      let pos ← position
      let test ← caseTest tag pos
      return .again (← LogicalOp.or.apply condition test pos)
    else
      return .done condition) (← caseTest tag (← position))

/-- Statements up to the next case or the end of the switch. -/
def caseBody (statement : Parse (List Stmt)) : Parse (List Stmt) :=
  statementsUntil statement
    (fun kind =>
      kind == .keyword .caseWord || kind == .keyword .defaultWord ||
        kind == .rbrace)
    (.token .rbrace)

/-- The cases of a switch: conditions with bodies, and the default body. -/
def switchCases (statement : Parse (List Stmt)) (tag : Option Expr) :
    Parse (List (Expr × List Stmt) × Option (List Stmt)) :=
  iterate (fun (branches, default?) => do
    skipSeparators
    match ← peekKind with
    | .keyword .caseWord =>
        let _ ← advance
        let condition ← caseCondition tag
        expect .colon
        let body ← caseBody statement
        return .again (branches ++ [(condition, body)], default?)
    | .keyword .defaultWord =>
        let token ← advance
        if default?.isSome then
          fail .secondDefault token.pos
        expect .colon
        return .again (branches, some (← caseBody statement))
    | .rbrace => return .done (branches, default?)
    | _ => expected .caseOrEnd) ([], none)

/-- A switch stands for an if chain over its cases. -/
def switchStatement (statement : Parse (List Stmt)) : Parse (List Stmt) := do
  let _ ← advance
  let { tag, prologue, hidden } ← switchTag
  expect .lbrace
  modifyScope (·.push .switch)
  let (branches, default?) ← switchCases statement tag
  modifyScope Scope.pop
  expect .rbrace
  removeVariables hidden
  if branches.isEmpty then
    return prologue ++ default?.getD []
  else
    return prologue ++ [.choose branches default?]

/-- One statement with its end, given how to read the statements inside it.  A
switch may stand for several statements. -/
def statementRule (statement : Parse (List Stmt)) : Parse (List Stmt) := do
  let statements ←
    match ← peekKind with
    | .keyword .switchWord => switchStatement statement
    | .keyword .varWord => List.singleton <$> definition false
    | .keyword .constWord => List.singleton <$> definition true
    | .keyword .funcWord => List.singleton <$> functionStatement statement
    | .keyword .returnWord => List.singleton <$> returnStatement
    | .keyword .ifWord => List.singleton <$> ifStatement statement
    | .keyword .forWord => List.singleton <$> forStatement statement
    | .keyword .breakWord => List.singleton <$> loopExit .leave
    | .keyword .continueWord => List.singleton <$> loopExit .next
    | .keyword .printWord => List.singleton <$> printStatement
    | .ident _ => List.singleton <$> simpleStatement
    | .atSign | .keyword .inputWord => List.singleton <$> actionStatement
    | _ => expected .statement
  endStatement
  return statements

def statement : Parse (List Stmt) := nested statementRule

/-- A whole program. -/
def program : Parse Program := do
  return ⟨← statementsUntil statement (· == .eof) (.token .eof)⟩

end Parse

/-- The state a parse of `tokens` starts from.  Comments are dropped, and an
input without an end token ends where its last token stands. -/
def ParserState.initial (tokens : List Token) : ParserState :=
  let tokens := tokens.filter (·.kind != .comment)
  match tokens.getLast? with
  | none => ⟨[], ⟨.eof, "", .start⟩, .initial, 0⟩
  | some last =>
      if last.kind = .eof then ⟨tokens.dropLast, last, .initial, 0⟩
      else ⟨tokens, ⟨.eof, "", last.pos⟩, .initial, 0⟩

/-- The program a list of tokens spells. -/
def parseTokens (tokens : List Token) : Except SyntaxError Program :=
  (Parse.program.run (.initial tokens)).map Prod.fst

end Shellwright
