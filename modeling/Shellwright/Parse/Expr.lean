/-
The grammar of expressions, with types checked on the way.  Binding gets
tighter from `||` over `&&`, comparisons, sums and products to unary operators
and indexing; operators of one level group to the left.
-/
import Shellwright.Parse.Basic
import Shellwright.Program

namespace Shellwright

/-- The type of an expression used as a single value.  A pipeline counts as
what it prints. -/
def Expr.singleType (e : Expr) (pos : Position) :
    Except SyntaxError ValueType :=
  match e.types with
  | [] => .error ⟨.noValue, pos⟩
  | [ty] => .ok ty
  | ty :: rest =>
      if e.isProcess then .ok ty
      else .error ⟨.severalValues (rest.length + 1), pos⟩

/-- A unary operator applied to an operand. -/
def UnaryOp.apply (op : UnaryOp) (operand : Expr) (pos : Position) :
    Except SyntaxError Expr := do
  let ty ← operand.singleType pos
  let required : ValueType :=
    match op with
    | neg => .int
    | not => .bool
  if ty = required then
    return .unary op operand [required]
  else
    throw ⟨.wrongOperand op required ty, pos⟩

/-- Arithmetic: both sides of one type, every operator on numbers and only `+`
on strings. -/
def BinaryOp.apply (op : BinaryOp) (left right : Expr) (pos : Position) :
    Except SyntaxError Expr := do
  let leftType ← left.singleType pos
  let rightType ← right.singleType pos
  if leftType ≠ rightType then
    throw ⟨.mismatchedTypes leftType rightType op.symbol, pos⟩
  if leftType = .int ∨ (leftType = .string ∧ op = .add) then
    return .binary op left right [leftType]
  else
    throw ⟨.undefinedOperator op.symbol leftType, pos⟩

/-- Comparisons: both sides of one scalar type, and ordering only numbers. -/
def CompareOp.apply (op : CompareOp) (left right : Expr) (pos : Position) :
    Except SyntaxError Expr := do
  let leftType ← left.singleType pos
  let rightType ← right.singleType pos
  if leftType ≠ rightType then
    throw ⟨.mismatchedTypes leftType rightType op.symbol, pos⟩
  if !leftType.isScalar || (op.isOrdering && leftType != .int) then
    throw ⟨.undefinedOperator op.symbol leftType, pos⟩
  else
    return .compare op left right [.bool]

/-- Logic on truth values only. -/
def LogicalOp.apply (op : LogicalOp) (left right : Expr) (pos : Position) :
    Except SyntaxError Expr := do
  let leftType ← left.singleType pos
  if leftType ≠ .bool then
    throw ⟨.needsBool op leftType, pos⟩
  let rightType ← right.singleType pos
  if rightType ≠ .bool then
    throw ⟨.needsBool op rightType, pos⟩
  return .logical op left right [.bool]

/-- A builtin applied to its single argument. -/
def Builtin.apply (builtin : Builtin) (arg : Expr) (pos : Position) :
    Except SyntaxError Expr :=
  let check (required : ValueType) (result : Expr) : Except SyntaxError Expr :=
    if arg.ty = required then .ok result
    else .error ⟨.wrongType .builtinArgument required arg.ty, pos⟩
  match builtin with
  | .copy =>
      if arg.ty.isList then .ok (.copy arg [arg.ty])
      else .error ⟨.copyOfNonList arg.ty, pos⟩
  | .exists => check .string (.fileExists arg [.bool])
  | .read => check .string (.fileContent arg [.string])
  | .itoa => check .int (.intToString arg [.string])
  | _ => check .string (.stringToInt arg [.int])

namespace Parse

/-- An expression that yields exactly one value. -/
def single (expr : Parse Expr) : Parse Expr := do
  let pos ← position
  let e ← expr
  let _ ← e.singleType pos
  return e

/-- An expression of exactly one type. -/
def typed (expr : Parse Expr) (required : ValueType) (role : Role) :
    Parse Expr := do
  let pos ← position
  let e ← expr
  let ty ← e.singleType pos
  if ty = required then
    return e
  else
    fail (.wrongType role required ty) pos

/-- A chain `operand op operand op ...`, grouped to the left. -/
def chain {ω : Type} (operand : Parse Expr) (operator? : TokenKind → Option ω)
    (apply : ω → Expr → Expr → Position → Except SyntaxError Expr) :
    Parse Expr := do
  iterate (fun left => do
    let token ← peek
    match operator? token.kind with
    | none => return .done left
    | some op =>
        let _ ← advance
        let right ← operand
        return .again (← apply op left right token.pos)) (← operand)

def productOperator? : TokenKind → Option BinaryOp
  | .binary .mul => some .mul
  | .binary .div => some .div
  | .binary .mod => some .mod
  | _ => none

def sumOperator? : TokenKind → Option BinaryOp
  | .binary .add => some .add
  | .binary .sub => some .sub
  | _ => none

def comparison? : TokenKind → Option CompareOp
  | .compare op => some op
  | _ => none

def conjunction? : TokenKind → Option LogicalOp
  | .logical .and => some .and
  | _ => none

def disjunction? : TokenKind → Option LogicalOp
  | .logical .or => some .or
  | _ => none

def unaryOperator? : TokenKind → Option UnaryOp
  | .binary .sub => some .neg
  | .not => some .not
  | _ => none

/-- After the type of a list: its elements in braces. -/
def listLiteral (expr : Parse Expr) : Parse Expr := do
  let ty ← valueType
  if !ty.isList then
    expected .listType
  expect .lbrace
  let items ← commaSeparated .rbrace fun _ => do
    let pos ← position
    let item ← single expr
    if item.ty = ty.element then
      return item
    else
      fail (.wrongType .listElement ty.element item.ty) pos
  expect .rbrace
  return .listLiteral items [ty]

/-- The length `len(...)` of a list or a string. -/
def lengthOf (expr : Parse Expr) : Parse Expr := do
  let _ ← advance
  expect .lparen
  let pos ← position
  let inner ← single expr
  expect .rparen
  if inner.ty.isList then
    return .listLength inner [.int]
  else if inner.ty = .string then
    return .stringLength inner [.int]
  else
    fail (.noLength inner.ty) pos

/-- A line of input: `input()`, or `input(...)` with a prompt. -/
def inputLine (expr : Parse Expr) : Parse Expr := do
  let _ ← advance
  expect .lparen
  if (← peekKind) = .rparen then
    expect .rparen
    return .input none [.string]
  else
    let prompt ← typed expr .string .inputPrompt
    expect .rparen
    return .input (some prompt) [.string]

/-- One stage of a pipeline: a program and its arguments in braces. -/
def stage (expr : Parse Expr) : Parse (String × List Expr) := do
  expect .atSign
  let name ←
    match ← peekKind with
    | .ident name | .string name => pure name
    | _ => expected .programName
  let _ ← advance
  expect .lbrace
  let args ← commaSeparated .rbrace fun _ => do
    let pos ← position
    let arg ← single expr
    if arg.ty.isScalar then
      return arg
    else
      fail (.stageArgument arg.ty) pos
  expect .rbrace
  return (name, args)

/-- A pipeline yields what it prints, its error output and its exit code. -/
def pipeline (expr : Parse Expr) : Parse Expr := do
  iterate (fun stages => do
    if ← accept .pipe then
      skipLineBreaks
      if (← peekKind) ≠ .atSign then
        expected .stageAfterPipe
      return .again (stages ++ [← stage expr])
    else
      return .done (.process stages [.string, .string, .int])) [← stage expr]

/-- Arguments in parentheses, each with its position. -/
def arguments (expr : Parse Expr) : Parse (List (Expr × Position)) := do
  expect .lparen
  let args ← commaSeparated .rparen fun _ => do
    let pos ← position
    return (← single expr, pos)
  expect .rparen
  return args

/-- Checks arguments against the parameter types of `function`, counting from
`number`. -/
def checkArguments (function : String) (number : Nat) :
    List (Expr × Position) → List ValueType → Except SyntaxError Unit
  | (arg, pos) :: args, param :: params =>
      if arg.ty = param then checkArguments function (number + 1) args params
      else .error ⟨.wrongType (.argument number function) param arg.ty, pos⟩
  | _, _ => .ok ()

/-- A call of a declared function. -/
def callOf (expr : Parse Expr) : Parse Expr := do
  let (name, pos) ← identifier .functionName
  match ← lookupFunction? name with
  | none => undeclaredFunction name pos
  | some signature =>
      let args ← arguments expr
      if args.length ≠ signature.params.length then
        fail (.argumentCount name signature.params.length args.length) pos
      checkArguments name 1 args signature.params
      return .call name (args.map Prod.fst) signature.returns

def builtinCall (expr : Parse Expr) (builtin : Builtin) (pos : Position) :
    Parse Expr := do
  if builtin.isStatement then
    fail (.builtinWithoutValue builtin) pos
  let _ ← advance
  match ← arguments expr with
  | [(arg, argPos)] => builtin.apply arg argPos
  | args => fail (.builtinArgumentCount builtin args.length) pos

/-- A name: a call when parentheses follow, else a variable. -/
def named (expr : Parse Expr) (name : String) (pos : Position) :
    Parse Expr := do
  if (← peekAfter 1) = some .lparen then
    match Builtin.ofName? name with
    | some builtin => builtinCall expr builtin pos
    | none => callOf expr
  else
    let _ ← advance
    match ← lookupVariable? name with
    | some var => return .var name [var.ty]
    | none => undeclaredVariable name pos

/-- Literals, names, groups and everything else that starts with a token of its
own. -/
def primary (expr : Parse Expr) : Parse Expr := do
  let token ← peek
  match token.kind with
  | .number value =>
      let _ ← advance
      return .int value [.int]
  | .string value =>
      let _ ← advance
      return .string value [.string]
  | .bool value =>
      let _ ← advance
      return .bool value [.bool]
  | .lparen =>
      let _ ← advance
      skipLineBreaks
      let inner ← single expr
      skipLineBreaks
      expect .rparen
      return .group inner [inner.ty]
  | .lbracket => listLiteral expr
  | .keyword .lenWord => lengthOf expr
  | .keyword .inputWord => inputLine expr
  | .atSign => pipeline expr
  | .ident name => named expr name token.pos
  | _ => expected .expression

/-- After the opening bracket of a string subscript: one index, or two around a
colon, either of which may be left out. -/
def subscript (expr : Parse Expr) (value : Expr) : Parse Expr := do
  let start ←
    if (← peekKind) = .colon then
      pure (.int 0 [.int])
    else
      typed expr .int .stringIndex
  let stop ←
    if ← accept .colon then
      if (← peekKind) = .rbracket then
        pure (some (.stringLength value [.int]))
      else
        some <$> typed expr .int .stringIndex
    else
      pure none
  expect .rbracket
  return .substring value start stop [.string]

/-- A primary expression with any number of indices. -/
def indexed (expr : Parse Expr) : Parse Expr := do
  iterate (fun e => do
    let token ← peek
    if token.kind ≠ .lbracket then
      return .done e
    let _ ← advance
    let ty ← e.singleType token.pos
    if ty.isList then
      let index ← typed expr .int .listIndex
      expect .rbracket
      return .again (.listElement e index [ty.element])
    else if ty = .string then
      return .again (← subscript expr e)
    else
      fail (.notIndexable ty) token.pos) (← primary expr)

/-- The unary operators in front of an operand, outermost first. -/
def unaryOperators : Parse (List (UnaryOp × Position)) :=
  iterate (fun ops => do
    let token ← peek
    match unaryOperator? token.kind with
    | some op =>
        let _ ← advance
        return .again (ops ++ [(op, token.pos)])
    | none => return .done ops) []

/-- Unary operators are applied from the inside out. -/
def unary (expr : Parse Expr) : Parse Expr := do
  let ops ← unaryOperators
  let operand ← indexed expr
  ops.foldrM (fun (op, pos) e => op.apply e pos) operand

/-- One expression, given how to read the expressions inside it. -/
def expressionRule (expr : Parse Expr) : Parse Expr :=
  let product := chain (unary expr) productOperator? BinaryOp.apply
  let sum := chain product sumOperator? BinaryOp.apply
  let comparison := chain sum comparison? CompareOp.apply
  let conjunction := chain comparison conjunction? LogicalOp.apply
  chain conjunction disjunction? LogicalOp.apply

def expression : Parse Expr := nested expressionRule

end Parse

end Shellwright
