/-
Why a program text is refused.  Each fault is a cause with the data its message
needs; the words are chosen in one place, at the end of this file.
-/
import Shellwright.Builtin
import Shellwright.Scope
import Shellwright.Suggestion
import Shellwright.Token

namespace Shellwright

/-- The two statements that only a loop gives a meaning to. -/
inductive LoopExit where
  | leave
  | next
deriving DecidableEq, Repr

def LoopExit.keyword : LoopExit → String
  | leave => "break"
  | next => "continue"

/-- What the grammar asks for at some token. -/
inductive Wanted where
  | token (kind : TokenKind)
  | typeName
  | listType
  | endOfStatement
  | expression
  | statement
  | variableName
  | functionName
  | parameterName
  | indexVariable
  | valueVariable
  | stageAfterPipe
  | programName
  | assignment
  | declareOrAssign
  | typeOrValue
  | constantValue
  | caseOrEnd
  | appendFlag
deriving DecidableEq, Repr

/-- The part an expression plays where a certain type is required. -/
inductive Role where
  | listIndex
  | listElement
  | stringIndex
  | inputPrompt
  | condition
  | loopCondition
  | caseCondition
  | panicMessage
  | filePath
  | fileContent
  | builtinArgument
  | argument (number : Nat) (function : String)
  | returnValue (number : Nat)
deriving DecidableEq, Repr

inductive SyntaxFault where
  -- text
  | loneAmpersand
  | unterminatedString
  | numberOutOfRange (digits : String)
  | unexpectedCharacter (c : Char)
  -- grammar
  | expected (wanted : Wanted) (got : TokenKind)
  | tooDeep
  -- values
  | noValue
  | severalValues (count : Nat)
  | unusedValue
  | wrongType (role : Role) (required got : ValueType)
  | wrongOperand (op : UnaryOp) (required got : ValueType)
  | mismatchedTypes (left right : ValueType) (symbol : String)
  | undefinedOperator (symbol : String) (ty : ValueType)
  | needsBool (op : LogicalOp) (got : ValueType)
  | needsIntVariable (op : TokenKind) (got : ValueType)
  | notIndexable (ty : ValueType)
  | noLength (ty : ValueType)
  | stageArgument (ty : ValueType)
  | copyOfNonList (ty : ValueType)
  | printOfNonScalar (ty : ValueType)
  | rangeOver (ty : ValueType)
  | switchOn (ty : ValueType)
  -- names
  | undeclaredVariable (name : String) (suggestion : Option String)
  | undeclaredFunction (name : String) (suggestion : Option String)
  | redeclared (cause : Redeclaration)
  | reservedName (name : String)
  | builtinName (name : String)
  | typeNameTaken (name : String)
  | takenByFunction (name : String)
  | takenByVariable (name : String)
  | duplicateParameter (name : String)
  -- definitions and assignments
  | discardWithoutValue
  | constantAssigned (name : String)
  | tooManyTargets (count : Nat)
  | targetCount (values targets : Nat)
  | declaredOtherwise (got declared : ValueType) (name : String)
  | undeclarableType (name : String) (ty : ValueType)
  | assignedOtherwise (got : ValueType) (name : String) (ty : ValueType)
  | storeIntoNonList (name : String) (ty : ValueType)
  -- calls and functions
  | argumentCount (function : String) (required got : Nat)
  | builtinWithoutValue (builtin : Builtin)
  | builtinArgumentCount (builtin : Builtin) (got : Nat)
  | nestedFunction
  | missingReturn (function : String)
  | returnOutsideFunction
  | returnCount (required got : Nat)
  -- control flow
  | outsideLoop (exit : LoopExit)
  | secondDefault
deriving DecidableEq, Repr

/-- A fault and the place it is reported at. -/
structure SyntaxError where
  fault : SyntaxFault
  pos : Position
deriving DecidableEq, Repr

def Wanted.text : Wanted → String
  | token kind => kind.describe
  | typeName => "type"
  | listType => "list type"
  | endOfStatement => "end of statement"
  | expression => "expression"
  | statement => "statement"
  | variableName => "variable name"
  | functionName => "function name"
  | parameterName => "parameter name"
  | indexVariable => "index variable"
  | valueVariable => "value variable"
  | stageAfterPipe => "'@' after '|'"
  | programName => "program name after '@'"
  | assignment => "assignment after variable"
  | declareOrAssign => "':=' or '='"
  | typeOrValue => "type or '='"
  | constantValue => "'=' in constant declaration"
  | caseOrEnd => "'case', 'default' or '\x7d'"
  | appendFlag => "'true' or 'false' for the append flag"

def Role.text : Role → String
  | listIndex => "list index"
  | listElement => "list element"
  | stringIndex => "string index"
  | inputPrompt => "input prompt"
  | condition => "condition"
  | loopCondition => "loop condition"
  | caseCondition => "case condition"
  | panicMessage => "panic message"
  | filePath => "file path"
  | fileContent => "file content"
  | builtinArgument => "argument"
  | argument number function => s!"argument {number} of '{function}'"
  | returnValue number => s!"return value {number}"

namespace SyntaxFault

/-- The one-line message of a fault. -/
def message : SyntaxFault → String
  | loneAmpersand => "expected '&&'"
  | unterminatedString => "unterminated string"
  | numberOutOfRange digits => s!"integer literal {digits} is out of range"
  | unexpectedCharacter c => s!"unexpected character '{c}'"
  | expected wanted got => s!"expected {wanted.text}, got {got.describe}"
  | tooDeep => "program is nested too deeply"
  | noValue => "expression does not produce a value"
  | severalValues count => s!"expected a single value, got {count} values"
  | unusedValue => "expression value is not used"
  | wrongType role required got =>
      s!"{role.text} must be {required.text}, got {got.text}"
  | wrongOperand op required got =>
      s!"operator '{op.symbol}' requires a {required.text} operand, got {got.text}"
  | mismatchedTypes left right symbol =>
      s!"mismatched types {left.text} and {right.text} for operator '{symbol}'"
  | undefinedOperator symbol ty =>
      s!"operator '{symbol}' is not defined for {ty.text}"
  | needsBool op got =>
      s!"operator '{op.symbol}' requires bool operands, got {got.text}"
  | needsIntVariable op got =>
      s!"operator {op.describe} requires an int variable, got {got.text}"
  | notIndexable ty => s!"cannot index a value of type {ty.text}"
  | noLength ty => s!"len is not defined for {ty.text}"
  | stageArgument ty => s!"process argument must be a scalar, got {ty.text}"
  | copyOfNonList ty => s!"copy requires a list, got {ty.text}"
  | printOfNonScalar ty => s!"print requires a scalar value, got {ty.text}"
  | rangeOver ty => s!"cannot range over {ty.text}"
  | switchOn ty => s!"cannot switch on {ty.text}"
  | undeclaredVariable name _ => s!"undeclared variable '{name}'"
  | undeclaredFunction name _ => s!"undeclared function '{name}'"
  | redeclared cause => cause.message
  | reservedName name => s!"names starting with '__' are reserved: '{name}'"
  | builtinName name => s!"'{name}' is a builtin and cannot be redeclared"
  | typeNameTaken name => s!"'{name}' is a type name"
  | takenByFunction name => s!"'{name}' is already declared as a function"
  | takenByVariable name => s!"'{name}' is already declared as a variable"
  | duplicateParameter name => s!"duplicate parameter '{name}'"
  | discardWithoutValue => "'_' needs a value to discard"
  | constantAssigned name => s!"cannot assign to constant '{name}'"
  | tooManyTargets count =>
      s!"a process call yields at most 3 values, got {count} targets"
  | targetCount values targets =>
      s!"cannot assign {values} values to {targets} variables"
  | declaredOtherwise got declared name =>
      s!"cannot use {got.text} as {declared.text} in declaration of '{name}'"
  | undeclarableType name ty => s!"cannot declare '{name}' of type {ty.text}"
  | assignedOtherwise got name ty =>
      s!"cannot assign {got.text} to '{name}' of type {ty.text}"
  | storeIntoNonList name ty =>
      s!"cannot assign to an index of '{name}' of type {ty.text}"
  | argumentCount function required got =>
      s!"function '{function}' expects {required} arguments, got {got}"
  | builtinWithoutValue builtin => s!"'{builtin.name}' does not produce a value"
  | builtinArgumentCount builtin got =>
      s!"'{builtin.name}' expects 1 argument, got {got}"
  | nestedFunction => "functions can only be declared at top level"
  | missingReturn function =>
      s!"function '{function}' must end with a return statement"
  | returnOutsideFunction => "return is only allowed inside a function"
  | returnCount required got =>
      s!"function returns {required} values, got {got}"
  | outsideLoop exit => s!"{exit.keyword} is only allowed inside a loop"
  | secondDefault => "multiple defaults in switch"

/-- The hint that goes with a fault: a declared name the misspelled one may
have been meant for. -/
def help : SyntaxFault → Option String
  | undeclaredVariable _ suggestion => suggestion.map Suggestion.didYouMean
  | undeclaredFunction _ suggestion => suggestion.map Suggestion.didYouMean
  | _ => none

end SyntaxFault

end Shellwright
