/-
Typed programs.  Every expression carries the types of the values it yields:
one for most, several for a call of a function with several results, none for
a call that yields nothing, and three for a process pipeline.
-/
import Shellwright.Operator
import Shellwright.ValueType

namespace Shellwright

/-- A name with its type: a variable to be set or a parameter. -/
structure Binding where
  name : String
  ty : ValueType
deriving DecidableEq, Repr

/-- Expressions.  The last argument of every constructor lists the types of the
values it yields.  A pipeline stage is a program name with its arguments, and
`substring` without `stop` selects a single character. -/
inductive Expr where
  | bool (value : Bool) (types : List ValueType)
  | int (value : Int) (types : List ValueType)
  | string (value : String) (types : List ValueType)
  | unary (op : UnaryOp) (operand : Expr) (types : List ValueType)
  | binary (op : BinaryOp) (left right : Expr) (types : List ValueType)
  | compare (op : CompareOp) (left right : Expr) (types : List ValueType)
  | logical (op : LogicalOp) (left right : Expr) (types : List ValueType)
  | var (name : String) (types : List ValueType)
  | listLiteral (items : List Expr) (types : List ValueType)
  | listElement (list index : Expr) (types : List ValueType)
  | listLength (list : Expr) (types : List ValueType)
  | substring (value start : Expr) (stop : Option Expr) (types : List ValueType)
  | stringLength (value : Expr) (types : List ValueType)
  | group (inner : Expr) (types : List ValueType)
  | call (name : String) (args : List Expr) (types : List ValueType)
  | process (stages : List (String × List Expr)) (types : List ValueType)
  | input (prompt : Option Expr) (types : List ValueType)
  | copy (list : Expr) (types : List ValueType)
  | fileExists (path : Expr) (types : List ValueType)
  | fileContent (path : Expr) (types : List ValueType)
  | intToString (value : Expr) (types : List ValueType)
  | stringToInt (value : Expr) (types : List ValueType)

namespace Expr

def types : Expr → List ValueType
  | bool _ ts | int _ ts | string _ ts | unary _ _ ts | binary _ _ _ ts
  | compare _ _ _ ts | logical _ _ _ ts | var _ ts | listLiteral _ ts
  | listElement _ _ ts | listLength _ ts | substring _ _ _ ts
  | stringLength _ ts | group _ ts | call _ _ ts | process _ ts | input _ ts
  | copy _ ts | fileExists _ ts | fileContent _ ts | intToString _ ts
  | stringToInt _ ts => ts

/-- The type of the first value, `void` when there is none. -/
def ty (e : Expr) : ValueType := e.types.headD .void

def isProcess : Expr → Bool
  | process .. => true
  | _ => false

/-- Expressions that may stand alone as a statement. -/
def isAction : Expr → Bool
  | call .. | process .. | input .. => true
  | _ => false

/-- Expressions that cost nothing to evaluate twice. -/
def isSimple : Expr → Bool
  | var .. | int .. | string .. | bool .. => true
  | _ => false

end Expr

/-- Statements.  The branches of an if chain pair a condition with a body; a
loop runs `init` once and `post` after each round. -/
inductive Stmt where
  | define (targets : List Binding) (value : Option Expr) (constant : Bool)
  | assign (targets : List Binding) (value : Expr)
  | store (target : Binding) (index value : Expr)
  | function (name : String) (params : List Binding) (returns : List ValueType)
      (body : List Stmt)
  | giveBack (values : List Expr)
  | choose (branches : List (Expr × List Stmt)) (otherwise : Option (List Stmt))
  | loop (init : Option Stmt) (condition : Option Expr) (post : Option Stmt)
      (body : List Stmt)
  | leaveLoop
  | nextRound
  | print (value : Expr)
  | panic (message : Expr)
  | writeFile (path content : Expr) (append : Bool)
  | action (value : Expr)
  | noOp

def Stmt.isReturn : Stmt → Bool
  | giveBack _ => true
  | _ => false

structure Program where
  statements : List Stmt

end Shellwright
