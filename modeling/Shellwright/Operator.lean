/-
Operators of expressions and the symbols that spell them.
-/

namespace Shellwright

inductive UnaryOp where
  | neg
  | not
deriving DecidableEq, Repr

inductive BinaryOp where
  | add
  | sub
  | mul
  | div
  | mod
deriving DecidableEq, Repr

inductive CompareOp where
  | eq
  | notEq
  | lt
  | le
  | gt
  | ge
deriving DecidableEq, Repr

inductive LogicalOp where
  | and
  | or
deriving DecidableEq, Repr

def UnaryOp.symbol : UnaryOp → String
  | neg => "-"
  | not => "!"

def BinaryOp.symbol : BinaryOp → String
  | add => "+"
  | sub => "-"
  | mul => "*"
  | div => "/"
  | mod => "%"

def CompareOp.symbol : CompareOp → String
  | eq => "=="
  | notEq => "!="
  | lt => "<"
  | le => "<="
  | gt => ">"
  | ge => ">="

def LogicalOp.symbol : LogicalOp → String
  | and => "&&"
  | or => "||"

/-- Every comparison but equality and inequality needs an order on its
operands. -/
def CompareOp.isOrdering : CompareOp → Bool
  | eq | notEq => false
  | _ => true

end Shellwright
