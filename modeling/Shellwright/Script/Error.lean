/-
Why a tree cannot be written as a script.
-/
import Shellwright.Shell
import Shellwright.SyntaxError

namespace Shellwright

/-- The constructs that have to be opened and closed in pairs. -/
inductive Construct where
  | block
  | function
  | branch
  | loop
  | elseIfAfterElse
  | elseAfterElse
deriving DecidableEq, Repr

def Construct.text : Construct → String
  | block => "block"
  | function => "func"
  | branch => "if"
  | loop => "for"
  | elseIfAfterElse => "else if after else"
  | elseAfterElse => "else after else"

inductive ScriptError where
  | unsupportedOperator (symbol : String) (ty : ValueType)
  | unprintable (ty : ValueType)
  | outsideLoop (exit : LoopExit)
  | recursion (function : String) (shell : Shell)
  | unbalanced (construct : Construct)
  | valueCount (name : String) (required got : Nat)
deriving DecidableEq, Repr

def ScriptError.message : ScriptError → String
  | unsupportedOperator symbol ty =>
      s!"operator '{symbol}' is not supported for type {ty.text}"
  | unprintable ty => s!"print is not supported for type {ty.text}"
  | outsideLoop exit => s!"'{exit.keyword}' used outside of a loop"
  | recursion function shell =>
      s!"recursive call to '{function}' is not supported by the {shell.name} target"
  | unbalanced construct => s!"unbalanced {construct.text} in generated code"
  | valueCount name required got =>
      s!"expected {required} values from '{name}', got {got}"

end Shellwright
