/-
The operations every script dialect offers.

An operation that yields a value returns a *fragment*: text of the target
language that stands for the value wherever it is pasted.  Operations may write
lines of their own first; these come before whatever uses the fragment.  Lists
are passed on as the name of the variable that holds them.
-/
import Shellwright.Program
import Shellwright.Script.Error

namespace Shellwright

/-- Script writing over a dialect's state.  What an operation has done before
it fails stays done. -/
abbrev Write (σ : Type) := ExceptT ScriptError (StateM σ)

/-- One stage of a pipeline with its arguments as fragments. -/
structure Invocation where
  program : String
  args : List String
deriving DecidableEq, Repr

/-- The operation set of a dialect with state `σ`.  The flag `used` says
whether somebody will read the result, so that a dialect can do without a
place for it. -/
class Dialect (σ : Type) where
  /-- The state before anything is written. -/
  fresh : σ
  programStart : Write σ Unit
  /-- Ends the program and returns the whole script. -/
  programEnd : Write σ String
  boolLiteral (value : Bool) : Write σ String
  intLiteral (value : Int) : Write σ String
  stringLiteral (value : String) : Write σ String
  /-- Without a value the variable starts at the default of its type. -/
  defineVariable (name : String) (ty : ValueType) (value : Option String) :
    Write σ Unit
  assignVariable (name : String) (ty : ValueType) (value : String) :
    Write σ Unit
  /-- Stores into a list, which grows when the index lies behind its end. -/
  storeElement (name : String) (element : ValueType) (index value : String) :
    Write σ Unit
  readVariable (name : String) (ty : ValueType) : Write σ String
  readElement (list : String) (element : ValueType) (index : String) :
    Write σ String
  ifStart (condition : String) : Write σ Unit
  elseIfStart (condition : String) : Write σ Unit
  elseStart : Write σ Unit
  ifEnd : Write σ Unit
  /-- A loop is written as its start, the statement run after each round between
  the two post operations, the condition, the body and its end. -/
  loopStart : Write σ Unit
  postStart : Write σ Unit
  postEnd : Write σ Unit
  loopCondition (condition : String) : Write σ Unit
  loopEnd : Write σ Unit
  leaveLoop : Write σ Unit
  nextRound : Write σ Unit
  functionStart (name : String) (params : List Binding)
    (returns : List ValueType) : Write σ Unit
  functionEnd : Write σ Unit
  giveBack (values : List (String × ValueType)) : Write σ Unit
  unary (op : UnaryOp) (operand : String) (ty : ValueType) (used : Bool) :
    Write σ String
  binary (op : BinaryOp) (left right : String) (ty : ValueType) (used : Bool) :
    Write σ String
  compare (op : CompareOp) (left right : String) (ty : ValueType)
    (used : Bool) : Write σ String
  logical (op : LogicalOp) (left right : String) (used : Bool) : Write σ String
  print (value : String) (ty : ValueType) : Write σ Unit
  panic (message : String) : Write σ Unit
  listLiteral (element : ValueType) (values : List String) (used : Bool) :
    Write σ String
  listLength (list : String) (used : Bool) : Write σ String
  /-- Without `stop` the single character at `start`. -/
  substring (value start : String) (stop : Option String) (used : Bool) :
    Write σ String
  stringLength (value : String) (used : Bool) : Write σ String
  group (inner : String) (ty : ValueType) : Write σ String
  /-- One fragment for each result when they are used. -/
  callFunction (name : String) (args : List (String × ValueType))
    (returns : List ValueType) (used : Bool) : Write σ (List String)
  /-- Runs a pipeline and captures the first `results` of its output, its error
  output and its exit code. -/
  runProcess (stages : List Invocation) (results : Nat) : Write σ (List String)
  inputLine (prompt : Option String) (used : Bool) : Write σ String
  copyList (list : String) (element : ValueType) (used : Bool) : Write σ String
  fileExists (path : String) (used : Bool) : Write σ String
  fileContent (path : String) (used : Bool) : Write σ String
  writeFile (path content : String) (append : Bool) : Write σ Unit
  intToString (value : String) (used : Bool) : Write σ String
  stringToInt (value : String) (used : Bool) : Write σ String
  noOp : Write σ Unit

end Shellwright
