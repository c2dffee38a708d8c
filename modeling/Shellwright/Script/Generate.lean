/-
Writing a typed program in a dialect: one pass over the tree in source order.
-/
import Shellwright.Script.Dialect

namespace Shellwright

namespace Script

variable {σ : Type} [Dialect σ]

open Dialect (noOp)

/-- What an error calls the expression that yields too few values. -/
def describe : Expr → String
  | .call name _ _ => name
  | .process stages _ =>
      String.intercalate " | " (stages.map fun stage => "@" ++ stage.1)
  | _ => "expression"

mutual

/-- The fragment of an expression's first value. -/
def evaluate : Expr → (used : Bool) → Write σ String
  | .bool value _, _ => Dialect.boolLiteral value
  | .int value _, _ => Dialect.intLiteral value
  | .string value _, _ => Dialect.stringLiteral value
  | .unary op operand _, used => do
      let value ← evaluate operand true
      Dialect.unary op value operand.ty used
  | .binary op left right _, used => do
      let l ← evaluate left true
      let r ← evaluate right true
      Dialect.binary op l r left.ty used
  | .compare op left right _, used => do
      let l ← evaluate left true
      let r ← evaluate right true
      Dialect.compare op l r left.ty used
  | .logical op left right _, used => do
      let l ← evaluate left true
      let r ← evaluate right true
      Dialect.logical op l r used
  | .var name types, _ => Dialect.readVariable name (types.headD .void)
  | .listLiteral items types, used => do
      let values ← evaluateAll items
      Dialect.listLiteral (types.headD .void).element values used
  | .listElement list index types, _ => do
      let l ← evaluate list true
      let i ← evaluate index true
      Dialect.readElement l (types.headD .void) i
  | .listLength list _, used => do
      let l ← evaluate list true
      Dialect.listLength l used
  | .substring value start stop _, used => do
      let v ← evaluate value true
      let s ← evaluate start true
      let e ← evaluateOption stop
      Dialect.substring v s e used
  | .stringLength value _, used => do
      let v ← evaluate value true
      Dialect.stringLength v used
  | .group inner types, used => do
      let v ← evaluate inner used
      Dialect.group v (types.headD .void)
  | .call name args types, used => do
      let values ← evaluateAll args
      let results ←
        Dialect.callFunction name (values.zip (args.map Expr.ty)) types used
      if used then
        match results with
        | result :: _ => return result
        | [] => throw (.valueCount name 1 0)
      else
        return ""
  | .process stages _, used => do
      let invocations ← evaluateStages stages
      let results ← Dialect.runProcess invocations (if used then 1 else 0)
      return results.headD ""
  | .input prompt _, used => do
      let p ← evaluateOption prompt
      Dialect.inputLine p used
  | .copy list types, used => do
      let l ← evaluate list true
      Dialect.copyList l (types.headD .void).element used
  | .fileExists path _, used => do
      let p ← evaluate path true
      Dialect.fileExists p used
  | .fileContent path _, used => do
      let p ← evaluate path true
      Dialect.fileContent p used
  | .intToString value _, used => do
      let v ← evaluate value true
      Dialect.intToString v used
  | .stringToInt value _, used => do
      let v ← evaluate value true
      Dialect.stringToInt v used

def evaluateAll : List Expr → Write σ (List String)
  | [] => return []
  | e :: rest => do
      let value ← evaluate e true
      let values ← evaluateAll rest
      return value :: values

def evaluateOption : Option Expr → Write σ (Option String)
  | none => return none
  | some e => do
      let value ← evaluate e true
      return some value

def evaluateStages : List (String × List Expr) → Write σ (List Invocation)
  | [] => return []
  | (program, args) :: rest => do
      let values ← evaluateAll args
      let invocations ← evaluateStages rest
      return ⟨program, values⟩ :: invocations

end

/-- Fragments for the results of an expression.  Only a pipeline has to be told
how many of its results are wanted. -/
def evaluateResults (value : Expr) (count : Nat) : Write σ (List String) :=
  match value with
  | .call name args types => do
      let values ← evaluateAll args
      Dialect.callFunction name (values.zip (args.map Expr.ty)) types true
  | .process stages _ => do
      let invocations ← evaluateStages stages
      Dialect.runProcess invocations count
  | value => do
      let result ← evaluate value true
      return [result]

/-- Fragments for `count` targets of one value. -/
def evaluateMany (value : Expr) (count : Nat) : Write σ (List String) := do
  let results ← evaluateResults value count
  if results.length < count then
    throw (.valueCount (describe value) count results.length)
  return results

/-- Definitions of a value's parts; `_` stands for a part nobody wants. -/
def defineTargets (targets : List Binding) (values : List String) :
    Write σ Unit :=
  (targets.zip values).forM fun (target, value) =>
    if target.name = "_" then return
    else Dialect.defineVariable target.name target.ty (some value)

def assignTargets (targets : List Binding) (values : List String) :
    Write σ Unit :=
  (targets.zip values).forM fun (target, value) =>
    if target.name = "_" then return
    else Dialect.assignVariable target.name target.ty value

/-- The first value of each expression, with its type. -/
def typedValues (values : List Expr) : Write σ (List (String × ValueType)) := do
  let results ← evaluateAll values
  return results.zip (values.map Expr.ty)

/-- The fragments a `return` hands back, with their types.  A single call hands
back all its results. -/
def returnedValues : List Expr → Write σ (List (String × ValueType))
  | [value] =>
      if value.types.length > 1 && !value.isProcess then do
        let results ← evaluateMany value value.types.length
        return results.zip value.types
      else typedValues [value]
  | values => typedValues values

/-- The conditions of an if chain.  All of them are evaluated before the first
branch is entered. -/
def conditions : List (Expr × List Stmt) → Write σ (List String)
  | [] => return []
  | (condition, _) :: rest => do
      let value ← evaluate condition true
      let values ← conditions rest
      return value :: values

mutual

def statement : Stmt → Write σ Unit
  | .define targets none _ =>
      targets.forM fun target =>
        Dialect.defineVariable target.name target.ty none
  | .define targets (some value) _ => do
      let values ← evaluateMany value targets.length
      defineTargets targets values
  | .assign targets value => do
      let values ← evaluateMany value targets.length
      assignTargets targets values
  | .store target index value => do
      let i ← evaluate index true
      let v ← evaluate value true
      Dialect.storeElement target.name target.ty.element i v
  | .function name params returns body => do
      Dialect.functionStart name params returns
      block body
      Dialect.functionEnd
  | .giveBack values => do
      let results ← returnedValues values
      Dialect.giveBack results
  | .choose branches otherwise => do
      let tests ← conditions branches
      guarded true branches tests
      fallback otherwise
      Dialect.ifEnd
  | .loop init condition post body => do
      optional init
      Dialect.loopStart
      Dialect.postStart
      match post with
      | some post => statement post
      | none => noOp
      Dialect.postEnd
      match condition with
      | some condition =>
          let test ← evaluate condition true
          Dialect.loopCondition test
      | none => pure ()
      block body
      Dialect.loopEnd
  | .leaveLoop => Dialect.leaveLoop
  | .nextRound => Dialect.nextRound
  | .print value => do
      let v ← evaluate value true
      Dialect.print v value.ty
  | .panic message => do
      let m ← evaluate message true
      Dialect.panic m
  | .writeFile path content append => do
      let p ← evaluate path true
      let c ← evaluate content true
      Dialect.writeFile p c append
  | .action (.process stages _) => do
      let invocations ← evaluateStages stages
      let _ ← Dialect.runProcess invocations 0
  | .action value => do
      let _ ← evaluate value false
  | .noOp => noOp

def optional : Option Stmt → Write σ Unit
  | none => return
  | some s => statement s

def statements : List Stmt → Write σ Unit
  | [] => return
  | s :: rest => do
      statement s
      statements rest

/-- A block holds at least one line. -/
def block : List Stmt → Write σ Unit
  | [] => noOp
  | s :: rest => do
      statement s
      statements rest

/-- The branches of an if chain with the fragments of their conditions. -/
def guarded (first : Bool) : List (Expr × List Stmt) → List String →
    Write σ Unit
  | (_, body) :: branches, test :: tests => do
      if first then
        Dialect.ifStart test
      else
        Dialect.elseIfStart test
      block body
      guarded false branches tests
  | _, _ => return

def fallback : Option (List Stmt) → Write σ Unit
  | none => return
  | some body => do
      Dialect.elseStart
      block body

end

/-- The script of a program. -/
def generate (program : Program) : Write σ String := do
  Dialect.programStart
  block program.statements
  Dialect.programEnd

end Script

end Shellwright
