/-
The names known at one point of a program.  A function body works on a copy of
the variables that is dropped at its end; every other block writes into the
variables around it.
-/
import Shellwright.ValueType

namespace Shellwright

/-- What kind of block encloses a statement. -/
inductive BlockKind where
  | program
  | function
  | branch
  | loop
  | switch
deriving DecidableEq, Repr

structure Variable where
  ty : ValueType
  constant : Bool
deriving DecidableEq, Repr

structure Signature where
  params : List ValueType
  returns : List ValueType
deriving DecidableEq, Repr

abbrev VariableTable := List (String × Variable)

/-- A name that is taken. -/
inductive Redeclaration where
  | variableTaken (name : String)
  | functionTaken (name : String)
deriving DecidableEq, Repr

def Redeclaration.message : Redeclaration → String
  | variableTaken name => "variable '" ++ name ++ "' is already declared"
  | functionTaken name => "function '" ++ name ++ "' is already declared"

/-- The names in use.  `blocks` lists the open blocks from the inside out,
`saved` the variable tables set aside by open functions, and `returns` what the
enclosing function has to return. -/
structure Scope where
  blocks : List BlockKind
  vars : VariableTable
  saved : List VariableTable
  functions : List (String × Signature)
  returns : Option (List ValueType)
deriving DecidableEq, Repr

namespace Scope

def initial : Scope := ⟨[.program], [], [], [], none⟩

def push (kind : BlockKind) (scope : Scope) : Scope :=
  { scope with blocks := kind :: scope.blocks }

/-- Leaves the innermost block; the outermost one stays. -/
def pop (scope : Scope) : Scope :=
  match scope.blocks with
  | _ :: outer :: rest => { scope with blocks := outer :: rest }
  | _ => scope

def current (scope : Scope) : BlockKind := scope.blocks.headD .program

def enterFunction (returns : List ValueType) (scope : Scope) : Scope :=
  { scope.push .function with
    saved := scope.vars :: scope.saved, returns := some returns }

def exitFunction (scope : Scope) : Scope :=
  let scope := scope.pop
  match scope.saved with
  | [] => { scope with returns := none }
  | vars :: saved => { scope with vars, saved, returns := none }

/-- A loop is left from its own body only: inside a switch `break` has no
loop to bind to. -/
def canBreak (scope : Scope) : Bool :=
  scope.blocks.find? (fun kind => kind == .loop || kind == .switch) ==
    some .loop

def canContinue (scope : Scope) : Bool := scope.blocks.contains .loop

def lookupVariable? (scope : Scope) (name : String) : Option Variable :=
  scope.vars.lookup name

def lookupFunction? (scope : Scope) (name : String) : Option Signature :=
  scope.functions.lookup name

def declareVariable (name : String) (var : Variable) (scope : Scope) :
    Except Redeclaration Scope :=
  if (scope.lookupVariable? name).isSome then .error (.variableTaken name)
  else .ok { scope with vars := (name, var) :: scope.vars }

def declareFunction (name : String) (signature : Signature) (scope : Scope) :
    Except Redeclaration Scope :=
  if (scope.lookupFunction? name).isSome then .error (.functionTaken name)
  else .ok { scope with functions := (name, signature) :: scope.functions }

def removeVariable (name : String) (scope : Scope) : Scope :=
  { scope with vars := scope.vars.filter (fun entry => entry.1 != name) }

def variableNames (scope : Scope) : List String := scope.vars.map Prod.fst

def functionNames (scope : Scope) : List String := scope.functions.map Prod.fst

end Scope

end Shellwright
