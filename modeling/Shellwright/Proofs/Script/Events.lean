/-
What a script writer meets on its way through a tree: string literals, calls,
pipelines whose output is captured and pipelines run as they stand.
-/
import Shellwright.Program

namespace Shellwright

/-- Something in a tree that a script depends on. -/
inductive Event where
  | literal (value : String)
  | call (name : String)
  /-- A pipeline whose results are used. -/
  | capture
  /-- A pipeline that is a statement of its own. -/
  | command
deriving DecidableEq, Repr

namespace Expr

mutual

/-- The events of an expression whose value is used. -/
def events : Expr → List Event
  | .bool _ _ | .int _ _ | .var _ _ => []
  | .string value _ => [.literal value]
  | .unary _ operand _ => operand.events
  | .binary _ left right _ | .compare _ left right _
  | .logical _ left right _ =>
      left.events ++ right.events
  | .listLiteral items _ => eventsOfAll items
  | .listElement list index _ => list.events ++ index.events
  | .listLength list _ => list.events
  | .substring value start stop _ =>
      value.events ++ start.events ++ eventsOfOption stop
  | .stringLength value _ => value.events
  | .group inner _ => inner.events
  | .call name args _ => eventsOfAll args ++ [.call name]
  | .process stages _ => eventsOfStages stages ++ [.capture]
  | .input prompt _ => eventsOfOption prompt
  | .copy list _ => list.events
  | .fileExists path _ | .fileContent path _ => path.events
  | .intToString value _ | .stringToInt value _ => value.events

def eventsOfAll : List Expr → List Event
  | [] => []
  | e :: rest => e.events ++ eventsOfAll rest

def eventsOfOption : Option Expr → List Event
  | none => []
  | some e => e.events

def eventsOfStages : List (String × List Expr) → List Event
  | [] => []
  | (_, args) :: rest => eventsOfAll args ++ eventsOfStages rest

end

end Expr

namespace Stmt

mutual

/-- The events of a statement, in the order they are written. -/
def events : Stmt → List Event
  | .define _ value _ => Expr.eventsOfOption value
  | .assign _ value => value.events
  | .store _ index value => index.events ++ value.events
  | .function _ _ _ body => eventsOfBlock body
  | .giveBack values => Expr.eventsOfAll values
  | .choose branches otherwise =>
      eventsOfConditions branches ++
        (eventsOfBodies branches ++ eventsOfFallback otherwise)
  | .loop init condition post body =>
      eventsOfPart init ++ (eventsOfPart post ++
        (Expr.eventsOfOption condition ++ eventsOfBlock body))
  | .leaveLoop | .nextRound | .noOp => []
  | .print value | .panic value => value.events
  | .writeFile path content _ => path.events ++ content.events
  | .action (.process stages _) => Expr.eventsOfStages stages ++ [.command]
  | .action value => value.events

def eventsOfBlock : List Stmt → List Event
  | [] => []
  | s :: rest => s.events ++ eventsOfBlock rest

def eventsOfPart : Option Stmt → List Event
  | none => []
  | some s => s.events

def eventsOfConditions : List (Expr × List Stmt) → List Event
  | [] => []
  | (condition, _) :: rest => condition.events ++ eventsOfConditions rest

def eventsOfBodies : List (Expr × List Stmt) → List Event
  | [] => []
  | (_, body) :: rest => eventsOfBlock body ++ eventsOfBodies rest

def eventsOfFallback : Option (List Stmt) → List Event
  | none => []
  | some body => eventsOfBlock body

end

mutual

/-- The functions a statement defines, at any depth and in source order, each
with its body. -/
def definitions : Stmt → List (String × List Stmt)
  | .function name _ _ body => (name, body) :: definitionsOfBlock body
  | .choose branches otherwise =>
      definitionsOfBodies branches ++ definitionsOfFallback otherwise
  | .loop init _ post body =>
      definitionsOfPart init ++
        (definitionsOfPart post ++ definitionsOfBlock body)
  | _ => []

def definitionsOfBlock : List Stmt → List (String × List Stmt)
  | [] => []
  | s :: rest => s.definitions ++ definitionsOfBlock rest

def definitionsOfPart : Option Stmt → List (String × List Stmt)
  | none => []
  | some s => s.definitions

def definitionsOfBodies : List (Expr × List Stmt) → List (String × List Stmt)
  | [] => []
  | (_, body) :: rest => definitionsOfBlock body ++ definitionsOfBodies rest

def definitionsOfFallback : Option (List Stmt) → List (String × List Stmt)
  | none => []
  | some body => definitionsOfBlock body

end

end Stmt

/-- All events of a program. -/
def Program.events (program : Program) : List Event :=
  Stmt.eventsOfBlock program.statements

/-- The functions of a program in source order. -/
def Program.definitions (program : Program) : List (String × List Stmt) :=
  Stmt.definitionsOfBlock program.statements

/-- Whether a function calls itself anywhere in its body. -/
def callsItself (definition : String × List Stmt) : Bool :=
  decide (Event.call definition.1 ∈ Stmt.eventsOfBlock definition.2)

end Shellwright
