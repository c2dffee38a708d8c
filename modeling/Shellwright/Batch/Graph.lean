/-
Labels and jumps for a language without structured control flow.

Every open if chain or loop is a frame that holds the labels of its parts.
Opening, continuing and closing a construct yields the instructions that have
to be written at that point.
-/
import Shellwright.Script.Dialect

namespace Shellwright

namespace Batch

inductive Instruction where
  | label (name : String)
  | jump (target : String)
  /-- Jumps unless the condition is `1`. -/
  | jumpUnless (condition target : String)
deriving DecidableEq, Repr

/-- An open construct.  In a branch `next` is where the following `else` part
starts; it is gone once the final `else` has been entered.  In a loop `next`
runs the post statement and `test` the condition. -/
inductive Frame where
  | branch (stop : String) (next : Option String)
  | loop (next test stop : String)
deriving DecidableEq, Repr

/-- The open constructs, the innermost first, and how many labels were made. -/
structure Graph where
  frames : List Frame
  labels : Nat
deriving DecidableEq, Repr

namespace Graph

def empty : Graph := ⟨[], 0⟩

def depth (g : Graph) : Nat := g.frames.length

/-- A label that has not been used before. -/
def freshLabel (stem : String) : Write Graph String := do
  let g ← get
  set { g with labels := g.labels + 1 }
  return "__sb_" ++ stem ++ "_" ++ toString (g.labels + 1)

def pushFrame (frame : Frame) : Write Graph Unit :=
  modify fun g => { g with frames := frame :: g.frames }

/-- Replaces the innermost frame. -/
def replaceFrame (frame : Frame) : Write Graph Unit :=
  modify fun g => { g with frames := frame :: g.frames.tail }

/-- Takes the innermost frame off. -/
def popFrame : Write Graph (Option Frame) := do
  let g ← get
  set { g with frames := g.frames.tail }
  return g.frames.head?

def innermost : Write Graph (Option Frame) := return (← get).frames.head?

def openBranch (condition : String) : Write Graph (List Instruction) := do
  let next ← freshLabel "else"
  let stop ← freshLabel "endif"
  pushFrame (.branch stop (some next))
  return [.jumpUnless condition next]

/-- The new label is handed to the frame even when the chain has had its
`else`; the step fails all the same. -/
def elseIf (condition : String) : Write Graph (List Instruction) := do
  let next ← freshLabel "else"
  match ← innermost with
  | some (.branch stop previous) =>
      replaceFrame (.branch stop (some next))
      match previous with
      | some previous =>
          return [.jump stop, .label previous, .jumpUnless condition next]
      | none => throw (.unbalanced .elseIfAfterElse)
  | _ => throw (.unbalanced .branch)

def elseBranch : Write Graph (List Instruction) := do
  match ← innermost with
  | some (.branch stop (some previous)) =>
      replaceFrame (.branch stop none)
      return [.jump stop, .label previous]
  | some (.branch _ none) => throw (.unbalanced .elseAfterElse)
  | _ => throw (.unbalanced .branch)

def closeBranch : Write Graph (List Instruction) := do
  match ← popFrame with
  | some (.branch stop next) => return (next.toList ++ [stop]).map .label
  | _ => throw (.unbalanced .branch)

/-- The first round goes straight to the condition. -/
def openLoop : Write Graph (List Instruction) := do
  let next ← freshLabel "next"
  let test ← freshLabel "cond"
  let stop ← freshLabel "done"
  pushFrame (.loop next test stop)
  return [.jump test, .label next]

def loopTest : Write Graph (List Instruction) := do
  match ← innermost with
  | some (.loop _ test _) => return [.label test]
  | _ => throw (.unbalanced .loop)

def leaveUnless (condition : String) : Write Graph (List Instruction) := do
  match ← innermost with
  | some (.loop _ _ stop) => return [.jumpUnless condition stop]
  | _ => throw (.unbalanced .loop)

def closeLoop : Write Graph (List Instruction) := do
  match ← popFrame with
  | some (.loop next _ stop) => return [.jump next, .label stop]
  | _ => throw (.unbalanced .loop)

/-- The start of the next round and the end of the innermost loop among
`frames`. -/
def innermostLoop? : List Frame → Option (String × String)
  | [] => none
  | .loop next _ stop :: _ => some (next, stop)
  | .branch _ _ :: frames => innermostLoop? frames

/-- The jump `break` or `continue` stands for. -/
def loopExit (exit : LoopExit) : Write Graph (List Instruction) := do
  match innermostLoop? (← get).frames, exit with
  | some (_, stop), .leave => return [.jump stop]
  | some (next, _), .next => return [.jump next]
  | none, exit => throw (.outsideLoop exit)

end Graph

end Batch

end Shellwright
