/-
Steps of the control-flow graph, and the lines they write.
-/
import Shellwright.Proofs.Batch.Labels
import Shellwright.Proofs.Script.Run

namespace Shellwright

namespace Batch

variable {step : Write Graph (List Instruction)}

open Script (exec)

def Instruction.label? : Instruction → Option String
  | .label name => some name
  | _ => none

def Instruction.target? : Instruction → Option String
  | .label _ => none
  | .jump target | .jumpUnless _ target => some target

/-- The state after a step of the control-flow graph. -/
def State.flowed (s : State) (graph : Graph)
    (instructions : List Instruction) : State :=
  { s with graph, lines := s.lines ++ (instructions.map Command.flow).toArray }

theorem exec_emitAll (instructions : List Instruction) (s : State) :
    exec (emitAll instructions) s =
      (.ok (), { s with lines :=
        s.lines ++ (instructions.map Command.flow).toArray }) := by
  induction instructions generalizing s with
  | nil => simp [emitAll]
  | cons instruction instructions ih =>
      have hfirst : exec (emit (.flow instruction)) s =
          (.ok (), { s with lines := s.lines.push (.flow instruction) }) := rfl
      have hall : emitAll (instruction :: instructions) =
          (emit (.flow instruction) >>= fun _ => emitAll instructions) := rfl
      rw [hall, Script.exec_bind_ok hfirst, ih]
      simp

theorem exec_emitFlow {s : State} {graph : Graph}
    {instructions : List Instruction}
    (h : exec step s.graph = (.ok instructions, graph)) :
    exec (emitFlow step) s = (.ok (), s.flowed graph instructions) := by
  have hgraph : exec (onGraph step) s =
      (.ok instructions, { s with graph }) := by
    unfold onGraph
    rw [Script.exec_get_bind]
    unfold exec at h
    rw [h]
    rfl
  unfold emitFlow
  rw [Script.exec_bind_ok hgraph, exec_emitAll]
  rfl

theorem exec_emitFlow_error {s : State} {graph : Graph} {error : ScriptError}
    (h : exec step s.graph = (.error error, graph)) :
    exec (emitFlow step) s = (.error error, { s with graph }) := by
  have hgraph : exec (onGraph step) s = (.error error, { s with graph }) := by
    unfold onGraph
    rw [Script.exec_get_bind]
    unfold exec at h
    rw [h]
    rfl
  unfold emitFlow
  rw [Script.exec_bind_error hgraph]

/-! What each step yields. -/

section Steps

variable {g : Graph} {frames : List Frame} {stop next test condition : String}

theorem exec_openBranch :
    exec (Graph.openBranch condition) g =
      (.ok [.jumpUnless condition (countedLabel "else" (g.labels + 1))],
        ⟨.branch (countedLabel "endif" (g.labels + 2))
          (some (countedLabel "else" (g.labels + 1))) ::
          g.frames, g.labels + 2⟩) :=
  rfl

theorem exec_elseIf (h : g.frames = .branch stop (some next) :: frames) :
    exec (Graph.elseIf condition) g =
      (.ok [.jump stop, .label next, .jumpUnless condition
        (countedLabel "else" (g.labels + 1))],
        ⟨.branch stop (some (countedLabel "else" (g.labels + 1))) :: frames,
          g.labels + 1⟩) := by
  obtain ⟨_, count⟩ := g
  obtain rfl := h
  rfl

theorem exec_elseBranch (h : g.frames = .branch stop (some next) :: frames) :
    exec Graph.elseBranch g =
      (.ok [.jump stop, .label next],
        ⟨.branch stop none :: frames, g.labels⟩) := by
  obtain ⟨_, count⟩ := g
  obtain rfl := h
  rfl

theorem exec_closeBranch {next : Option String}
    (h : g.frames = .branch stop next :: frames) :
    exec Graph.closeBranch g =
      (.ok ((next.toList ++ [stop]).map .label), ⟨frames, g.labels⟩) := by
  obtain ⟨_, count⟩ := g
  obtain rfl := h
  rfl

theorem exec_openLoop :
    exec Graph.openLoop g =
      (.ok [.jump (countedLabel "cond" (g.labels + 2)),
        .label (countedLabel "next" (g.labels + 1))],
        ⟨.loop (countedLabel "next" (g.labels + 1))
          (countedLabel "cond" (g.labels + 2))
          (countedLabel "done" (g.labels + 3)) :: g.frames, g.labels + 3⟩) :=
  rfl

theorem exec_loopTest (h : g.frames = .loop next test stop :: frames) :
    exec Graph.loopTest g = (.ok [.label test], g) := by
  obtain ⟨_, count⟩ := g
  obtain rfl := h
  rfl

theorem exec_leaveUnless (h : g.frames = .loop next test stop :: frames) :
    exec (Graph.leaveUnless condition) g =
      (.ok [.jumpUnless condition stop], g) := by
  obtain ⟨_, count⟩ := g
  obtain rfl := h
  rfl

theorem exec_closeLoop (h : g.frames = .loop next test stop :: frames) :
    exec Graph.closeLoop g = (.ok [.jump next, .label stop],
      ⟨frames, g.labels⟩) := by
  obtain ⟨_, count⟩ := g
  obtain rfl := h
  rfl

theorem exec_loopExit (h : Graph.innermostLoop? g.frames = some (next, stop))
    (exit : LoopExit) :
    exec (Graph.loopExit exit) g =
      (.ok [.jump (match exit with | .leave => stop | .next => next)], g) := by
  unfold Graph.loopExit
  rw [Script.exec_get_bind, h]
  cases exit <;> rfl

theorem exec_loopExit_outside (h : Graph.innermostLoop? g.frames = none)
    (exit : LoopExit) :
    exec (Graph.loopExit exit) g = (.error (.outsideLoop exit), g) := by
  unfold Graph.loopExit
  rw [Script.exec_get_bind, h]
  cases exit <;> rfl

end Steps

end Batch

end Shellwright
