/-
Histories of the control-flow graph.  Calls come in any order and go on after
one has failed; whatever a call has done before it fails stays done.
-/
import Shellwright.Proofs.Batch.Flow

namespace Shellwright

namespace Batch

open Script (exec)

/-- A call on the control-flow graph. -/
inductive GraphCall where
  | freshLabel (stem : String)
  | depth
  | openBranch (condition : String)
  | elseIf (condition : String)
  | elseBranch
  | closeBranch
  | openLoop
  | loopTest
  | leaveUnless (condition : String)
  | closeLoop
  | loopExit (exit : LoopExit)

/-- The call with the instructions it yields. -/
def GraphCall.perform : GraphCall → Write Graph (List Instruction)
  | freshLabel stem => do
      let _ ← Graph.freshLabel stem
      return []
  | depth => return []
  | openBranch condition => Graph.openBranch condition
  | elseIf condition => Graph.elseIf condition
  | elseBranch => Graph.elseBranch
  | closeBranch => Graph.closeBranch
  | openLoop => Graph.openLoop
  | loopTest => Graph.loopTest
  | leaveUnless condition => Graph.leaveUnless condition
  | closeLoop => Graph.closeLoop
  | loopExit exit => Graph.loopExit exit

/-- The stems of the labels a call makes, whether it fails or not. -/
def GraphCall.stems : GraphCall → List String
  | freshLabel stem => [stem]
  | openBranch _ => ["else", "endif"]
  | elseIf _ => ["else"]
  | openLoop => ["next", "cond", "done"]
  | _ => []

namespace Graph

def Allows (g : Graph) (call : GraphCall) : Prop :=
  ∃ instructions, (exec call.perform g).1 = .ok instructions

/-- The graph behind a call, whether it fails or not. -/
def after (g : Graph) (call : GraphCall) : Graph := (exec call.perform g).2

def run (g : Graph) (calls : List GraphCall) : Graph := calls.foldl after g

/-- What a call makes of the frames. -/
def framesAfter (g : Graph) : GraphCall → List Frame
  | .openBranch _ =>
      .branch (countedLabel "endif" (g.labels + 2))
        (some (countedLabel "else" (g.labels + 1))) :: g.frames
  | .openLoop =>
      .loop (countedLabel "next" (g.labels + 1))
        (countedLabel "cond" (g.labels + 2))
        (countedLabel "done" (g.labels + 3)) :: g.frames
  | .elseIf _ =>
      match g.frames with
      | .branch stop _ :: frames =>
          .branch stop (some (countedLabel "else" (g.labels + 1))) :: frames
      | frames => frames
  | .elseBranch =>
      match g.frames with
      | .branch stop _ :: frames => .branch stop none :: frames
      | frames => frames
  | .closeBranch | .closeLoop => g.frames.tail
  | .freshLabel _ | .depth | .loopTest | .leaveUnless _
  | .loopExit _ => g.frames

theorem after_eq (g : Graph) (call : GraphCall) :
    g.after call = ⟨g.framesAfter call, g.labels + call.stems.length⟩ := by
  cases call with
  | freshLabel | depth | openBranch | openLoop => rfl
  | loopExit exit =>
      unfold after GraphCall.perform
      cases hloop : innermostLoop? g.frames with
      | none => rw [exec_loopExit_outside hloop]; rfl
      | some exits => rw [exec_loopExit hloop]; rfl
  | elseIf | elseBranch | closeBranch | loopTest | leaveUnless | closeLoop =>
      obtain ⟨frames, labels⟩ := g
      rcases frames with _ | ⟨⟨_, _ | _⟩ | _, _⟩ <;> rfl

theorem frames_after (g : Graph) (call : GraphCall) :
    (g.after call).frames = g.framesAfter call :=
  congrArg frames (g.after_eq call)

/-- Whether the chain at depth `level` is over behind a call, which it was
before if `ended`: whoever goes on with it decides, by an `else` or by an `else
if`. -/
def isOver (level : Nat) (g : Graph) (ended : Bool) (call : GraphCall) : Bool :=
  if g.depth = level then
    match call with
    | .elseIf _ => false
    | .elseBranch => true
    | _ => ended
  else ended

/-- Whether the last call that went on with the chain at depth `level` was an
`else`; `ended` if there was none. -/
def endedByElse (level : Nat) (g : Graph) (ended : Bool) : List GraphCall → Bool
  | [] => ended
  | call :: calls =>
      endedByElse level (g.after call) (g.isOver level ended call) calls

variable {g : Graph} {above below : List Frame} {stop : String}
  {next : Option String}

/-- A call below which the chain stays open changes at most the label of its
next part. -/
theorem after_keeps_chain {ended : Bool} {call : GraphCall}
    (hframes : g.frames = above ++ .branch stop next :: below)
    (hended : next = none ↔ ended = true)
    (hopen : below.length < (g.after call).depth) :
    ∃ above' next', (g.after call).frames =
      above' ++ .branch stop next' :: below ∧
      (next' = none ↔ g.isOver (below.length + 1) ended call = true) := by
  rw [depth, frames_after] at hopen
  rw [frames_after]
  cases above with
  | nil =>
      have hhere : g.depth = below.length + 1 := by rw [depth, hframes]; rfl
      rw [List.nil_append] at hframes
      simp only [isOver, if_pos hhere]
      cases call with
      | openBranch | openLoop => exact ⟨[_], next, congrArg _ hframes, hended⟩
      | elseIf => exact ⟨[], some _, by rw [framesAfter, hframes]; rfl, by simp⟩
      | elseBranch =>
          exact ⟨[], none, by rw [framesAfter, hframes]; rfl, by simp⟩
      | closeBranch | closeLoop =>
          rw [framesAfter, hframes] at hopen
          exact absurd hopen (Nat.lt_irrefl _)
      | _ => exact ⟨[], next, hframes, hended⟩
  | cons top above =>
      have hbelow : g.depth ≠ below.length + 1 := by
        rw [depth, hframes, List.length_append, List.length_cons,
          List.length_cons]
        omega
      simp only [isOver, if_neg hbelow]
      cases call with
      | openBranch | openLoop =>
          exact ⟨_ :: top :: above, next, congrArg _ hframes, hended⟩
      | elseIf | elseBranch =>
          simp only [framesAfter, hframes, List.cons_append]
          cases top with
          | branch => exact ⟨_ :: above, next, rfl, hended⟩
          | loop => exact ⟨_ :: above, next, rfl, hended⟩
      | closeBranch | closeLoop =>
          exact ⟨above, next, by rw [framesAfter, hframes]; rfl, hended⟩
      | _ => exact ⟨top :: above, next, hframes, hended⟩

/-- A run below which the chain stays open. -/
theorem run_keeps_chain {ended : Bool} {calls : List GraphCall}
    (hframes : g.frames = above ++ .branch stop next :: below)
    (hended : next = none ↔ ended = true)
    (hopen : ∀ first, first <+: calls → below.length < (g.run first).depth) :
    ∃ above' next', (g.run calls).frames =
      above' ++ .branch stop next' :: below ∧
      (next' = none ↔ endedByElse (below.length + 1) g ended calls = true) := by
  induction calls generalizing g above next ended with
  | nil => exact ⟨above, next, hframes, hended⟩
  | cons call calls ih =>
      obtain ⟨above, next, hframes, hended⟩ :=
        after_keeps_chain hframes hended
          (hopen [call] (List.prefix_append [call] calls))
      exact ih hframes hended fun first hfirst =>
        hopen (call :: first) (List.cons_prefix_cons.mpr ⟨rfl, hfirst⟩)

theorem allows_iff (h : g.frames = .branch stop next :: below) :
    (g.Allows .elseBranch ↔ next ≠ none) ∧
      ∀ condition, g.Allows (.elseIf condition) ↔ next ≠ none := by
  obtain ⟨_, count⟩ := g
  obtain rfl := h
  cases next with
  | none => exact ⟨⟨by rintro ⟨_, ⟨⟩⟩, by simp⟩,
      fun _ => ⟨by rintro ⟨_, ⟨⟩⟩, by simp⟩⟩
  | some next => exact ⟨⟨by simp, fun _ => ⟨_, rfl⟩⟩,
      fun _ => ⟨by simp, fun _ => ⟨_, rfl⟩⟩⟩

theorem frames_of_allows_elseBranch (h : g.Allows .elseBranch) :
    ∃ stop below, (g.after .elseBranch).frames =
      .branch stop none :: below := by
  obtain ⟨frames, labels⟩ := g
  obtain ⟨instructions, hok⟩ := h
  rcases frames with _ | ⟨⟨stop, _ | _⟩ | _, below⟩
  case cons.branch.some => exact ⟨stop, below, rfl⟩
  all_goals cases hok

/-- Behind an `else` the chain has no label for a next part, as long as it is
open and no `else if` is tried on it: the last call that goes on with the chain
decides, even one that fails.  Without a label neither an `else` nor an `else
if` on the chain succeeds, and with one both do. -/
theorem chain_over_iff_last_else {before later : List GraphCall} {g : Graph}
    (helse : (empty.run before).Allows .elseBranch)
    (hafter : (empty.run before).after .elseBranch = g)
    (hopen : ∀ first, first <+: later → g.depth ≤ (g.run first).depth) :
    ∃ stop below above next,
      g.frames = .branch stop none :: below ∧
      (g.run later).frames = above ++ .branch stop next :: below ∧
      (next = none ↔ endedByElse g.depth g true later = true) ∧
      ((g.run later).depth = g.depth →
        ((g.run later).Allows .elseBranch ↔ next ≠ none) ∧
          ∀ condition, (g.run later).Allows (.elseIf condition) ↔
            next ≠ none) := by
  obtain ⟨stop, below, hframes⟩ := frames_of_allows_elseBranch helse
  rw [hafter] at hframes
  have hdepth : g.depth = below.length + 1 := by rw [depth, hframes]; rfl
  rw [hdepth] at hopen ⊢
  have hstart : g.frames = [] ++ .branch stop none :: below := hframes
  obtain ⟨above, next, hlater, hended⟩ :=
    run_keeps_chain hstart (iff_of_true rfl rfl) hopen
  refine ⟨stop, below, above, next, hframes, hlater, hended, fun hlevel => ?_⟩
  obtain rfl : above = [] := by
    simpa [depth, hlater] using hlevel
  exact allows_iff hlater

/-- An `else if` tried on a loop inside the chain fails without effect on the
chain. -/
theorem chain_over_iff_last_else_loop :
    ¬(empty.run [.openBranch "c", .elseBranch, .openLoop, .elseIf "d",
      .closeLoop]).Allows .elseBranch := by
  have hopen : ∀ first ∈ [.openLoop, .elseIf "d", .closeLoop].inits,
      (empty.run [.openBranch "c", .elseBranch]).depth ≤
        ((empty.run [.openBranch "c", .elseBranch]).run first).depth := by
    decide
  obtain ⟨_, _, _, next, _, _, hnext, hallows⟩ :=
    @chain_over_iff_last_else [.openBranch "c"]
      [.openLoop, .elseIf "d", .closeLoop] _ ⟨_, rfl⟩ rfl
      fun first hfirst => hopen first ((List.mem_inits _ _).mpr hfirst)
  have hnone : next = none := hnext.mpr (by decide)
  exact fun h => (hallows (by decide)).1.mp h hnone

/-- An `else if` tried behind the `else` fails, but gives the chain a label
again: a second `else` succeeds. -/
theorem second_else_after_failed_elseIf :
    (empty.run [.openBranch "c"]).Allows .elseBranch ∧
      ¬(empty.run [.openBranch "c", .elseBranch]).Allows (.elseIf "d") ∧
      (empty.run [.openBranch "c", .elseBranch, .elseIf "d"]).frames =
        [.branch "__sb_endif_2" (some "__sb_else_3")] ∧
      (empty.run [.openBranch "c", .elseBranch, .elseIf "d"]).Allows
        .elseBranch := by
  refine ⟨⟨_, rfl⟩, ?_, by decide, ⟨_, rfl⟩⟩
  rintro ⟨_, ⟨⟩⟩

end Graph

end Batch

end Shellwright
