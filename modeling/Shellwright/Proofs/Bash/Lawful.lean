/-
The bash dialect is lawful.  Its state says how deep the writer is nested; only
operations that open or close a construct change that.
-/
import Mathlib
import Shellwright.Proofs.Bash.Straight
import Shellwright.Proofs.Script.Lawful

namespace Shellwright

namespace Bash

variable {s : State} {command : Command}

open Script

/-- How many levels of indentation an open construct takes. -/
def levels : OpenConstruct → Nat
  | .post => 2
  | _ => 1

def depthOf (here : Progress) : Nat :=
  (here.constructs.map levels).sum + if here.function.isSome then 1 else 0

def loopsOf (here : Progress) : Nat :=
  (here.constructs.filter OpenConstruct.isLoop).length

@[simp] theorem depthOf_opened (here : Progress) (construct : OpenConstruct) :
    depthOf (here.opened construct) = depthOf here + levels construct := by
  unfold depthOf
  rw [Progress.opened, List.map_cons, List.sum_cons, Nat.add_assoc,
    Nat.add_comm]

@[simp] theorem loopsOf_opened (here : Progress) (construct : OpenConstruct) :
    loopsOf (here.opened construct) = loopsOf here + if construct.isLoop then 1
      else 0 := by
  cases construct <;> rfl

/-- The state fits the open constructs: every one is indented, and every loop
has a flag. -/
structure State.Nested (here : Progress) (s : State) : Prop where
  depth : s.depth = depthOf here
  flags : s.flags.length = loopsOf here
  inFunction : s.inFunction = here.function.isSome

namespace State.Nested

variable {here : Progress} {s s' : State} {construct : OpenConstruct}

theorem continues {scope : Scope} {mentions : List Mention} (h : s.Nested here)
    (hstep : s.Continues scope mentions s') : s'.Nested here :=
  ⟨hstep.depth.trans h.depth, by
    rw [hstep.flags, h.flags], hstep.inFunction.trans h.inFunction⟩

/-- An open construct that is no loop gives way to another one. -/
theorem exec_outdent (h : s.Nested (here.opened construct))
    (unbalanced : Construct) :
    exec (outdent unbalanced) s =
      (.ok (), { s with depth := depthOf here + (levels construct - 1) }) := by
  have hdepth : s.depth = depthOf here + (levels construct - 1) + 1 := by
    rw [h.depth, depthOf_opened]
    cases construct <;> simp [levels]
  unfold outdent
  rw [exec_get_bind, hdepth]
  rfl

end State.Nested

section Lines

variable {α : Type} {able : Prop} {mentions : List Mention} {p : Write State α}
  {Q : α → Prop}

theorem Does.keeps (h : ∀ scope, Does able scope mentions p Q) (hable : able) :
    Keeps State.Nested p Q := by
  intro here s hinv
  obtain ⟨a, s', hrun⟩ := (h ⟨s.inFunction, []⟩).succeeds hable s
  obtain ⟨hstep, ha⟩ := (h ⟨s.inFunction, []⟩).enters s a s' hrun
  exact ⟨a, s', hrun, ha, hinv.continues (hstep rfl)⟩

theorem sure_of_does (h : ∀ scope, Does able scope mentions p Q) (hable : able)
    {here : Progress} (hinv : s.Nested here) :
    (Course.sure false State.Nested).Meets none p s (fun _ _ => True) here :=
  (Does.keeps h hable).sure hinv

theorem emit_keeps : Keeps State.Nested (emit command) fun _ => True :=
  fun _ _ h => ⟨(), _, rfl, trivial, h.depth, h.flags, h.inFunction⟩

theorem pure_keeps {a : α} : Keeps State.Nested (pure a) fun _ => True :=
  Does.keeps (fun _ => .pure trivial) trivial

end Lines

section Moves

variable {here : Progress} {condition : String} {name : String}
  {seen : List Event} {known : List String}

theorem ifStart_moves : Moves State.Nested here (here.opened .branch)
    (ifStart condition) := by
  intro s h
  refine ⟨(), _, rfl, trivial, ?_, ?_, h.inFunction⟩
  · simp [h.depth, levels]
  · simpa [OpenConstruct.isLoop] using h.flags

theorem elseIfStart_moves :
    Moves State.Nested (here.opened .branch) (here.opened .branch)
      (elseIfStart condition) := by
  intro s h
  refine ⟨(), _, exec_bind_ok (h.exec_outdent .branch), trivial, ?_, ?_,
    h.inFunction⟩
  · simp [levels]
  · exact h.flags

theorem elseStart_moves :
    Moves State.Nested (here.opened .branch) (here.opened .alternative)
      elseStart := by
  intro s h
  refine ⟨(), _, exec_bind_ok (h.exec_outdent .branch), trivial, ?_, ?_,
    h.inFunction⟩
  · simp [levels]
  · exact h.flags

theorem ifEnd_moves {construct : OpenConstruct}
    (hconstruct : construct = .branch ∨ construct = .alternative) :
    Moves State.Nested (here.opened construct) here ifEnd := by
  intro s h
  refine ⟨(), _, exec_bind_ok (h.exec_outdent .branch), trivial, ?_, ?_,
    h.inFunction⟩
  · rcases hconstruct with rfl | rfl <;> simp [levels]
  · rcases hconstruct with rfl | rfl <;> simpa [OpenConstruct.isLoop]
      using h.flags

theorem loopStart_moves : Moves State.Nested here (here.opened .started)
    loopStart := by
  intro s h
  refine ⟨(), _, rfl, trivial, ?_, ?_, h.inFunction⟩
  · simp [h.depth, levels]
  · simp [h.flags, OpenConstruct.isLoop]

theorem postStart_moves :
    Moves State.Nested (here.opened .started) (here.opened .post)
      postStart := by
  intro s h
  have hflags : s.flags.length = loopsOf here + 1 := by
    simpa [OpenConstruct.isLoop] using h.flags
  obtain ⟨flag, flags, hcons⟩ := List.exists_cons_of_length_eq_add_one hflags
  unfold Meets postStart
  rw [exec_get_bind, hcons]
  refine ⟨(), _, rfl, trivial, ?_, ?_, h.inFunction⟩
  · simp [h.depth, levels]
  · simpa [OpenConstruct.isLoop] using hflags

theorem postEnd_moves : Moves State.Nested (here.opened .post)
    (here.opened .loop) postEnd := by
  intro s h
  refine ⟨(), _, exec_bind_ok (h.exec_outdent .loop), trivial, ?_, ?_,
    h.inFunction⟩
  · simp [levels]
  · simpa [OpenConstruct.isLoop] using h.flags

theorem loopEnd_moves : Moves State.Nested (here.opened .loop) here
    loopEnd := by
  rintro ⟨lines, depth, helpers, flags, loops, inFunction, needsListSet,
    needsCapture⟩ h
  have hflags : flags.length = loopsOf here + 1 := by
    simpa [OpenConstruct.isLoop] using h.flags
  obtain rfl : depth = depthOf here + 1 := by
    simpa [levels] using h.depth
  obtain ⟨flag, rest, rfl⟩ := List.exists_cons_of_length_eq_add_one hflags
  exact ⟨(), _, rfl, trivial, rfl, Nat.succ.inj hflags, h.inFunction⟩

/-- Inside a loop there is a flag. -/
theorem State.Nested.flags_ne_nil (h : s.Nested here) (hloop : here.InLoop) :
    s.flags.isEmpty = false := by
  obtain ⟨construct, hmem, hconstruct⟩ := hloop
  have hpositive : 0 < loopsOf here :=
    List.length_pos_of_mem (List.mem_filter.mpr ⟨hmem, hconstruct⟩)
  rw [← h.flags] at hpositive
  simpa using List.ne_nil_of_length_pos hpositive

theorem loopExit_moves {exit : LoopExit} (hloop : here.InLoop) :
    Moves State.Nested here here (loopExit exit command) := by
  intro s h
  unfold Meets loopExit
  rw [exec_get_bind, h.flags_ne_nil hloop]
  exact ⟨(), _, rfl, trivial, h.depth, h.flags, h.inFunction⟩

theorem functionStart_moves {params : List Binding} :
    Moves State.Nested ⟨none, [], known, seen⟩
      ⟨some name, [], name :: known, seen⟩ (functionStart name params) := by
  rintro ⟨lines, depth, helpers, flags, loops, inFunction, needsListSet,
    needsCapture⟩ h
  obtain rfl : depth = 0 := h.depth
  obtain rfl : inFunction = false := h.inFunction
  exact Does.keeps (fun _ => bindParameters_does) trivial
    _ _ ⟨rfl, h.flags, rfl⟩

theorem functionEnd_moves :
    Moves State.Nested ⟨some name, [], known, seen⟩
      ⟨none, [], known, seen⟩ functionEnd := by
  rintro ⟨lines, depth, helpers, flags, loops, inFunction, needsListSet,
    needsCapture⟩ h
  obtain rfl : depth = 1 := h.depth
  exact ⟨(), _, rfl, trivial, rfl, h.flags, rfl⟩

theorem programEnd_ok (h : s.Nested ⟨none, [], known, seen⟩) :
    ∃ script, exec programEnd s = (.ok script, s) := by
  have hdepth : s.depth = 0 := h.depth
  have hflags : s.flags = [] := List.length_eq_zero_iff.mp h.flags
  unfold programEnd
  rw [exec_get_bind, if_neg (by simp [hdepth, hflags])]
  exact ⟨_, rfl⟩

end Moves

theorem lawful : Lawful (Course.sure false State.Nested) where
  fresh := ⟨rfl, rfl, rfl⟩
  programStart := pure_keeps.sure
  boolLiteral := pure_keeps.sure
  intLiteral := pure_keeps.sure
  stringLiteral h := pure_keeps.sure ⟨h.depth, h.flags, h.inFunction⟩
  defineVariable _ _ := sure_of_does (fun _ => defineVariable_does) trivial
  assignVariable _ _ := sure_of_does (fun _ => assignVariable_does) trivial
  storeElement _ _ _ := sure_of_does (fun _ => storeElement_does) trivial
  readVariable _ := pure_keeps.sure
  readElement _ _ := pure_keeps.sure
  ifStart _ := ifStart_moves.sure
  elseIfStart _ := elseIfStart_moves.sure
  elseStart := elseStart_moves.sure
  ifEnd h := (ifEnd_moves h).sure
  loopStart := loopStart_moves.sure
  postStart := postStart_moves.sure
  postEnd := postEnd_moves.sure
  loopCondition _ := emit_keeps.sure
  loopEnd := loopEnd_moves.sure
  leaveLoop h := (loopExit_moves h).sure
  nextRound h := (loopExit_moves h).sure
  functionStart _ _ _ := functionStart_moves.sure
  functionEnd := functionEnd_moves.sure
  giveBack _ := sure_of_does (fun _ => giveBack_straight) trivial
  unary _ := sure_of_does
    (fun _ => unary_straight (Q := fun _ => True) trivial trivial) rfl
  binary h _ _ := sure_of_does (fun _ => binary_straight (Q := fun _ => True)
    (fun _ => trivial) fun _ => trivial) h
  compare h _ _ := sure_of_does (fun _ => compare_straight (Q := fun _ => True)
    (fun _ => trivial) (fun _ => trivial) fun _ => trivial) h
  logical _ _ := pure_keeps.sure
  print h _ := sure_of_does (fun _ => print_straight) h
  panic _ := sure_of_does (fun _ => panic_straight) trivial
  listLiteral _ := sure_of_does (fun _ => listLiteral_straight) trivial
  listLength _ := pure_keeps.sure
  substring _ _ _ := sure_of_does (fun _ => substring_straight) trivial
  stringLength _ := sure_of_does (fun _ => stringLength_straight) trivial
  group _ := pure_keeps.sure
  callFunction _ _ _ h := by
    show Course.Meets _ (refusal false _ _) _ _ _ _
    rw [refusal_lenient]
    exact Course.meets_sure
      (Does.keeps (fun _ => callFunction_straight) trivial _ _
        ⟨h.depth, h.flags, h.inFunction⟩)
      fun _ _ hresults => ⟨fun _ _ => trivial, fun _ hused =>
        hresults.length_eq.trans (congrArg List.length (if_pos hused))⟩
  runProcess hcount _ h := Course.meets_sure
    (Does.keeps (fun _ => runProcess_straight) trivial
      _ _ ⟨h.depth, h.flags, h.inFunction⟩)
    fun _ _ hvalues =>
      ⟨fun _ _ => trivial,
        fun _ => hvalues.length.trans (Nat.min_eq_left hcount)⟩
  inputLine _ h :=
    (sure_of_does (fun _ => inputLine_straight) trivial h).weaken
      fun _ _ _ _ => trivial
  copyList _ := sure_of_does (fun _ => copyList_straight) trivial
  fileExists _ := pure_keeps.sure
  fileContent _ := sure_of_does (fun _ => fileContent_straight) trivial
  writeFile _ _ := emit_keeps.sure
  intToString _ := pure_keeps.sure
  stringToInt _ := sure_of_does (fun _ => stringToInt_straight) trivial
  noOp := emit_keeps.sure
  nothing := trivial

end Bash

end Shellwright
