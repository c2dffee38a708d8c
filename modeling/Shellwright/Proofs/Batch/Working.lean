/-
Inside an operation of the batch dialect.  The lines it has written since it
started are clean, and the fragments it has at hand read only helpers that were
finished before it started or that it has finished itself.
-/
import Shellwright.Proofs.Batch.Graph
import Shellwright.Proofs.Batch.Sound
import Shellwright.Proofs.Batch.Text
import Shellwright.Proofs.Fragment.Contract

namespace Shellwright

namespace Batch

open Script (Contract Operation exec)

/-- Every label of an open construct is plain. -/
def Graph.IsPlain (g : Graph) : Prop :=
  ∀ frame ∈ g.frames, ∀ label ∈ frame.labels, IsPlainLabel label

namespace State

variable {operation : Operation}

/-- The lines written since `start`. -/
def since (start s : State) : List Command :=
  s.lines.toList.drop start.lines.size

/-- The helper has been made since `start`. -/
def Allocated (start s : State) (number : Nat) : Prop :=
  start.helpers < number ∧ number ≤ s.helpers

/-- The helper was finished before, or it has been made and defined since
`start`. -/
def Finished (known : Nat → Bool → Prop) (start s : State) (number : Nat)
    (isList : Bool) : Prop :=
  known number isList ∨
    Allocated start s number ∧ ∃ command ∈ since start s,
      command.Defines (helperName number) isList

/-- Lines have been added, and perhaps helpers. -/
structure Grows (s s' : State) : Prop where
  lines : s.lines.toList <+: s'.lines.toList
  helpers : s.helpers ≤ s'.helpers

/-- The operation that started in `start` has come to `s`. -/
structure Working (operation : Operation) (start s : State) : Prop where
  grown : start.Grows s
  clean : ∀ command ∈ since start s, command.IsClean operation
    (Allocated start s)
  labels : s.graph.IsPlain

variable {start s s' : State} {number : Nat}

theorem Grows.refl (s : State) : s.Grows s := ⟨List.prefix_rfl, Nat.le_refl _⟩

theorem Grows.trans {mid : State} (h : s.Grows mid) (h' : mid.Grows s') :
    s.Grows s' :=
  ⟨h.lines.trans h'.lines, h.helpers.trans h'.helpers⟩

theorem Grows.since_subset (h : s.Grows s') : since start s ⊆ since start s' :=
  (h.lines.drop _).subset

theorem Allocated.mono (hgrows : s.Grows s') (h : Allocated start s number) :
    Allocated start s' number :=
  ⟨h.1, h.2.trans hgrows.helpers⟩

theorem Finished.mono {known : Nat → Bool → Prop} {isList : Bool}
    (hgrows : s.Grows s') (h : Finished known start s number isList) :
    Finished known start s' number isList := by
  rcases h with hknown | ⟨hmade, command, hcommand, hdefines⟩
  · exact .inl hknown
  · exact .inr ⟨hmade.mono hgrows, command, hgrows.since_subset hcommand,
      hdefines⟩

@[simp] theorem since_self (s : State) : since s s = [] := by
  simp [since]

theorem Working.refl (h : s.graph.IsPlain) : Working operation s s :=
  ⟨.refl s, by simp, h⟩

/-- Nothing has been written and no helper made. -/
theorem Working.same (h : Working operation start s)
    (hlines : s'.lines = s.lines) (hhelpers : s'.helpers = s.helpers)
    (hlabels : s'.graph.IsPlain) : Working operation start s' where
  grown := ⟨hlines ▸ h.grown.lines, hhelpers ▸ h.grown.helpers⟩
  clean := by
    unfold since Allocated
    rw [hlines, hhelpers]
    exact h.clean
  labels := hlabels

end State

open State

/-- What holds while an operation works: `known` are the helpers that were
finished before it started. -/
def inOperation (operation : Operation) (known : Nat → Bool → Prop)
    (start : State) : Contract State where
  holds := Working operation start
  grows := Grows
  fragment s := IsFragment (Finished known start s)
  refl := .refl
  trans := .trans
  mono hgrows h := h.mono fun _ _ => Finished.mono hgrows

section Steps

variable {operation : Operation} {known : Nat → Bool → Prop}
  {start s s' : State} {name : String} {command : Command}

/-! Elementary steps. -/

/-- A change of the state that writes nothing. -/
theorem set_working {new : State} (hs : Working operation start s)
    (hlines : new.lines = s.lines) (hhelpers : new.helpers = s.helpers)
    (hgraph : new.graph = s.graph) :
    (inOperation operation known start).Ensures s
    (set new) fun _ _ => True where
  holds := hs.same hlines hhelpers (hgraph ▸ hs.labels)
  grows := ⟨by simp [hlines], by simp [hhelpers]⟩
  yields _ _ := trivial

theorem modify_working {change : State → State} (hs : Working operation start s)
    (hlines : (change s).lines = s.lines)
    (hhelpers : (change s).helpers = s.helpers)
    (hgraph : (change s).graph = s.graph) :
    (inOperation operation known start).Ensures s
    (modify change) fun _ _ => True where
  holds := hs.same hlines hhelpers (hgraph ▸ hs.labels)
  grows := ⟨by simp [hlines], by simp [hhelpers]⟩
  yields _ _ := trivial

theorem emit_working (hs : Working operation start s)
    (hclean : command.IsClean operation (Allocated start s)) :
    (inOperation operation known start).Ensures s (emit command) fun _ s' =>
      command ∈ since start s' := by
  have hsince : since start { s with lines := s.lines.push command } =
      since start s ++ [command] := by
    unfold since
    rw [Array.toList_push, List.drop_append_of_le_length]
    simpa using hs.grown.lines.length_le
  have hgrows : s.Grows { s with lines := s.lines.push command } :=
    ⟨by simp, Nat.le_refl _⟩
  refine ⟨⟨hs.grown.trans hgrows, ?_, hs.labels⟩, hgrows, fun _ _ => ?_⟩
  · show ∀ other ∈ since start { s with lines := s.lines.push command }, _
    rw [hsince]
    exact List.forall_mem_append.mpr ⟨hs.clean,
      List.forall_mem_singleton.mpr hclean⟩
  · show command ∈ since start { s with lines := s.lines.push command }
    rw [hsince]
    exact List.mem_append_right _ (List.mem_singleton_self _)

/-- A line of which nothing more has to be known. -/
theorem emit_keeps (hclean : command.IsClean operation (Allocated start s)) :
    (inOperation operation known start).Keeps s (emit command) := fun hs =>
  (emit_working hs hclean).weaken fun _ _ _ _ => trivial

/-- The name of a helper the operation has made. -/
def IsHelper (start s : State) (name : String) : Prop :=
  ∃ number, Allocated start s number ∧ name = helperName number

theorem IsHelper.mono (hgrows : s.Grows s') (h : IsHelper start s name) :
    IsHelper start s' name := by
  obtain ⟨number, hmade, hname⟩ := h
  exact ⟨number, hmade.mono hgrows, hname⟩

theorem IsHelper.isStorage (h : IsHelper start s name) :
    IsStorage (Allocated start s) name := by
  obtain ⟨number, hmade, rfl⟩ := h
  exact .helper hmade

theorem IsHelper.isTarget (h : IsHelper start s name) :
    IsTarget (Allocated start s) name :=
  ⟨name, false, h.isStorage, .scalar⟩

theorem helper_working (hs : Working operation start s) :
    (inOperation operation known start).Ensures s helper
      fun name s' => IsHelper start s' name := by
  have hgrows : s.Grows { s with helpers := s.helpers + 1 } :=
    ⟨List.prefix_rfl, Nat.le_succ _⟩
  refine ⟨⟨hs.grown.trans hgrows, ?_, hs.labels⟩, hgrows, ?_⟩
  · exact fun command hcommand => (hs.clean command hcommand).mono
      fun _ => Allocated.mono hgrows
  · rintro name ⟨⟩
    exact ⟨s.helpers + 1, ⟨Nat.lt_succ_of_le hs.grown.helpers, Nat.le_refl _⟩,
      rfl⟩

/-- A helper that has been given a value may be read. -/
theorem IsHelper.isFragment_read (h : IsHelper start s name)
    (hcommand : command ∈ since start s)
    (hdefines : command.Defines name false) :
    IsFragment (Finished known start s) false (read name) := by
  obtain ⟨number, hmade, rfl⟩ := h
  refine isSafe_read (isName_helperName number) fun other heq => ?_
  rw [← helperName_inj heq]
  exact .inr ⟨hmade, command, hcommand, hdefines⟩

/-- A helper that has been set up as a list may be named. -/
theorem IsHelper.isFragment_list (h : IsHelper start s name)
    (hcommand : command ∈ since start s)
    (hdefines : command.Defines name true) :
    IsFragment (Finished known start s) true name := by
  obtain ⟨number, hmade, rfl⟩ := h
  refine ⟨isName_helperName number, fun other heq => ?_⟩
  rw [← helperName_inj heq]
  exact .inr ⟨hmade, command, hcommand, hdefines⟩

/-- The line that gives a helper its value, and the read of it. -/
theorem emit_read_working (hs : Working operation start s)
    (hname : IsHelper start s name)
    (hclean : command.IsClean operation (Allocated start s))
    (hdefines : command.Defines name false) :
    (inOperation operation known start).Ensures s (do
      emit command
      return read name) fun text s' => IsFragment (Finished known start s')
        false text :=
  .bind (emit_working hs hclean) fun _ _ hs' hgrows hcommand =>
    .pure hs' ((hname.mono hgrows).isFragment_read hcommand hdefines)

/-- A helper whose value is given by one line. -/
theorem helper_read_working {command : String → Command}
    (hs : Working operation start s)
    (hclean : ∀ name s', s.Grows s' → IsHelper start s' name →
      (command name).IsClean operation (Allocated start s'))
    (hdefines : ∀ name, (command name).Defines name false) :
    (inOperation operation known start).Ensures s (do
      let name ← helper
      emit (command name)
      return read name) fun text s' => IsFragment (Finished known start s')
        false text :=
  .bind (helper_working hs) fun name _ hs' hgrows hname =>
    emit_read_working hs' hname (hclean name _ hgrows hname) (hdefines name)

theorem require_working {change : Needs → Needs}
    (hs : Working operation start s) :
    (inOperation operation known start).Ensures s
    (require change) fun _ _ => True :=
  modify_working hs rfl rfl rfl

theorem declareLocal_working (hs : Working operation start s) :
    (inOperation operation known start).Ensures s
    (declareLocal name) fun _ _ => True :=
  modify_working hs rfl rfl rfl

theorem variableName_working {ty : ValueType} (hs : Working operation start s) :
    (inOperation operation known start).Ensures s
    (variableName name ty) fun var _ =>
      ∃ number, var = storageName number name ty.isList :=
  .get (.pure hs ⟨_, rfl⟩)

theorem copyListTo_working {source target : String}
    (hs : Working operation start s) (hsource : IsSafeText source)
    (htarget : IsStorage (Allocated start s) target) :
    (inOperation operation known start).Ensures s
    (copyListTo source target) fun _ s' =>
      Command.call "__sb_list_copy" [source, target] ∈ since start s' := by
  refine .bind (require_working hs) fun _ s' hs' hgrows _ =>
    emit_working hs' ⟨rfl, ?_⟩
  exact .copy hsource (htarget.mono fun _ => Allocated.mono hgrows)

end Steps

/-! Steps of the control flow. -/

/-- Plain labels, and conditions that are safe. -/
def Instruction.IsClean (instruction : Instruction) : Prop :=
  (Command.flow instruction).IsClean .plain fun _ => False

/-- The condition of the call, if it has one, is safe. -/
def GraphCall.IsSafe : GraphCall → Prop
  | openBranch condition | elseIf condition | leaveUnless condition =>
      IsSafeText condition
  | _ => True

theorem innermostLoop?_plain {frames : List Frame} {next stop : String}
    (hframes : ∀ frame ∈ frames, ∀ label ∈ frame.labels, IsPlainLabel label)
    (h : Graph.innermostLoop? frames = some (next, stop)) :
    IsPlainLabel next ∧ IsPlainLabel stop := by
  induction frames with
  | nil => cases h
  | cons frame frames ih =>
      obtain ⟨hframe, hrest⟩ := List.forall_mem_cons.mp hframes
      cases frame with
      | branch stop' next' => exact ih hrest h
      | loop next' test stop' =>
          cases h
          exact ⟨hframe _ (by simp [Frame.labels]),
            hframe _ (by simp [Frame.labels])⟩

namespace Graph.IsPlain

variable {g : Graph} (h : g.IsPlain)

include h

/-- A call keeps labels plain, even if it fails. -/
theorem after (call : GraphCall) : (g.after call).IsPlain := by
  have hcounted : ∀ number, ∀ stem ∈ stems, IsPlainLabel
      (countedLabel stem number) :=
    fun number _ hstem => isPlainLabel_countedLabel hstem number
  simp only [stems, List.forall_mem_cons] at hcounted
  unfold IsPlain at h ⊢
  rw [frames_after]
  obtain ⟨frames, labels⟩ := g
  cases call with
  | openBranch | openLoop =>
      exact List.forall_mem_cons.mpr ⟨by simp [Frame.labels, hcounted], h⟩
  | elseIf | elseBranch =>
      rcases frames with _ | ⟨_ | _, _⟩
      · exact h
      · obtain ⟨hfirst, hrest⟩ := List.forall_mem_cons.mp h
        refine List.forall_mem_cons.mpr ⟨?_, hrest⟩
        simp only [Frame.labels, List.forall_mem_append,
          List.forall_mem_singleton] at hfirst ⊢
        exact ⟨by simp [hcounted], hfirst.2⟩
      · exact h
  | closeBranch | closeLoop =>
      exact fun frame hframe => h frame (List.mem_of_mem_tail hframe)
  | _ => exact h

theorem clean {call : GraphCall} (hsafe : call.IsSafe)
    {instructions : List Instruction}
    (hrun : (exec call.perform g).1 = .ok instructions) :
    ∀ instruction ∈ instructions, instruction.IsClean := by
  have hinnermost : ∀ frame ∈ g.frames.head?, ∀ label ∈ frame.labels,
      IsPlainLabel label :=
    fun frame hframe => h frame (List.mem_of_mem_head? hframe)
  have hcounted : ∀ number, ∀ stem ∈ stems, IsPlainLabel
      (countedLabel stem number) :=
    fun number _ hstem => isPlainLabel_countedLabel hstem number
  simp only [stems, List.forall_mem_cons] at hcounted
  cases call with
  | freshLabel | depth =>
      cases hrun
      simp
  | openBranch condition =>
      cases hrun
      exact List.forall_mem_singleton.mpr ⟨hsafe, (hcounted _).1⟩
  | openLoop =>
      cases hrun
      exact List.forall_mem_cons.mpr
        ⟨(hcounted _).2.2.2.1, List.forall_mem_singleton.mpr (hcounted _).2.2.1⟩
  | loopExit exit =>
      cases hloop : Graph.innermostLoop? g.frames with
      | none =>
          rw [GraphCall.perform, exec_loopExit_outside hloop] at hrun
          cases hrun
      | some exits =>
          rw [GraphCall.perform, exec_loopExit hloop] at hrun
          cases hrun
          obtain ⟨hnext, hstop⟩ := innermostLoop?_plain h hloop
          cases exit with
          | leave => exact List.forall_mem_singleton.mpr hstop
          | next => exact List.forall_mem_singleton.mpr hnext
  | elseIf | elseBranch | closeBranch | loopTest | leaveUnless | closeLoop =>
      -- the innermost frame decides whether the call succeeds
      obtain ⟨frames, labels⟩ := g
      have hlabel := (hcounted (labels + 1)).1
      rcases frames with _ | ⟨⟨stop, _ | next⟩ | ⟨next, test, stop⟩, rest⟩ <;>
        cases hrun
      all_goals
        have hlabels := hinnermost _ rfl
        simp_all [countedLabel, Frame.labels, Instruction.IsClean,
          Command.IsClean, GraphCall.IsSafe]

end Graph.IsPlain

section Steps

variable {operation : Operation} {known : Nat → Bool → Prop} {start s : State}

theorem onGraph_working {call : GraphCall} (hsafe : call.IsSafe)
    (hs : Working operation start s) :
    (inOperation operation known start).Ensures s
    (onGraph call.perform) fun instructions _ =>
      ∀ instruction ∈ instructions, instruction.IsClean := by
  have hrun : exec (onGraph call.perform) s =
      ((exec call.perform s.graph).1,
        { s with graph := s.graph.after call }) := by
    unfold onGraph Graph.after
    rw [Script.exec_get_bind]
    rcases hrun : exec call.perform s.graph with ⟨result, graph⟩
    unfold exec at hrun
    rw [hrun]
    cases result <;> rfl
  refine ⟨?_, ?_, ?_⟩
  · rw [hrun]
    exact hs.same rfl rfl (hs.labels.after call)
  · rw [hrun]
    exact ⟨List.prefix_rfl, Nat.le_refl _⟩
  · rw [hrun]
    exact fun _ => hs.labels.clean hsafe

theorem emitFlow_working (call : GraphCall) (hsafe : call.IsSafe)
    (hs : Working operation start s) :
    (inOperation operation known start).Ensures s
    (emitFlow call.perform) fun _ _ => True := by
  refine .bind (onGraph_working hsafe hs) fun instructions s' hs' _ hclean => ?_
  refine .forM hs' fun instruction hinstruction s'' hs'' _ => ?_
  refine (emit_working hs'' ?_).weaken fun _ _ _ _ => trivial
  have hinstruction := hclean instruction hinstruction
  cases instruction <;> exact hinstruction

end Steps

end Batch

end Shellwright
