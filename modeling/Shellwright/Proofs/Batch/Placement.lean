/-
The labels of the control-flow graph.  No label is made twice, whatever is
called; and where calls fit together, what an open construct still has to place
is placed once it is closed, so that no jump goes astray.
-/
import Shellwright.Proofs.Batch.Graph
import Shellwright.Proofs.Batch.Sound

namespace Shellwright

namespace Batch

open Script (exec)

/-- The label an instruction is about. -/
def Instruction.name : Instruction → String
  | .label name | .jump name | .jumpUnless _ name => name

/-- The labels a construct still has to place, if a loop is tested `count`
times. -/
def Frame.held (count : Nat) : Frame → List String
  | .branch stop next => next.toList ++ [stop]
  | .loop _ test stop => List.replicate count test ++ [stop]

/-- The start of the next round, which a loop places at once. -/
def Frame.next? : Frame → Option String
  | .branch .. => none
  | .loop next _ _ => some next

namespace Graph

variable {g : Graph} {frames : List Frame} {calls : List GraphCall}

/-- The instructions a call yields; one that fails yields none. -/
def yields (g : Graph) (call : GraphCall) : List Instruction :=
  (exec call.perform g).1.toOption.getD []

/-- All instructions on the way. -/
def instructions (g : Graph) : List GraphCall → List Instruction
  | [] => []
  | call :: calls => g.yields call ++ (g.after call).instructions calls

theorem yields_loopExit {g : Graph} {next stop : String}
    (h : innermostLoop? g.frames = some (next, stop)) (exit : LoopExit) :
    ∃ target ∈ [next, stop], g.yields (.loopExit exit) = [.jump target] := by
  unfold yields GraphCall.perform
  rw [exec_loopExit h]
  cases exit with
  | leave => exact ⟨stop, by simp, rfl⟩
  | next => exact ⟨next, by simp, rfl⟩

/-! Labels that are made. -/

def madeBy (g : Graph) (call : GraphCall) : List String :=
  (exec (call.stems.mapM freshLabel) g).1.toOption.getD []

/-- All labels made on the way. -/
def made (g : Graph) : List GraphCall → List String
  | [] => []
  | call :: calls => g.madeBy call ++ (g.after call).made calls

theorem madeBy_eq (g : Graph) (call : GraphCall) :
    g.madeBy call = (call.stems.zipIdx (g.labels + 1)).map fun entry =>
      countedLabel entry.1 entry.2 := by
  cases call <;> rfl

/-- Labels are numbered as they are made. -/
theorem made_eq (g : Graph) (calls : List GraphCall) :
    g.made calls = ((calls.flatMap GraphCall.stems).zipIdx (g.labels + 1)).map
      fun entry => countedLabel entry.1 entry.2 := by
  induction calls generalizing g with
  | nil => rfl
  | cons call calls ih =>
      rw [made, madeBy_eq, ih, after_eq, List.flatMap_cons, List.zipIdx_append,
        List.map_append, Nat.add_right_comm]

theorem made_nodup (g : Graph) (calls : List GraphCall) :
    (g.made calls).Nodup := by
  have hnumbers :
      (((calls.flatMap GraphCall.stems).zipIdx (g.labels + 1)).map
        Prod.snd).Nodup := by
    rw [List.zipIdx_map_snd]
    exact List.nodup_range'
  rw [made_eq]
  exact List.pairwise_map.mpr
    (List.Pairwise.of_map _ (fun _ _ hne hsame => hne (countedLabel_inj hsame))
      hnumbers)

theorem labels_run (g : Graph) (calls : List GraphCall) :
    (g.run calls).labels = g.labels + (g.made calls).length := by
  induction calls generalizing g with
  | nil => rfl
  | cons call calls ih =>
      have hcall : (g.madeBy call).length = call.stems.length := by
        rw [madeBy_eq, List.length_map, List.length_zipIdx]
      have hrest := ih (g.after call)
      rw [congrArg labels (g.after_eq call)] at hrest
      rw [made, List.length_append, hcall, ← Nat.add_assoc]
      exact hrest

theorem innermostLoop?_labels {next stop : String}
    (h : innermostLoop? frames = some (next, stop)) :
    [next, stop] ⊆ frames.flatMap Frame.labels := by
  induction frames with
  | nil => cases h
  | cons frame below ih =>
      cases frame with
      | branch => exact List.Subset.trans (ih h) (List.subset_append_right _ _)
      | loop => cases h; simp [Frame.labels]

/-- A call is about labels of constructs that are open before or behind it. -/
theorem yields_named {call : GraphCall} {instruction : Instruction}
    (h : instruction ∈ g.yields call) : instruction.name ∈
      g.frames.flatMap Frame.labels ++ (g.after call).frames.flatMap
        Frame.labels := by
  cases call with
  | loopExit exit =>
      cases hloop : innermostLoop? g.frames with
      | none =>
          unfold yields GraphCall.perform at h
          rw [exec_loopExit_outside hloop] at h
          cases h
      | some exits =>
          obtain ⟨target, htarget, hyields⟩ := yields_loopExit hloop exit
          rw [hyields] at h
          cases List.mem_singleton.mp h
          exact List.mem_append_left _ (innermostLoop?_labels hloop htarget)
  | freshLabel | depth => cases h
  | openBranch =>
      obtain rfl := List.mem_singleton.mp h
      exact List.mem_append_right _ List.mem_cons_self
  | openLoop =>
      refine List.mem_append_right _ ?_
      rcases h with _ | ⟨_, _ | ⟨_, ⟨⟩⟩⟩
      · exact List.mem_cons_of_mem _ List.mem_cons_self
      · exact List.mem_cons_self
  | elseIf =>
      obtain ⟨frames, labels⟩ := g
      rcases frames with _ | ⟨⟨_, _ | _⟩ | _, _⟩ <;>
        rcases h with _ | ⟨_, _ | ⟨_, _ | ⟨_, ⟨⟩⟩⟩⟩
      · simp [Frame.labels, Instruction.name]
      · simp [Frame.labels, Instruction.name]
      · exact List.mem_append_right _ List.mem_cons_self
  | elseBranch | closeBranch | loopTest | leaveUnless | closeLoop =>
      obtain ⟨frames, labels⟩ := g
      rcases frames with _ | ⟨⟨_, _ | _⟩ | _, _⟩ <;>
        rcases h with _ | ⟨_, _ | ⟨_, ⟨⟩⟩⟩
      all_goals simp [Frame.labels, Instruction.name]

/-- The labels of open constructs are old ones and those that were made. -/
theorem frames_made (g : Graph) (call : GraphCall) :
    (g.after call).frames.flatMap Frame.labels ⊆
      g.frames.flatMap Frame.labels ++ g.madeBy call := by
  rw [frames_after, madeBy_eq]
  cases call with
  | elseIf | elseBranch | closeBranch | closeLoop =>
      obtain ⟨frames, labels⟩ := g
      rcases frames with _ | ⟨⟨_, _ | _⟩ | _, _⟩ <;> intro label hlabel <;>
        simp only [framesAfter, GraphCall.stems] at hlabel ⊢ <;>
          grind [Frame.labels]
  | _ => simp [framesAfter, Frame.labels, GraphCall.stems]

/-- So are all labels on the way. -/
theorem names_made {label : String}
    (h : label ∈ (g.instructions calls).map Instruction.name ++ (g.run
      calls).frames.flatMap Frame.labels) :
    label ∈ g.frames.flatMap Frame.labels ++ g.made calls := by
  induction calls generalizing g with
  | nil => exact List.mem_append_left _ h
  | cons call calls ih =>
      have hbehind : label ∈ (g.after call).frames.flatMap Frame.labels →
          label ∈ g.frames.flatMap Frame.labels ++ g.made (call :: calls) := by
        intro hin
        rw [made, ← List.append_assoc]
        exact List.mem_append_left _ (frames_made g call hin)
      rw [instructions, List.map_append, List.append_assoc] at h
      rcases List.mem_append.mp h with hhere | hin
      · obtain ⟨instruction, hinstruction, rfl⟩ := List.mem_map.mp hhere
        rcases List.mem_append.mp (yields_named hinstruction) with hold | hnew
        · exact List.mem_append_left _ hold
        · exact hbehind hnew
      · rcases List.mem_append.mp (ih hin) with hframes | hmade
        · exact hbehind hframes
        · exact List.mem_append_right _ (List.mem_append_right _ hmade)

/-! Labels that are placed. -/

/-- How often each open construct is tested before it is closed, the innermost
first. -/
def tests : List GraphCall → Nat → Nat
  | [], _ => 0
  | .openBranch _ :: calls, place | .openLoop :: calls, place =>
      tests calls (place + 1)
  | .closeBranch :: _, 0 | .closeLoop :: _, 0 => 0
  | .closeBranch :: calls, place + 1 | .closeLoop :: calls, place + 1 =>
      tests calls place
  | .loopTest :: calls, 0 => tests calls 0 + 1
  | _ :: calls, place => tests calls place

/-- No call fails, every loop is tested once while it is innermost, and nothing
stays open. -/
def Completes (g : Graph) : List GraphCall → Prop
  | [] => g.depth = 0
  | call :: calls =>
      g.Allows call ∧ (call = .openLoop → tests calls 0 = 1) ∧
        (g.after call).Completes calls

/-- The labels a call makes for a construct. -/
def laidBy (g : Graph) : GraphCall → List String
  | .freshLabel _ => []
  | call => g.madeBy call

def laid (g : Graph) : List GraphCall → List String
  | [] => []
  | call :: calls => g.laidBy call ++ (g.after call).laid calls

theorem laid_sublist (g : Graph) (calls : List GraphCall) :
    (g.laid calls).Sublist (g.made calls) := by
  induction calls generalizing g with
  | nil => exact .refl _
  | cons call calls ih =>
      refine .append ?_ (ih _)
      cases call with
      | freshLabel => exact List.nil_sublist _
      | _ => exact .refl _

/-- The labels open constructs still have to place. -/
def held (counts : Nat → Nat) : List Frame → List String
  | [] => []
  | frame :: below =>
      frame.held (counts 0) ++ held (fun place => counts (place + 1)) below

theorem exits_of_innermostLoop? {counts : Nat → Nat} {next stop : String}
    (h : innermostLoop? frames = some (next, stop)) :
    [next, stop] ⊆ held counts frames ++ frames.filterMap Frame.next? := by
  induction frames generalizing counts with
  | nil => cases h
  | cons frame below ih =>
      cases frame with
      | branch =>
          have hbelow := @ih (fun place => counts (place + 1)) h
          rw [held, List.append_assoc]
          exact List.Subset.trans hbelow (List.subset_append_right _ _)
      | loop => cases h; simp [held, Frame.held, Frame.next?]

/-- What a call does with labels while `later` calls follow. -/
structure Accounts (g : Graph) (call : GraphCall) (later : List GraphCall) :
    Prop where
  /-- Labels that were held or are new are placed, or held from now on. -/
  placed : ((g.yields call).filterMap Instruction.label? ++
    held (tests later) (g.after call).frames).Perm
      (held (tests (call :: later)) g.frames ++ g.laidBy call)
  targets : (g.yields call).filterMap Instruction.target? ⊆
    held (tests later) (g.after call).frames ++ g.frames.filterMap Frame.next?
  rounds : (g.after call).frames.filterMap Frame.next? ⊆
    (g.yields call).filterMap Instruction.label? ++
      g.frames.filterMap Frame.next?

theorem allowed_accounts {call : GraphCall} {later : List GraphCall}
    (hallows : g.Allows call) (hopen : call = .openLoop → tests later 0 = 1) :
    g.Accounts call later := by
  have hone : ∀ {label : String} {labels : List String}, label ∈ labels →
      [label] ⊆ labels :=
    fun h => List.cons_subset.mpr ⟨h, List.nil_subset _⟩
  obtain ⟨_, hrun⟩ := hallows
  obtain ⟨frames, labels⟩ := g
  cases call with
  | freshLabel | depth =>
      exact ⟨.of_eq (List.append_nil _).symm, List.nil_subset _,
        List.Subset.refl _⟩
  | openBranch =>
      exact ⟨@List.perm_append_comm _ [_, _] _, hone List.mem_cons_self,
        List.Subset.refl _⟩
  | openLoop =>
      have hheld :
        held (tests later) (after ⟨frames, labels⟩ .openLoop).frames =
          [countedLabel "cond" (labels + 2),
            countedLabel "done" (labels + 3)] ++
            held (tests (.openLoop :: later)) frames := by
        rw [frames_after, framesAfter, held, Frame.held, hopen rfl]
        rfl
      refine ⟨?_, ?_, List.Subset.refl _⟩ <;> rw [hheld]
      · exact @List.perm_append_comm _ [_, _, _] _
      · exact hone List.mem_cons_self
  | loopExit exit =>
      cases hloop : innermostLoop? frames with
      | none =>
          rw [GraphCall.perform, exec_loopExit_outside hloop] at hrun
          cases hrun
      | some exits =>
          obtain ⟨target, htarget, hyields⟩ :=
            @yields_loopExit ⟨frames, labels⟩ _ _ hloop exit
          refine ⟨?_, ?_, ?_⟩ <;> rw [frames_after, hyields]
          · exact .of_eq (List.append_nil _).symm
          · exact hone (exits_of_innermostLoop? hloop htarget)
          · exact List.Subset.refl _
  | elseIf =>
      rcases frames with _ | ⟨⟨stop, _ | next⟩ | _, below⟩ <;> cases hrun
      refine ⟨.cons next (@List.perm_append_comm _ [_] _), ?_,
        List.subset_append_right _ _⟩
      exact List.cons_subset.mpr
        ⟨List.mem_cons_of_mem _ List.mem_cons_self, hone List.mem_cons_self⟩
  | elseBranch =>
      rcases frames with _ | ⟨⟨stop, _ | next⟩ | _, below⟩ <;> cases hrun
      exact ⟨.of_eq (List.append_nil _).symm, hone List.mem_cons_self,
        List.subset_append_right _ _⟩
  | closeBranch =>
      rcases frames with _ | ⟨⟨stop, _ | next⟩ | _, below⟩ <;> cases hrun
      all_goals exact ⟨.of_eq (List.append_nil _).symm, List.nil_subset _,
        List.subset_append_right _ _⟩
  | loopTest =>
      rcases frames with _ | ⟨_ | ⟨next, test, stop⟩, below⟩ <;> cases hrun
      exact ⟨.of_eq (List.append_nil _).symm, List.nil_subset _,
        List.subset_append_right _ _⟩
  | leaveUnless =>
      rcases frames with _ | ⟨_ | ⟨next, test, stop⟩, below⟩ <;> cases hrun
      refine ⟨.of_eq (List.append_nil _).symm, hone (?_ : stop ∈ _),
        List.Subset.refl _⟩
      rw [frames_after]
      simp [framesAfter, held, Frame.held]
  | closeLoop =>
      rcases frames with _ | ⟨_ | ⟨next, test, stop⟩, below⟩ <;> cases hrun
      refine ⟨.of_eq (List.append_nil _).symm,
        hone (List.mem_append_right _ List.mem_cons_self), ?_⟩
      exact fun _ h => List.mem_append_right _ (List.mem_cons_of_mem _ h)

/-- All labels that are placed, and where the jumps go. -/
theorem completes_places (h : g.Completes calls) :
    ((g.instructions calls).filterMap Instruction.label?).Perm
        (held (tests calls) g.frames ++ g.laid calls) ∧
      (g.instructions calls).filterMap Instruction.target? ⊆
        (g.instructions calls).filterMap Instruction.label? ++
          g.frames.filterMap Frame.next? := by
  induction calls generalizing g with
  | nil =>
      obtain hframes : g.frames = [] := List.length_eq_zero_iff.mp h
      rw [hframes]
      exact ⟨.refl _, List.nil_subset _⟩
  | cons call calls ih =>
      obtain ⟨hallows, hopen, hrest⟩ := h
      obtain ⟨hperm, htargets⟩ := ih hrest
      have hcall := allowed_accounts hallows hopen
      simp only [instructions, laid, List.filterMap_append]
      constructor
      · refine (hperm.append_left _).trans ?_
        rw [← List.append_assoc, ← List.append_assoc]
        exact hcall.placed.append_right _
      · intro label hlabel
        rw [List.append_assoc, List.mem_append, List.mem_append]
        rcases List.mem_append.mp hlabel with hhere | hlater
        · -- the construct is closed later and places the label then
          rcases List.mem_append.mp (hcall.targets hhere) with hheld | hround
          · exact .inr (.inl (hperm.mem_iff.mpr (List.mem_append_left _ hheld)))
          · exact .inr (.inr hround)
        · rcases List.mem_append.mp (htargets hlater) with hplaced | hround
          · exact .inr (.inl hplaced)
          · exact (List.mem_append.mp (hcall.rounds hround)).imp_right .inr

/-- Whatever is called, the graph counts the labels it makes, makes none of them
twice, and has no others in its instructions and frames.  Where no call fails,
each loop is tested once and everything is closed, a label is placed once or not
in use, and jumps go to labels that are placed. -/
theorem labels_unique_and_placed (calls : List GraphCall) :
    (empty.made calls).Nodup ∧
    (empty.run calls).labels = (empty.made calls).length ∧
    (empty.instructions calls).map Instruction.name ++
      (empty.run calls).frames.flatMap Frame.labels ⊆ empty.made calls ∧
    (empty.Completes calls →
      (∀ label ∈ empty.made calls,
        ((empty.instructions calls).filterMap Instruction.label?).count
          label = 1 ∨ label ∉ (empty.instructions calls).map Instruction.name) ∧
      ∀ target ∈ (empty.instructions calls).filterMap Instruction.target?,
        ((empty.instructions calls).filterMap Instruction.label?).count target =
          1) := by
  have hcount : (empty.run calls).labels = (empty.made calls).length :=
    (labels_run _ _).trans (Nat.zero_add _)
  refine ⟨made_nodup _ _, hcount, fun _ h => names_made h, fun h => ?_⟩
  obtain ⟨hperm, htargets⟩ := completes_places h
  rw [show empty.frames = [] from rfl, List.filterMap_nil, List.append_nil]
    at htargets
  have hnodup :
      ((empty.instructions calls).filterMap Instruction.label?).Nodup :=
    hperm.nodup_iff.mpr ((made_nodup _ _).sublist (laid_sublist _ _))
  refine ⟨fun label _ => ?_, fun target htarget =>
    List.count_eq_one_of_mem hnodup (htargets htarget)⟩
  by_cases hin : label ∈ (empty.instructions calls).filterMap Instruction.label?
  · exact .inl (List.count_eq_one_of_mem hnodup hin)
  · refine .inr fun hname => hin ?_
    obtain ⟨instruction, hmem, rfl⟩ := List.mem_map.mp hname
    cases instruction with
    | label => exact List.mem_filterMap.mpr ⟨_, hmem, rfl⟩
    | jump | jumpUnless =>
        exact htargets (List.mem_filterMap.mpr ⟨_, hmem, rfl⟩)

/-- A loop in an `else if` part with both exits, one of them in a branch of its
own. -/
theorem labels_unique_and_placed_loop :
    ∀ target ∈ ["__sb_else_1", "__sb_endif_2", "__sb_else_3", "__sb_cond_6",
      "__sb_else_8",
        "__sb_done_7", "__sb_next_5"],
      ((empty.instructions [.openBranch "a", .elseIf "b", .freshLabel "end",
        .openLoop, .openBranch "c", .loopExit .leave, .closeBranch,
        .loopExit .next, .loopTest, .leaveUnless "d", .closeLoop,
        .closeBranch]).filterMap Instruction.label?).count target =
          1 := by
  have hall :=
    ((labels_unique_and_placed [.openBranch "a", .elseIf "b", .freshLabel "end",
    .openLoop, .openBranch "c", .loopExit .leave, .closeBranch, .loopExit .next,
    .loopTest, .leaveUnless "d", .closeLoop, .closeBranch]).2.2.2 ⟨⟨_, rfl⟩,
    nofun, ⟨_, rfl⟩, nofun, ⟨_, rfl⟩, nofun, ⟨_, rfl⟩,
      fun _ => rfl, ⟨_, rfl⟩, nofun, ⟨_, rfl⟩, nofun, ⟨_, rfl⟩, nofun, ⟨_, rfl⟩,
      nofun, ⟨_, rfl⟩, nofun, ⟨_, rfl⟩, nofun, ⟨_, rfl⟩, nofun, ⟨_, rfl⟩,
      nofun, rfl⟩).2
  exact fun target htarget => hall target (by revert target; decide)

end Graph

end Batch

end Shellwright
