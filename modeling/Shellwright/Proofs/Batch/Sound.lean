/-
What holds while a batch script is written.  Every label is written once or is
still to be written, and every jump and call goes to one of those.
-/
import Shellwright.Proofs.Batch.Extends
import Shellwright.Proofs.Batch.Flow
import Shellwright.Proofs.Script.Lawful

namespace Shellwright

namespace Batch

variable {number : Nat} {frame : Frame} {needs : Needs} {command : Command}
  {construct : OpenConstruct} {instructions : List Instruction}

open Script (Progress OpenConstruct exec)

/-- The label a line is. -/
def Command.label? : Command → Option String
  | .flow (.label name) => some name
  | _ => none

/-- The labels among lines. -/
def placed (lines : List Command) : List String :=
  lines.filterMap Command.label?

@[simp] theorem placed_append (first second : List Command) :
    placed (first ++ second) = placed first ++ placed second :=
  List.filterMap_append

theorem placed_eq_nil_of_allowed {permit : Permit} {commands : List Command}
    (h : ∀ command ∈ commands, command.Allowed permit needs) :
    placed commands = [] := by
  unfold placed
  rw [List.filterMap_eq_nil_iff]
  intro command hcommand
  have hallowed := h command hcommand
  cases command with
  | flow instruction => exact hallowed.elim
  | _ => rfl

/-- The frame belongs to an open construct. -/
def Frame.Shows : OpenConstruct → Frame → Prop
  | .branch, .branch _ (some _) => True
  | .alternative, .branch _ none => True
  | .started, .loop .. => True
  | .post, .loop .. => True
  | .loop, .loop .. => True
  | _, _ => False

theorem Frame.Shows.branch (h : frame.Shows .branch) :
    ∃ stop next, frame = .branch stop (some next) := by
  match frame, h with
  | .branch stop (some next), _ => exact ⟨stop, next, rfl⟩

theorem Frame.Shows.choice
    (hconstruct : construct = .branch ∨ construct = .alternative)
    (h : frame.Shows construct) : ∃ stop next, frame = .branch stop next := by
  rcases hconstruct with rfl | rfl
  · obtain ⟨stop, next, rfl⟩ := h.branch
    exact ⟨stop, some next, rfl⟩
  · match frame, h with
    | .branch stop none, _ => exact ⟨stop, none, rfl⟩

theorem Frame.Shows.loop (hconstruct : construct.isLoop = true)
    (h : frame.Shows construct) :
    ∃ next test stop, frame = .loop next test stop := by
  match construct, frame, h with
  | .started, .loop next test stop, _ => exact ⟨next, test, stop, rfl⟩
  | .post, .loop next test stop, _ => exact ⟨next, test, stop, rfl⟩
  | .loop, .loop next test stop, _ => exact ⟨next, test, stop, rfl⟩

/-- All labels of a frame. -/
def Frame.labels : Frame → List String
  | .branch stop next => next.toList ++ [stop]
  | .loop next test stop => [next, test, stop]

/-- The labels of an open construct that are still to be written. -/
def Frame.pending (construct : OpenConstruct) : Frame → List String
  | .branch stop next => next.toList ++ [stop]
  | .loop _ test stop => if construct = .loop then [stop] else [test, stop]

/-- The labels of all open constructs that are still to be written. -/
def pendingOf (constructs : List OpenConstruct) (frames : List Frame) :
    List String :=
  (List.zipWith Frame.pending constructs frames).flatten

@[simp] theorem pendingOf_nil : pendingOf [] [] = [] := rfl

@[simp] theorem pendingOf_cons (construct : OpenConstruct)
    (constructs : List OpenConstruct) (frame : Frame) (frames : List Frame) :
    pendingOf (construct :: constructs) (frame :: frames) =
      frame.pending construct ++ pendingOf constructs frames := rfl

/-- All labels that are still to be written. -/
def State.pending (here : Progress) (s : State) : List String :=
  pendingOf here.constructs s.graph.frames ++
    (s.current.map FunctionFrame.key).toList.map fun key => endLabel key.1

/-- All labels that are written or still to be written. -/
def State.labels (here : Progress) (s : State) : List String :=
  placed s.lines.toList ++ s.pending here

/-- The labels a script can have by now. -/
def Made (here : Progress) (s : State) (label : String) : Prop :=
  (∃ stem ∈ stems, ∃ number ≤ s.graph.labels, label =
    countedLabel stem number) ∨
    (∃ name ∈ here.known, label = functionLabel name) ∨
    ∃ number ≤ s.functions, label = endLabel number

section Made

variable {here : Progress} {s : State}

theorem not_made_countedLabel {stem : String} (hstem : stem ∈ stems)
    (hnumber : s.graph.labels < number) :
    ¬Made here s (countedLabel stem number) := by
  rintro (⟨other, hother, number', hle, hlabel⟩ | ⟨name, _, hlabel⟩
    | ⟨number', _, hlabel⟩)
  · have := countedLabel_inj hlabel
    omega
  · exact countedLabel_ne_functionLabel hstem number name hlabel
  · exact countedLabel_ne_endLabel hstem number number' hlabel

theorem not_made_functionLabel {name : String} (hname : name ∉ here.known) :
    ¬Made here s (functionLabel name) := by
  rintro (⟨stem, hstem, number, _, hlabel⟩ | ⟨other, hother, hlabel⟩
    | ⟨number, _, hlabel⟩)
  · exact countedLabel_ne_functionLabel hstem number name hlabel.symm
  · rw [functionLabel_inj hlabel] at hname
    exact hname hother
  · exact functionLabel_ne_endLabel name number hlabel

theorem not_made_endLabel (hnumber : s.functions < number) :
    ¬Made here s (endLabel number) := by
  rintro (⟨stem, hstem, number', _, hlabel⟩ | ⟨name, _, hlabel⟩
    | ⟨number', hle, hlabel⟩)
  · exact countedLabel_ne_endLabel hstem number' number hlabel.symm
  · exact functionLabel_ne_endLabel name number hlabel.symm
  · have := endLabel_inj hlabel
    omega

end Made

/-- A line goes to one of `labels`, to a subroutine of the script or to a
function known by now, or goes on to the next one. -/
def Command.Lands (labels : List String) (here : Progress) (needs : Needs)
    (command : Command) : Prop :=
  match command with
  | .flow (.label _) => True
  | .flow (.jump target) | .flow (.jumpUnless _ target) => target ∈ labels
  | .verbatim _ => False
  | .call label _ =>
      label ∈ needs.labels ∨ ∃ name ∈ here.known, label = functionLabel name
  | .run _ => Event.command ∈ here.seen
  | _ => True

/-- What holds while a script is written. -/
structure State.Sound (here : Progress) (s : State) : Prop where
  shows : List.Forall₂ Frame.Shows here.constructs s.graph.frames
  current : s.current.map FunctionFrame.key =
    here.function.map fun name => (s.functions, name)
  distinct : (s.labels here).Nodup
  made : ∀ label ∈ s.labels here, Made here s label
  frames : ∀ frame ∈ s.graph.frames, ∀ label ∈ frame.labels,
    label ∈ s.labels here
  lands : ∀ command ∈ s.lines.toList, command.Lands (s.labels here) here s.needs
  functions : ∀ name ∈ here.known, functionLabel name ∈ placed s.lines.toList
  words : ∀ name ∈ here.known, isWord name.toList = true
  literals : ∀ value, Event.literal value ∈ here.seen →
    value.toList.contains '\n' = true → s.needs.newline = true
  captures : s.needs.capture = true ↔ Event.capture ∈ here.seen
  sentinel : s.needs.fileContent = true → s.needs.newline = true

/-- What a program can call by now. -/
def Callable (here : Progress) (label : String) : Prop :=
  ∃ name ∈ here.known, label = functionLabel name

/-- A pipeline is only run as it stands where the program says so. -/
def Own (here : Progress) : Command → Prop
  | .run _ => Event.command ∈ here.seen
  | _ => True

/-- What an operation may do by now. -/
def permitOf (here : Progress) : Permit where
  callable := Callable here
  own := Own here
  declares := True
  panics := True
  captures := Event.capture ∈ here.seen

theorem Command.Lands.mono {labels labels' : List String}
    {here here' : Progress} {needs' : Needs}
    (h : command.Lands labels here needs) (hlabels : labels ⊆ labels')
    (hknown : here.known ⊆ here'.known) (hseen : here.seen ⊆ here'.seen)
    (hneeds : needs.Grows needs') : command.Lands labels' here' needs' := by
  cases command with
  | flow instruction =>
      cases instruction with
      | label name => trivial
      | jump target => exact hlabels h
      | jumpUnless condition target => exact hlabels h
  | verbatim text => exact h
  | call label args =>
      rcases h with h | ⟨name, hname, hlabel⟩
      · exact .inl (hneeds.labels h)
      · exact .inr ⟨name, hknown hname, hlabel⟩
  | run line => exact hseen h
  | _ => trivial

theorem Command.Allowed.lands {here : Progress} {labels : List String}
    (h : command.Allowed (permitOf here) needs) :
    command.Lands labels here needs := by
  cases command with
  | flow instruction => exact h.elim
  | verbatim text => exact h
  | call label args => exact h
  | run line => exact h
  | _ => trivial

namespace State.Sound

variable {here : Progress} {s s' : State}

/-- Lines that jump nowhere do no harm. -/
theorem extends_noted {events : List Event} (h : s.Sound here)
    (hextends : s.Extends (permitOf (here.noted events)) s')
    (hliterals : ∀ value, Event.literal value ∈ events →
      value.toList.contains '\n' = true → s'.needs.newline = true)
    (hcaptures : Event.capture ∈ events → s'.needs.capture = true) :
    s'.Sound (here.noted events) := by
  obtain ⟨added, hlines, hallowed⟩ := hextends.lines
  have hplaced : placed s'.lines.toList = placed s.lines.toList := by
    rw [hlines, placed_append, placed_eq_nil_of_allowed hallowed,
      List.append_nil]
  have hlabels : s'.labels (here.noted events) = s.labels here := by
    unfold State.labels State.pending
    rw [hplaced, hextends.graph, hextends.current]
    rfl
  have hseen : here.seen ⊆ (here.noted events).seen :=
    List.subset_append_left _ _
  refine ⟨?_, ?_, ?_, ?_, ?_, ?_, ?_, h.words, ?_, ?_,
    hextends.needs.sentinel h.sentinel⟩
  · rw [hextends.graph]
    exact h.shows
  · rw [hextends.current, hextends.functions]
    exact h.current
  · rw [hlabels]
    exact h.distinct
  · intro label hlabel
    rw [hlabels] at hlabel
    unfold Made
    rw [hextends.graph, hextends.functions]
    exact h.made label hlabel
  · rw [hextends.graph, hlabels]
    exact h.frames
  · intro command hcommand
    rw [hlabels]
    rw [hlines, List.mem_append] at hcommand
    rcases hcommand with hold | hnew
    · exact (h.lands command hold).mono (List.Subset.refl _)
        (List.Subset.refl _) hseen hextends.needs
    · exact (hallowed command hnew).lands
  · rw [hplaced]
    exact h.functions
  · intro value hvalue hnewline
    rcases List.mem_append.mp hvalue with hold | hnew
    · exact hextends.needs.newline (h.literals value hold hnewline)
    · exact hliterals value hnew hnewline
  · constructor
    · intro hcapture
      by_contra hseen'
      rw [hextends.uncaptured hseen', h.captures] at hcapture
      exact hseen' (hseen hcapture)
    · intro hcapture
      rcases List.mem_append.mp hcapture with hold | hnew
      · exact hextends.needs.capture (h.captures.mpr hold)
      · exact hcaptures hnew

end State.Sound

/-! Control flow. -/

theorem placed_flow (instructions : List Instruction) :
    placed (instructions.map Command.flow) =
      instructions.filterMap Instruction.label? := by
  unfold placed
  rw [List.filterMap_map]
  congr 1
  funext instruction
  cases instruction <;> rfl

/-- What a step makes of the graph.  It makes the labels `fresh`, writes some of
those that were still to be written, and jumps to labels of open constructs or
to fresh ones. -/
structure Graph.Turn (before after : List OpenConstruct) (g graph : Graph)
    (instructions : List Instruction) (fresh : List String) : Prop where
  shows : List.Forall₂ Frame.Shows after graph.frames
  count : g.labels ≤ graph.labels
  distinct : fresh.Nodup
  made : ∀ label ∈ fresh, ∃ stem ∈ stems, ∃ number, g.labels < number ∧
    number ≤ graph.labels ∧ label = countedLabel stem number
  perm : (instructions.filterMap Instruction.label? ++
    pendingOf after graph.frames).Perm (fresh ++ pendingOf before g.frames)
  frames : graph.frames.flatMap Frame.labels ⊆ fresh ++
    g.frames.flatMap Frame.labels
  targets : instructions.filterMap Instruction.target? ⊆
    fresh ++ g.frames.flatMap Frame.labels

/-- A step that makes no labels. -/
theorem Graph.Turn.old {before after : List OpenConstruct} {g graph : Graph}
    (shows : List.Forall₂ Frame.Shows after graph.frames)
    (hcount : graph.labels = g.labels)
    (perm : (instructions.filterMap Instruction.label? ++ pendingOf after
      graph.frames).Perm (pendingOf before g.frames))
    (frames : graph.frames.flatMap Frame.labels ⊆ g.frames.flatMap Frame.labels)
    (targets : instructions.filterMap Instruction.target? ⊆ g.frames.flatMap
      Frame.labels) : Graph.Turn before after g graph instructions [] :=
  ⟨shows, hcount.ge, List.nodup_nil,
    fun _ hlabel => absurd hlabel List.not_mem_nil, perm, frames, targets⟩

/-- The step succeeds while the constructs are open. -/
def Turns (before after : List OpenConstruct)
    (step : Write Graph (List Instruction)) : Prop :=
  ∀ ⦃g : Graph⦄, List.Forall₂ Frame.Shows before g.frames →
    ∃ instructions graph fresh,
    exec step g = (.ok instructions, graph) ∧
      Graph.Turn before after g graph instructions fresh

namespace State.Sound

variable {here : Progress} {s : State}

theorem flowed {after : Progress} {graph : Graph} {fresh : List String}
    (h : s.Sound here)
    (hafter : after = { here with constructs := after.constructs })
    (hturn : s.graph.Turn here.constructs after.constructs graph instructions
      fresh) : (s.flowed graph instructions).Sound after := by
  obtain ⟨function, constructs, known, seen⟩ := after
  obtain ⟨rfl, rfl, rfl⟩ : function = here.function ∧ known = here.known ∧
      seen = here.seen := by
    simpa using hafter
  have hplaced : placed (s.flowed graph instructions).lines.toList =
      placed s.lines.toList ++ instructions.filterMap Instruction.label? := by
    rw [← placed_flow, ← placed_append]
    simp [State.flowed]
  have hlabels : ((s.flowed graph instructions).labels
      ⟨here.function, constructs, here.known, here.seen⟩).Perm (fresh ++
        s.labels here) := by
    unfold State.labels State.pending
    rw [hplaced, List.append_assoc, ← List.append_assoc
      (instructions.filterMap _)]
    refine ((hturn.perm.append_right _).append_left _).trans ?_
    rw [List.append_assoc]
    exact List.perm_append_comm_assoc _ _ _
  have hmem : ∀ {label}, label ∈ (s.flowed graph instructions).labels
      ⟨here.function, constructs, here.known, here.seen⟩ ↔
      label ∈ fresh ∨ label ∈ s.labels here := by
    intro label
    rw [hlabels.mem_iff, List.mem_append]
  have hopen : ∀ {label}, label ∈ fresh ++ s.graph.frames.flatMap Frame.labels →
      label ∈ (s.flowed graph instructions).labels
        ⟨here.function, constructs, here.known, here.seen⟩ := by
    intro label hlabel
    refine hmem.mpr ((List.mem_append.mp hlabel).imp_right fun hold => ?_)
    obtain ⟨frame, hframe, hin⟩ := List.mem_flatMap.mp hold
    exact h.frames frame hframe label hin
  refine ⟨hturn.shows, h.current, ?_, ?_, ?_, ?_, ?_, h.words, h.literals,
    h.captures, h.sentinel⟩
  · rw [hlabels.nodup_iff, List.nodup_append]
    refine ⟨hturn.distinct, h.distinct, fun label hlabel other hother => ?_⟩
    rintro rfl
    obtain ⟨stem, hstem, number, hlt, _, rfl⟩ := hturn.made label hlabel
    exact not_made_countedLabel hstem hlt (h.made _ hother)
  · intro label hlabel
    rcases hmem.mp hlabel with hnew | hold
    · obtain ⟨stem, hstem, number, _, hle, rfl⟩ := hturn.made label hnew
      exact .inl ⟨stem, hstem, number, hle, rfl⟩
    · rcases h.made label hold with ⟨stem, hstem, number, hle, hlabel⟩ | hmade
      · exact .inl ⟨stem, hstem, number, Nat.le_trans hle hturn.count, hlabel⟩
      · exact .inr hmade
  · exact fun frame hframe label hlabel =>
      hopen (hturn.frames (List.mem_flatMap.mpr ⟨frame, hframe, hlabel⟩))
  · intro command hcommand
    have hcases : command ∈ s.lines.toList ∨
        ∃ i ∈ instructions, Command.flow i = command := by
      simpa [State.flowed] using hcommand
    rcases hcases with hold | ⟨instruction, hinstruction, rfl⟩
    · exact (h.lands command hold).mono
        (fun label hlabel => hmem.mpr (.inr hlabel))
        (List.Subset.refl _) (List.Subset.refl _) (.refl _)
    · cases instruction with
      | label name => trivial
      | jump target =>
          exact hopen
            (hturn.targets (List.mem_filterMap.mpr ⟨_, hinstruction, rfl⟩))
      | jumpUnless condition target =>
          exact hopen
            (hturn.targets (List.mem_filterMap.mpr ⟨_, hinstruction, rfl⟩))
  · intro name hname
    rw [hplaced]
    exact List.mem_append_left _ (h.functions name hname)

end State.Sound

end Batch

end Shellwright
