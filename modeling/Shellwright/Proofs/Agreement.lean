/-
The two dialects accept the same trees.  They are coupled by the constructs that
are open: bash counts levels and flags, batch keeps frames.  Both refuse the
same operators, the same loop exits and the same counts of values, whatever the
types in the tree are; only a function that calls itself makes a difference.
-/
import Shellwright.Proofs.Bash.Lawful
import Shellwright.Proofs.Batch.Lawful
import Shellwright.Proofs.Script.Coupling
import Shellwright.Compile

namespace Shellwright

variable {able : Prop} {name operand right : String} {exit : LoopExit}
  {here : Progress} {op : CompareOp} {ty : ValueType} {params : List Binding}

open Script

/-! What bash refuses. -/

namespace Bash

variable {s : State}

theorem unary_refuses {op : UnaryOp} (h : ty ≠ op.operand) :
    (exec (unary op operand ty) s).1 = .error
    (.unsupportedOperator op.symbol ty) := by
  unfold unary
  split
  · exact absurd rfl h
  · exact absurd rfl h
  · rfl

theorem binary_refuses {op : BinaryOp} {left : String} (h : ¬op.DefinedOn ty) :
    (exec (binary op left right ty) s).1 = .error
    (.unsupportedOperator op.symbol ty) := by
  unfold binary
  split
  · exact absurd (.inl rfl) h
  · exact absurd (.inr ⟨rfl, rfl⟩) h
  · rfl

theorem compare_refuses {left : String} (h : ¬op.DefinedOn ty) :
    (exec (compare op left right ty) s).1 = .error
    (.unsupportedOperator op.symbol ty) := by
  unfold compare
  split
  · exact absurd ⟨rfl, fun _ => rfl⟩ h
  · exact absurd ⟨rfl, nofun⟩ h
  · exact absurd ⟨rfl, nofun⟩ h
  · exact absurd ⟨rfl, nofun⟩ h
  · exact absurd ⟨rfl, nofun⟩ h
  · rfl

theorem loopExit_refuses {command : Command} (hnested : s.Nested here)
    (hloop : ¬here.InLoop) :
    (exec (loopExit exit command) s).1 = .error (.outsideLoop exit) := by
  have hnone : here.constructs.filter OpenConstruct.isLoop = [] := by
    rw [List.filter_eq_nil_iff]
    exact fun construct hmem hconstruct => hloop ⟨construct, hmem, hconstruct⟩
  have hflags : s.flags = [] := by
    rw [← List.length_eq_zero_iff, hnested.flags, loopsOf, hnone,
      List.length_nil]
  unfold loopExit
  rw [exec_get_bind, hflags]
  rfl

/-- Which functions are known makes no difference to the nesting. -/
theorem functionStart_nests :
    Moves State.Nested .start { Progress.start with function := some name }
      (functionStart name params) := by
  intro s h
  have hmoves : Moves State.Nested .start ⟨some name, [], [name], []⟩
      (functionStart name params) :=
    functionStart_moves
  obtain ⟨_, s', hrun, _, hnested⟩ := hmoves s h
  exact ⟨(), s', hrun, trivial, hnested.depth, hnested.flags,
    hnested.inFunction⟩

end Bash

namespace Batch

variable {s : State}

/-! What batch refuses. -/

theorem unary_refuses {op : UnaryOp} (h : ty ≠ op.operand) :
    (exec (unary op operand ty) s).1 = .error
    (.unsupportedOperator op.symbol ty) := by
  have hhelper : exec helper s = (.ok ("__sb_h" ++ toString (s.helpers + 1)),
      { s with helpers := s.helpers + 1 }) := rfl
  unfold unary
  rw [exec_bind_ok hhelper]
  split
  · exact absurd rfl h
  · exact absurd rfl h
  · rfl

theorem binary_refuses {op : BinaryOp} {left : String} (h : ¬op.DefinedOn ty) :
    (exec (binary op left right ty) s).1 = .error
    (.unsupportedOperator op.symbol ty) := by
  unfold binary
  split
  · exact absurd (.inl rfl) h
  · exact absurd (.inr ⟨rfl, rfl⟩) h
  · rfl

theorem comparisonTest?_eq_none (left right : String) (h : ¬op.DefinedOn ty) :
    comparisonTest? op left right ty = none := by
  unfold comparisonTest?
  dsimp only
  split
  · exact absurd ⟨rfl, fun _ => rfl⟩ h
  · exact absurd ⟨rfl, nofun⟩ h
  · exact absurd ⟨rfl, nofun⟩ h
  · exact absurd ⟨rfl, nofun⟩ h
  · exact absurd ⟨rfl, nofun⟩ h
  · rfl

theorem compare_refuses {left : String} (h : ¬op.DefinedOn ty) :
    (exec (compare op left right ty) s).1 = .error
    (.unsupportedOperator op.symbol ty) := by
  unfold compare
  rw [comparisonTest?_eq_none left right h]
  rfl

/-! Frames. -/

/-- The frames are those of the open constructs. -/
structure State.Framed (here : Progress) (s : State) : Prop where
  shows : List.Forall₂ Frame.Shows here.constructs s.graph.frames
  current : s.current.isSome = here.function.isSome

theorem State.Framed.extends {s' : State} {permit : Permit} (h : s.Framed here)
    (hextends : s.Extends permit s') : s'.Framed here where
  shows := by
    rw [hextends.graph]
    exact h.shows
  current := by
    have hsome := congrArg Option.isSome hextends.current
    rw [Option.isSome_map, Option.isSome_map] at hsome
    exact hsome.trans h.current

theorem Turns.frames {before after : Progress}
    {step : Write Graph (List Instruction)}
    (h : Turns before.constructs after.constructs step)
    (hfunction : after.function = before.function := by rfl) :
    Moves State.Framed before after (emitFlow step) := by
  intro s hs
  obtain ⟨_, _, _, hstep, hturn⟩ := h hs.shows
  exact ⟨(), _, exec_emitFlow hstep, trivial, hturn.shows,
    hfunction ▸ hs.current⟩

section Moves

variable {here : Progress}

theorem Frame.Shows.isLoop {construct : OpenConstruct} {next test stop : String}
    (h : (Frame.loop next test stop).Shows construct) :
    construct.isLoop = true := by
  match construct, h with
  | .started, _ | .post, _ | .loop, _ => rfl

theorem innermostLoop?_eq_none {constructs : List OpenConstruct}
    {frames : List Frame} (hshows : List.Forall₂ Frame.Shows constructs frames)
    (hloop : ∀ construct ∈ constructs, construct.isLoop = false) :
    Graph.innermostLoop? frames = none := by
  induction hshows with
  | nil => rfl
  | @cons construct frame constructs frames hframe _ ih =>
      obtain ⟨hfirst, hrest⟩ := List.forall_mem_cons.mp hloop
      cases frame with
      | branch stop next => exact ih hrest
      | loop next test stop =>
          rw [hframe.isLoop] at hfirst
          cases hfirst

theorem loopExit_refuses (hframed : s.Framed here) (hloop : ¬here.InLoop) :
    (exec (emitFlow (Graph.loopExit exit)) s).1 = .error
    (.outsideLoop exit) := by
  have hnone : Graph.innermostLoop? s.graph.frames = none := by
    refine innermostLoop?_eq_none hframed.shows fun construct hmem => ?_
    exact Bool.eq_false_iff.mpr fun hconstruct =>
      hloop ⟨construct, hmem, hconstruct⟩
  rw [exec_emitFlow_error (exec_loopExit_outside hnone exit)]

end Moves

theorem Adds.frames {α : Type} {p : Write State α} {Q : α → Prop}
    (h : Adds .all able p Q) (hable : able) :
    Script.Keeps State.Framed p Q := by
  intro here s hframed
  obtain ⟨a, s', hrun, ha, hextends⟩ := h.exec_ok hable s
  exact ⟨a, s', hrun, ha, hframed.extends hextends⟩

theorem State.Framed.outside (h : s.Framed .start) :
    s.current = none ∧ s.graph.frames = [] :=
  ⟨by simpa [Progress.start] using h.current,
    List.forall₂_nil_left_iff.mp h.shows⟩

theorem functionStart_frames :
    Moves State.Framed .start { Progress.start with function := some name }
      (functionStart name params) := by
  intro s h
  obtain ⟨hcurrent, hframes⟩ := h.outside
  unfold Meets
  rw [exec_functionStart hcurrent hframes]
  exact Adds.frames bindParameters_adds trivial _ _ ⟨h.shows, rfl⟩

theorem functionEnd_frames :
    Moves State.Framed { Progress.start with function := some name }
      .start functionEnd := by
  intro s h
  obtain ⟨frame, hcurrent⟩ := Option.isSome_iff_exists.mp h.current
  have hframes : s.graph.frames = [] := List.forall₂_nil_left_iff.mp h.shows
  exact ⟨(), _, exec_functionEnd hcurrent hframes, trivial, h.shows, rfl⟩

theorem programEnd_frames (h : s.Framed .start) :
    Meets State.Framed none programEnd s (fun _ => True) .start := by
  obtain ⟨hcurrent, hframes⟩ := h.outside
  unfold Meets programEnd
  rw [exec_get_bind, if_neg (by simp [Graph.depth, hframes]),
    if_neg (by simp [hcurrent])]
  exact ⟨_, _, rfl, trivial, h.shows, h.current⟩

end Batch

/-! Side by side. -/

/-- The states of both dialects fit the open constructs.  Fragments are not
compared, and batch may refuse a call for recursion. -/
def sideBySide : Coupling Bash.State Batch.State where
  excused error := ∃ name, error = .recursion name .batch
  states here s t := s.Nested here ∧ t.Framed here
  fragments _ _ := True

section

variable {α β : Type} {p : Write Bash.State α} {q : Write Batch.State β}
  {P : α → Prop} {Q : β → Prop} {R : α → β → Prop} {before after : Progress}
  {mentions : List Mention} {error : ScriptError}

/-- Two operations that succeed. -/
theorem matches_of_meets
    (hp : ∀ s, s.Nested before → Meets Bash.State.Nested none p s P after)
    (hq : ∀ t, t.Framed before → Meets Batch.State.Framed none q t Q after)
    (hR : ∀ a b, P a → Q b → R a b) :
    sideBySide.Matches before after p q R := by
  rintro s t ⟨hs, ht⟩
  obtain ⟨a, s', hp, ha, hs'⟩ := hp s hs
  obtain ⟨b, t', hq, hb, ht'⟩ := hq t ht
  rw [hp, hq]
  exact .done (hR a b ha hb) ⟨hs', ht'⟩

theorem matches_of_moves {p : Write Bash.State Unit}
    {q : Write Batch.State Unit} (hp : Moves Bash.State.Nested before after p)
    (hq : Moves Batch.State.Framed before after q) :
    sideBySide.Matches before after p q fun _ _ => True :=
  matches_of_meets hp hq fun _ _ _ _ => trivial

/-- Two operations that succeed and open or close nothing. -/
theorem keeps_of_both (hp : ∀ scope, Bash.Does True scope mentions p P)
    (hq : Batch.Adds .all True q Q) (hR : ∀ a b, P a → Q b → R a b) :
    sideBySide.Keeps p q R := fun here =>
  matches_of_meets (fun s hs => Bash.Does.keeps hp trivial here s hs)
    (fun t ht => hq.frames trivial here t ht) hR

theorem keeps_of_plain (hp : ∀ scope, Bash.Does True scope mentions p P)
    (hq : Batch.Adds .all True q fun _ => True) :
    sideBySide.Keeps p q fun _ _ => True :=
  keeps_of_both hp hq fun _ _ _ _ => trivial

/-- Two operations that fail alike. -/
theorem inStep_of_errors {s : Bash.State} {t : Batch.State}
    (hp : (exec p s).1 = .error error) (hq : (exec q t).1 = .error error) :
    sideBySide.InStep after R (exec p s) (exec q t) := by
  rcases hrun : exec p s with ⟨result, s'⟩
  rcases hrun' : exec q t with ⟨result', t'⟩
  rw [hrun] at hp
  rw [hrun'] at hq
  obtain rfl : result = _ := hp
  obtain rfl : result' = _ := hq
  exact .failed

/-- Two operations that are defined on the same operands. -/
theorem keeps_of_defined
    (hp : ∀ scope, Bash.Does able scope mentions p fun _ => True)
    (hq : Batch.Adds .all able q fun _ => True)
    (hfails : ¬able → ∀ s, (exec p s).1 = .error error)
    (hfails' : ¬able → ∀ t, (exec q t).1 = .error error) :
    sideBySide.Keeps p q fun _ _ => True := by
  intro here
  by_cases hable : able
  · exact keeps_of_plain
      (fun scope => ⟨(hp scope).enters, fun _ => (hp scope).succeeds hable⟩)
      (hq.weaken (fun _ => hable) fun _ _ => id) here
  · exact fun s t _ => inStep_of_errors (hfails hable s) (hfails' hable t)

end

theorem loopExit_keeps {command : Bash.Command} :
    sideBySide.Keeps (Bash.loopExit exit command)
      (Batch.emitFlow (Batch.Graph.loopExit exit)) fun _ _ => True := by
  intro here
  by_cases hloop : here.InLoop
  · exact matches_of_moves (Bash.loopExit_moves hloop)
      (Batch.loopExit_turns hloop).frames
  · exact fun s t h => inStep_of_errors (Bash.loopExit_refuses h.1 hloop)
      (Batch.loopExit_refuses h.2 hloop)

theorem forall₂_of_length_eq {first second : List String}
    (h : first.length = second.length) : sideBySide.texts first second :=
  List.forall₂_iff_zip.mpr ⟨h, fun _ => trivial⟩

/-- Where batch does not refuse a call, both dialects yield as many results. -/
theorem callFunction_keeps {args args' : List (String × ValueType)}
    {returns : List ValueType} {used : Bool} :
    sideBySide.Keeps (Bash.callFunction name args returns used)
      (Batch.callFunction name args' returns used) fun results results' =>
        used = true → sideBySide.texts results results' := by
  intro here s t hstates
  rw [Batch.exec_callFunction]
  by_cases hname : t.current.map Batch.FunctionFrame.name = some name
  · rw [if_pos hname]
    exact .excused ⟨name, rfl⟩
  · rw [if_neg hname]
    have hboth : sideBySide.Keeps (Bash.callFunction name args returns used)
        (Batch.callAllowed name args' returns used) fun results results' =>
          used = true → sideBySide.texts results results' :=
      keeps_of_both (fun _ => Bash.callFunction_straight)
        (Batch.callAllowed_adds trivial)
        fun _ _ hresults hlength hused => forall₂_of_length_eq
          ((hresults.length_eq.trans
            (congrArg List.length (if_pos hused))).trans (hlength hused).symm)
    exact hboth here s t hstates

theorem runProcess_keeps {stages stages' : List Invocation} {count : Nat} :
    sideBySide.Keeps (Bash.runProcess stages count)
      (Batch.runProcess stages' count) sideBySide.texts :=
  keeps_of_both (fun _ => Bash.runProcess_straight)
    (Batch.runProcess_adds (fun _ _ => trivial) fun _ => trivial)
    fun _ _ hvalues hlength => forall₂_of_length_eq
      (hvalues.length.trans hlength.symm)

theorem print_keeps {value value' : String} :
    sideBySide.Keeps (Bash.print value ty) (Batch.print value' ty)
      fun _ _ => True := by
  unfold Bash.print Batch.print
  split
  · exact fun _ => .throw
  · exact keeps_of_plain
      (fun _ => Bash.emit_front "printf '%s\\n' " (by decide) rfl rfl rfl)
      (Batch.emit_adds fun _ => trivial)

/-- Batch writes lines where bash has an expression, and never fails there. -/
theorem pure_keeps {text : String} {q : Write Batch.State String}
    (h : Batch.Adds .all True q fun _ => True) :
    sideBySide.Keeps (pure text) q fun _ _ => True :=
  keeps_of_plain (P := fun _ => True) (fun _ => .pure trivial) h

theorem programEnd_matches :
    sideBySide.Matches .start .start Bash.programEnd Batch.programEnd
      fun _ _ => True := by
  refine matches_of_meets (P := fun _ => True) (fun s hs => ?_)
    (fun t ht => Batch.programEnd_frames ht) fun _ _ _ _ => trivial
  obtain ⟨script, hrun⟩ := Bash.programEnd_ok hs
  exact ⟨script, s, hrun, trivial, hs⟩

theorem sideBySide_coupled : Coupled sideBySide where
  fresh := ⟨⟨rfl, rfl, rfl⟩, .nil, rfl⟩
  programStart _ := .pure trivial
  programEnd := programEnd_matches
  boolLiteral _ := .pure trivial
  intLiteral _ := .pure trivial
  stringLiteral := pure_keeps Batch.stringLiteral_adds
  defineVariable _ := keeps_of_plain (fun _ => Bash.defineVariable_does)
    (Batch.defineVariable_adds trivial)
  assignVariable _ := keeps_of_plain (fun _ => Bash.assignVariable_does)
    Batch.assignVariable_adds
  storeElement _ _ := keeps_of_plain (fun _ => Bash.storeElement_does)
    Batch.storeElement_adds
  readVariable := pure_keeps Batch.readVariable_adds
  readElement _ _ := pure_keeps Batch.readElement_adds
  ifStart _ := matches_of_moves Bash.ifStart_moves Batch.openBranch_turns.frames
  elseIfStart _ := matches_of_moves Bash.elseIfStart_moves
    Batch.elseIf_turns.frames
  elseStart := matches_of_moves Bash.elseStart_moves
    Batch.elseBranch_turns.frames
  ifEnd h := matches_of_moves (Bash.ifEnd_moves h)
    (Batch.closeBranch_turns h).frames
  loopStart := matches_of_moves Bash.loopStart_moves Batch.openLoop_turns.frames
  postStart := matches_of_moves Bash.postStart_moves
    (Batch.postStart_eq ▸ Batch.pure_turns.frames)
  postEnd := matches_of_moves Bash.postEnd_moves Batch.loopTest_turns.frames
  loopCondition _ := matches_of_moves (Bash.emit_keeps _)
    Batch.leaveUnless_turns.frames
  loopEnd := matches_of_moves Bash.loopEnd_moves Batch.closeLoop_turns.frames
  leaveLoop := loopExit_keeps
  nextRound := loopExit_keeps
  functionStart := matches_of_moves Bash.functionStart_nests
    Batch.functionStart_frames
  functionEnd := matches_of_moves Bash.functionEnd_moves
    Batch.functionEnd_frames
  giveBack _ := keeps_of_plain (fun _ => Bash.giveBack_straight)
    (Batch.giveBack_adds trivial)
  unary _ := keeps_of_defined
    (fun _ => Bash.unary_straight trivial trivial) Batch.unary_adds
    (fun h _ => Bash.unary_refuses h) fun h _ => Batch.unary_refuses h
  binary _ _ := keeps_of_defined
    (fun _ => Bash.binary_straight (fun _ => trivial) fun _ => trivial)
      Batch.binary_adds
    (fun h _ => Bash.binary_refuses h) fun h _ => Batch.binary_refuses h
  compare _ _ := keeps_of_defined
    (fun _ => Bash.compare_straight (fun _ => trivial) (fun _ => trivial)
      fun _ => trivial)
    Batch.compare_adds
    (fun h _ => Bash.compare_refuses h) fun h _ => Batch.compare_refuses h
  logical _ _ := pure_keeps Batch.logical_adds
  print _ := print_keeps
  panic _ := keeps_of_plain (fun _ => Bash.panic_straight)
    (Batch.panic_adds trivial trivial trivial)
  listLiteral _ := keeps_of_plain (fun _ => Bash.listLiteral_straight)
    Batch.listLiteral_adds
  listLength _ := pure_keeps Batch.listLength_adds
  substring _ _ _ := keeps_of_plain (fun _ => Bash.substring_straight)
    Batch.substring_adds
  stringLength _ := keeps_of_plain (fun _ => Bash.stringLength_straight)
    Batch.stringLength_adds
  group _ _ := .pure trivial
  callFunction _ := callFunction_keeps
  runProcess _ := runProcess_keeps
  inputLine _ := keeps_of_plain (fun _ => Bash.inputLine_straight)
    Batch.inputLine_adds
  copyList _ := keeps_of_plain (fun _ => Bash.copyList_straight)
    Batch.copyList_adds
  fileExists _ := pure_keeps Batch.anyHolds_adds
  fileContent _ := keeps_of_plain (fun _ => Bash.fileContent_straight)
    Batch.fileContent_adds
  writeFile _ _ := keeps_of_plain (fun _ => Bash.writeFile_straight)
    (Batch.emit_adds fun _ => trivial)
  intToString _ _ := .pure trivial
  stringToInt _ := keeps_of_plain (fun _ => Bash.stringToInt_straight)
    Batch.stringToInt_adds
  noOp := keeps_of_plain (fun _ => Bash.nothing_straight)
    (Batch.emit_adds fun _ => trivial)
  nothing := trivial

/-- Whatever the types in a tree are, batch refuses a function that calls
itself, or both shells have a script, or both fail with the same error. -/
theorem shells_accept_the_same_trees {program : Program}
    (h : program.isNested = true) :
    (∃ name, program.script .batch = .error (.recursion name .batch)) ∨
      (∃ bash batch, program.script .bash = .ok bash ∧
        program.script .batch = .ok batch) ∨
      ∃ error, program.script .bash = .error error ∧
        program.script .batch = .error error := by
  have hbash : program.script .bash =
    (exec (generate program) Bash.State.fresh).1 := rfl
  have hbatch : program.script .batch =
    (exec (generate program) Batch.State.fresh).1 := rfl
  have hstep := generate_matches sideBySide_coupled h
    _ _ sideBySide_coupled.fresh
  rw [hbash, hbatch]
  rcases hrun : exec (generate program) (Dialect.fresh : Bash.State)
    with ⟨outcome, s⟩
  rcases hrun' : exec (generate program) (Dialect.fresh : Batch.State)
    with ⟨outcome', t⟩
  rw [hrun, hrun'] at hstep
  cases hstep with
  | excused hexcused =>
      obtain ⟨name, rfl⟩ := hexcused
      exact .inl ⟨name, rfl⟩
  | failed => exact .inr (.inr ⟨_, rfl, rfl⟩)
  | done => exact .inr (.inl ⟨_, _, rfl, rfl⟩)

/-- A loop exit outside of loops, behind a function with one inside: both shells
refuse it alike. -/
theorem shells_accept_the_same_trees_exit :
    let program : Program :=
      ⟨[.function "f" [] [] [.loop none none none [.leaveLoop]],
        .choose [(.bool true [.bool], [.nextRound])] none]⟩
    program.isNested = true ∧ program.script .bash =
      .error (.outsideLoop .next) ∧
      program.script .batch = .error (.outsideLoop .next) := by
  intro program
  have hnested : program.isNested = true := rfl
  have hbatch : program.script .batch = .error (.outsideLoop .next) := by
    decide +kernel
  refine ⟨hnested, ?_, hbatch⟩
  have hagree := shells_accept_the_same_trees hnested
  rw [hbatch] at hagree
  rcases hagree with ⟨_, ⟨⟩⟩ | ⟨_, _, _, ⟨⟩⟩ | ⟨_, hbash, ⟨⟩⟩
  exact hbash

end Shellwright
