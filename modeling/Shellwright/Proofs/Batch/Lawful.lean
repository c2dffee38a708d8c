/-
The batch dialect is lawful and strict: it refuses a function that calls itself,
and nothing else in a well-typed program.
-/
import Shellwright.Proofs.Batch.Sound

namespace Shellwright

namespace Batch

variable {s : State}

open Script

section Graph

variable {constructs : List OpenConstruct} {condition : String}

theorem countedLabel_ne {stem other : String} {number number' : Nat}
    (hne : number ≠ number') :
    countedLabel stem number ≠ countedLabel other number' :=
  fun h => hne (countedLabel_inj h)

theorem openBranch_turns :
    Turns constructs (.branch :: constructs) (Graph.openBranch condition) := by
  intro g h
  refine ⟨_, _, [countedLabel "else" (g.labels + 1),
    countedLabel "endif" (g.labels + 2)], exec_openBranch, .cons trivial h,
    Nat.le_add_right _ 2, ?_, ?_, .refl _, List.Subset.refl _, by
      simp [Instruction.target?]⟩
  · simpa using countedLabel_ne (by omega)
  · rintro label (_ | ⟨_, _ | ⟨_, ⟨⟩⟩⟩)
    · exact ⟨"else", by simp [stems], _, Nat.lt_succ_self _, Nat.le_succ _, rfl⟩
    · exact ⟨"endif", by simp [stems], g.labels + 2, by
        omega, Nat.le_refl _, rfl⟩

theorem elseIf_turns :
    Turns (.branch :: constructs) (.branch :: constructs)
      (Graph.elseIf condition) := by
  intro g h
  obtain ⟨frame, frames, hframe, hshows, hframes⟩ :=
    List.forall₂_cons_left_iff.mp h
  obtain ⟨stop, next, rfl⟩ := hframe.branch
  refine ⟨_, _, [countedLabel "else" (g.labels + 1)], exec_elseIf hframes,
    .cons trivial hshows, Nat.le_succ _, List.nodup_singleton _, ?_, ?_, ?_, ?_⟩
  · rintro label (_ | ⟨_, ⟨⟩⟩)
    exact ⟨"else", by simp [stems], _, Nat.lt_succ_self _, Nat.le_refl _, rfl⟩
  · rw [hframes]
    exact .swap _ _ _
  · simp [hframes, Frame.labels]
  · simp [hframes, Frame.labels, Instruction.target?, List.filterMap_cons]

theorem elseBranch_turns :
    Turns (.branch :: constructs) (.alternative :: constructs)
      Graph.elseBranch := by
  intro g h
  obtain ⟨frame, frames, hframe, hshows, hframes⟩ :=
    List.forall₂_cons_left_iff.mp h
  obtain ⟨stop, next, rfl⟩ := hframe.branch
  refine ⟨_, _, [], exec_elseBranch hframes,
    .old (.cons trivial hshows) rfl ?_ ?_ ?_⟩
  · rw [hframes]
    exact .refl _
  · simp [hframes, Frame.labels]
  · simp [hframes, Frame.labels, Instruction.target?, List.filterMap_cons]

theorem closeBranch_turns {construct : OpenConstruct}
    (hconstruct : construct = .branch ∨ construct = .alternative) :
    Turns (construct :: constructs) constructs Graph.closeBranch := by
  intro g h
  obtain ⟨frame, frames, hframe, hshows, hframes⟩ :=
    List.forall₂_cons_left_iff.mp h
  obtain ⟨stop, next, rfl⟩ := hframe.choice hconstruct
  refine ⟨_, _, [], exec_closeBranch hframes,
    .old hshows rfl ?_ (by simp [hframes]) ?_⟩
  · rw [hframes]
    cases next <;> exact .refl _
  · cases next <;> simp [Instruction.target?, List.filterMap_cons]

theorem openLoop_turns : Turns constructs (.started :: constructs)
    Graph.openLoop := by
  intro g h
  refine ⟨_, _, [countedLabel "next" (g.labels + 1),
    countedLabel "cond" (g.labels + 2), countedLabel "done" (g.labels + 3)],
    exec_openLoop, .cons trivial h, Nat.le_add_right _ 3, ?_, ?_, .refl _,
    List.Subset.refl _, by simp [Instruction.target?, List.filterMap_cons]⟩
  · simp only [List.nodup_cons, List.mem_cons, List.not_mem_nil,
      or_false, not_or]
    exact ⟨⟨countedLabel_ne (by omega), countedLabel_ne (by omega)⟩,
      countedLabel_ne (by omega), id, List.nodup_nil⟩
  · rintro label (_ | ⟨_, _ | ⟨_, _ | ⟨_, ⟨⟩⟩⟩⟩)
    · exact ⟨"next", by simp [stems], g.labels + 1, by
        omega, Nat.le_add_right _ 2, rfl⟩
    · exact ⟨"cond", by simp [stems], g.labels + 2, by
        omega, Nat.le_succ _, rfl⟩
    · exact ⟨"done", by simp [stems], g.labels + 3, by
        omega, Nat.le_refl _, rfl⟩

/-- Between the start of a loop and its post statement nothing is written. -/
theorem pure_turns : Turns (.started :: constructs) (.post :: constructs)
    (pure []) := by
  intro g h
  obtain ⟨frame, frames, hframe, hshows, hframes⟩ :=
    List.forall₂_cons_left_iff.mp h
  obtain ⟨next, test, stop, rfl⟩ := hframe.loop rfl
  refine ⟨[], g, [], rfl, .old ?_ rfl ?_ (List.Subset.refl _)
    (List.nil_subset _)⟩
  · rw [hframes]
    exact .cons trivial hshows
  · rw [hframes]
    exact .refl _

theorem loopTest_turns : Turns (.post :: constructs)
    (.loop :: constructs) Graph.loopTest := by
  intro g h
  obtain ⟨frame, frames, hframe, hshows, hframes⟩ :=
    List.forall₂_cons_left_iff.mp h
  obtain ⟨next, test, stop, rfl⟩ := hframe.loop rfl
  refine ⟨_, _, [], exec_loopTest hframes, .old ?_ rfl ?_ (List.Subset.refl _)
    (List.nil_subset _)⟩
  · rw [hframes]
    exact .cons trivial hshows
  · rw [hframes]
    exact .refl _

theorem leaveUnless_turns :
    Turns (.loop :: constructs) (.loop :: constructs)
      (Graph.leaveUnless condition) := by
  intro g h
  obtain ⟨frame, frames, hframe, hshows, hframes⟩ :=
    List.forall₂_cons_left_iff.mp h
  obtain ⟨next, test, stop, rfl⟩ := hframe.loop rfl
  refine ⟨_, _, [], exec_leaveUnless hframes,
    .old h rfl (.refl _) (List.Subset.refl _) ?_⟩
  simp [hframes, Frame.labels, Instruction.target?]

theorem closeLoop_turns : Turns (.loop :: constructs) constructs
    Graph.closeLoop := by
  intro g h
  obtain ⟨frame, frames, hframe, hshows, hframes⟩ :=
    List.forall₂_cons_left_iff.mp h
  obtain ⟨next, test, stop, rfl⟩ := hframe.loop rfl
  refine ⟨_, _, [], exec_closeLoop hframes,
    .old hshows rfl ?_ (by simp [hframes]) ?_⟩
  · rw [hframes]
    exact .refl _
  · simp [hframes, Frame.labels, Instruction.target?, List.filterMap_cons]

/-- An open loop has a frame that tells where to go. -/
theorem innermostLoop?_of_shows {frames : List Frame}
    (hshows : List.Forall₂ Frame.Shows constructs frames)
    (hloop : ∃ construct ∈ constructs, construct.isLoop = true) :
    ∃ next test stop, Graph.innermostLoop? frames = some (next, stop) ∧
      Frame.loop next test stop ∈ frames := by
  induction hshows with
  | nil =>
      obtain ⟨construct, hmem, _⟩ := hloop
      cases hmem
  | @cons construct frame constructs frames hframe _ ih =>
      cases frame with
      | loop next test stop => exact ⟨next, test, stop, rfl, List.mem_cons_self⟩
      | branch stop next =>
          obtain ⟨other, hmem, hother⟩ := hloop
          have hin : other ∈ constructs := by
            rcases List.mem_cons.mp hmem with rfl | hin
            · obtain ⟨next', test, stop', hcontra⟩ := hframe.loop hother
              cases hcontra
            · exact hin
          obtain ⟨next', test, stop', hfound, hframe'⟩ :=
            ih ⟨other, hin, hother⟩
          exact ⟨next', test, stop', hfound, List.mem_cons_of_mem _ hframe'⟩

theorem loopExit_turns {exit : LoopExit}
    (hloop : ∃ construct ∈ constructs, construct.isLoop = true) :
    Turns constructs constructs (Graph.loopExit exit) := by
  intro g h
  obtain ⟨next, test, stop, hfound, hframe⟩ := innermostLoop?_of_shows h hloop
  refine ⟨_, _, [], exec_loopExit hfound exit,
    .old h rfl (.refl _) (List.Subset.refl _) ?_⟩
  refine List.cons_subset.mpr ⟨List.mem_flatMap.mpr ⟨_, hframe, ?_⟩,
    List.nil_subset _⟩
  cases exit <;> simp [Frame.labels]

theorem postStart_eq : (Dialect.postStart : Write State Unit) =
    emitFlow (pure []) := rfl

/-- A step of the graph in a script. -/
theorem Turns.moves {before after : Progress}
    {step : Write Graph (List Instruction)}
    (h : Turns before.constructs after.constructs step)
    (hafter : after = { before with constructs := after.constructs } := by
      rfl) :
    Moves State.Sound before after (emitFlow step) := by
  intro s hs
  obtain ⟨instructions, graph, fresh, hstep, hturn⟩ := h hs.shows
  exact ⟨(), _, exec_emitFlow hstep, trivial, hs.flowed hafter hturn⟩

end Graph

/-! Operations that only add lines. -/

section Lines

variable {α : Type} {able : Prop} {p : Write State α} {Q : α → Prop}
  {count : Nat} {value : String} {here : Progress}

theorem keeps_of_adds (h : ∀ here : Progress, Adds (permitOf here) able p Q)
    (hable : able) : Keeps State.Sound p Q := by
  intro here s hsound
  obtain ⟨a, s', hrun, ha, hextends⟩ := (h here).exec_ok hable s
  refine ⟨a, s', hrun, ha, ?_⟩
  rw [← Progress.noted_nil here] at hextends ⊢
  refine State.Sound.extends_noted hsound ?_ ?_ ?_
  · exact hextends
  · exact fun _ hvalue => (nomatch hvalue)
  · exact fun hcapture => (nomatch hcapture)

theorem adds_sure (h : ∀ here : Progress, Adds (permitOf here) able p Q)
    (hable : able) (hinv : s.Sound here) :
    (Course.sure true State.Sound).Meets none p s (fun _ _ => True) here :=
  (keeps_of_adds h hable).sure hinv

theorem pure_sure {a : α} (hinv : s.Sound here) :
    (Course.sure true State.Sound).Meets none (pure a) s
    (fun _ _ => True) here :=
  .pure trivial hinv

/-- A literal with a line feed makes the script need one. -/
theorem stringLiteral_newline (h : value.toList.contains '\n' = true)
    (s : State) : (exec (stringLiteral value) s).2.needs.newline = true := by
  have hsafe : ¬value.toList.all isSafeChar = true := by
    intro hall
    have hchar := List.all_eq_true.mp hall '\n' (List.contains_iff_mem.mp h)
    exact absurd hchar (by decide)
  have hstored : Adds (permitOf .start) True
      (do return read (← store (escape value)) : Write State String)
        fun _ => True :=
    .bind store_adds fun _ => .pure fun _ => trivial
  unfold stringLiteral
  rw [if_neg hsafe, if_pos h]
  exact (hstored.changes { s with needs :=
    { s.needs with newline := true } }).needs.newline rfl

theorem stringLiteral_meets (h : s.Sound here) :
    Meets State.Sound none (stringLiteral value) s (fun _ => True)
      (here.noted [.literal value]) := by
  have hadds : Adds (permitOf (here.noted [.literal value])) True
    (stringLiteral value)
      fun _ => True := stringLiteral_adds
  obtain ⟨a, s', hrun, ha, hextends⟩ := hadds.exec_ok trivial s
  refine ⟨a, s', hrun, ha, h.extends_noted hextends ?_ ?_⟩
  · intro other hother hnewline
    obtain rfl : other = value := by simpa using hother
    have hneeds := stringLiteral_newline hnewline s
    rwa [hrun] at hneeds
  · simp

/-- Captured output makes the script need the files for it. -/
theorem runProcess_capture (stages : List Invocation) (hcount : count ≠ 0)
    (s : State) :
    (exec (runProcess stages count) s).2.needs.capture = true := by
  have hwords : Adds (permitOf .start) True (stageWords stages) fun _ => True :=
    stageWords_adds
  obtain ⟨words, s', hrun, _, _⟩ := hwords.exec_ok trivial s
  rw [runProcess_eq, exec_bind_ok hrun, if_neg hcount]
  have hrest : Adds ((permitOf .start).calling "__sb_read_file") True
      (capturePipeline (String.intercalate " | " words) count) _ :=
    capturePipeline_adds hcount
  exact (hrest.changes { s' with needs :=
    { s'.needs with capture := true, fileContent := true, newline := true }
      }).needs.capture rfl

theorem runProcess_meets {stages : List Invocation} (hcount : count ≤ 3)
    (h : s.Sound here) :
    Meets State.Sound none (runProcess stages count) s
      (fun results => results.length = count)
      (here.noted [if count = 0 then .command else .capture]) := by
  have hadds :
    Adds (permitOf (here.noted [if count = 0 then .command else .capture])) True
      (runProcess stages count) fun results => results.length =
        min count 3 := by
    refine runProcess_adds (fun hzero line => ?_) fun hcount => ?_
    · simp [permitOf, Own, Progress.noted, hzero]
    · simp [permitOf, Progress.noted, hcount]
  obtain ⟨results, s', hrun, hlength, hextends⟩ := hadds.exec_ok trivial s
  refine ⟨results, s', hrun, hlength.trans (Nat.min_eq_left hcount),
    h.extends_noted hextends ?_ ?_⟩
  · intro value hvalue
    by_cases hzero : count = 0 <;> simp [hzero] at hvalue
  · intro hcapture
    have hzero : count ≠ 0 := by
      rintro rfl
      simp at hcapture
    have hneeds := runProcess_capture stages hzero s
    rwa [hrun] at hneeds

/-- The function being written, as the state has it. -/
theorem State.Sound.current_name (h : s.Sound here) :
    s.current.map FunctionFrame.name = here.function := by
  have hnames := congrArg (Option.map Prod.snd) h.current
  rw [Option.map_map, Option.map_map] at hnames
  simpa [Function.comp_def, FunctionFrame.key] using hnames

/-- A call is refused exactly where the function would call itself. -/
theorem callFunction_meets {name : String} {args : List (String × ValueType)}
    {returns : List ValueType} {used : Bool} (hname : name ∈ here.known)
    (h : s.Sound here) :
    Meets State.Sound (refusal true here.function [.call name])
      (callFunction name args returns used) s
      (fun results => used = true → results.length = returns.length)
      (here.noted [.call name]) := by
  have hrefusal : refusal true here.function [.call name] =
      if here.function = some name then some name else none := by
    simp [refusal]
  rw [hrefusal]
  unfold Meets
  rw [exec_callFunction, h.current_name]
  by_cases hself : here.function = some name
  · rw [if_pos hself, if_pos hself]
    exact ⟨s, rfl⟩
  · rw [if_neg hself, if_neg hself]
    have hadds : Adds (permitOf (here.noted [.call name])) True
        (callAllowed name args returns used) _ :=
      callAllowed_adds ⟨name, hname, rfl⟩
    obtain ⟨results, s', hrun, hlength, hextends⟩ := hadds.exec_ok trivial s
    exact ⟨results, s', hrun, hlength, h.extends_noted hextends (by simp)
      (by simp)⟩

end Lines

/-! Functions. -/

section Functions

variable {name : String} {known : List String} {seen : List Event} {s' : State}
  {params : List Binding} {frame : FunctionFrame}

theorem State.Sound.frames_eq_nil {function : Option String}
    (h : s.Sound ⟨function, [], known, seen⟩) : s.graph.frames = [] :=
  List.forall₂_nil_left_iff.mp h.shows

/-- The state right after the label of a function. -/
def State.entered (s : State) (name : String) (params : List Binding) : State :=
  { s with
    functions := s.functions + 1
    lines := (s.lines.push (.flow (.jump (endLabel (s.functions + 1))))).push
      (.flow (.label (functionLabel name)))
    current := some ⟨s.functions + 1, name, params.map Binding.name⟩ }

theorem exec_functionStart (hcurrent : s.current = none)
    (hframes : s.graph.frames = []) :
    exec (functionStart name params) s =
      exec (bindParameters 0 params) (s.entered name params) := by
  unfold functionStart
  rw [exec_get_bind, if_neg (by simp [hcurrent, Graph.depth, hframes])]
  rfl

theorem functionStart_ok
    (h : exec (functionStart name params) s = (.ok (), s')) :
    exec (bindParameters 0 params) (s.entered name params) = (.ok (), s') := by
  unfold functionStart at h
  rw [exec_get_bind] at h
  split at h
  · cases h
  · exact h

theorem State.Sound.entered {params : List Binding} {s : State}
    (h : s.Sound ⟨none, [], known, seen⟩) (hword : isWord name.toList = true)
    (hname : name ∉ known) :
    (s.entered name params).Sound ⟨some name, [], name :: known, seen⟩ := by
  have hcurrent : s.current = none := by
    simpa using h.current
  have hold : s.labels ⟨none, [], known, seen⟩ = placed s.lines.toList := by
    simp [State.labels, State.pending, hcurrent, h.frames_eq_nil]
  have hplaced : placed (s.entered name params).lines.toList =
      placed s.lines.toList ++ [functionLabel name] := by
    simp only [State.entered, Array.toList_push, List.append_assoc,
      placed_append]
    rfl
  have hnew : (s.entered name params).labels ⟨some name, [],
    name :: known, seen⟩ =
      placed s.lines.toList ++ [functionLabel name,
        endLabel (s.functions + 1)] := by
    unfold State.labels State.pending
    rw [hplaced]
    simp [State.entered, h.frames_eq_nil, FunctionFrame.key]
  have hmade := h.made
  have hdistinct := h.distinct
  have hlands := h.lands
  rw [hold] at hmade hdistinct hlands
  refine ⟨?_, rfl, ?_, ?_, ?_, ?_, ?_, ?_, h.literals, h.captures, h.sentinel⟩
  · exact h.shows
  · rw [hnew, List.nodup_append]
    refine ⟨hdistinct, ?_, ?_⟩
    · simpa using functionLabel_ne_endLabel name (s.functions + 1)
    · rintro label hlabel other (_ | ⟨_, _ | ⟨_, ⟨⟩⟩⟩) rfl
      · exact not_made_functionLabel hname (hmade _ hlabel)
      · exact not_made_endLabel (Nat.lt_succ_self _) (hmade _ hlabel)
  · rw [hnew]
    intro label hlabel
    rcases List.mem_append.mp hlabel with hin | _ | ⟨_, _ | ⟨_, ⟨⟩⟩⟩
    · rcases hmade label hin with hcounted | ⟨other, hother, hlabel⟩
        | ⟨number, hle, hlabel⟩
      · exact .inl hcounted
      · exact .inr (.inl ⟨other, List.mem_cons_of_mem _ hother, hlabel⟩)
      · exact .inr (.inr ⟨number, Nat.le_succ_of_le hle, hlabel⟩)
    · exact .inr (.inl ⟨name, List.mem_cons_self, rfl⟩)
    · exact .inr (.inr ⟨s.functions + 1, Nat.le_refl _, rfl⟩)
  · intro frame hframe
    rw [show (s.entered name params).graph.frames = [] from h.frames_eq_nil]
      at hframe
    cases hframe
  · rw [hnew]
    intro command hcommand
    have hcases : command ∈ s.lines.toList ∨
      command = .flow (.jump (endLabel (s.functions + 1))) ∨
        command = .flow (.label (functionLabel name)) := by
      simpa [State.entered] using hcommand
    rcases hcases with hin | rfl | rfl
    · exact (hlands command hin).mono (List.subset_append_left _ _)
        (List.subset_cons_self _ _) (List.Subset.refl _) (.refl _)
    · exact List.mem_append_right _ (by simp)
    · trivial
  · rw [hplaced]
    rintro other (_ | ⟨_, hother⟩)
    · exact List.mem_append_right _ List.mem_cons_self
    · exact List.mem_append_left _ (h.functions other hother)
  · rintro other (_ | ⟨_, hother⟩)
    · exact hword
    · exact h.words other hother

theorem functionStart_moves (hword : isWord name.toList = true)
    (hname : name ∉ known) :
    Moves State.Sound ⟨none, [], known, seen⟩
      ⟨some name, [], name :: known, seen⟩ (functionStart name params) := by
  intro s h
  have hcurrent : s.current = none := by
    simpa using h.current
  unfold Meets
  rw [exec_functionStart hcurrent h.frames_eq_nil]
  exact keeps_of_adds (fun _ => bindParameters_adds) trivial
    _ _ (h.entered hword hname)

/-- The state right after the label behind a function. -/
def State.left (s : State) (number : Nat) : State :=
  { s with
    current := none
    lines := (s.lines.push .comeBack).push (.flow (.label (endLabel number))) }

theorem exec_functionEnd (hcurrent : s.current = some frame)
    (hframes : s.graph.frames = []) :
    exec functionEnd s = (.ok (), s.left frame.number) := by
  unfold functionEnd
  rw [exec_get_bind, hcurrent]
  show exec (_ >>= _) s = _
  rw [exec_bind_ok (exec_set _ _), if_neg (by simp [Graph.depth, hframes])]
  rfl

theorem functionEnd_ok (h : exec functionEnd s = (.ok (), s')) :
    ∃ number, s' = s.left number := by
  unfold functionEnd at h
  rw [exec_get_bind] at h
  cases hcurrent : s.current with
  | none =>
      rw [hcurrent] at h
      cases h
  | some frame =>
      rw [hcurrent] at h
      change exec (_ >>= _) s = _ at h
      rw [exec_bind_ok (exec_set _ _)] at h
      split at h
      · cases h
      · cases h
        exact ⟨frame.number, rfl⟩

theorem State.Sound.left (hcurrent : s.current = some frame)
    (h : s.Sound ⟨some name, [], known, seen⟩) :
    (s.left frame.number).Sound ⟨none, [], known, seen⟩ := by
  have hplaced : placed (s.left frame.number).lines.toList =
      placed s.lines.toList ++ [endLabel frame.number] := by
    simp only [State.left, Array.toList_push, List.append_assoc, placed_append]
    rfl
  have hlabels : (s.left frame.number).labels ⟨none, [], known, seen⟩ =
      s.labels ⟨some name, [], known, seen⟩ := by
    unfold State.labels State.pending
    rw [hplaced, hcurrent]
    simp [State.left, h.frames_eq_nil, FunctionFrame.key]
  refine ⟨h.shows, rfl, ?_, ?_, ?_, ?_, ?_, h.words, h.literals, h.captures,
    h.sentinel⟩
  · rw [hlabels]
    exact h.distinct
  · rw [hlabels]
    exact h.made
  · rw [hlabels]
    exact h.frames
  · rw [hlabels]
    intro command hcommand
    have hcases : command ∈ s.lines.toList ∨ command = .comeBack ∨
        command = .flow (.label (endLabel frame.number)) := by
      simpa [State.left] using hcommand
    rcases hcases with hin | rfl | rfl
    · exact h.lands command hin
    · trivial
    · trivial
  · rw [hplaced]
    exact fun other hother => List.mem_append_left _ (h.functions other hother)

theorem functionEnd_moves :
    Moves State.Sound ⟨some name, [], known, seen⟩
      ⟨none, [], known, seen⟩ functionEnd := by
  intro s h
  obtain ⟨frame, hcurrent, _⟩ := Option.map_eq_some_iff.mp h.current_name
  exact ⟨(), _, exec_functionEnd hcurrent h.frames_eq_nil, trivial,
    h.left hcurrent⟩

theorem exec_programEnd (h : s.Sound ⟨none, [], known, seen⟩) :
    exec programEnd s =
      (.ok (String.join (s.scriptLines.map (· ++ Shell.batch.lineEnding))),
        { s with lines := #[] }) := by
  have hcurrent : s.current = none := by
    simpa using h.current
  unfold programEnd
  rw [exec_get_bind, if_neg (by simp [Graph.depth, h.frames_eq_nil]),
    if_neg (by simp [hcurrent])]
  rfl

end Functions

theorem lawful : Lawful (Course.sure true State.Sound) where
  fresh := by
    refine ⟨.nil, rfl, List.nodup_nil, ?_, ?_, ?_, ?_, ?_, ?_, ?_, ?_⟩
    · exact fun _ hlabel => (nomatch hlabel)
    · exact fun _ hframe => (nomatch hframe)
    · exact fun _ hcommand => (nomatch hcommand)
    · exact fun _ hname => (nomatch hname)
    · exact fun _ hname => (nomatch hname)
    · exact fun _ hvalue => (nomatch hvalue)
    · exact iff_of_false (by decide) List.not_mem_nil
    · exact fun hneeds => (nomatch hneeds)
  programStart := pure_sure
  boolLiteral := pure_sure
  intLiteral := pure_sure
  stringLiteral h := Course.meets_sure (stringLiteral_meets h)
    fun _ _ _ => trivial
  defineVariable _ _ := adds_sure (fun _ => defineVariable_adds trivial) trivial
  assignVariable _ _ := adds_sure (fun _ => assignVariable_adds) trivial
  storeElement _ _ _ := adds_sure (fun _ => storeElement_adds) trivial
  readVariable _ := adds_sure (fun _ => readVariable_adds) trivial
  readElement _ _ := adds_sure (fun _ => readElement_adds) trivial
  ifStart _ := openBranch_turns.moves.sure
  elseIfStart _ := elseIf_turns.moves.sure
  elseStart := elseBranch_turns.moves.sure
  ifEnd h := (closeBranch_turns h).moves.sure
  loopStart := openLoop_turns.moves.sure
  postStart := postStart_eq ▸ pure_turns.moves.sure
  postEnd := loopTest_turns.moves.sure
  loopCondition _ := leaveUnless_turns.moves.sure
  loopEnd := closeLoop_turns.moves.sure
  leaveLoop h := (loopExit_turns h).moves.sure
  nextRound h := (loopExit_turns h).moves.sure
  functionStart hword _ hnew := (functionStart_moves hword hnew).sure
  functionEnd := functionEnd_moves.sure
  giveBack _ := adds_sure (fun _ => giveBack_adds trivial) trivial
  unary _ := adds_sure (fun _ => unary_adds) rfl
  binary h _ _ := adds_sure (fun _ => binary_adds) h
  compare h _ _ := adds_sure (fun _ => compare_adds) h
  logical _ _ := adds_sure (fun _ => logical_adds) trivial
  print h _ := adds_sure (fun _ => print_adds) h
  panic _ := adds_sure (fun _ => panic_adds trivial trivial trivial) trivial
  listLiteral _ := adds_sure (fun _ => listLiteral_adds) trivial
  listLength _ := adds_sure (fun _ => listLength_adds) trivial
  substring _ _ _ := adds_sure (fun _ => substring_adds) trivial
  stringLength _ := adds_sure (fun _ => stringLength_adds) trivial
  group _ := pure_sure
  callFunction _ hname _ h := Course.meets_sure (callFunction_meets hname h)
    fun _ _ hlength => ⟨fun _ _ => trivial, fun _ => hlength⟩
  runProcess hcount _ h := Course.meets_sure (runProcess_meets hcount h)
    fun _ _ hlength => ⟨fun _ _ => trivial, fun _ => hlength⟩
  inputLine _ h :=
    (adds_sure (fun _ => inputLine_adds) trivial h).weaken
      fun _ _ _ _ => trivial
  copyList _ := adds_sure (fun _ => copyList_adds) trivial
  fileExists _ := adds_sure (fun _ => anyHolds_adds) trivial
  fileContent _ := adds_sure (fun _ => fileContent_adds) trivial
  writeFile _ _ := adds_sure (fun _ => emit_adds fun _ => trivial) trivial
  intToString _ := pure_sure
  stringToInt _ := adds_sure (fun _ => stringToInt_adds) trivial
  noOp := adds_sure (fun _ => emit_adds fun _ => trivial) trivial
  nothing := trivial

end Batch

end Shellwright
