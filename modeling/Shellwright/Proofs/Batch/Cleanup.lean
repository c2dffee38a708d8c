/-
Removal of captured output in batch scripts.  Only at the end of a program is it
known whether output is captured anywhere; until then the places of the exits
behind panics are kept.  Lines put in at these places later, from the last one
to the first, stand between the message of a panic and its exit, and nowhere
else.
-/
import Shellwright.Proofs.Batch.Margin
import Shellwright.Proofs.Script.Journal

namespace Shellwright

namespace Batch

variable {name : String} {command : Command}

open Script (Journal exec)

/-- What is written at a time: a line, or the message and the exit of a
panic. -/
inductive Piece where
  | line (command : Command)
  | panic (message : String) (leave : Command)

namespace Piece

def lines : Piece → List Command
  | line command => [command]
  | panic message leave => [.echo ("panic: " ++ message), leave]

/-- The lines if output is captured. -/
def cleaned : Piece → List Command
  | line command => [command]
  | panic message leave =>
      [.echo ("panic: " ++ message), .removeCaptured, leave]

def isPanic : Piece → Bool
  | line _ => false
  | panic _ _ => true

/-- Only panics leave the script, and nothing is removed yet. -/
def IsProper : Piece → Prop
  | line command =>
      command ≠ .removeCaptured ∧ command ≠ .quit ∧ ∀ code, command ≠ .exit code
  | panic _ leave => leave = .quit ∨ leave = .exit 1

/-- Where the exits are if the first piece starts at `place`. -/
def exits (place : Nat) : List Piece → List Nat
  | [] => []
  | line _ :: rest => exits (place + 1) rest
  | panic _ _ :: rest => (place + 1) :: exits (place + 2) rest

theorem exits_append (place : Nat) (first second : List Piece) :
    exits place (first ++ second) =
      exits place first ++ exits (place + (first.flatMap lines).length)
        second := by
  induction first generalizing place with
  | nil => simp [exits]
  | cons piece first ih =>
      cases piece with
      | line command => simp [exits, ih, lines, Nat.add_assoc, Nat.add_comm 1]
      | panic message leave =>
          simp [exits, ih, lines, Nat.add_assoc, Nat.add_comm 2]

theorem exits_of_lines (place : Nat) (commands : List Command) :
    exits place (commands.map line) = [] := by
  induction commands generalizing place with
  | nil => rfl
  | cons command commands ih => exact ih _

theorem insertIdx_append_length {α : Type} (front rest : List α) (item : α) :
    (front ++ rest).insertIdx front.length item = front ++ item :: rest := by
  induction front with
  | nil => rfl
  | cons first front ih => simp [ih]

/-- Each insertion leaves alone the places in front of it, so that the last one
comes first. -/
theorem insert_exits (front : List Command) (pieces : List Piece) :
    (exits front.length pieces).foldr
    (fun place lines => lines.insertIdx place .removeCaptured)
      (front ++ pieces.flatMap lines) = front ++ pieces.flatMap cleaned := by
  induction pieces generalizing front with
  | nil => rfl
  | cons piece pieces ih =>
      cases piece with
      | line command =>
          have hrest := ih (front ++ [command])
          simpa [exits, lines, cleaned] using hrest
      | panic message leave =>
          have hrest := ih (front ++ [.echo ("panic: " ++ message), leave])
          have hinsert := insertIdx_append_length
            (front ++ [.echo ("panic: " ++ message)])
            (leave :: pieces.flatMap cleaned) .removeCaptured
          simp only [List.length_append, List.length_cons, List.length_nil,
            List.append_assoc, List.cons_append,
            List.nil_append] at hrest hinsert
          simp only [exits, List.foldr_cons, List.flatMap_cons, lines,
            List.cons_append, List.nil_append, hrest]
          exact hinsert

end Piece

/-- The pieces have been written between two states. -/
structure State.Writes (pieces : List Piece) (s s' : State) : Prop where
  lines : s'.lines.toList = s.lines.toList ++ pieces.flatMap Piece.lines
  exits : s'.panicExits = (Piece.exits s.lines.size pieces).reverse ++
    s.panicExits
  proper : ∀ piece ∈ pieces, piece.IsProper

theorem State.Writes.trans {s mid s' : State} {first second : List Piece}
    (hfirst : s.Writes first mid) (hsecond : mid.Writes second s') :
    s.Writes (first ++ second) s' where
  lines := by rw [hsecond.lines, hfirst.lines, List.flatMap_append,
    List.append_assoc]
  exits := by
    have hsize : mid.lines.size = s.lines.size +
        (first.flatMap Piece.lines).length := by
      rw [← Array.length_toList, hfirst.lines, List.length_append,
        Array.length_toList]
    rw [hsecond.exits, hfirst.exits, Piece.exits_append, hsize,
      List.reverse_append, List.append_assoc]
  proper := List.forall_mem_append.mpr ⟨hfirst.proper, hsecond.proper⟩

/-- Every panic has been written as one piece. -/
def panicsNoted : Journal State where
  step mentions s s' := ∃ pieces, s.Writes pieces s' ∧
    pieces.countP Piece.isPanic = mentions.count .panic
  fragment _ := True
  refl s := ⟨[], ⟨by simp, rfl, by simp⟩, rfl⟩
  trans := by
    rintro first second s mid s' ⟨pieces, hpieces, hcount⟩
      ⟨pieces', hpieces', hcount'⟩
    exact ⟨pieces ++ pieces', hpieces.trans hpieces', by
      rw [List.countP_append, List.count_append, hcount, hcount']⟩

/-- Anything but leaving the script. -/
def staying : Permit where
  callable _ := True
  own
    | .quit | .exit _ => False
    | _ => True
  declares := True
  panics := False
  captures := True

section Operations

variable {α : Type} {p : Write State α} {Q : α → Prop} {s s' : State}
  {mentions : List Mention}

theorem State.Writes.of_lines {commands : List Command}
    (hlines : s'.lines.toList = s.lines.toList ++ commands)
    (hexits : s'.panicExits = s.panicExits)
    (hproper : ∀ command ∈ commands, (Piece.line command).IsProper) :
    s.Writes (commands.map .line) s' where
  lines := by rw [hlines, List.flatMap_map]; simp [Piece.lines]
  exits := by rw [Piece.exits_of_lines]; exact hexits
  proper := List.forall_mem_map.mpr hproper

theorem lines_noted (hmentions : mentions.count .panic = 0)
    (commands : List Command)
    (hlines : s'.lines.toList = s.lines.toList ++ commands)
    (hexits : s'.panicExits = s.panicExits)
    (hproper : ∀ command ∈ commands, (Piece.line command).IsProper) :
    panicsNoted.step mentions s s' :=
  ⟨_, .of_lines hlines hexits hproper, by
    simp [hmentions, Function.comp_def, Piece.isPanic]⟩

theorem isProper_of_allowed {needs : Needs}
    (h : command.Allowed staying needs) : (Piece.line command).IsProper := by
  refine ⟨?_, ?_, ?_⟩
  · rintro rfl
    exact h
  · rintro rfl
    exact h
  · rintro code rfl
    exact h

theorem adds_noted (hmentions : mentions.count .panic = 0)
    (h : Adds staying False p Q) :
    panicsNoted.Enters mentions p fun _ => True := by
  intro s a s' hrun
  obtain ⟨⟨commands, hlines, hallowed⟩, -, -, -, -, -, hexits, -⟩ := h.changes s
  rw [hrun] at hlines hexits
  exact ⟨lines_noted hmentions commands hlines (hexits id)
    fun command hcommand =>
    isProper_of_allowed (hallowed command hcommand), trivial⟩

theorem emitFlow_panicless {step : Write Graph (List Instruction)} :
    panicsNoted.Enters [] (emitFlow step) fun _ => True := by
  intro s a s' hrun
  rcases hstep : exec step s.graph with ⟨result, graph⟩
  cases result with
  | error error =>
      rw [exec_emitFlow_error hstep] at hrun
      cases hrun
  | ok instructions =>
      rw [exec_emitFlow hstep] at hrun
      obtain rfl : s.flowed graph instructions = s' := (Prod.mk.inj hrun).2
      refine ⟨lines_noted rfl (instructions.map Command.flow)
        (by simp [State.flowed]) rfl ?_, trivial⟩
      exact List.forall_mem_map.mpr fun _ _ => ⟨by simp, by simp, by simp⟩

theorem panic_noted {message : String} :
    panicsNoted.Enters [.panic] (panic message) fun _ => True := by
  intro s a s' hrun
  obtain rfl : { s with
      lines := (s.lines.push (.echo ("panic: " ++ message))).push
        (if s.current.isSome then .quit else .exit 1)
      panicExits := (s.lines.push (.echo ("panic: " ++ message))).size ::
        s.panicExits } = s' :=
    (Prod.mk.inj hrun).2
  refine ⟨⟨[.panic message (if s.current.isSome then .quit else .exit 1)],
    ⟨?_, ?_, ?_⟩, rfl⟩, trivial⟩
  · simp [Piece.lines]
  · simp [Piece.exits]
  · rw [List.forall_mem_singleton]
    cases s.current.isSome with
    | true => exact .inl rfl
    | false => exact .inr rfl

theorem callFunction_panicless {args : List (String × ValueType)}
    {returns : List ValueType} {used : Bool} :
    panicsNoted.Enters [.call name] (callFunction name args returns used)
      fun _ => True := by
  have hallowed : Adds staying False (callAllowed name args returns used) _ :=
    callAllowed_adds trivial
  intro s a s' hrun
  rw [exec_callFunction] at hrun
  split at hrun
  · cases hrun
  · exact adds_noted rfl hallowed s a s' hrun

theorem functionStart_panicless {params : List Binding} :
    panicsNoted.Enters (params.map fun param => .define param.name)
      (functionStart name params) fun _ => True := by
  have hparams : Adds staying False (bindParameters 0 params) _ :=
    bindParameters_adds
  intro s a s' hrun
  have henter : panicsNoted.step [] s (s.entered name params) :=
    lines_noted rfl [.flow (.jump (endLabel (s.functions + 1))),
      .flow (.label (functionLabel name))] (by simp [State.entered]) rfl
        (by simp [Piece.IsProper])
  have hnone :
      (params.map fun param => Mention.define param.name).count .panic = 0 := by
    simp [List.count_eq_zero]
  obtain ⟨hbound, _⟩ := adds_noted hnone hparams _ a s' (functionStart_ok hrun)
  exact ⟨panicsNoted.trans henter hbound, trivial⟩

theorem functionEnd_panicless : panicsNoted.Enters [] functionEnd
    fun _ => True := by
  intro s a s' hrun
  obtain ⟨number, rfl⟩ := functionEnd_ok hrun
  exact ⟨lines_noted rfl [.comeBack, .flow (.label (endLabel number))]
    (by simp [State.left]) rfl (by simp [Piece.IsProper]), trivial⟩

theorem panicsNoted_programs : panicsNoted.Programs where
  boolLiteral := .pure trivial
  intLiteral := .pure trivial
  stringLiteral := adds_noted rfl stringLiteral_adds
  readVariable := adds_noted rfl readVariable_adds
  readElement := adds_noted rfl readElement_adds
  unary := adds_noted rfl unary_adds.unable
  binary _ _ := adds_noted rfl binary_adds.unable
  compare := adds_noted rfl compare_adds.unable
  logical := adds_noted rfl logical_adds
  listLiteral := adds_noted rfl listLiteral_adds
  listLength := adds_noted rfl listLength_adds
  substring := adds_noted rfl substring_adds
  stringLength := adds_noted rfl stringLength_adds
  group _ := .pure trivial
  callFunction := callFunction_panicless.weaken fun _ _ _ _ => trivial
  runProcess := (adds_noted rfl
    (runProcess_adds (fun _ _ => trivial) fun _ => trivial)).weaken
      fun _ _ _ _ => trivial
  inputLine := adds_noted rfl inputLine_adds
  copyList := adds_noted rfl copyList_adds
  fileExists := adds_noted rfl anyHolds_adds
  fileContent := adds_noted rfl fileContent_adds
  intToString _ := .pure trivial
  stringToInt := adds_noted rfl stringToInt_adds
  nothing := trivial
  defineVariable := adds_noted rfl (defineVariable_adds trivial)
  assignVariable := adds_noted rfl assignVariable_adds
  storeElement := adds_noted rfl storeElement_adds
  print := adds_noted rfl print_adds.unable
  writeFile := adds_noted rfl (emit_adds fun _ => trivial)
  noOp := adds_noted rfl (emit_adds fun _ => trivial)
  panic := panic_noted
  giveBack := adds_noted rfl (giveBack_adds trivial)
  ifStart := emitFlow_panicless
  elseIfStart := emitFlow_panicless
  elseStart := emitFlow_panicless
  ifEnd := emitFlow_panicless
  loopStart := emitFlow_panicless
  postStart := .pure trivial
  postEnd := emitFlow_panicless
  loopCondition := emitFlow_panicless
  loopEnd := emitFlow_panicless
  leaveLoop := emitFlow_panicless
  nextRound := emitFlow_panicless
  functionStart := functionStart_panicless
  functionEnd := functionEnd_panicless
  programStart := .pure trivial

end Operations

/-! The script. -/

theorem State.Writes.body_eq {s : State} {pieces : List Piece}
    (h : State.fresh.Writes pieces s) :
    s.body = if s.needs.capture then pieces.flatMap Piece.cleaned ++
      [.removeCaptured] else pieces.flatMap Piece.lines := by
  have hlines : s.lines.toList = pieces.flatMap Piece.lines := h.lines
  have hexits : s.panicExits = (Piece.exits 0 pieces).reverse :=
    h.exits.trans (List.append_nil _)
  have hinserted := Piece.insert_exits [] pieces
  rw [State.body, hexits, List.foldl_reverse, hlines]
  exact if_congr Iff.rfl (congrArg (· ++ _) hinserted) rfl

/-- No other line of a program is taken for one that removes captured output. -/
theorem Command.IsClean.ne_removal {operation : Script.Operation}
    {own : Nat → Prop} (h : command.IsClean operation own) :
    command.text ≠ Command.removeCaptured.text := by
  by_cases hrun : ∃ line, command = .run line
  · obtain ⟨line, rfl⟩ := hrun
    obtain ⟨_, _, hpipeline⟩ := h
    intro hline
    obtain rfl : line = Command.removeCaptured.text := hline
    rcases hpipeline.endsPlain with hquote | hplain
    · exact absurd hquote (by decide)
    · exact absurd (hplain '>' (by decide)) (by decide)
  · intro htext
    have hhead : command.text.toList.head? = some 'd' := by
      rw [htext]
      rfl
    cases command with
    | flow instruction =>
        cases instruction <;> simp [Command.text, Instruction.text] at hhead
    | writeFile path content append =>
        cases append <;> simp [Command.text] at hhead
    | run line => exact hrun ⟨line, rfl⟩
    | removeCaptured | verbatim _ => exact h
    | _ => simp [Command.text] at hhead

theorem header_ne_removal (needs : Needs) :
    ∀ command ∈ needs.header, command.text ≠ Command.removeCaptured.text := by
  have hall : ∀ command ∈ Needs.all.header, command.text ≠
      Command.removeCaptured.text := by
    decide +kernel
  exact fun command hcommand => hall command (header_subset needs hcommand)

theorem tail_ne_removal (needs : Needs) :
    ∀ line ∈ indentBlocks (needs.tail.map Command.text) 2,
      line ≠ Command.removeCaptured.text := by
  have hall : ∀ command ∈ Needs.all.tail,
      dropLeadingBlanks command.text ≠
        dropLeadingBlanks Command.removeCaptured.text := by
    decide +kernel
  rintro _ hline rfl
  have hin := List.mem_map_of_mem (f := dropLeadingBlanks) hline
  rw [indentBlocks, indentFrom_dropLeadingBlanks, List.map_map] at hin
  obtain ⟨command, hcommand, htext⟩ := List.mem_map.mp hin
  exact hall command (tail_subset needs hcommand) htext

theorem filter_kept {lines : List String}
    (h : ∀ line ∈ lines, line ≠ Command.removeCaptured.text) :
    lines.filter (· != Command.removeCaptured.text) = lines :=
  List.filter_eq_self.mpr fun line hline => bne_iff_ne.mpr (h line hline)

/-- Removing the lines again leaves the ones there were. -/
theorem filter_cleaned {pieces : List Piece}
    (h : ∀ command ∈ pieces.flatMap Piece.lines, command.text ≠
      Command.removeCaptured.text) :
    ((pieces.flatMap Piece.cleaned).map Command.text).filter
    (· != Command.removeCaptured.text) =
      (pieces.flatMap Piece.lines).map Command.text := by
  induction pieces with
  | nil => rfl
  | cons piece pieces ih =>
      obtain ⟨hpiece, hpieces⟩ :=
        List.forall_mem_append.mp (List.flatMap_cons ▸ h)
      cases piece with
      | line command =>
          have hline := hpiece command List.mem_cons_self
          simp [Piece.cleaned, Piece.lines, hline, ih hpieces]
      | panic message leave =>
          have hmessage := hpiece _ List.mem_cons_self
          have hleave :=
            hpiece leave (List.mem_cons_of_mem _ List.mem_cons_self)
          simp [Piece.cleaned, Piece.lines, hmessage, hleave, ih hpieces]

/-- If the output of a pipeline is captured, the lines that remove it stand
between the message of each panic and its exit and before the last `exit /b 0`,
otherwise there are none.  All other lines are those that have been written, in
the same order. -/
theorem captured_output_is_removed {source script : String} {program : Program}
    (hsource : parseSource source = .ok program)
    (hscript : program.script .batch = .ok script) :
    ∃ (s : State) (pieces : List Piece) (lines : List String),
      exec (Script.writeStatements program) Dialect.fresh = (.ok (), s) ∧
      s.lines.toList = pieces.flatMap Piece.lines ∧
        (∀ piece ∈ pieces, piece.IsProper) ∧
      pieces.countP Piece.isPanic = program.mentions.count .panic ∧
      script = String.join (lines.map (· ++ Shell.batch.lineEnding)) ∧
      lines = (s.needs.header ++ (if Event.capture ∈ program.events then
          pieces.flatMap Piece.cleaned ++ [.removeCaptured]
            else pieces.flatMap Piece.lines) ++
        [Command.exit 0]).map Command.text ++
          indentBlocks (s.needs.tail.map Command.text) 2 ∧
      lines.filter (· != Command.removeCaptured.text) =
        (s.needs.header ++ s.lines.toList ++ [Command.exit 0]).map
          Command.text ++ indentBlocks (s.needs.tail.map Command.text) 2 := by
  obtain ⟨s, _, hrun, hsound, rfl⟩ := written_sound hsource hscript
  obtain ⟨_, hchecked, _⟩ := parseSource_checked hsource
  obtain ⟨⟨pieces, hpieces, hcount⟩, _⟩ :=
    panicsNoted_programs.writeStatements hchecked.isOuter _ _ _ hrun
  have hlines : s.lines.toList = pieces.flatMap Piece.lines := hpieces.lines
  have hbody := hpieces.body_eq
  have hcapture : s.needs.capture = true ↔ Event.capture ∈ program.events :=
    hsound.captures
  simp only [hcapture] at hbody
  refine ⟨s, pieces, s.scriptLines, hrun, hlines, hpieces.proper, hcount,
    rfl, ?_, ?_⟩
  · rw [scriptLines_eq hsource hrun, hbody]
  · rw [scriptLines_eq hsource hrun, hbody, hlines]
    have hwritten : ∀ command ∈ pieces.flatMap Piece.lines,
        command.text ≠ Command.removeCaptured.text := by
      intro command hcommand
      obtain ⟨_, _, hclean⟩ := lines_clean hsource hrun (hlines ▸ hcommand)
      exact hclean.ne_removal
    have hbetween : ((if Event.capture ∈ program.events then
        pieces.flatMap Piece.cleaned ++ [.removeCaptured]
        else pieces.flatMap Piece.lines).map Command.text).filter
          (· != Command.removeCaptured.text) =
            (pieces.flatMap Piece.lines).map Command.text := by
      split
      · rw [List.map_append, List.filter_append, filter_cleaned hwritten]
        simp
      · exact filter_kept (List.forall_mem_map.mpr hwritten)
    simp only [List.map_append, List.filter_append, hbetween,
      filter_kept (List.forall_mem_map.mpr (header_ne_removal s.needs)),
      filter_kept (tail_ne_removal s.needs)]
    rfl

/-- One panic stands before the pipeline whose output is kept, and one behind
it. -/
theorem captured_output_is_removed_twice :
    ∃ (program : Program) (script : String) (s : State) (pieces : List Piece),
      parseSource
        "func f() \x7b\npanic(\"a\")\n\x7d\nx := @ls\x7b\x7d\npanic(x)\n" =
          .ok program ∧
        program.script .batch = .ok script ∧ pieces.countP Piece.isPanic = 2 ∧
        s.lines.toList = pieces.flatMap Piece.lines ∧
        script = String.join
          (((s.needs.header ++ (pieces.flatMap Piece.cleaned ++
          [Command.removeCaptured]) ++ [Command.exit 0]).map Command.text ++
            indentBlocks (s.needs.tail.map Command.text) 2).map (· ++
              Shell.batch.lineEnding)) := by
  obtain ⟨program, hsource, hdefinitions, hevents, hmentions⟩ :
      ∃ program : Program,
        parseSource
          "func f() \x7b\npanic(\"a\")\n\x7d\nx := @ls\x7b\x7d\npanic(x)\n" =
          .ok program ∧ program.definitions.find? callsItself = none ∧
          Event.capture ∈ program.events ∧ program.mentions.count .panic = 2 :=
    ⟨⟨[.function "f" [] [] [.panic (.string "a" [.string])],
      .define [⟨"x", .string⟩]
        (some (.process [("ls", [])] [.string, .string, .int])) false,
      .panic (.var "x" [.string])]⟩, by cbv, rfl, by decide, by decide⟩
  have hbatch := (script_of_accepted hsource).2
  rw [hdefinitions] at hbatch
  obtain ⟨script, hscript⟩ := hbatch
  obtain ⟨s, pieces, lines, _, hwritten, _, hcount, hjoined, hlines, _⟩ :=
    captured_output_is_removed hsource hscript
  rw [if_pos hevents] at hlines
  exact ⟨program, script, s, pieces, hsource, hscript, hcount.trans hmentions,
    hwritten, hlines ▸ hjoined⟩

end Batch

end Shellwright
