/-
Every jump and every call of a batch script lands at one label.
-/
import Shellwright.Proofs.Accepted
import Shellwright.Proofs.Batch.Script

namespace Shellwright

namespace Batch

variable {α : Type} {s : State} {label : String} {command : Command}
  {seen : List Event} {known : List String}

open Script

theorem placed_insertIdx (hcommand : command.label? = none)
    (lines : List Command) (place : Nat) :
    placed (lines.insertIdx place command) = placed lines := by
  induction lines generalizing place with
  | nil =>
      cases place with
      | zero => simp [placed, hcommand]
      | succ place => rfl
  | cons line lines ih =>
      cases place with
      | zero => simp [placed, hcommand]
      | succ place =>
          have hrest := ih place
          unfold placed at hrest ⊢
          rw [List.insertIdx_succ_cons, List.filterMap_cons,
            List.filterMap_cons, hrest]

/-- Lines with the removal of files put in at some places. -/
theorem placed_foldl_insertIdx (places : List Nat) (lines : List Command) :
    placed (places.foldl
      (fun lines place => lines.insertIdx place .removeCaptured) lines) =
      placed lines := by
  induction places generalizing lines with
  | nil => rfl
  | cons place places ih =>
      exact (ih _).trans (placed_insertIdx rfl lines place)

theorem mem_foldl_insertIdx {places : List Nat} {lines : List Command}
    (h : command ∈ places.foldl (fun lines place => lines.insertIdx place
      .removeCaptured) lines) :
    command = .removeCaptured ∨ command ∈ lines := by
  induction places generalizing lines with
  | nil => exact .inr h
  | cons place places ih =>
      rcases ih h with hremove | hin
      · exact .inl hremove
      · exact List.eq_or_mem_of_mem_insertIdx hin

theorem placed_body (s : State) : placed s.body = placed s.lines.toList := by
  unfold State.body
  split
  · rw [placed_append, placed_foldl_insertIdx]
    exact List.append_nil _
  · rfl

theorem mem_body (h : command ∈ s.body) :
    command = .removeCaptured ∨ command ∈ s.lines.toList := by
  unfold State.body at h
  split at h
  · rcases List.mem_append.mp h with hin | hlast
    · exact mem_foldl_insertIdx hin
    · exact .inl (List.mem_singleton.mp hlast)
  · exact .inr h

theorem placed_header (needs : Needs) : placed needs.header = [] := by
  unfold Needs.header
  rw [placed_append, placed_append]
  cases needs.newline <;> cases needs.capture <;> rfl

theorem placed_commands (s : State) :
    placed s.commands = placed s.lines.toList ++ placed s.needs.tail := by
  have hexit : placed [Command.exit 0] = [] := rfl
  unfold State.commands
  rw [placed_append, placed_append, placed_append, placed_header,
    placed_body, hexit, List.nil_append, List.append_nil]
  rfl

theorem header_lands {needs : Needs} (h : command ∈ needs.header) :
    command.isRegular = true ∧ command.named? = none := by
  have hall : (Needs.header { newline := true, capture := true }).all
      (fun command => command.isRegular && command.named?.isNone) = true := by
    decide +kernel
  have hsublist : needs.header.Sublist
      (Needs.header { newline := true, capture := true }) :=
    ((List.Sublist.refl _).append sublist_ite).append sublist_ite
  have hcommand := List.all_eq_true.mp hall command (hsublist.subset h)
  simpa using hcommand

section Sound

variable {known : List String} {seen : List Event} {s : State} {here : Progress}

theorem State.Sound.labels_eq (h : s.Sound ⟨none, [], known, seen⟩) :
    s.labels ⟨none, [], known, seen⟩ = placed s.lines.toList := by
  have hcurrent : s.current = none := by
    simpa using h.current
  simp [State.labels, State.pending, hcurrent, h.frames_eq_nil]

theorem Made.isPlainLabel
    (hwords : ∀ name ∈ here.known, isWord name.toList = true)
    (h : Made here s label) : IsPlainLabel label := by
  rcases h with ⟨stem, hstem, number, _, rfl⟩ | ⟨name, hname, rfl⟩
    | ⟨number, _, rfl⟩
  · exact isPlainLabel_countedLabel hstem number
  · exact isPlainLabel_functionLabel (hwords name hname)
  · exact isPlainLabel_endLabel number

/-- The letter behind the mark tells the labels of the program from those of the
subroutines. -/
theorem Made.initial (h : Made here s label) :
    label.toList[5]? ∈ ['e', 'n', 'c', 'd', 'f'].map some := by
  rcases h with ⟨stem, hstem, number, _, rfl⟩ | ⟨name, _, rfl⟩
    | ⟨number, _, rfl⟩
  · simp only [stems, List.mem_cons, List.not_mem_nil, or_false] at hstem
    rcases hstem with rfl | rfl | rfl | rfl | rfl <;> simp [countedLabel]
  · simp [functionLabel]
  · simp [endLabel]

theorem Made.not_mem_routineLabels (h : Made here s label) :
    label ∉ routineLabels := by
  have hroutines : ∀ label ∈ routineLabels,
      label.toList[5]? ∉ ['e', 'n', 'c', 'd', 'f'].map some := by
    decide
  exact fun hlabel => hroutines label hlabel h.initial

theorem State.Sound.placed_commands_nodup
    (h : s.Sound ⟨none, [], known, seen⟩) : (placed s.commands).Nodup := by
  have hdistinct := h.distinct
  have hmade := h.made
  rw [h.labels_eq] at hdistinct hmade
  rw [placed_commands, List.nodup_append]
  refine ⟨hdistinct, (placed_tail_sublist s.needs).nodup (by decide), ?_⟩
  rintro label hlabel other hother rfl
  exact (hmade label hlabel).not_mem_routineLabels
    ((placed_tail_sublist s.needs).subset hother)

theorem isPlainLabel_of_mem_routineLabels (h : label ∈ routineLabels) :
    IsPlainLabel label := by
  have hall : ∀ label ∈ routineLabels, label.toList.all isLabelChar = true := by
    decide
  exact hall label h

theorem State.Sound.isPlainLabel_of_mem (h : s.Sound ⟨none, [], known, seen⟩)
    (hlabel : label ∈ placed s.commands) : IsPlainLabel label := by
  have hmade := h.made
  rw [h.labels_eq] at hmade
  rw [placed_commands] at hlabel
  rcases List.mem_append.mp hlabel with hin | hin
  · exact (hmade label hin).isPlainLabel h.words
  · exact isPlainLabel_of_mem_routineLabels
      ((placed_tail_sublist s.needs).subset hin)

/-- A line of the program can be told from its text, and goes to a label of the
script, if it goes anywhere. -/
theorem State.Sound.line_lands (h : s.Sound ⟨none, [], known, seen⟩)
    (hcommand : Event.command ∉ seen) (hline : command ∈ s.lines.toList) :
    command.isRegular = true ∧
      ∀ label, command.named? = some label →
        label = ":eof" ∨ label ∈ placed s.commands := by
  have hlands := h.lands command hline
  have hplaced : placed s.lines.toList ⊆ placed s.commands := by
    rw [placed_commands]
    exact List.subset_append_left _ _
  rw [h.labels_eq] at hlands
  cases command with
  | flow instruction =>
      cases instruction with
      | label name => exact ⟨rfl, fun label hlabel => by cases hlabel⟩
      | jump target =>
          refine ⟨rfl, fun label hlabel => ?_⟩
          cases hlabel
          exact .inr (hplaced hlands)
      | jumpUnless condition target =>
          have hplain := h.isPlainLabel_of_mem (hplaced hlands)
          refine ⟨List.all_eq_true.mpr hplain.isWordChar,
            fun label hlabel => ?_⟩
          cases hlabel
          exact .inr (hplaced hlands)
  | call label args =>
      have hin : label ∈ placed s.commands := by
        rcases hlands with hroutine | ⟨name, hname, rfl⟩
        · rw [placed_commands]
          exact List.mem_append_right
            _ (labels_subset_placed_tail s.needs hroutine)
        · exact hplaced (h.functions name hname)
      have hplain := h.isPlainLabel_of_mem hin
      refine ⟨List.all_eq_true.mpr hplain.isWordChar, fun other hother => ?_⟩
      cases hother
      exact .inr hin
  | run line => exact absurd hlands hcommand
  | verbatim text => exact hlands.elim
  | comeBack =>
      refine ⟨rfl, fun label hlabel => ?_⟩
      cases hlabel
      exact .inl rfl
  | _ => exact ⟨rfl, fun label hlabel => by cases hlabel⟩

/-- Every command of a script can be told from its line, and goes to a label of
the script, if it goes anywhere. -/
theorem State.Sound.commands_land (h : s.Sound ⟨none, [], known, seen⟩)
    (hcommand : Event.command ∉ seen) (hmem : command ∈ s.commands) :
    command.isRegular = true ∧
      ∀ label, command.named? = some label →
        label = ":eof" ∨ label ∈ placed s.commands := by
  unfold State.commands at hmem
  rcases List.mem_append.mp hmem with hmem | htail
  · rcases List.mem_append.mp hmem with hmem | hexit
    · rcases List.mem_append.mp hmem with hheader | hbody
      · obtain ⟨hregular, hnone⟩ := header_lands hheader
        exact ⟨hregular, fun label hlabel => by simp [hnone] at hlabel⟩
      · rcases mem_body hbody with rfl | hline
        · exact ⟨rfl, fun label hlabel => by cases hlabel⟩
        · exact h.line_lands hcommand hline
    · obtain rfl := List.mem_singleton.mp hexit
      exact ⟨rfl, fun label hlabel => by cases hlabel⟩
  · obtain ⟨hregular, hnamed⟩ := tail_lands htail
    refine ⟨hregular, fun label hlabel => (hnamed label hlabel).imp id
      fun hin => ?_⟩
    rw [placed_commands]
    exact List.mem_append_right _ hin

end Sound

/-! Commands as lines. -/

@[simp] theorem definedLabel?_dropLeadingBlanks (line : String) :
    definedLabel? (dropLeadingBlanks line) = definedLabel? line := by
  unfold definedLabel?
  rw [dropLeadingBlanks_idem]

@[simp] theorem namedLabel?_dropLeadingBlanks (line : String) :
    namedLabel? (dropLeadingBlanks line) = namedLabel? line := by
  unfold namedLabel?
  rw [dropLeadingBlanks_idem]

theorem scriptLines_dropLeadingBlanks (s : State) :
    s.scriptLines.map dropLeadingBlanks =
      s.commands.map fun command => dropLeadingBlanks command.text := by
  unfold State.scriptLines indentBlocks
  rw [indentFrom_dropLeadingBlanks, List.map_map]
  rfl

/-- Anything that can be seen behind the blanks is the same in a line and in its
command. -/
theorem scriptLines_map (view : String → α)
    (hview : ∀ line, view (dropLeadingBlanks line) = view line) (s : State) :
    s.scriptLines.map view = s.commands.map fun command =>
      view command.text := by
  have hlines := congrArg (List.map view) (scriptLines_dropLeadingBlanks s)
  rw [List.map_map, List.map_map] at hlines
  calc s.scriptLines.map view
      = s.scriptLines.map (view ∘ dropLeadingBlanks) :=
        List.map_congr_left fun line _ => (hview line).symm
    _ = s.commands.map (view ∘ fun command => dropLeadingBlanks command.text) :=
      hlines
    _ = s.commands.map fun command => view command.text :=
        List.map_congr_left fun command _ => hview command.text

/-- What is seen in some of the lines is what their commands show. -/
theorem scriptLines_filterMap {view : String → Option α}
    {show? : Command → Option α}
    (hview : ∀ line, view (dropLeadingBlanks line) = view line)
    (htext : ∀ command ∈ s.commands, view command.text = show? command) :
    s.scriptLines.filterMap view = s.commands.filterMap show? := by
  have hmap : s.scriptLines.map view = s.commands.map show? :=
    (scriptLines_map view hview s).trans (List.map_congr_left htext)
  have hfilter := congrArg (List.filterMap id) hmap
  rw [List.filterMap_map, List.filterMap_map] at hfilter
  exact hfilter

theorem scriptLines_labels
    (h : ∀ command ∈ s.commands, command.isRegular = true) :
    s.scriptLines.filterMap definedLabel? = placed s.commands :=
  scriptLines_filterMap definedLabel?_dropLeadingBlanks
    fun command hcommand => definedLabel?_text (h command hcommand)

theorem scriptLines_named
    (h : ∀ command ∈ s.commands, command.isRegular = true) :
    s.scriptLines.filterMap namedLabel? = s.commands.filterMap Command.named? :=
  scriptLines_filterMap namedLabel?_dropLeadingBlanks
    fun command hcommand => namedLabel?_text (h command hcommand)

/-- Two labels that batch takes for the same. -/
def sameLabel (first second : String) : Bool := first.toLower == second.toLower

/-- The line is the label, in whatever capitals. -/
def isLabelLine (label line : String) : Bool :=
  (definedLabel? line).any (sameLabel label)

theorem countP_isLabelLine (label : String) (lines : List String) :
    lines.countP (isLabelLine label) =
      (lines.filterMap definedLabel?).countP (sameLabel label) := by
  rw [List.countP_filterMap]
  congr 1
  funext line
  unfold isLabelLine
  cases definedLabel? line <;> rfl

/-- A label goes by one spelling only, and is written once. -/
theorem State.Sound.countP_scriptLines (h : s.Sound ⟨none, [], known, seen⟩)
    (hcommand : Event.command ∉ seen) (hlabel : label ∈ placed s.commands) :
    s.scriptLines.countP (isLabelLine label) = 1 := by
  have hsame : ∀ other ∈ placed s.commands, (sameLabel label other = true ↔
      (other == label) = true) := by
    intro other hother
    unfold sameLabel
    rw [(h.isPlainLabel_of_mem hlabel).toLower,
      (h.isPlainLabel_of_mem hother).toLower, beq_iff_eq, beq_iff_eq, eq_comm]
  rw [countP_isLabelLine, scriptLines_labels
    fun command hin => (h.commands_land hcommand hin).1,
    List.countP_congr hsame]
  exact List.count_eq_one_of_mem h.placed_commands_nodup hlabel

/-! The header. -/

/-- The lines in front of a program, with the line feed and with the name of the
files that hold captured output if they are wanted. -/
def setUpLines (newline capture : Bool) : List String :=
  ["@echo off", "setlocal EnableDelayedExpansion"] ++
    (if newline then ["(set __sb_lf=^", "", ")"] else []) ++
    (if capture then ["set \"__sb_cap=%TEMP%\\__sb_cap_%RANDOM%%RANDOM%\""]
      else [])

/-- The header opens no block. -/
theorem indentFrom_header (needs : Needs) (rest : List String) :
    indentFrom 2 0 (needs.header.map Command.text ++ rest) =
      setUpLines needs.newline needs.capture ++ indentFrom 2 0 rest := by
  unfold Needs.header setUpLines
  cases needs.newline <;> cases needs.capture <;> rfl

theorem scriptLines_setUpLines (s : State) :
    ∃ rest, s.scriptLines = setUpLines s.needs.newline s.needs.capture ++
      rest := by
  unfold State.scriptLines State.commands indentBlocks
  rw [List.append_assoc, List.append_assoc, List.map_append]
  exact ⟨_, indentFrom_header _ _⟩

theorem State.Sound.newline_of_readFile (h : s.Sound ⟨none, [], known, seen⟩)
    (hlabel : "__sb_read_file" ∈ placed s.commands) :
    s.needs.newline = true := by
  have hmade := h.made
  rw [h.labels_eq] at hmade
  rw [placed_commands] at hlabel
  rcases List.mem_append.mp hlabel with hin | hin
  · exact absurd (by decide) (hmade _ hin).not_mem_routineLabels
  · apply h.sentinel
    rw [placed_tail] at hin
    simpa using hin

end Batch

/-- The lines of the batch script of a program. -/
def Program.batchLines? (program : Program) : Option (List String) :=
  match Script.exec (Script.writeStatements program)
    (Dialect.fresh : Batch.State) with
  | (.ok (), s) => some s.scriptLines
  | (.error _, _) => none

/-- What is known of the state in which a script is put together. -/
theorem written_sound {source script : String} {program : Program}
    (hsource : parseSource source = .ok program)
    (hscript : program.script .batch = .ok script) :
    ∃ (s : Batch.State) (tables : Tables),
      Script.exec (Script.writeStatements program) Dialect.fresh = (.ok (), s) ∧
      s.Sound (Script.between tables program.events) ∧
      script = String.join (s.scriptLines.map
        (· ++ Shell.batch.lineEnding)) := by
  obtain ⟨tables, hchecked, hfunctions⟩ := parseSource_checked hsource
  have hmeets := Script.program_meets Batch.lawful hchecked hfunctions
    (parseSource_words hsource)
  have hwritten :
    (Script.exec (Script.generate program) (Dialect.fresh : Batch.State)).1 =
      .ok script := hscript
  rw [Script.generate_eq] at hwritten
  rcases hrun : Script.exec (Script.writeStatements program)
    (Dialect.fresh : Batch.State) with
    ⟨result, s⟩
  cases result with
  | ok =>
      have hsound := (hmeets.ensures.yields () (by rw [hrun])).2
      rw [hrun] at hsound
      refine ⟨s, tables, rfl, hsound, ?_⟩
      have hend : Script.exec Dialect.programEnd s = _ :=
        Batch.exec_programEnd hsound
      rw [Script.exec_bind_ok hrun, hend] at hwritten
      exact (Except.ok.inj hwritten).symm
  | error error =>
      rw [Script.exec_bind_error hrun] at hwritten
      cases hwritten

open Batch in
/-- Every label a batch script goes to is written exactly once, and what the
script reads is set up in front. -/
theorem batch_labels_land {source script : String} {program : Program}
    (hsource : parseSource source = .ok program)
    (hscript : program.script .batch = .ok script)
    (hcommand : Event.command ∉ program.events) :
    ∃ lines, program.batchLines? = some lines ∧
      script = String.join (lines.map (· ++ Shell.batch.lineEnding)) ∧
      (∀ line ∈ lines, ∀ label, namedLabel? line = some label → label ≠ ":eof" →
        lines.countP (isLabelLine label) = 1) ∧
      ∃ newline capture rest, lines = setUpLines newline capture ++ rest ∧
        ((∃ line ∈ lines, definedLabel? line = some "__sb_read_file") →
          newline = true) ∧
        (∀ value, Event.literal value ∈ program.events →
          value.toList.contains '\n' = true → newline = true) ∧
        (Event.capture ∈ program.events → capture = true) := by
  obtain ⟨s, tables, hrun, hsound, rfl⟩ := written_sound hsource hscript
  have hland := fun command (hin : command ∈ s.commands) =>
    hsound.commands_land hcommand hin
  have hregular : ∀ command ∈ s.commands, command.isRegular = true :=
    fun command hin => (hland command hin).1
  obtain ⟨rest, hrest⟩ := scriptLines_setUpLines s
  refine ⟨s.scriptLines, ?_, rfl, ?_, s.needs.newline, s.needs.capture, rest,
    hrest, ?_, ?_, ?_⟩
  · unfold Program.batchLines?
    rw [hrun]
  · intro line hline label hlabel heof
    have hmem : label ∈ s.scriptLines.filterMap namedLabel? :=
      List.mem_filterMap.mpr ⟨line, hline, hlabel⟩
    rw [scriptLines_named hregular] at hmem
    obtain ⟨command, hin, hnamed⟩ := List.mem_filterMap.mp hmem
    rcases (hland command hin).2 label hnamed with rfl | hplaced
    · exact absurd rfl heof
    · exact hsound.countP_scriptLines hcommand hplaced
  · rintro ⟨line, hline, hlabel⟩
    apply hsound.newline_of_readFile
    rw [← scriptLines_labels hregular]
    exact List.mem_filterMap.mpr ⟨line, hline, hlabel⟩
  · exact hsound.literals
  · exact hsound.captures.mpr

open Batch in
/-- A program that calls a function and keeps the output of a process. -/
theorem batch_labels_land_call :
    ∃ program script lines rest,
      parseSource "func f() \x7b\nprint(\"\\n\")\n\x7d\nf()\nx := @ls\x7b\x7d\n"
        = .ok program ∧
        program.script .batch = .ok script ∧ Event.command ∉ program.events ∧
        program.batchLines? = some lines ∧
        lines.filterMap namedLabel? =
          ["__sb_f1_end", ":eof", "__sb_fn_f", "__sb_read_file", ":eof"] ∧
        (∀ label ∈ ["__sb_f1_end", "__sb_fn_f", "__sb_read_file"],
          lines.countP (isLabelLine label) = 1) ∧
        lines = setUpLines true true ++ rest := by
  obtain ⟨program, hsource, hdefinitions, hevents, hnamed⟩ :
      ∃ program : Program,
        parseSource
          "func f() \x7b\nprint(\"\\n\")\n\x7d\nf()\nx := @ls\x7b\x7d\n" =
            .ok program ∧
          program.definitions.find? callsItself = none ∧
          program.events = [.literal "\n", .call "f", .capture] ∧
          program.batchLines?.map (List.filterMap namedLabel?) =
            some ["__sb_f1_end", ":eof", "__sb_fn_f", "__sb_read_file",
              ":eof"] :=
    ⟨⟨[.function "f" [] [] [.print (.string "\n" [.string])],
      .action (.call "f" [] []), .define [⟨"x", .string⟩]
        (some (.process [("ls", [])] [.string, .string, .int])) false]⟩,
      by cbv, rfl, rfl, by decide +kernel⟩
  have hcommand : Event.command ∉ program.events := by
    rw [hevents]
    decide
  have hbatch := (script_of_accepted hsource).2
  rw [hdefinitions] at hbatch
  obtain ⟨script, hscript⟩ := hbatch
  obtain ⟨lines, hlines, _, hland, newline, capture, rest, hrest, _, hnewline,
      hcapture⟩ :=
    batch_labels_land hsource hscript hcommand
  obtain rfl : newline = true := hnewline "\n" (by simp [hevents]) rfl
  obtain rfl : capture = true := hcapture (by simp [hevents])
  rw [hlines, Option.map_some, Option.some.injEq] at hnamed
  refine ⟨program, script, lines, rest, hsource, hscript, hcommand, hlines,
    hnamed, ?_, hrest⟩
  intro label hlabel
  have hmem : label ∈ lines.filterMap namedLabel? ∧ label ≠ ":eof" := by
    rw [hnamed]
    revert label
    decide
  obtain ⟨line, hline, hgoes⟩ := List.mem_filterMap.mp hmem.1
  exact hland line hline label hgoes hmem.2

end Shellwright
