/-
Margins of batch scripts.  The pass that indents blocks finds none among the
lines of the program and moves none of them, whatever texts of the source they
hold: only the subroutines behind them are laid out anew.
-/
import Shellwright.Proofs.Batch.LineEnds

namespace Shellwright

namespace Batch

variable {s : State} {line source : String} {command : Command}
  {operation : Operation} {own : Nat → Prop} {lines : List String}

open Script (Operation exec operations)

/-- A line that neither moves outside of blocks nor moves what follows. -/
structure IsFlush (line : String) : Prop where
  start : dropLeadingBlanks line = line
  opens : opensBlock line = false

theorem indentFrom_flush {width : Nat} (h : ∀ line ∈ lines, IsFlush line)
    (rest : List String) :
    indentFrom width 0 (lines ++ rest) = lines ++ indentFrom width 0 rest := by
  induction lines with
  | nil => rfl
  | cons line lines ih =>
      obtain ⟨⟨hstart, hopens⟩, hlines⟩ := List.forall_mem_cons.mp h
      rw [List.cons_append, List.cons_append, indentFrom, hstart, hopens]
      -- outside of blocks a closing parenthesis has none to end
      by_cases hempty : line = "" <;> simp [hempty, ih hlines]

/-! Lines that are indented already. -/

/-- Of a line the pass sees only what is behind the blanks in front. -/
theorem indentFrom_map_dropLeadingBlanks (width depth : Nat)
    (lines : List String) :
    indentFrom width depth (lines.map dropLeadingBlanks) =
      indentFrom width depth lines := by
  induction lines generalizing depth with
  | nil => rfl
  | cons line lines ih =>
      rw [List.map_cons, indentFrom, indentFrom, dropLeadingBlanks_idem]
      dsimp only
      rw [ih, ih]

theorem eq_empty_of_mem_indentFrom {width depth : Nat}
    (h : line ∈ indentFrom width depth lines)
    (hblank : dropLeadingBlanks line = "") : line = "" := by
  induction lines generalizing depth with
  | nil => cases h
  | cons first lines ih =>
      unfold indentFrom at h
      dsimp only at h
      by_cases hfirst : dropLeadingBlanks first = ""
      · rw [if_pos hfirst] at h
        rcases List.mem_cons.mp h with rfl | h
        · rfl
        · exact ih h
      · rw [if_neg hfirst] at h
        rcases List.mem_cons.mp h with rfl | h
        · rw [dropLeadingBlanks_spaces, dropLeadingBlanks_idem] at hblank
          exact absurd hblank hfirst
        · exact ih h

/-- Indenting forgets how lines were indented before, whatever blocks they open
and close.  Line by line the text behind the blanks in front stays, and of a
blank line nothing is left. -/
theorem indentBlocks_forgets (lines : List String) (before width : Nat) :
    indentBlocks (indentBlocks lines before) width = indentBlocks lines width ∧
      (indentBlocks lines width).length = lines.length ∧
      (indentBlocks lines width).map dropLeadingBlanks =
        lines.map dropLeadingBlanks ∧
      ∀ line ∈ indentBlocks lines width, dropLeadingBlanks line = "" →
        line = "" := by
  have htexts (width : Nat) := indentFrom_dropLeadingBlanks width 0 lines
  refine ⟨?_, ?_, htexts width, fun _ => eq_empty_of_mem_indentFrom⟩
  · unfold indentBlocks
    rw [← indentFrom_map_dropLeadingBlanks, htexts,
      indentFrom_map_dropLeadingBlanks]
  · have hlength := congrArg List.length (htexts width)
    rwa [List.length_map, List.length_map] at hlength

/-! Ends of lines. -/

/-- The text ends in something else than an opening parenthesis. -/
def EndsOff (text : String) : Prop :=
  ∃ c, text.toList.getLast? = some c ∧ c ≠ '('

namespace EndsOff

variable {text : String}

theorem of_not_mem (hne : text ≠ "") (h : '(' ∉ text.toList) :
    EndsOff text := by
  have hchars : text.toList ≠ [] :=
    fun hnil => hne (String.toList_eq_nil_iff.mp hnil)
  refine ⟨_, List.getLast?_eq_getLast_of_ne_nil hchars, ?_⟩
  exact fun hlast => h (hlast ▸ List.getLast_mem hchars)

theorem append (front : String) (h : EndsOff text) :
    EndsOff (front ++ text) := by
  obtain ⟨c, hlast, hc⟩ := h
  exact ⟨c, by rw [String.toList_append, List.getLast?_append, hlast,
    Option.some_or], hc⟩

theorem opensBlock_eq (h : EndsOff text) : opensBlock text = false := by
  obtain ⟨c, hlast, hc⟩ := h
  obtain ⟨init, hchars⟩ := List.getLast?_eq_some_iff.mp hlast
  rw [opensBlock, hchars]
  cases init <;> simp [hc]

end EndsOff

theorem opensBlock_append {front text : String}
    (hfront : opensBlock front = false) (htext : '(' ∉ text.toList) :
    opensBlock (front ++ text) = false := by
  by_cases hempty : text = ""
  · rwa [hempty, String.append_empty]
  · exact ((EndsOff.of_not_mem hempty htext).append front).opensBlock_eq

theorem opensBlock_quoted (front name value : String) :
    opensBlock (front ++ Command.setting name value) = false := by
  have hquote : EndsOff "\"" := ⟨'"', by decide, by decide⟩
  exact ((hquote.append _).append front).opensBlock_eq

/-! Pipelines. -/

/-- The text ends in a quote, or the last of its words is plain. -/
def EndsPlain (text : String) : Prop :=
  text.toList.getLast? = some '"' ∨
    ∀ c ∈ text.toList.reverse.takeWhile (· != ' '), isPlainChar c = true

namespace EndsPlain

variable {text : String}

theorem of_isPlainWord (h : isPlainWord text = true) : EndsPlain text := by
  refine .inr fun c hc => List.all_eq_true.mp (Bool.and_eq_true_iff.mp h).2 c ?_
  exact List.mem_reverse.mp ((List.takeWhile_sublist _).subset hc)

theorem of_quote (front : String) (h : text.toList.getLast? = some '"') :
    EndsPlain (front ++ text) :=
  .inl (by rw [String.toList_append, List.getLast?_append, h, Option.some_or])

theorem append {front : String} (hfront : front.toList.getLast? = some ' ')
    (h : EndsPlain text) : EndsPlain (front ++ text) := by
  unfold EndsPlain
  rw [String.toList_append, List.getLast?_append, List.reverse_append]
  rcases h with hquote | hplain
  · exact .inl (by rw [hquote, Option.some_or])
  · obtain ⟨init, hinit⟩ := List.getLast?_eq_some_iff.mp hfront
    refine .inr fun c hc => hplain c ?_
    have hblank : (front.toList.reverse).takeWhile (· != ' ') = [] := by
      simp [hinit]
    rw [List.takeWhile_append] at hc
    split at hc
    · next hall =>
        rw [hblank, List.append_nil] at hc
        rwa [(List.takeWhile_sublist _).eq_of_length hall]
    · exact hc

theorem intercalate {separator : String} {texts : List String}
    (hseparator : separator.toList.getLast? = some ' ')
    (h : ∀ text ∈ texts, EndsPlain text) :
    EndsPlain (String.intercalate separator texts) := by
  induction texts with
  | nil => exact .inr (by simp)
  | cons text texts ih =>
      obtain ⟨htext, htexts⟩ := List.forall_mem_cons.mp h
      cases texts with
      | nil => rwa [String.intercalate_singleton]
      | cons next texts =>
          rw [String.intercalate_cons_cons]
          refine (ih htexts).append ?_
          rw [String.toList_append, List.getLast?_append, hseparator,
            Option.some_or]

theorem opensBlock_eq (h : EndsPlain text) : opensBlock text = false := by
  rcases List.eq_nil_or_concat text.toList with hempty | ⟨init, c, hchars⟩
  · rw [opensBlock, hempty]
    rfl
  · have hlast : text.toList.getLast? = some c := by simp [hchars]
    refine EndsOff.opensBlock_eq ⟨c, hlast, ?_⟩
    rintro rfl
    rcases h with hquote | hplain
    · exact absurd (hlast.symm.trans hquote) (by decide)
    · exact absurd (hplain '(' (by simp [hchars])) (by decide)

end EndsPlain

theorem programWord_endsPlain (program : String) :
    EndsPlain (programWord program) := by
  unfold programWord
  split_ifs with hplain
  · exact .of_isPlainWord hplain
  · exact .of_quote _ (by decide)

theorem IsStageWord.endsPlain {word : String} (h : IsStageWord word) :
    EndsPlain word := by
  cases h with
  | plain hplain => exact .of_isPlainWord hplain
  | read _ => exact .of_quote _ (by decide)

theorem IsStage.endsPlain {program stage : String} (h : IsStage program stage) :
    EndsPlain stage := by
  obtain ⟨words, hwords, rfl⟩ := h
  exact .intercalate (by decide) (List.forall_mem_cons.mpr
    ⟨programWord_endsPlain program,
      fun word hword => (hwords word hword).endsPlain⟩)

/-- Whatever the programs are called. -/
theorem IsPipeline.endsPlain {programs : List String}
    (h : IsPipeline programs line) : EndsPlain line := by
  obtain ⟨stages, hstages, rfl⟩ := h
  refine .intercalate (by decide) ?_
  induction hstages with
  | nil => simp
  | cons hstage _ ih => exact List.forall_mem_cons.mpr ⟨hstage.endsPlain, ih⟩

/-- A clean line opens no block. -/
theorem Command.IsClean.opensBlock_eq (h : command.IsClean operation own) :
    opensBlock command.text = false := by
  have hparen : isForeign '(' = true := by decide
  cases command with
  | flow instruction =>
      cases instruction with
      | label name =>
          exact opensBlock_append (by decide)
            (not_mem_of_word hparen h.isWordChar)
      | jump target =>
          exact opensBlock_append (by decide)
            (not_mem_of_word hparen h.isWordChar)
      | jumpUnless condition target =>
          have hfront : EndsOff "\"==\"1\" goto " := ⟨' ', by decide, by decide⟩
          exact opensBlock_append (hfront.append _).opensBlock_eq
            (not_mem_of_word hparen h.2.isWordChar)
  | call label args =>
      rw [Command.text, String.append_assoc]
      refine opensBlock_append (by decide) ?_
      simp only [String.toList_append, List.mem_append, not_or]
      exact ⟨not_mem_of_word hparen h.1.isWordChar,
        h.2.arguments_not_mem hparen⟩
  | set name value => exact opensBlock_quoted _ _ _
  | setArithmetic name expression => exact opensBlock_quoted _ _ _
  | setIf test name value => exact opensBlock_quoted _ _ _
  | fetchElement name list index => exact opensBlock_quoted _ _ _
  | readLine name prompt => exact opensBlock_quoted _ _ _
  | echo text => exact opensBlock_append (by decide) (IsSafe.not_mem hparen h)
  | writeFile path content append =>
      refine opensBlock_append ?_ (IsSafe.not_mem hparen h.2)
      cases append <;> simp [opensBlock]
  | discardFile path =>
      have hend : EndsOff "\" >nul" := ⟨'l', by decide, by decide⟩
      exact (hend.append _).opensBlock_eq
  | run line =>
      obtain ⟨_, _, hpipeline⟩ := h
      exact hpipeline.endsPlain.opensBlock_eq
  | capture line errors =>
      have hend : EndsOff (") > \"%__sb_cap%.out\"" ++
          if errors then " 2> \"%__sb_cap%.err\"" else "") := by
        cases errors <;> exact ⟨'"', by decide, by decide⟩
      rw [Command.text, String.append_assoc]
      exact (hend.append _).opensBlock_eq
  | exit code =>
      have hcode : IsSafeText (toString code) := isSafe_toString code
      exact opensBlock_append (by decide) (IsSafe.not_mem hparen hcode)
  | comeBack | quit | nothing => decide
  | removeCaptured | verbatim _ => exact h.elim

theorem Command.IsClean.isFlush (h : command.IsClean operation own) :
    IsFlush command.text := by
  refine ⟨?_, h.opensBlock_eq⟩
  by_cases hrun : ∃ line, command = .run line
  · obtain ⟨line, rfl⟩ := hrun
    obtain ⟨_, _, hpipeline⟩ := h
    exact hpipeline.dropLeadingBlanks_eq
  · refine Command.text_dropLeadingBlanks
      (fun line hline => hrun ⟨line, hline⟩) ?_
    rintro text rfl
    exact h

theorem isFlush_fixed
    (h : command ∈ Needs.all.header ++ [.removeCaptured, .exit 0]) :
    IsFlush command.text := by
  have hall : ∀ command ∈ Needs.all.header ++ [.removeCaptured, .exit 0],
      dropLeadingBlanks command.text = command.text ∧
        opensBlock command.text = false := by
    decide +kernel
  exact ⟨(hall command h).1, (hall command h).2⟩

theorem lines_clean {program : Program}
    (hsource : parseSource source = .ok program)
    (hrun : exec (Script.writeStatements program) (Dialect.fresh : State) =
      (.ok (), s)) (h : command ∈ s.lines.toList) :
    ∃ operation own, command.IsClean operation own := by
  obtain ⟨_, hchecked, _⟩ := parseSource_checked hsource
  have hlog := operations_log hsource
  rw [← Script.writer_of_exec hchecked.isOuter hrun, hlog.lines_eq] at h
  obtain ⟨note, hnote, hcommand⟩ := List.mem_flatMap.mp h
  exact ⟨_, _, hlog.clean hnote hcommand⟩

theorem scriptLines_eq {program : Program}
    (hsource : parseSource source = .ok program)
    (hrun : exec (Script.writeStatements program) (Dialect.fresh : State) =
      (.ok (), s)) :
    s.scriptLines = (s.needs.header ++ s.body ++ [Command.exit 0]).map
      Command.text ++ indentBlocks (s.needs.tail.map Command.text) 2 := by
  have hflush : ∀ command ∈ s.needs.header ++ s.body ++ [Command.exit 0],
      IsFlush command.text := by
    intro command hcommand
    simp only [List.mem_append] at hcommand
    rcases hcommand with (hheader | hbody) | hexit
    · exact isFlush_fixed (List.mem_append_left _ (header_subset _ hheader))
    · rcases mem_body hbody with rfl | hline
      · exact isFlush_fixed (by simp)
      · obtain ⟨_, _, hclean⟩ := lines_clean hsource hrun hline
        exact hclean.isFlush
    · exact isFlush_fixed (by simp [List.mem_singleton.mp hexit])
  rw [State.scriptLines, State.commands, indentBlocks, List.map_append,
    indentFrom_flush (List.forall_mem_map.mpr hflush)]
  rfl

/-- The lines of a script up to its last `exit /b 0` are those of the header and
those the program has written, with the ones that remove captured output, as
they are: indentation is for the subroutines behind them. -/
theorem program_lines_keep_margin {source script : String} {program : Program}
    (hsource : parseSource source = .ok program)
    (hscript : program.script .batch = .ok script) :
    ∃ s : State, exec (Script.writeStatements program) Dialect.fresh =
      (.ok (), s) ∧
      script = String.join
        (((s.needs.header ++ s.body ++ [Command.exit 0]).map Command.text ++
          indentBlocks (s.needs.tail.map Command.text) 2).map
            (· ++ Shell.batch.lineEnding)) := by
  obtain ⟨s, _, hrun, _, rfl⟩ := written_sound hsource hscript
  exact ⟨s, hrun, by rw [scriptLines_eq hsource hrun]⟩

/-- Neither a literal that ends like the start of a block nor a program whose
name begins like the end of one is moved or moves anything. -/
theorem program_lines_keep_margin_parentheses :
    ∃ (program : Program) (script : String) (s : State),
      parseSource "print(\"a (\")\n@\") (\"\x7b\x7d\n" = .ok program ∧
        program.script .batch = .ok script ∧
        s.body.map Command.text = ["set \"__sb_h1=a (\"", "echo(!__sb_h1!",
          "\") (\""] ∧
        script = String.join
          (((s.needs.header ++ s.body ++ [Command.exit 0]).map Command.text ++
            indentBlocks (s.needs.tail.map Command.text) 2).map
              (· ++ Shell.batch.lineEnding)) := by
  have hsource : parseSource "print(\"a (\")\n@\") (\"\x7b\x7d\n" =
      .ok ⟨[.print (.string "a (" [.string]),
        .action (.process [(") (", [])] [.string, .string, .int])]⟩ := by cbv
  have hscript : Program.script ⟨[.print (.string "a (" [.string]),
      .action (.process [(") (", [])] [.string, .string, .int])]⟩ .batch =
      .ok ("@echo off\r\nsetlocal EnableDelayedExpansion\r\nset \"__sb_h1=a (\"\r\n" ++
        "echo(!__sb_h1!\r\n\") (\"\r\nexit /b 0\r\n") := by
    decide +kernel
  obtain ⟨s, hrun, hlines⟩ := program_lines_keep_margin hsource hscript
  refine ⟨_, _, s, hsource, hscript, ?_, hlines⟩
  have hbody : (exec (Script.writeStatements ⟨[.print (.string "a (" [.string]),
      .action (.process [(") (", [])] [.string, .string, .int])]⟩)
      (Dialect.fresh : State)).2.body.map Command.text =
      ["set \"__sb_h1=a (\"", "echo(!__sb_h1!", "\") (\""] := by
    decide +kernel
  rwa [hrun] at hbody

end Batch

end Shellwright
