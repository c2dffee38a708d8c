/-
Line ends of batch scripts.  Every line of a script is ended by a carriage
return and a line feed.  Inside a line there is a line feed only where the name
of a program brings one along: literals write theirs as a variable, and nothing
else that gets into a line can hold one.
-/
import Shellwright.Proofs.Batch.Fragments
import Shellwright.Proofs.Batch.Simple
import Shellwright.Proofs.Script.Programs

namespace Shellwright

/-- Every line feed directly follows a carriage return. -/
def FeedsFollowReturns (chars : List Char) : Prop :=
  ∀ before after, chars = before ++ '\n' :: after → before.getLast? = some '\r'

namespace FeedsFollowReturns

variable {first second chars : List Char}

/-- The same, said of neighbours. -/
theorem iff_isChain :
    FeedsFollowReturns chars ↔
      (' ' :: chars).IsChain fun c next => next = '\n' → c = '\r' := by
  rw [List.isChain_iff_forall_rel_of_append_cons_cons]
  constructor
  · rintro h c next before after hchars rfl
    cases before with
    | nil =>
        have hstart : chars = '\n' :: after := (List.cons.inj hchars).2
        exact absurd (h [] after hstart) (by simp)
    | cons start before =>
        have hlast := h (before ++ [c]) after
          (by simpa using (List.cons.inj hchars).2)
        simpa using hlast
  · rintro h before after rfl
    rcases List.eq_nil_or_concat before with rfl | ⟨front, c, rfl⟩
    · exact absurd (@h _ _ [] _ rfl rfl) (by decide)
    · have hreturn : c = '\r' := @h _ _ (' ' :: front) after (by simp) rfl
      simp [hreturn]

/-- Nothing is hidden where two texts meet, unless the second starts with a line
feed behind a carriage return. -/
theorem append_iff (hjoin : first.getLast? ≠ some '\r' ∨
    second.head? ≠ some '\n') : FeedsFollowReturns (first ++ second) ↔
      FeedsFollowReturns first ∧ FeedsFollowReturns second := by
  rw [iff_isChain, iff_isChain, iff_isChain, ← List.cons_append,
    List.isChain_append]
  refine and_congr_right fun _ => ?_
  rw [List.isChain_cons, and_comm]
  refine and_congr_left fun _ => ?_
  rw [List.getLast?_cons]
  cases second with
  | nil => simp
  | cons c rest =>
      by_cases hc : c = '\n'
      · have hlast : first.getLast? ≠ some '\r' :=
          hjoin.resolve_right (by simp [hc])
        cases hfirst : first.getLast? <;> simp_all
      · simp [hc]

theorem of_not_mem (h : '\n' ∉ chars) : FeedsFollowReturns chars := by
  rintro before after rfl
  exact absurd (List.mem_append_right _ List.mem_cons_self) h

theorem append_of_not_mem (h : '\n' ∉ second) :
    FeedsFollowReturns (first ++ second) ↔ FeedsFollowReturns first := by
  rw [append_iff (.inr fun hhead => h (List.mem_of_head? hhead))]
  exact and_iff_left (of_not_mem h)

end FeedsFollowReturns

namespace Batch

variable {c : Char} {line text word : String} {command : Command}
  {chars : List Char} {operation : Operation} {programs : List String}

open Script (Operation exec operations)

open State

/-- The command runs a pipeline. -/
def Command.IsPipelineLine (command : Command) : Prop :=
  (∃ line, command = .run line) ∨ ∃ line errors, command = .capture line errors

/-! Texts without line feeds. -/

section Plain

variable {finished : Nat → Bool → Prop} {own : Nat → Prop} {text cell : String}
  {label : String} {args : List String}

/-- No part of a safe text or of what stands around one. -/
def isForeign (c : Char) : Bool := !isSafeChar c && !"!\"%".toList.contains c

theorem not_mem_of_word (hc : isForeign c = true)
    (h : ∀ c ∈ chars, isWordChar c = true) : c ∉ chars := by
  intro hmem
  simp [isForeign, isSafeChar_of_isWordChar (h c hmem)] at hc

theorem feed_not_mem_of_word (h : ∀ c ∈ chars, isWordChar c = true) :
    '\n' ∉ chars := not_mem_of_word (by decide) h

theorem IsSafe.not_mem (hc : isForeign c = true) (h : IsSafe finished chars) :
    c ∉ chars := by
  induction h with
  | nil => exact List.not_mem_nil
  | char hsafe _ ih =>
      refine List.not_mem_cons_of_ne_of_not_mem ?_ ih
      rintro rfl
      simp [isForeign, hsafe] at hc
  | read hname _ _ ih =>
      have hmark : c ≠ '!' := by
        rintro rfl
        exact absurd hc (by decide)
      simp [hmark, not_mem_of_word hc hname.word, ih]

theorem IsSafe.no_feed (h : IsSafe finished chars) : '\n' ∉ chars :=
  h.not_mem (by decide)

theorem IsStorage.isName (h : IsStorage own text) : IsName text := by
  cases h with
  | helper _ => exact isName_helperName _
  | stored hname => exact isName_storageName hname
  | argument place => exact isName_argumentSlot place
  | result place => exact isName_resultSlot place
  | element => exact IsPlainLabel.isName rfl (by decide)
  | default => exact IsPlainLabel.isName rfl (by decide)

theorem IsTarget.no_feed (h : IsTarget own cell) : '\n' ∉ cell.toList := by
  obtain ⟨base, isList, hbase, hcell⟩ := h
  have hstart : '\n' ∉ base.toList := feed_not_mem_of_word hbase.isName.word
  cases hcell with
  | scalar => exact hstart
  | length => simp [hstart]
  | element index =>
      have hindex : IsSafeText (toString index) := isSafe_toString_int index
      simp only [String.toList_append, List.mem_append, not_or]
      exact ⟨⟨hstart, by decide⟩, hindex.no_feed⟩

theorem IsTest.no_feed (h : IsTest text) : '\n' ∉ text.toList := by
  cases h with
  | truth hvalue => simp [isTrue, hvalue.no_feed]
  | both hleft hright => simp [isTrue, hleft.no_feed, hright.no_feed]
  | order op hleft hright =>
      cases op <;> simp [comparisonWord, hleft.no_feed, hright.no_feed]
  | same hleft hright => simp [hleft.no_feed, hright.no_feed]
  | differ hleft hright => simp [hleft.no_feed, hright.no_feed]
  | file hpath => simp [hpath.no_feed]

theorem IsArithmetic.no_feed (h : IsArithmetic text) : '\n' ∉ text.toList := by
  cases h with
  | value htext => exact htext.no_feed
  | negated htext => simp [htext.no_feed]
  | binary op hleft hright =>
      cases op <;> simp [arithmeticSymbol, BinaryOp.symbol, hleft.no_feed,
        hright.no_feed]
  | next htext => simp [htext.no_feed]

theorem IsCall.not_mem (hc : isForeign c = true) (h : IsCall own label args) :
    ∀ arg ∈ args, c ∉ arg.toList := by
  cases h with
  | function => simp
  | value _ hinputs htarget =>
      intro arg harg
      rcases List.mem_append.mp harg with hinput | hlast
      · cases hinputs arg hinput with
        | value htext => exact IsSafe.not_mem hc htext
        | quoted htext =>
            have hquote : c ≠ '"' := by
              rintro rfl
              exact absurd hc (by decide)
            simp [hquote, IsSafe.not_mem hc htext]
      · rw [List.mem_singleton.mp hlast]
        exact not_mem_of_word hc htarget.isName.word
  | copy hsource htarget =>
      simp [IsSafe.not_mem hc hsource, not_mem_of_word hc htarget.isName.word]
  | element hlist hindex =>
      simp [IsSafe.not_mem hc hindex, not_mem_of_word hc hlist.isName.word]

/-- What stands behind the label of a call. -/
theorem IsCall.arguments_not_mem (hc : isForeign c = true)
    (h : IsCall own label args) :
    c ∉ (String.join (args.map (" " ++ ·))).toList := by
  simp only [String.toList_join, List.mem_flatMap, List.mem_map]
  rintro ⟨_, ⟨arg, harg, rfl⟩, hmem⟩
  rcases List.mem_append.mp (String.toList_append ▸ hmem) with hblank | hmem
  · obtain rfl := List.mem_singleton.mp hblank
    exact absurd hc (by decide)
  · exact h.not_mem hc arg harg hmem

theorem escape_no_feed (value : String) : '\n' ∉ (escape value).toList := by
  unfold escape
  rw [String.toList_ofList, List.mem_flatMap]
  rintro ⟨c, _, hfeed⟩
  unfold escapeChar at hfeed
  split_ifs at hfeed with hpercent hcaret hmark hline
  · simp at hfeed
  · simp at hfeed
  · simp at hfeed
  · exact absurd hfeed (by decide)
  · exact hline (List.mem_singleton.mp hfeed).symm

/-- A clean line that runs no pipeline. -/
theorem Command.IsClean.no_feed (h : command.IsClean operation own)
    (hother : ¬command.IsPipelineLine) : '\n' ∉ command.text.toList := by
  cases command with
  | flow instruction =>
      cases instruction with
      | label name =>
          simp [Command.text, Instruction.text,
            feed_not_mem_of_word h.isWordChar]
      | jump target =>
          simp [Command.text, Instruction.text,
            feed_not_mem_of_word h.isWordChar]
      | jumpUnless condition target =>
          simp [Command.text, Instruction.text, h.1.no_feed,
            feed_not_mem_of_word h.2.isWordChar]
  | call label args =>
      simp only [Command.text, String.toList_append, List.mem_append, not_or]
      exact ⟨⟨by decide, feed_not_mem_of_word h.1.isWordChar⟩,
        h.2.arguments_not_mem (by decide)⟩
  | set name value =>
      rcases h with ⟨htarget, hvalue⟩ | ⟨literal, number, _, _, rfl, rfl⟩
      · simp [Command.text, Command.setting, htarget.no_feed, hvalue.no_feed]
      · simp [Command.text, Command.setting, escape_no_feed,
          feed_not_mem_of_word (isName_helperName number).word]
  | setArithmetic name expression =>
      simp [Command.text, Command.setting, h.1.no_feed, h.2.no_feed]
  | setIf test name value =>
      simp [Command.text, Command.setting, h.1.no_feed, h.2.1.no_feed,
        h.2.2.no_feed]
  | fetchElement name list index =>
      simp [Command.text, Command.setting, h.1.no_feed,
        feed_not_mem_of_word h.2.1.word, h.2.2.no_feed]
  | readLine name prompt =>
      simp [Command.text, Command.setting, h.1.no_feed, h.2.no_feed]
  | echo text => simp [Command.text, IsSafe.no_feed h]
  | writeFile path content append =>
      cases append <;> simp [Command.text, h.1.no_feed, h.2.no_feed]
  | discardFile path => simp [Command.text, IsSafe.no_feed h]
  | run line => exact absurd (.inl ⟨line, rfl⟩) hother
  | capture line errors => exact absurd (.inr ⟨line, errors, rfl⟩) hother
  | exit code =>
      have hcode : IsSafeText (toString code) := isSafe_toString code
      simp only [Command.text, String.toList_append, List.mem_append, not_or]
      exact ⟨by decide, hcode.no_feed⟩
  | comeBack => simp [Command.text]
  | quit => simp [Command.text]
  | nothing => simp [Command.text]
  | removeCaptured => exact h.elim
  | verbatim text => exact h.elim

end Plain

/-! Pipelines. -/

/-- Doubled percent signs change nothing about line feeds. -/
theorem feeds_doubled_iff (chars : List Char) :
    FeedsFollowReturns (chars.flatMap fun c => if c = '%' then ['%', '%']
      else [c]) ↔ FeedsFollowReturns chars := by
  rw [FeedsFollowReturns.iff_isChain, FeedsFollowReturns.iff_isChain]
  generalize ' ' = last
  induction chars generalizing last with
  | nil => rfl
  | cons c rest ih =>
      by_cases hc : c = '%'
      · simp [hc, List.isChain_cons_cons, ih]
      · simp [hc, List.isChain_cons_cons, ih]

theorem isPlainWord_not_mem (hc : isForeign c = true)
    (h : isPlainWord word = true) : c ∉ word.toList := by
  intro hmem
  have hplain := List.all_eq_true.mp (Bool.and_eq_true_iff.mp h).2 c hmem
  have hmarks : "_.:/+-".toList ⊆ " _.,:/+-".toList := by decide
  have hsafe : isSafeChar c = true := by
    rw [isPlainChar, Bool.or_eq_true, List.contains_iff_mem] at hplain
    rw [isSafeChar, Bool.or_eq_true, List.contains_iff_mem]
    exact hplain.imp_right fun hmark => hmarks hmark
  simp [isForeign, hsafe] at hc

theorem feeds_programWord_iff (program : String) :
    FeedsFollowReturns (programWord program).toList ↔
      FeedsFollowReturns program.toList := by
  unfold programWord
  split_ifs with hplain
  · rfl
  · rw [String.toList_append, FeedsFollowReturns.append_of_not_mem (by decide),
      String.toList_append, FeedsFollowReturns.append_iff (.inl (by decide)),
      and_iff_right (.of_not_mem (by decide)), String.toList_ofList,
      feeds_doubled_iff]

theorem IsStageWord.not_mem (hc : isForeign c = true) (h : IsStageWord word) :
    c ∉ word.toList := by
  cases h with
  | plain hplain => exact isPlainWord_not_mem hc hplain
  | read hname =>
      have hmarks : c ≠ '"' ∧ c ≠ '%' := by
        constructor <;> (rintro rfl; exact absurd hc (by decide))
      simp [hmarks, not_mem_of_word hc hname.word]

theorem words_no_feed {words : List String}
    (h : ∀ word ∈ words, IsStageWord word) :
    '\n' ∉ (String.intercalate " " words).toList := by
  induction words with
  | nil => simp
  | cons word words ih =>
      obtain ⟨hword, hwords⟩ := List.forall_mem_cons.mp h
      cases words with
      | nil => simpa using hword.not_mem (by decide)
      | cons next words =>
          rw [String.intercalate_cons_cons, String.toList_append,
            String.toList_append]
          simp only [List.mem_append, not_or]
          exact ⟨⟨hword.not_mem (by decide), by decide⟩, ih hwords⟩

theorem IsStage.feeds_iff {program stage : String} (h : IsStage program stage) :
    FeedsFollowReturns stage.toList ↔ FeedsFollowReturns program.toList := by
  obtain ⟨words, hwords, rfl⟩ := h
  cases words with
  | nil => rw [String.intercalate_singleton, feeds_programWord_iff]
  | cons word words =>
      rw [String.intercalate_cons_cons, String.toList_append,
        String.toList_append, FeedsFollowReturns.append_of_not_mem
          (words_no_feed hwords),
        FeedsFollowReturns.append_of_not_mem (by decide), feeds_programWord_iff]

theorem IsPipeline.feeds_iff (h : IsPipeline programs line) :
    FeedsFollowReturns line.toList ↔
      ∀ program ∈ programs, FeedsFollowReturns program.toList := by
  obtain ⟨stages, hstages, rfl⟩ := h
  induction hstages with
  | nil => simp [FeedsFollowReturns.of_not_mem]
  | @cons program stage programs stages hstage hstages ih =>
      cases stages with
      | nil =>
          cases hstages
          rw [String.intercalate_singleton, hstage.feeds_iff]
          simp
      | cons next stages =>
          rw [String.intercalate_cons_cons, String.toList_append,
            String.toList_append, FeedsFollowReturns.append_iff
              (.inl (by simp)),
            FeedsFollowReturns.append_of_not_mem (by decide),
            hstage.feeds_iff, ih, List.forall_mem_cons]

/-! Lines. -/

theorem isBlank_of_isPlainChar (h : isPlainChar c = true) :
    isBlank c = false := by
  have hcode : 43 ≤ c.toNat ∧ c.toNat < 128 := by
    rcases Bool.or_eq_true_iff.mp h with h | h
    · simp only [Char.isAlphanum, Char.isAlpha, Char.isUpper, Char.isLower,
        Char.isDigit, Bool.or_eq_true, Bool.and_eq_true, decide_eq_true_eq,
        UInt32.le_iff_toNat_le, ge_iff_le, Char.toNat_val,
        Char.reduceToNat] at h
      omega
    · rcases (by simpa using h : c = '_' ∨ c = '.' ∨ c = ':' ∨ c = '/' ∨
        c = '+' ∨ c = '-') with
        rfl | rfl | rfl | rfl | rfl | rfl <;> decide
  simp only [isBlank, Bool.or_eq_false_iff, Bool.and_eq_false_iff,
    decide_eq_false_iff_not, beq_eq_false_iff_ne]
  omega

theorem programWord_head (program : String) :
    ∃ c rest, (programWord program).toList = c :: rest ∧ isBlank c = false := by
  unfold programWord
  split_ifs with hplain
  · obtain ⟨hne, hall⟩ := Bool.and_eq_true_iff.mp hplain
    cases hchars : program.toList with
    | nil => simp_all
    | cons c rest =>
        rw [hchars, List.all_cons] at hall
        exact ⟨c, rest, rfl, isBlank_of_isPlainChar
          (Bool.and_eq_true_iff.mp hall).1⟩
  · exact ⟨'"', _, by rw [String.toList_append, String.toList_append]; rfl, by
      decide⟩

theorem intercalate_starts {separator first : String}
    (h : first.toList = c :: chars) (rest : List String) :
    ∃ chars, (String.intercalate separator (first :: rest)).toList =
      c :: chars := by
  cases rest with
  | nil => exact ⟨chars, by rw [String.intercalate_singleton, h]⟩
  | cons next rest =>
      rw [String.intercalate_cons_cons, String.toList_append,
        String.toList_append, h]
      exact ⟨_, rfl⟩

/-- The line of a pipeline does not start with a blank. -/
theorem IsPipeline.dropLeadingBlanks_eq (h : IsPipeline programs line) :
    dropLeadingBlanks line = line := by
  obtain ⟨stages, hstages, rfl⟩ := h
  apply dropLeadingBlanks_of_head
  cases hstages with
  | nil => simp
  | @cons program stage programs stages hstage hstages =>
      obtain ⟨words, -, rfl⟩ := hstage
      obtain ⟨c, rest, hword, hblank⟩ := programWord_head program
      obtain ⟨_, hstage⟩ := intercalate_starts hword words
      obtain ⟨_, hline⟩ := intercalate_starts hstage stages
      rw [hline]
      rintro _ ⟨⟩
      exact hblank

theorem feeds_indentFrom_iff (width depth : Nat) (lines : List String) :
    (∀ line ∈ indentFrom width depth lines, FeedsFollowReturns line.toList) ↔
      ∀ line ∈ lines, FeedsFollowReturns (dropLeadingBlanks line).toList := by
  induction lines generalizing depth with
  | nil => simp [indentFrom]
  | cons line lines ih =>
      unfold indentFrom
      dsimp only
      by_cases hblank : dropLeadingBlanks line = ""
      · rw [if_pos hblank, List.forall_mem_cons, List.forall_mem_cons, hblank]
        exact and_congr_right fun _ => ih depth
      · have hspaces : ∀ count, '\n' ∉ List.replicate count ' ' :=
          fun count hfeed => absurd (List.eq_of_mem_replicate hfeed) (by decide)
        rw [if_neg hblank, List.forall_mem_cons, List.forall_mem_cons,
          String.toList_append, String.toList_ofList,
          FeedsFollowReturns.append_iff (.inl ?_)]
        · rw [and_iff_right (FeedsFollowReturns.of_not_mem (hspaces _))]
          exact and_congr_right fun _ => ih _
        · intro hlast
          exact absurd (List.eq_of_mem_replicate (List.mem_of_getLast? hlast))
            (by decide)

theorem feeds_lineEnding : FeedsFollowReturns Shell.batch.lineEnding.toList :=
  FeedsFollowReturns.iff_isChain.mpr (by decide)

/-- A script has proper line ends if its lines have. -/
theorem feeds_join_iff (lines : List String) :
    FeedsFollowReturns (String.join
      (lines.map (· ++ Shell.batch.lineEnding))).toList ↔
      ∀ line ∈ lines, FeedsFollowReturns line.toList := by
  induction lines with
  | nil => simp [FeedsFollowReturns.of_not_mem]
  | cons line lines ih =>
      rw [List.map_cons, String.join_cons, String.toList_append,
        String.toList_append, FeedsFollowReturns.append_iff
          (.inl (by simp [Shell.lineEnding])),
        FeedsFollowReturns.append_iff (.inr (by decide)),
        and_iff_left feeds_lineEnding, List.forall_mem_cons]
      exact and_congr_right fun _ => ih

/-! Every pipeline is written. -/

theorem mem_since {s s' : State} (before after : List Command)
    (h : s'.lines.toList = s.lines.toList ++ before ++ command :: after) :
    command ∈ since s s' := by
  unfold since
  rw [h, List.append_assoc, ← Array.length_toList, List.drop_left]
  exact List.mem_append_right _ List.mem_cons_self

theorem readCaptured_onlyAdds (suffix : String) :
    OnlyAdds (readCaptured suffix) :=
  .bind helper_adds fun _ => .bind (emit_adds fun _ => .inr trivial)
    fun _ => .pure

theorem capturedResults_onlyAdds (count : Nat) (code : List String) :
    OnlyAdds (capturedResults count code) :=
  .bind (readCaptured_onlyAdds ".out") fun _ =>
    .ite (fun _ => .bind (readCaptured_onlyAdds ".err")
      fun _ => .bind .pure fun _ => .pure) fun _ => .bind .pure fun _ => .pure

theorem capturePipeline_writes (line : String) (count : Nat) (s : State) :
    ∃ after, (exec (capturePipeline line count) s).2.lines.toList =
      s.lines.toList ++ .capture line (count ≥ 2) :: after := by
  have hrest : OnlyAdds (do
      let code ←
        if count ≥ 3 then do
          let name ← helper
          emit (.set name "!errorlevel!")
          pure [read name]
        else
          pure []
      capturedResults count code) :=
    .ite (fun _ => .bind helper_adds
      fun _ => .bind (emit_adds fun _ => trivial) fun _ =>
      .bind .pure fun _ => capturedResults_onlyAdds count _)
      fun _ => .bind .pure fun _ => capturedResults_onlyAdds count _
  obtain ⟨after, hlines, _⟩ :=
    (hrest.changes
      { s with lines := s.lines.push (.capture line (count ≥ 2)) }).lines
  refine ⟨after, hlines.trans ?_⟩
  simp

theorem runProcess_writes (stages : List Invocation) (count : Nat) (s : State) :
    ∃ command ∈ since s (exec (runProcess stages count) s).2,
      command.IsPipelineLine := by
  have hwords : Adds .all True (stageWords stages) fun _ => True :=
    stageWords_adds
  obtain ⟨words, mid, hrun, _, hextends⟩ := hwords.exec_ok trivial s
  obtain ⟨before, hbefore, _⟩ := hextends.lines
  rw [runProcess_eq, Script.exec_bind_ok hrun]
  by_cases hcount : count = 0
  · rw [if_pos hcount]
    refine ⟨.run (String.intercalate " | " words), mem_since before [] ?_,
      .inl ⟨_, rfl⟩⟩
    rw [← hbefore]
    exact Array.toList_push
  · rw [if_neg hcount]
    obtain ⟨after, hafter⟩ := capturePipeline_writes
      (String.intercalate " | " words) count
      { mid with
        needs := { mid.needs with
          capture := true, fileContent := true, newline := true } }
    refine ⟨.capture (String.intercalate " | " words) (count ≥ 2),
      mem_since before after ?_, .inr ⟨_, _, rfl⟩⟩
    rw [← hbefore]
    exact hafter

/-! The script. -/

theorem feeds_dropLeadingBlanks (h : '\n' ∉ text.toList) :
    FeedsFollowReturns (dropLeadingBlanks text).toList := by
  refine .of_not_mem fun hfeed => h ?_
  rw [dropLeadingBlanks, String.toList_ofList] at hfeed
  exact List.dropWhile_subset _ hfeed

/-- The line of a pipeline is as good as the names of its programs. -/
theorem Command.IsClean.feeds_iff {own : Nat → Prop}
    (h : command.IsClean operation own) (hline : command.IsPipelineLine) :
    ∃ programs, operation = .pipeline programs ∧
      (FeedsFollowReturns (dropLeadingBlanks command.text).toList ↔
        ∀ program ∈ programs, FeedsFollowReturns program.toList) := by
  rcases hline with ⟨line, rfl⟩ | ⟨line, errors, rfl⟩
  · obtain ⟨programs, hoperation, hpipeline⟩ := h
    refine ⟨programs, hoperation, ?_⟩
    rw [Command.text, hpipeline.dropLeadingBlanks_eq, hpipeline.feeds_iff]
  · obtain ⟨programs, hoperation, hpipeline⟩ := h
    refine ⟨programs, hoperation, ?_⟩
    have hend : '\n' ∉ (if errors then " 2> \"%__sb_cap%.err\""
        else "").toList := by
      cases errors <;> decide
    have hhead : ∀ c ∈ (Command.capture line errors).text.toList.head?,
        isBlank c = false := by
      simp [Command.text, isBlank]
    rw [dropLeadingBlanks_of_head hhead, Command.text,
      String.toList_append, FeedsFollowReturns.append_of_not_mem hend,
      String.toList_append, FeedsFollowReturns.append_of_not_mem (by decide),
      String.toList_append, FeedsFollowReturns.append_iff (.inl (by decide)),
      and_iff_right (.of_not_mem (by decide)), hpipeline.feeds_iff]

theorem lines_subset_commands (s : State) : s.lines.toList ⊆ s.commands := by
  have hinserted : ∀ (places : List Nat) (lines : List Command), lines ⊆
      places.foldl (fun lines place => lines.insertIdx place .removeCaptured)
        lines := by
    intro places
    induction places with
    | nil => exact fun _ => List.Subset.refl _
    | cons place places ih =>
        exact fun lines => List.Subset.trans (List.subset_insertIdx ..) (ih _)
  have hbody : s.lines.toList ⊆ s.body := by
    unfold State.body
    split
    · exact List.Subset.trans (hinserted _ _) (List.subset_append_left _ _)
    · exact List.Subset.refl _
  unfold State.commands
  intro command hcommand
  simp [hbody hcommand]

theorem feed_mem_bytes (h : '\n' ∈ text.toList) :
    10 ∈ text.toByteArray.data.toList := by
  rw [← String.ofList_toList (s := text), String.toByteArray_ofList,
    List.utf8Encode, List.data_toByteArray]
  exact List.mem_flatMap.mpr ⟨'\n', h, by decide⟩

theorem fixedCommands_no_feed (h : command ∈ fixedCommands) :
    '\n' ∉ command.text.toList := by
  -- the bytes of a long literal are computed much faster than its characters
  have hall : fixedCommands.all
    (fun command => !command.text.toByteArray.data.toList.contains 10)
      = true := by
    decide +kernel
  have hbytes : 10 ∉ command.text.toByteArray.data.toList := by
    simpa using List.all_eq_true.mp hall command h
  exact fun hfeed => hbytes (feed_mem_bytes hfeed)

/-- A batch script has proper line ends if and only if the names of the programs
it runs have: only these are copied with the line feeds they hold. -/
theorem batch_feeds_follow_returns_iff {source script : String}
    {program : Program} (hsource : parseSource source = .ok program)
    (hscript : program.script .batch = .ok script) :
    FeedsFollowReturns script.toList ↔
      ∀ name ∈ program.programs, FeedsFollowReturns name.toList := by
  obtain ⟨s, _, hrun, _, rfl⟩ := written_sound hsource hscript
  obtain ⟨tables, hchecked, _⟩ := parseSource_checked hsource
  obtain ⟨hcompleted, hprograms⟩ :=
    Script.operations_programs hchecked.isOuter hrun
  have hlog := operations_log hsource
  have hlines : s.lines.toList =
      (operations State program).flatMap linesOf := by
    rw [← Script.writer_of_exec hchecked.isOuter hrun]
    exact hlog.lines_eq
  rw [feeds_join_iff, State.scriptLines, indentBlocks, feeds_indentFrom_iff,
    List.forall_mem_map, ← hprograms]
  constructor
  · intro h name hname
    obtain ⟨note, hnote, hname⟩ := List.mem_flatMap.mp hname
    cases hoperation : note.operation with
    | literal value => rw [hoperation] at hname; cases hname
    | plain => rw [hoperation] at hname; cases hname
    | pipeline programs =>
        obtain ⟨stages, count, results, hwritten⟩ :=
          hcompleted note hnote programs hoperation
        obtain ⟨command, hcommand, hline⟩ :=
          runProcess_writes stages count note.before
        rw [show exec (runProcess stages count) note.before = _ from hwritten]
          at hcommand
        obtain ⟨_, hpipeline, hfeeds⟩ :=
          (hlog.clean hnote hcommand).feeds_iff hline
        have hin : command ∈ s.lines.toList :=
          hlines ▸ List.mem_flatMap.mpr ⟨note, hnote, hcommand⟩
        rw [hpipeline] at hname
        exact hfeeds.mp (h command (lines_subset_commands s hin)) name hname
  · intro h command hcommand
    rcases mem_commands hcommand with hfixed | hin
    · exact feeds_dropLeadingBlanks (fixedCommands_no_feed hfixed)
    · rw [hlines] at hin
      obtain ⟨note, hnote, hcommand⟩ := List.mem_flatMap.mp hin
      have hclean := hlog.clean hnote hcommand
      by_cases hline : command.IsPipelineLine
      · obtain ⟨programs, hpipeline, hfeeds⟩ := hclean.feeds_iff hline
        refine hfeeds.mpr fun name hname =>
          h name (List.mem_flatMap.mpr ⟨note, hnote, ?_⟩)
        rw [hpipeline]
        exact hname
      · exact feeds_dropLeadingBlanks (hclean.no_feed hline)

/-- The line feed of a literal does not show. -/
theorem batch_feeds_follow_returns_iff_literal :
    ∃ program script,
      parseSource "print(\"a\\nb\")\n@ls\x7b\"-l\"\x7d\n" = .ok program ∧
        program.script .batch = .ok script ∧
          FeedsFollowReturns script.toList := by
  have hsource : parseSource "print(\"a\\nb\")\n@ls\x7b\"-l\"\x7d\n" =
      .ok ⟨[.print (.string "a\nb" [.string]),
        .action (.process [("ls", [.string "-l" [.string]])]
        [.string, .string, .int])]⟩ := by cbv
  have hscript : Program.script ⟨[.print (.string "a\nb" [.string]),
      .action (.process [("ls", [.string "-l" [.string]])]
        [.string, .string, .int])]⟩ .batch =
      .ok ("@echo off\r\nsetlocal EnableDelayedExpansion\r\n(set __sb_lf=^\r\n\r\n)\r\n" ++
        "set \"__sb_h1=a!__sb_lf!b\"\r\necho(!__sb_h1!\r\nls -l\r\nexit /b 0\r\n") := by
    decide +kernel
  refine ⟨_, _, hsource, hscript,
    (batch_feeds_follow_returns_iff hsource hscript).mpr ?_⟩
  intro name hname
  obtain rfl : name = "ls" := List.mem_singleton.mp hname
  exact .of_not_mem (by decide)

/-- The line feed in the name of a program splits its command in two. -/
theorem program_name_splits_line :
    ∃ program,
      parseSource "@\"a\\nb\"\x7b\x7d\n" = .ok program ∧
        program.script .batch = .ok
          "@echo off\r\nsetlocal EnableDelayedExpansion\r\n\"a\nb\"\r\nexit /b 0\r\n" ∧
        ¬FeedsFollowReturns
          "@echo off\r\nsetlocal EnableDelayedExpansion\r\n\"a\nb\"\r\nexit /b 0\r\n".toList := by
  refine ⟨⟨[.action (.process [("a\nb", [])] [.string, .string, .int])]⟩, by
    cbv, by decide +kernel, ?_⟩
  rw [FeedsFollowReturns.iff_isChain]
  decide +kernel

end Batch

end Shellwright
