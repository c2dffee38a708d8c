/-
Fragments of batch scripts.  The record of a program's operations tells where
the lines and the helpers of its script come from.  A helper is made and filled
by one operation, before any fragment reads it, and every line is put together
from fixed words and safe texts, but for literals and for the programs of
pipelines.
-/
import Shellwright.Proofs.Batch.Landing
import Shellwright.Proofs.Batch.Operations
import Shellwright.Proofs.Script.WriteProgram
import Shellwright.Proofs.Hidden.Words

namespace Shellwright

namespace Batch

variable {isList used : Bool} {s : State} {text : String} {command : Command}
  {stages : List Invocation}

open Script (Contract Course Lawful Note Operation Progress Recorded exec
  evaluate operations silent valued)

open State

/-- The lines an operation has written. -/
def linesOf (note : Note State) : List Command := since note.before note.after

/-- The operation has made the helper. -/
def Makes (note : Note State) : Nat → Prop := Allocated note.before note.after

/-- One of the operations has made the helper and has given it a value, or has
set it up as a list. -/
def Known (notes : List (Note State)) (number : Nat) (isList : Bool) : Prop :=
  ∃ note ∈ notes, Makes note number ∧
    ∃ command ∈ linesOf note, command.Defines (helperName number) isList

theorem Known.mono {notes more : List (Note State)} {number : Nat}
    (hmore : notes <+: more) (h : Known notes number isList) :
    Known more number isList := by
  obtain ⟨note, hnote, hmakes⟩ := h
  exact ⟨note, hmore.subset hnote, hmakes⟩

/-- Operations that lead from the fresh state to `s`.  Each writes clean lines,
and its fragments read helpers that are known when it returns. -/
inductive Log : List (Note State) → State → Prop where
  | nil : Log [] State.fresh
  | snoc {notes : List (Note State)} {note : Note State} :
      Log notes note.before → Working note.operation note.before note.after →
      (∀ fragment ∈ note.fragments,
        IsFragment (Known (notes ++ [note])) fragment.2 fragment.1) →
      Log (notes ++ [note]) note.after

namespace Log

variable {notes earlier : List (Note State)} {note : Note State} {s : State}

theorem labels (h : Log notes s) : s.graph.IsPlain := by
  cases h with
  | nil => exact fun _ hframe => nomatch hframe
  | snoc _ hworking _ => exact hworking.labels

theorem of_concat (h : Log (notes ++ [note]) s) :
    Log notes note.before ∧ Working note.operation note.before note.after ∧
      (∀ fragment ∈ note.fragments,
        IsFragment (Known (notes ++ [note])) fragment.2 fragment.1) ∧
          note.after = s := by
  generalize hlist : notes ++ [note] = list at h
  cases h with
  | nil => exact absurd hlist (by simp)
  | snoc hlog hworking hfragments =>
      obtain ⟨rfl, hlast⟩ := List.append_inj' hlist rfl
      cases hlast
      exact ⟨hlog, hworking, hfragments, rfl⟩

theorem of_isPrefix (h : Log notes s) (hearlier : earlier <+: notes) :
    ∃ s', Log earlier s' := by
  induction h with
  | nil =>
      obtain rfl := List.prefix_nil.mp hearlier
      exact ⟨_, .nil⟩
  | snoc hlog hworking hfragments ih =>
      rcases List.prefix_concat_iff.mp hearlier with rfl | hearlier
      · exact ⟨_, .snoc hlog hworking hfragments⟩
      · exact ih hearlier

/-- All lines of the state come from the operations. -/
theorem lines_eq (h : Log notes s) : s.lines.toList =
    notes.flatMap linesOf := by
  induction h with
  | nil => rfl
  | @snoc notes note _ hworking _ ih =>
      rw [List.flatMap_append, List.flatMap_singleton, ← ih]
      exact (List.prefix_iff_eq_append.mp hworking.grown.lines).symm

theorem le_helpers (h : Log notes s) {number : Nat} (hnote : note ∈ notes)
    (hmakes : Makes note number) : number ≤ s.helpers := by
  induction h with
  | nil => exact nomatch hnote
  | snoc _ hworking _ ih =>
      rcases List.mem_append.mp hnote with hnote | hnote
      · exact (ih hnote).trans hworking.grown.helpers
      · exact List.mem_singleton.mp hnote ▸ hmakes.2

/-- No helper is made twice. -/
theorem pairwise (h : Log notes s) :
    notes.Pairwise fun first second => ∀ number, Makes first number →
      ¬Makes second number := by
  induction h with
  | nil => exact .nil
  | snoc hlog _ _ ih =>
      refine List.pairwise_append.mpr ⟨ih, List.pairwise_singleton _ _, ?_⟩
      intro first hfirst second hsecond number hmakes
      rw [List.mem_singleton.mp hsecond]
      exact fun hagain => absurd (hlog.le_helpers hfirst hmakes)
        (Nat.not_le.mpr hagain.1)

theorem clean (h : Log notes s) (hnote : note ∈ notes)
    (hcommand : command ∈ linesOf note) :
    command.IsClean note.operation (Makes note) := by
  induction h with
  | nil => exact nomatch hnote
  | snoc _ hworking _ ih =>
      rcases List.mem_append.mp hnote with hnote | hnote
      · exact ih hnote
      · obtain rfl := List.mem_singleton.mp hnote
        exact hworking.clean command hcommand

end Log

/-! The recorded dialect. -/

/-- The record is a log, and fragments read only known helpers. -/
def recording : Contract (Recorded State) where
  holds r := Log r.notes r.writer
  grows r r' := r.notes <+: r'.notes
  fragment r := IsFragment (Known r.notes)
  refl _ := List.prefix_rfl
  trans := List.IsPrefix.trans
  mono hgrows h := h.mono fun _ _ => Known.mono hgrows

section Recording

variable {α : Type} {operation : Operation}
  {fragments : α → List (String × Bool)} {r : Recorded State}
  {p : Write State α}

/-- What the operation has finished is known when it returns. -/
theorem finished_known {notes : List (Note State)} {start : State}
    {number : Nat} {returned : List (String × Bool)}
    (h : Finished (Known notes) start s number isList) :
    Known (notes ++ [⟨operation, start, s, returned⟩]) number isList := by
  rcases h with hknown | hmade
  · exact hknown.mono (List.prefix_append _ _)
  · exact ⟨_, List.mem_append_right _ (List.mem_singleton_self _), hmade⟩

/-- A note in the record for an operation that works. -/
theorem recorded_ensures
    (h : Working operation r.writer r.writer →
      (inOperation operation (Known r.notes) r.writer).Ensures r.writer p
        fun a s =>
        ∀ fragment ∈ fragments a,
          IsFragment (Finished (Known r.notes) r.writer s) fragment.2
            fragment.1)
    (hr : recording.holds r) :
    recording.Ensures r (Script.recorded operation fragments p) fun a r' =>
      ∀ fragment ∈ fragments a, recording.fragment r' fragment.2
        fragment.1 := by
  obtain ⟨hworking, _, hyields⟩ := h (.refl hr.labels)
  have hrun := Script.exec_recorded operation fragments p r
  refine ⟨?_, ?_, ?_⟩
  · rw [hrun]
    refine .snoc hr hworking ?_
    dsimp only
    cases hresult : (exec p r.writer).1 with
    | error error => exact fun _ hfragment => nomatch hfragment
    | ok a =>
        intro fragment hfragment
        exact (hyields a hresult fragment hfragment).mono
          fun _ _ => finished_known
  · rw [hrun]
    exact List.prefix_append _ _
  · rw [hrun]
    intro a ha fragment hfragment
    exact (hyields a ha fragment hfragment).mono fun _ _ => finished_known

theorem silent_moves {p : Write State Unit} {before after : Progress}
    (h : (inOperation .plain (Known r.notes) r.writer).Keeps r.writer p) :
    recording.course.Moves r before after (silent p) := by
  intro hr
  unfold silent
  refine ((recorded_ensures (fun hs => (h hs).weaken ?_) hr).weaken
    fun _ _ _ _ => trivial).course
  exact fun _ _ _ _ _ hfragment => nomatch hfragment

theorem text_gives {p : Write State String}
    (h : (inOperation operation (Known r.notes) r.writer).Gives r.writer
      isList p) :
    recording.Gives r isList (Script.recorded operation
      (fun text => [(text, isList)]) p) := by
  intro hr
  refine (recorded_ensures (fun hs => (h hs).weaken ?_) hr).weaken ?_
  · intro text s _ htext fragment hfragment
    obtain rfl := List.mem_singleton.mp hfragment
    exact htext
  · exact fun text _ _ htext => htext (text, isList) (List.mem_singleton_self _)

theorem valued_gives {p : Write State String} {here : Progress}
    (h : (inOperation .plain (Known r.notes) r.writer).Gives r.writer isList
      p) : recording.course.Gives r here isList (valued isList true p) :=
  fun hr => (text_gives h hr).course

/-- A fragment is at hand as it is. -/
theorem known_fragment (h : recording.fragment r isList text) :
    IsFragment (Finished (Known r.notes) r.writer r.writer) isList text :=
  IsFragment.mono h fun _ _ => .inl

theorem safe_fragment (h : recording.fragment r isList text) :
    IsSafeText text :=
  IsFragment.isSafeText h

/-! Operations that return several fragments, or none. -/

theorem callFunction_recorded {name : String} {args : List (String × ValueType)}
    {returns : List ValueType} (hname : isWord name.toList = true)
    (hargs : recording.Values r args) (hr : recording.holds r) :
    recording.Ensures r (Dialect.callFunction name args returns used)
      fun results r' => recording.Values r' (results.zip returns) := by
  refine (recorded_ensures (fun hs => (callFunction_gives hname
    (fun arg harg => safe_fragment (hargs arg harg)) hs).weaken ?_)
      hr).weaken ?_
  · intro results s _ hresults
    rw [List.zip_map_right, List.forall_mem_map]
    exact hresults
  · intro results r' _ hresults
    rw [List.zip_map_right, List.forall_mem_map] at hresults
    exact hresults

theorem runProcess_recorded {count : Nat}
    (hstages : ∀ stage ∈ stages, recording.Scalars r stage.args)
    (hr : recording.holds r) :
    recording.Ensures r (Dialect.runProcess stages count) fun results r' =>
      recording.Scalars r' results := by
  refine (recorded_ensures
    (fun hs => (runProcess_gives (fun stage hstage arg harg =>
    safe_fragment (hstages stage hstage arg harg)) hs).weaken ?_) hr).weaken ?_
  · exact fun results s _ hresults => List.forall_mem_map.mpr hresults
  · intro results r' _ hresults
    rw [List.forall_mem_map] at hresults
    exact hresults

theorem inputLine_recorded {prompt : Option String}
    (hprompt : ∀ text ∈ prompt, recording.fragment r false text)
    (hr : recording.holds r) :
    recording.Ensures r (Dialect.inputLine prompt used) fun text r' =>
      used = true → recording.fragment r' false text := by
  refine (recorded_ensures (fun hs => (inputLine_gives (fun text htext =>
    safe_fragment (hprompt text htext)) hs).weaken ?_) hr).weaken ?_
  · intro text s _ htext fragment hfragment
    cases used with
    | false => exact nomatch hfragment
    | true =>
        obtain rfl := List.mem_singleton.mp hfragment
        exact htext rfl
  · rintro text r' _ htext rfl
    exact htext (text, false) (List.mem_singleton_self _)

end Recording

theorem recording_lawful : Lawful recording.course where
  fresh := .nil
  programStart := silent_moves fun hs => .pure hs trivial
  boolLiteral := valued_gives boolLiteral_gives
  intLiteral := valued_gives intLiteral_gives
  stringLiteral hr := (text_gives stringLiteral_gives hr).course
  defineVariable hname hvalue :=
    silent_moves (defineVariable_keeps hname
      fun text htext => safe_fragment (hvalue text htext))
  assignVariable hname hvalue :=
    silent_moves (assignVariable_keeps hname (safe_fragment hvalue))
  storeElement hname hindex hvalue :=
    silent_moves (storeElement_keeps hname (safe_fragment hindex)
      (safe_fragment hvalue))
  readVariable hname := valued_gives (readVariable_gives hname)
  readElement hlist hindex :=
    valued_gives (readElement_gives hlist.1 (safe_fragment hindex))
  ifStart hcondition :=
    silent_moves (emitFlow_working (.openBranch _) (safe_fragment hcondition))
  elseIfStart hcondition :=
    silent_moves (emitFlow_working (.elseIf _) (safe_fragment hcondition))
  elseStart := silent_moves (emitFlow_working .elseBranch trivial)
  ifEnd _ := silent_moves (emitFlow_working .closeBranch trivial)
  loopStart := silent_moves (emitFlow_working .openLoop trivial)
  postStart := silent_moves fun hs => .pure hs trivial
  postEnd := silent_moves (emitFlow_working .loopTest trivial)
  loopCondition hcondition :=
    silent_moves (emitFlow_working (.leaveUnless _) (safe_fragment hcondition))
  loopEnd := silent_moves (emitFlow_working .closeLoop trivial)
  leaveLoop _ := silent_moves (emitFlow_working (.loopExit .leave) trivial)
  nextRound _ := silent_moves (emitFlow_working (.loopExit .next) trivial)
  functionStart hname hparams _ := silent_moves
    (functionStart_keeps hname hparams)
  functionEnd := silent_moves functionEnd_keeps
  giveBack hvalues :=
    silent_moves (giveBack_keeps fun value hvalue =>
      safe_fragment (hvalues value hvalue))
  unary hoperand := valued_gives (unary_gives (safe_fragment hoperand))
  binary _ hleft hright :=
    valued_gives (binary_gives (known_fragment hleft) (known_fragment hright))
  compare _ hleft hright :=
    valued_gives (compare_gives (safe_fragment hleft) (safe_fragment hright))
  logical hleft hright :=
    valued_gives (logical_gives (safe_fragment hleft) (safe_fragment hright))
  print _ hvalue := silent_moves (print_keeps (safe_fragment hvalue))
  panic hmessage := silent_moves (panic_keeps (safe_fragment hmessage))
  listLiteral hvalues :=
    valued_gives (listLiteral_gives fun value hvalue =>
      safe_fragment (hvalues value hvalue))
  listLength hlist := valued_gives (listLength_gives (safe_fragment hlist))
  substring hvalue hfirst hstop := valued_gives
    (substring_gives (safe_fragment hvalue) (safe_fragment hfirst)
      fun text htext => safe_fragment (hstop text htext))
  stringLength hvalue :=
    valued_gives (stringLength_gives (safe_fragment hvalue))
  group hinner := valued_gives fun hs => .pure hs (known_fragment hinner)
  callFunction hname _ hargs hr :=
    ((callFunction_recorded hname hargs hr).weaken
    fun _ _ _ hresults => ⟨hresults, False.elim⟩).course
  runProcess _ hstages hr := ((runProcess_recorded hstages hr).weaken
    fun _ _ _ hresults => ⟨hresults, False.elim⟩).course
  inputLine hprompt hr := (inputLine_recorded hprompt hr).course
  copyList hlist := valued_gives (copyList_gives (safe_fragment hlist))
  fileExists hpath := valued_gives (fileExists_gives (safe_fragment hpath))
  fileContent hpath := valued_gives (fileContent_gives (safe_fragment hpath))
  writeFile hpath hcontent :=
    silent_moves (emit_keeps ⟨safe_fragment hpath, safe_fragment hcontent⟩)
  intToString hvalue := valued_gives fun hs => .pure hs (known_fragment hvalue)
  stringToInt hvalue := valued_gives (stringToInt_gives (safe_fragment hvalue))
  noOp := silent_moves (emit_keeps trivial)
  nothing := .nil

/-! The script. -/

/-- Everything a script can need. -/
def Needs.all : Needs := ⟨true, true, true, true, true, true, true, true⟩

/-- The lines that are the same for every program: the header, the ends and the
subroutines. -/
def fixedCommands : List Command :=
  Needs.all.header ++ [.removeCaptured, .exit 0] ++ Needs.all.tail

theorem header_subset (needs : Needs) : needs.header ⊆ Needs.all.header :=
  ((List.Sublist.refl _).append sublist_ite).append sublist_ite |>.subset

theorem tail_subset (needs : Needs) : needs.tail ⊆ Needs.all.tail := by
  intro command hcommand
  obtain ⟨routine, hroutine, hcommand⟩ := List.mem_flatMap.mp hcommand
  exact List.mem_flatMap.mpr ⟨routine, (routines_sublist needs).subset hroutine,
    hcommand⟩

/-- All other lines of a script have been written by the program's
operations. -/
theorem mem_commands (h : command ∈ s.commands) :
    command ∈ fixedCommands ∨ command ∈ s.lines.toList := by
  unfold State.commands at h
  unfold fixedCommands
  simp only [List.mem_append, List.mem_cons, List.not_mem_nil, or_false] at h ⊢
  rcases h with ((hheader | hbody) | rfl) | htail
  · exact .inl (.inl (.inl (header_subset _ hheader)))
  · rcases mem_body hbody with rfl | hline
    · exact .inl (.inl (.inr (.inl rfl)))
    · exact .inr hline
  · exact .inl (.inl (.inr (.inr rfl)))
  · exact .inl (.inr (tail_subset _ htail))

theorem operations_log {source : String} {program : Program}
    (h : parseSource source = .ok program) :
    Log (operations State program)
      (exec (Script.writeStatements program)
        (Dialect.fresh : Recorded State)).2.writer := by
  obtain ⟨tables, hchecked, hfunctions⟩ := parseSource_checked h
  exact (Script.program_meets recording_lawful hchecked hfunctions
    (parseSource_words h)).ensures.holds

theorem runProcess_ne_nil {results : List String} {s' : State}
    (h : exec (runProcess stages 1) s = (.ok results, s')) : results ≠ [] := by
  have hadds : Adds .all True (runProcess stages 1)
      fun results => results.length = min 1 3 :=
    runProcess_adds (fun _ _ => trivial) fun _ => trivial
  obtain ⟨found, _, hrun, hlength, _⟩ := hadds.exec_ok trivial s
  obtain rfl := Except.ok.inj (congrArg Prod.fst (h.symm.trans hrun))
  exact List.ne_nil_of_length_pos (hlength ▸ Nat.one_pos)

/-- What the record of a program shows. -/
structure SafeRecord (notes : List (Note State)) : Prop where
  /-- A fragment is a safe text or the name of a list, and the helpers in it are
  known when it is returned. -/
  fragments : ∀ {earlier : List (Note State)} {note : Note State},
    earlier ++ [note] <+: notes → ∀ fragment ∈ note.fragments,
      IsFragment (Known (earlier ++ [note])) fragment.2 fragment.1
  /-- The lines there are after an operation come from it and from those before
  it. -/
  emitted : ∀ {earlier : List (Note State)} {note : Note State},
    earlier ++ [note] <+: notes →
      note.after.lines.toList = (earlier ++ [note]).flatMap linesOf
  /-- No helper is made twice. -/
  owners : notes.Pairwise fun first second =>
    ∀ number, Makes first number → ¬Makes second number
  /-- What has made a helper is all that fills it. -/
  filled : ∀ note ∈ notes, ∀ command ∈ linesOf note, ∀ number,
    command.Fills (helperName number) → Makes note number
  clean : ∀ note ∈ notes, ∀ command ∈ linesOf note,
    command.IsClean note.operation (Makes note)

theorem Log.safeRecord {notes : List (Note State)} (h : Log notes s) :
    SafeRecord notes where
  fragments hearlier := by
    obtain ⟨_, hlog⟩ := h.of_isPrefix hearlier
    exact hlog.of_concat.2.2.1
  emitted hearlier := by
    obtain ⟨_, hlog⟩ := h.of_isPrefix hearlier
    rw [hlog.of_concat.2.2.2, hlog.lines_eq]
  owners := h.pairwise
  filled _ hnote _ hcommand _ := (h.clean hnote hcommand).own_of_fills
  clean _ hnote _ := h.clean hnote

/-- While the script of an accepted source is written, every expression stands
for a safe text or for the name of a list.  Each helper in it has been made by
one operation, which alone fills it and has defined it in a line that is there
when the expression is done.  All lines but the fixed ones are clean: what is
not safe in the source gets into the script as the value of a literal's helper
or as a program of a pipeline only.  An evaluation belongs to the program if its
record begins that of the program. -/
theorem batch_fragments_are_safe {source : String} {program : Program}
    (h : parseSource source = .ok program) :
    SafeRecord (operations State program) ∧
      (∀ {tables : Tables} {e : Expr} {r r' : Recorded State} {text : String},
        e.Typed tables → e.types ≠ [] →
          exec (evaluate e true) r = (.ok text, r') →
        r'.notes <+: operations State program →
          IsFragment (Known r'.notes) e.ty.isList text ∧
            r'.writer.lines.toList = r'.notes.flatMap linesOf) ∧
      ∀ script, program.script .batch = .ok script →
        ∃ s : State, script =
          String.join (s.scriptLines.map (· ++ Shell.batch.lineEnding)) ∧
          s.lines.toList = (operations State program).flatMap linesOf ∧
          ∀ command ∈ s.commands, command ∈ fixedCommands ∨
            command ∈ s.lines.toList := by
  have hlog := operations_log h
  have hsafe := hlog.safeRecord
  refine ⟨hsafe, ?_, ?_⟩
  · intro tables e r r' text htyped hne hrun hpart
    obtain ⟨earlier, note, hnotes, hafter, hfragment⟩ :=
      Script.evaluate_returned runProcess_ne_nil htyped hne hrun
    rw [hnotes] at hpart ⊢
    rw [← hafter]
    exact ⟨hsafe.fragments hpart _ hfragment, hsafe.emitted hpart⟩
  · intro script hscript
    obtain ⟨s, _, hrun, _, hjoined⟩ := written_sound h hscript
    obtain ⟨tables, hchecked, _⟩ := parseSource_checked h
    refine ⟨s, hjoined, ?_, fun _ => mem_commands⟩
    rw [← Script.writer_of_exec hchecked.isOuter hrun]
    exact hlog.lines_eq

/-- The first literal needs a helper, which the sum of both reads. -/
theorem batch_fragments_are_safe_sum :
    ∃ (program : Program) (e : Expr) (r r' : Recorded State),
      parseSource "x := \"a&b\" + \"c\"\nprint(x)\n" = .ok program ∧
        program.statements.head? =
          some (.define [⟨"x", .string⟩] (some e) false) ∧
        exec (evaluate e true) r = (.ok "!__sb_h1!c", r') ∧
        r'.notes <+: operations State program ∧
        IsFragment (Known r'.notes) false "!__sb_h1!c" ∧
        r'.notes.flatMap linesOf = [.set "__sb_h1" "a&b"] := by
  obtain ⟨program, e, r, r', hsource, hhead, htyped, htypes, hrun, hpart,
    hlines⟩ :
      ∃ (program : Program) (e : Expr) (r r' : Recorded State),
        parseSource "x := \"a&b\" + \"c\"\nprint(x)\n" = .ok program ∧
          program.statements.head? =
            some (.define [⟨"x", .string⟩] (some e) false) ∧
          e.Typed .empty ∧ e.types = [.string] ∧
          exec (evaluate e true) r = (.ok "!__sb_h1!c", r') ∧
          r'.notes <+: operations State program ∧
          r'.writer.lines.toList = [.set "__sb_h1" "a&b"] := by
    refine ⟨⟨[.define [⟨"x", .string⟩]
      (some (.binary .add (.string "a&b" [.string])
      (.string "c" [.string]) [.string])) false,
      .print (.var "x" [.string])]⟩, _,
      (exec Dialect.programStart Dialect.fresh).2, _, by
        cbv, rfl, ?_, rfl, Prod.ext (by decide +kernel) rfl,
        List.prefix_iff_eq_take.mpr rfl, by decide +kernel⟩
    exact .binary .string .string (.inl rfl) (.inl rfl) (.inr ⟨rfl, rfl⟩)
  obtain ⟨hfragment, hwritten⟩ := (batch_fragments_are_safe hsource).2.1 htyped
    (htypes ▸ List.cons_ne_nil _ _) hrun hpart
  have hty : e.ty.isList = false := by rw [Expr.ty, htypes]; rfl
  rw [hty] at hfragment
  exact ⟨program, e, r, r', hsource, hhead, hrun, hpart, hfragment,
    hwritten.symm.trans hlines⟩

end Batch

end Shellwright
