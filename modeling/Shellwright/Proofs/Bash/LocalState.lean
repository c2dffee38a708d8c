/-
Local state of bash functions.  Whatever a line of a function sets is declared
local on that line or an earlier one, apart from the slots between functions and
from variables of the program.  Only a name that an if chain uses ahead of its
definition is set before it is local.
-/
import Mathlib
import Shellwright.Proofs.Bash.Bodies
import Shellwright.Proofs.Bash.Straight
import Shellwright.Proofs.Batch.Owners

namespace Shellwright

namespace Bash

open Script (Journal exec between)

/-! Functions in a list of commands. -/

def Command.isFrame : Command → Bool
  | .functionOpen _ | .functionClose => true
  | _ => false

/-- The functions in order, each with the lines between its start and its
end. -/
def functionBodies : List Command → List (String × List Command)
  | [] => []
  | .functionOpen name :: rest =>
      (name, rest.takeWhile (· ≠ .functionClose)) :: functionBodies rest
  | _ :: rest => functionBodies rest

section Frames

variable {first rest : List Command} (h : ∀ c ∈ first, c.isFrame = false)

include h

theorem functionBodies_append : functionBodies (first ++ rest) =
    functionBodies rest := by
  induction first with
  | nil => rfl
  | cons c first ih =>
      obtain ⟨hframe, hfirst⟩ := List.forall_mem_cons.mp h
      cases c with
      | functionOpen name => cases hframe
      | _ => exact ih hfirst

theorem functionBodies_function (name : String) :
    functionBodies (.functionOpen name :: (first ++ .functionClose :: rest)) =
      (name, first) :: functionBodies rest := by
  have hopen : ∀ c ∈ first, decide (c ≠ .functionClose) = true := by
    intro c hc
    refine decide_eq_true fun hclose => ?_
    rw [hclose] at hc
    cases h _ hc
  rw [functionBodies, List.takeWhile_append_of_pos hopen,
    functionBodies_append h]
  simp [functionBodies]

end Frames

theorem Command.isFrame_of_isPlain {c : Command} (h : c.isPlain = true) :
    c.isFrame = false := by
  cases c with
  | functionOpen name => cases h
  | functionClose => cases h
  | _ => rfl

/-! Names that are set. -/

/-- A name that a line sets is local by then or shared, or it is a variable that
is assigned ahead of its definition. -/
theorem Localized.settles {known : List String} {mentions : List Mention}
    {commands before after : List Command} {command : Command} {name : String}
    (h : Localized known mentions commands)
    (hsplit : commands = before ++ command :: after)
    (hname : name ∈ command.assigned) :
    name ∈ (before ++ [command]).flatMap Command.declared ++ known ∨
      IsShared name ∨
      ∃ x, name = variableName x ∧ ¬DefinedFirst .assigned x mentions := by
  have hmoved :
    ∀ {first : Command} {before : List Command} {known : List String},
      name ∈ (before ++ [command]).flatMap Command.declared ++
        (first.declared ++ known) →
      name ∈ (first :: before ++ [command]).flatMap Command.declared ++
        known := by
    intro first before known hmem
    simpa [or_left_comm] using hmem
  induction h generalizing before with
  | nil => simp at hsplit
  | line hassigned _ ih =>
      cases before with
      | nil =>
          obtain ⟨rfl, rfl⟩ := List.cons.inj hsplit
          exact (hassigned name hname).imp (by simp) .inl
      | cons first before =>
          obtain ⟨rfl, hrest⟩ := List.cons.inj hsplit
          exact (ih hrest).imp_left hmoved
  | @assign _ other _ _ _ hassigned _ ih =>
      cases before with
      | nil =>
          obtain ⟨rfl, rfl⟩ := List.cons.inj hsplit
          rw [hassigned] at hname
          refine .inr
            (.inr ⟨other, List.mem_singleton.mp hname, fun hfirst => ?_⟩)
          simp [DefinedFirst, Mention.isUse] at hfirst
      | cons first before =>
          obtain ⟨rfl, hrest⟩ := List.cons.inj hsplit
          refine (ih hrest).imp hmoved (Or.imp_right ?_)
          rintro ⟨x, hx, hlate⟩
          exact ⟨x, hx, fun hfirst => hlate (hfirst.tail Mention.noConfusion)⟩
  | @define _ other _ _ hknown _ ih =>
      rcases ih hsplit with hlocal | hshared | ⟨x, rfl, hlate⟩
      · exact .inl hlocal
      · exact .inr (.inl hshared)
      · by_cases hother : other = x
        · exact .inl (List.mem_append_right _ (hother ▸ hknown))
        · refine .inr
            (.inr ⟨x, rfl, fun hfirst => hlate (hfirst.tail fun hsame => ?_)⟩)
          exact hother (Mention.define.inj hsame)
  | @skip _ mention _ _ hmention _ ih =>
      refine (ih hsplit).imp_right (Or.imp_right ?_)
      rintro ⟨x, hx, hlate⟩
      exact ⟨x, hx, fun hfirst => hlate (hfirst.tail (hmention x))⟩

/-! Lines inside and outside of functions. -/

/-- Lines have been added that neither start nor end a function.  Those in a
function set what is local, if the flags of the open loops are. -/
structure State.Confines (mentions : List Mention) (s s' : State) : Prop where
  lines : ∃ added, s'.commands = s.commands ++ added ∧
    (∀ c ∈ added, c.isFrame = false) ∧
    (s.inFunction = true → ∀ known, s.flags ⊆ known →
      Localized known mentions added ∧
      s'.flags ⊆ added.flatMap Command.declared ++ known)
  inFunction : s'.inFunction = s.inFunction

namespace State.Confines

variable {first second mentions : List Mention} {s mid s' : State}

/-- A change of what is neither written nor about loops. -/
theorem of_eq (hlines : s'.lines = s.lines) (hflags : s'.flags ⊆ s.flags)
    (hfunction : s'.inFunction = s.inFunction) : s.Confines [] s' :=
  ⟨⟨[], by simp [State.commands, hlines], by simp, fun _ _ hknown =>
    ⟨.nil, List.Subset.trans hflags hknown⟩⟩, hfunction⟩

theorem trans (h : s.Confines first mid) (h' : mid.Confines second s') :
    s.Confines (first ++ second) s' := by
  obtain ⟨added, hadded, hframes, hlocal⟩ := h.lines
  obtain ⟨added', hadded', hframes', hlocal'⟩ := h'.lines
  refine ⟨⟨added ++ added', ?_, List.forall_mem_append.mpr
    ⟨hframes, hframes'⟩, ?_⟩, h'.inFunction.trans h.inFunction⟩
  · rw [hadded', hadded, List.append_assoc]
  · intro hinside known hknown
    obtain ⟨hfirst, hmid⟩ := hlocal hinside known hknown
    obtain ⟨hsecond, hflags⟩ := hlocal' (h.inFunction.trans hinside) _ hmid
    refine ⟨hfirst.append hsecond, List.Subset.trans hflags ?_⟩
    intro name hname
    simpa [or_left_comm, or_assoc] using hname

end State.Confines

/-- Functions that set local names only. -/
def confined : Journal State where
  step := State.Confines
  fragment := Unflagged
  refl _ := .of_eq rfl (List.Subset.refl _) rfl
  trans := .trans

theorem confined_roomy : Roomy confined where
  fragment := rfl
  step {mentions s s'} h := by
    obtain ⟨new, hlines, hplain, _⟩ := (h ⟨s.inFunction, []⟩ rfl).lines
    have hcommands : ∀ {added : List Command},
        s'.lines.toList = s.lines.toList ++ added.map (Line.mk s.depth) →
          s'.commands = s.commands ++ added := by
      intro added hadded
      simp [State.commands, hadded, Function.comp_def]
    refine ⟨⟨new, hcommands hlines,
      fun c hc => c.isFrame_of_isPlain (hplain c hc).2, ?_⟩,
      (h ⟨s.inFunction, []⟩ rfl).inFunction⟩
    intro hinside known hknown
    have hcontinues := h ⟨true, known⟩ hinside
    obtain ⟨added, hadded, _, hlocal⟩ := hcontinues.lines
    obtain rfl : added = new :=
      List.append_cancel_left ((hcommands hadded).symm.trans (hcommands hlines))
    rw [hcontinues.flags]
    exact ⟨hlocal rfl, List.subset_append_of_subset_right _ hknown⟩

section Operations

variable {command : Command}

/-- A line that sets nothing. -/
theorem emit_confined (hframe : command.isFrame = false)
    (hassigned : command.assigned = []) :
    confined.Enters [] (emit command) fun _ => True := by
  intro s _ s' hrun
  obtain rfl : { s with lines := s.lines.push ⟨s.depth, command⟩ } = s' :=
    congrArg Prod.snd hrun
  refine ⟨⟨⟨[command], by simp [State.commands], by
    simpa using hframe, ?_⟩, rfl⟩, trivial⟩
  refine fun _ known hknown =>
    ⟨.line ?_ .nil, List.subset_append_of_subset_right _ hknown⟩
  rw [hassigned]
  exact fun _ hname => absurd hname List.not_mem_nil

theorem indent_confined : confined.Enters [] indent fun _ => True := by
  intro s _ s' hrun
  obtain rfl : { s with depth := s.depth + 1 } = s' := congrArg Prod.snd hrun
  exact ⟨.of_eq rfl (List.Subset.refl _) rfl, trivial⟩

theorem outdent_confined {construct : Construct} :
    confined.Enters [] (outdent construct) fun _ => True := by
  intro s _ s' hrun
  obtain ⟨depth, rfl⟩ : ∃ depth, s' = { s with depth } := by
    cases hs : s.depth with
    | zero => simp [outdent, hs] at hrun
    | succ depth => exact ⟨depth, by simpa [outdent, hs, eq_comm] using hrun⟩
  exact ⟨.of_eq rfl (List.Subset.refl _) rfl, trivial⟩

theorem ifStart_confined {condition : String} :
    confined.Enters [] (ifStart condition) fun _ => True :=
  (emit_confined rfl rfl).after fun _ _ => indent_confined

theorem elseStart_confined : confined.Enters [] elseStart fun _ => True :=
  outdent_confined.after fun _ _ => (emit_confined rfl rfl).after
    fun _ _ => indent_confined

/-- A loop declares its flag. -/
theorem loopStart_confined : confined.Enters [] loopStart fun _ => True := by
  intro s _ s' hrun
  obtain rfl : { s with
      loops := s.loops + 1
      lines := (s.lines.push
        ⟨s.depth, .setWord s.inFunction (flagName (s.loops + 1)) "1"⟩).push
        ⟨s.depth, .whileTrue⟩
      depth := s.depth + 1
      flags := flagName (s.loops + 1) :: s.flags } = s' :=
    congrArg Prod.snd hrun
  refine ⟨⟨⟨[.setWord s.inFunction (flagName (s.loops + 1)) "1", .whileTrue],
    by simp [State.commands], by
      simp [Command.isFrame], fun hinside known hknown => ?_⟩, rfl⟩,
    trivial⟩
  rw [hinside]
  exact ⟨.line (by simp) (.line (by simp) .nil), List.cons_subset_cons _ hknown⟩

/-- The flag of an open loop is lowered. -/
theorem lower_confined {s s' : State} {flag : String} (hflag : flag ∈ s.flags)
    (hrun : exec (emit (.setWord false flag "0")) s = (.ok (), s')) :
    s.Confines [] s' := by
  obtain rfl :
      { s with lines := s.lines.push ⟨s.depth, .setWord false flag "0"⟩ } =
        s' :=
    congrArg Prod.snd hrun
  refine ⟨⟨[.setWord false flag "0"], by simp [State.commands], by
    simp [Command.isFrame], fun _ known hknown => ⟨.line ?_ .nil, hknown⟩⟩, rfl⟩
  exact List.forall_mem_singleton.mpr (.inl (hknown hflag))

theorem postStart_confined : confined.Enters [] postStart fun _ => True := by
  intro s _ s' hrun
  unfold postStart at hrun
  rw [Script.exec_get_bind] at hrun
  cases hflags : s.flags with
  | nil =>
      rw [hflags] at hrun
      cases hrun
  | cons flag flags =>
      rw [hflags] at hrun
      obtain ⟨_, entered, hstart, hrun⟩ := Script.exec_bind_eq_ok hrun
      obtain ⟨_, lowered, hlower, helse⟩ := Script.exec_bind_eq_ok hrun
      have hsame : s.flags = entered.flags :=
        congrArg (fun result => result.2.flags) hstart
      have hflag : flag ∈ entered.flags := by
        rw [← hsame, hflags]
        exact List.mem_cons_self
      have hentered := (ifStart_confined s _ entered hstart).1
      have hended := (elseStart_confined lowered _ s' helse).1
      exact ⟨hentered.trans ((lower_confined hflag hlower).trans hended),
        trivial⟩

theorem loopEnd_confined : confined.Enters [] loopEnd fun _ => True := by
  intro s _ s' hrun
  unfold loopEnd at hrun
  rw [Script.exec_get_bind] at hrun
  cases hflags : s.flags with
  | nil =>
      rw [hflags] at hrun
      cases hrun
  | cons flag flags =>
      rw [hflags] at hrun
      obtain ⟨_, popped, hset, hline⟩ := Script.exec_bind_eq_ok hrun
      obtain rfl : { s with flags } = popped := congrArg Prod.snd hset
      have hpopped : s.Confines [] { s with flags } :=
        .of_eq rfl (hflags ▸ List.subset_cons_self flag flags) rfl
      have hclosed : confined.Enters [] (do outdent .loop; emit .endWhile)
          fun _ => True :=
        outdent_confined.after fun _ _ => emit_confined rfl rfl
      exact ⟨hpopped.trans (hclosed _ _ _ hline).1, trivial⟩

theorem loopExit_confined {exit : LoopExit} (hframe : command.isFrame = false)
    (hassigned : command.assigned = []) :
    confined.Enters [] (loopExit exit command) fun _ => True := by
  intro s _ s' hrun
  unfold loopExit at hrun
  rw [Script.exec_get_bind] at hrun
  cases hflags : s.flags.isEmpty with
  | true =>
      rw [hflags] at hrun
      cases hrun
  | false =>
      rw [hflags] at hrun
      exact emit_confined hframe hassigned s _ s' hrun

theorem confined_blocks : confined.Blocks where
  toActions := confined_roomy.actions
  panic := confined_roomy.enters fun _ => straight_skip panic_straight (by simp)
  giveBack := confined_roomy.enters fun _ => giveBack_straight
  ifStart := ifStart_confined
  elseIfStart :=
    outdent_confined.after fun _ _ => (emit_confined rfl rfl).after
      fun _ _ => indent_confined
  elseStart := elseStart_confined
  ifEnd := outdent_confined.after fun _ _ => emit_confined rfl rfl
  loopStart := loopStart_confined
  postStart := postStart_confined
  postEnd := outdent_confined.after fun _ _ => emit_confined rfl rfl
  loopCondition := emit_confined rfl rfl
  loopEnd := loopEnd_confined
  leaveLoop := loopExit_confined rfl rfl
  nextRound := loopExit_confined rfl rfl

end Operations

/-! Functions. -/

/-- Whatever a line sets is declared local on that line or before, or shared
between functions, or it is a variable that the function does not declare or
that a branch of an if chain assigns ahead of the alternative that defines
it. -/
def SetsLocals (function : FunctionDefinition) (body : List Command) : Prop :=
  ∀ before command after, body = before ++ command :: after →
    ∀ name ∈ command.assigned,
    name ∈ (before ++ [command]).flatMap Command.declared ∨ IsShared name ∨
      ∃ x, name = variableName x ∧
        (x ∉ declaredNames function.params function.body ∨
        Stmt.blockUsesAhead .assigned x function.body = true)

section Function

variable {place : Place} {before after : Tables} {name : String}
  {params : List Binding} {returns : List ValueType} {body : List Stmt}
  {s s' : State}

theorem Localized.setsLocals {commands : List Command}
    (hchecked : (Stmt.function name params returns body).Checked place
      before after)
    (h : Localized [] (Stmt.function name params returns body).mentions
      commands) :
    SetsLocals ⟨name, params, body⟩ commands := by
  intro first command rest hsplit assigned hassigned
  rcases h.settles hsplit hassigned with hlocal | hshared | ⟨x, rfl, hlate⟩
  · rw [List.append_nil] at hlocal
    exact .inl hlocal
  · exact .inr (.inl hshared)
  · refine .inr (.inr ⟨x, rfl, ?_⟩)
    by_cases hdeclared : x ∈ declaredNames params body
    · refine .inr (Bool.of_not_eq_false fun hahead => hlate ?_)
      refine definedFirst_append.mpr ⟨definedFirst_of_definitions params, ?_⟩
      by_cases hparam : x ∈ params.map Binding.name
      · exact .inl (by simpa using hparam)
      · exact .inr (definedFirst_of_declared hchecked hdeclared hparam hahead)
    · exact .inl hdeclared

/-- The lines of a function outside of loops. -/
theorem function_localized (hinner : Stmt.isInnerBlock body = true)
    (houtside : s.inFunction = false) (hflags : s.flags = [])
    (hrun : exec (Script.statement (.function name params returns body)) s =
      (.ok (), s')) :
    ∃ added, s'.commands = s.commands ++ .functionOpen name ::
      (added ++ [.functionClose]) ∧ (∀ c ∈ added, c.isFrame = false) ∧
      Localized [] (Stmt.function name params returns body).mentions added := by
  obtain ⟨lines, depth, helpers, flags, loops, inFunction, needsListSet,
    needsCapture⟩ := s
  obtain rfl : inFunction = false := houtside
  obtain rfl : flags = [] := hflags
  obtain ⟨_, started, hstart, hrun⟩ := Script.exec_bind_eq_ok hrun
  obtain ⟨_, finished, hbody, hend⟩ := Script.exec_bind_eq_ok hrun
  have hparams : exec (bindParameters 0 0 params)
    ⟨lines.push ⟨depth, .functionOpen name⟩,
    depth + 1, helpers, [], loops, true, needsListSet, needsCapture⟩ = (.ok (),
    started) := hstart
  have hconfines :=
    (confined_roomy.enters (fun _ => bindParameters_does) _ _ _ hparams).1.trans
    (confined_blocks.block body hinner _ _ _ hbody).1
  obtain ⟨added, hadded, hframes, hlocal⟩ := hconfines.lines
  obtain ⟨_, hclosed, rfl⟩ := functionEnd_writes hend
  refine ⟨added, ?_, hframes, (hlocal rfl [] (List.Subset.refl _)).1⟩
  rw [hclosed, hadded]
  simp [State.commands]

end Function

/-! Programs. -/

/-- The functions of the statements, each with the lines that are added for
it. -/
theorem statements_setLocals {before after : Tables} {body : List Stmt}
    {seen : List Event} {s s' : State}
    (hchecked : Block.Checked .program before body after)
    (hfunctions : ∀ entry ∈ after.functions, isWord entry.1.toList = true)
    (hwords : Words (Stmt.mentionsOfBlock body))
    (hinv : s.Nested (between before seen))
    (hrun : exec (Script.statements body) s = (.ok (), s')) :
    ∃ added, s'.commands = s.commands ++ added ∧
      List.Forall₂ (fun function lines => lines.1 = function.name ∧
        SetsLocals function lines.2)
        (body.filterMap Stmt.function?) (functionBodies added) := by
  induction body generalizing before s seen with
  | nil =>
      cases hrun
      exact ⟨[], by simp, .nil⟩
  | cons first rest ih =>
      obtain ⟨hfirstWords, hrestWords⟩ := words_append.mp hwords
      obtain ⟨_, mid, hfirstRun, hrestRun⟩ := Script.exec_bind_eq_ok hrun
      cases hchecked with
      | cons hfirst hrest =>
          have hknown :=
            fun entry hentry => hfunctions entry
              (hrest.leaves.older.subset hentry)
          have hmeets := Script.program_statement_meets lawful hfirst hknown
            hfirstWords hinv
          have hmid :=
            (hmeets.ensures.yields () (congrArg Prod.fst hfirstRun)).2
          rw [hfirstRun] at hmid
          obtain ⟨added', hadded', hall⟩ := ih hrest hrestWords hmid hrestRun
          rcases Stmt.isInner_or_function hfirst.isOuter with
            hinner | ⟨name, params, returns, inside, rfl⟩
          · obtain ⟨added, hadded, hframes, _⟩ :=
              (confined_blocks.statement first hinner s _ mid hfirstRun).1.lines
            refine ⟨added ++ added', by
              rw [hadded', hadded, List.append_assoc], ?_⟩
            rw [List.filterMap_cons, Stmt.function?_of_isInner hinner,
              functionBodies_append hframes]
            exact hall
          · obtain ⟨added, hadded, hframes, hlocal⟩ :=
              function_localized hfirst.isOuter
              hinv.inFunction (List.length_eq_zero_iff.mp hinv.flags) hfirstRun
            refine ⟨.functionOpen name ::
              (added ++ .functionClose :: added'), ?_, ?_⟩
            · rw [hadded', hadded]
              simp
            · rw [functionBodies_function hframes]
              exact .cons ⟨rfl, hlocal.setsLocals hfirst⟩ hall

/-- An accepted program has a bash script in which every function sets local
names only: apart from slots and variables of the program, whatever its lines
set has been declared local, unless a branch of an if chain assigns the name
ahead of the alternative that defines it. -/
theorem bash_functions_set_locals {source : String} {program : Program}
    (h : parseSource source = .ok program) :
    ∃ s : State, exec (Script.block program.statements) State.fresh =
      (.ok (), s) ∧
      program.script .bash =
        .ok (String.join (s.scriptLines.map (· ++ Shell.bash.lineEnding))) ∧
      List.Forall₂ (fun function lines => lines.1 = function.name ∧
        SetsLocals function lines.2)
        program.functions (functionBodies s.commands) := by
  obtain ⟨tables, hchecked, hfunctions⟩ := parseSource_checked h
  obtain ⟨s, hbody, hscript⟩ := script_of_block h
  refine ⟨s, hbody, hscript, ?_⟩
  have hwords := parseSource_words h
  unfold Program.functions
  cases hstatements : program.statements with
  | nil =>
      rw [hstatements] at hbody
      cases hbody
      exact .nil
  | cons first rest =>
      rw [hstatements] at hchecked hwords hbody
      rw [Script.block_cons] at hbody
      have hfresh : State.fresh.Nested (between .empty []) := ⟨rfl, rfl, rfl⟩
      obtain ⟨added, hadded, hall⟩ :=
        statements_setLocals hchecked hfunctions hwords hfresh hbody
      obtain rfl : s.commands = added := hadded
      exact hall

/-- A function that calls itself, with a variable of its own and one of the
program's. -/
theorem bash_functions_set_locals_recursion :
    ∃ (program : Program) (function : FunctionDefinition) (s : State)
      (lines : List Command),
      parseSource
        ("x := 1\nfunc f(a int) int \x7b\nb := f(a)\nx = b\nreturn x\n\x7d\n" ++
        "print(f(2))\n") = .ok program ∧
      program.functions = [function] ∧
      declaredNames function.params function.body = ["a", "b"] ∧
      exec (Script.block program.statements) State.fresh = (.ok (), s) ∧
      functionBodies s.commands = [("f", lines)] ∧
        SetsLocals function lines := by
  obtain ⟨program, function, hsource, hfunctions, hname, hdeclared⟩ :
      ∃ (program : Program) (function : FunctionDefinition),
        parseSource
          ("x := 1\nfunc f(a int) int \x7b\nb := f(a)\nx = b\nreturn x\n\x7d\n" ++
          "print(f(2))\n") = .ok program ∧
        program.functions = [function] ∧ function.name = "f" ∧
        declaredNames function.params function.body = ["a", "b"] :=
    ⟨⟨[.define [⟨"x", .int⟩] (some (.int 1 [.int])) false,
      .function "f" [⟨"a", .int⟩] [.int]
        [.define [⟨"b", .int⟩]
          (some (.call "f" [.var "a" [.int]] [.int])) false,
          .assign [⟨"x", .int⟩] (.var "b" [.int]), .giveBack [.var "x" [.int]]],
      .print (.call "f" [.int 2 [.int]] [.int])]⟩, _, by cbv, rfl, rfl, rfl⟩
  obtain ⟨s, hrun, _, hall⟩ := bash_functions_set_locals hsource
  rw [hfunctions] at hall
  obtain ⟨⟨_, lines⟩, _, ⟨rfl, hlocal⟩, hrest, hbodies⟩ :=
    List.forall₂_cons_left_iff.mp hall
  cases hrest
  exact ⟨program, function, s, lines, hsource, hfunctions, hdeclared, hrun,
    hname ▸ hbodies, hlocal⟩

/-- The default of a switch is read first and written last: the function sets
its variable before it is local. -/
theorem bash_name_set_ahead :
    ∃ program : Program,
      parseSource
        ("func f() \x7b\nswitch 1 \x7b\ndefault:\nx := 1\ncase 2:\nx = 2\n" ++
        "\x7d\n\x7d\nf()\n") = .ok program ∧
      (program.script .bash).toOption.isSome = true ∧
      program.functions.map
        (fun function => declaredNames function.params function.body) =
        [["x"]] ∧
      functionBodies (exec (Script.block program.statements)
        State.fresh).2.commands =
        [("f", [.ifTrue "$(( (1) == (2) ))", .assign false "v_x" "2",
          .otherwise, .assign true "v_x" "1", .endIf])] := by
  refine ⟨⟨[.function "f" [] []
    [.choose [(.compare .eq (.int 1 [.int]) (.int 2 [.int]) [.bool],
        [.assign [⟨"x", .int⟩] (.int 2 [.int])])]
      (some [.define [⟨"x", .int⟩] (some (.int 1 [.int])) false])],
    .action (.call "f" [] [])]⟩, by cbv, by decide +kernel, rfl, by
      decide +kernel⟩

end Bash

end Shellwright
