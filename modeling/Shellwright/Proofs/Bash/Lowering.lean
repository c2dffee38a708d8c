/-
If chains and loops keep their meaning when they become bash: the lines of a
script, read as nested commands, run as the structured program behind them.
-/
import Shellwright.Proofs.Bash.Guarded
import Shellwright.Proofs.Bash.Straight
import Shellwright.Proofs.Script.Outline

namespace Shellwright

namespace Bash

open Batch (Flow Chain Meaning Outcome)
open Script (exec keepLines outlineBlock)

universe u

variable {α : Type}

/-- The lines so far. -/
def State.texts (s : State) : List String := s.lines.toList.map Line.text

/-- The lines so far, as control flow sees them. -/
def State.clauses (s : State) : List Clause := s.texts.map readClause

/-- Lines have been added that control flow sees as `added`; `flags` are those
of the open loops now, and `loops` flags have been taken. -/
structure Laid (s s' : State) (added : List Clause) (flags : List String)
    (loops : Nat) : Prop where
  clauses : s'.clauses = s.clauses ++ added
  flags : s'.flags = flags
  loops : s'.loops = loops
  inFunction : s'.inFunction = s.inFunction

theorem Laid.trans {s mid s' : State} {first second : List Clause}
    {flags flags' : List String} {loops loops' : Nat}
    (h : Laid s mid first flags loops) (h' : Laid mid s' second flags' loops') :
    Laid s s' (first ++ second) flags' loops' :=
  ⟨by rw [h'.clauses, h.clauses, List.append_assoc], h'.flags, h'.loops,
    h'.inFunction.trans h.inFunction⟩

/-! The operations. -/

section Operations

variable {s s' : State}

theorem laid_straight {mentions : List Mention} {p : Write State α}
    {Q : α → Prop} {a : α} {lines : List String}
    (hp : ∀ scope, (steady scope).Enters mentions p Q)
    (h : exec (keepLines State.texts p) s = (.ok (a, lines), s')) :
    Laid s s' (otherClauses lines) s.flags s.loops ∧ Q a := by
  obtain ⟨hrun, rfl⟩ := Script.exec_keepLines h
  obtain ⟨hstep, hQ⟩ := hp ⟨s.inFunction, []⟩ s a s' hrun
  have hcontinues := hstep rfl
  obtain ⟨added, hlines, hother, _⟩ := hcontinues.lines
  have htexts : s'.texts = s.texts ++ added.map fun c =>
      (Line.mk s.depth c).text := by
    rw [State.texts, hlines, List.map_append, List.map_map]
    rfl
  have hread : (added.map fun c => (Line.mk s.depth c).text).map readClause =
      otherClauses (added.map fun c => (Line.mk s.depth c).text) := by
    unfold otherClauses
    rw [List.map_inj_left]
    exact List.forall_mem_map.mpr fun c hc => (hother c hc).1 s.depth
  refine ⟨⟨?_, hcontinues.flags, hcontinues.loops, hcontinues.inFunction⟩, hQ⟩
  rw [htexts, List.drop_left, ← hread, State.clauses, htexts, List.map_append,
    State.clauses]

theorem optional_straight {part : Option Stmt}
    (h : part.all Stmt.isStraight = true) (scope : Scope) :
    (steady scope).Enters (Stmt.mentionsOfPart part)
    (Script.optional part) fun _ => True := by
  cases part with
  | none => exact .pure trivial
  | some s => exact steady_actions.statement s h

theorem postPart_straight {post : Option Stmt}
    (h : post.all Stmt.isStraight = true) (scope : Scope) :
    (steady scope).Enters (Stmt.mentionsOfPart post)
    (Script.postPart post) fun _ => True := by
  cases post with
  | none => exact nothing_straight.enters
  | some s => exact steady_actions.statement s h

theorem laid_emit {command : Command} {clause : Clause}
    (hclause : clause? command.text.toList = some clause)
    (h : exec (emit command) s = (.ok (), s')) :
    Laid s s' [clause] s.flags s.loops := by
  obtain rfl : { s with lines := s.lines.push ⟨s.depth, command⟩ } = s' :=
    congrArg Prod.snd h
  refine ⟨?_, rfl, rfl, rfl⟩
  have hread := readClause_of_clause? hclause s.depth
  simp [State.clauses, State.texts, hread]

theorem laid_indent (h : exec indent s = (.ok (), s')) :
    Laid s s' [] s.flags s.loops := by
  obtain rfl : { s with depth := s.depth + 1 } = s' := congrArg Prod.snd h
  exact ⟨(List.append_nil _).symm, rfl, rfl, rfl⟩

theorem laid_outdent {construct : Construct}
    (h : exec (outdent construct) s = (.ok (), s')) :
    Laid s s' [] s.flags s.loops := by
  unfold outdent at h
  rw [Script.exec_get_bind] at h
  cases hdepth : s.depth with
  | zero =>
      rw [hdepth] at h
      cases h
  | succ depth =>
      rw [hdepth] at h
      obtain rfl : { s with depth } = s' := congrArg Prod.snd h
      exact ⟨(List.append_nil _).symm, rfl, rfl, rfl⟩

/-- A line, and what follows it is one level deeper. -/
theorem laid_emit_indent {command : Command} {clause : Clause}
    (hclause : clause? command.text.toList = some clause)
    (h : exec (do emit command; indent) s = (.ok (), s')) :
    Laid s s' [clause] s.flags s.loops := by
  obtain ⟨_, mid, hemit, hindent⟩ := Script.exec_bind_eq_ok h
  have hline := laid_emit hclause hemit
  have hlaid := hline.trans (laid_indent hindent)
  rwa [hline.flags, hline.loops] at hlaid

/-- A line at the level outside, which closes or divides a command. -/
theorem laid_outdent_then {construct : Construct} {rest : Write State Unit}
    {added : List Clause}
    (hrest : ∀ {s s'}, exec rest s = (.ok (), s') →
      Laid s s' added s.flags s.loops)
    (h : exec (do outdent construct; rest) s = (.ok (), s')) :
    Laid s s' added s.flags s.loops := by
  obtain ⟨_, mid, houtdent, hline⟩ := Script.exec_bind_eq_ok h
  have hout := laid_outdent houtdent
  have hlaid := hout.trans (hrest hline)
  rwa [hout.flags, hout.loops] at hlaid

theorem laid_ifStart {condition : String}
    (h : exec (ifStart condition) s = (.ok (), s')) :
    Laid s s' [.ifTrue (readCheck condition.toList)] s.flags s.loops :=
  laid_emit_indent (clause?_ifTrue condition) h

theorem laid_elseIfStart {condition : String}
    (h : exec (elseIfStart condition) s = (.ok (), s')) :
    Laid s s' [.elseIfTrue (readCheck condition.toList)] s.flags s.loops :=
  laid_outdent_then (laid_emit_indent (clause?_elseIfTrue condition)) h

theorem laid_elseStart (h : exec elseStart s = (.ok (), s')) :
    Laid s s' [.otherwise] s.flags s.loops :=
  laid_outdent_then (laid_emit_indent rfl) h

theorem laid_ifEnd (h : exec ifEnd s = (.ok (), s')) :
    Laid s s' [.endIf] s.flags s.loops :=
  laid_outdent_then (laid_emit rfl) h

theorem laid_postEnd (h : exec postEnd s = (.ok (), s')) :
    Laid s s' [.endIf] s.flags s.loops :=
  laid_outdent_then (laid_emit rfl) h

theorem laid_loopStart (houtside : s.inFunction = false)
    (h : exec loopStart s = (.ok (), s')) :
    Laid s s' [.set (flagName (s.loops + 1)) true, .whileTrue]
      (flagName (s.loops + 1) :: s.flags) (s.loops + 1) := by
  obtain rfl : { s with
      loops := s.loops + 1
      lines := (s.lines.push
        ⟨s.depth, .setWord s.inFunction (flagName (s.loops + 1)) "1"⟩).push
        ⟨s.depth, .whileTrue⟩
      depth := s.depth + 1
      flags := flagName (s.loops + 1) :: s.flags } = s' := congrArg Prod.snd h
  refine ⟨?_, rfl, rfl, rfl⟩
  have hset := readClause_of_clause?
    (clause?_setFlag (s.loops + 1) true) s.depth
  have hwhile : readClause (Line.text ⟨s.depth, .whileTrue⟩) = .whileTrue :=
    readClause_of_clause? rfl s.depth
  simp only [if_true] at hset
  simp [State.clauses, State.texts, houtside, hset, hwhile]

theorem laid_postStart {number : Nat} {flags : List String}
    (hflags : s.flags = flagName number :: flags)
    (h : exec postStart s = (.ok (), s')) :
    Laid s s' [.ifTrue (.flag (flagName number)), .set (flagName number) false,
      .otherwise] s.flags s.loops := by
  unfold postStart at h
  rw [Script.exec_get_bind, hflags] at h
  obtain ⟨_, entered, hstart, h⟩ := Script.exec_bind_eq_ok h
  obtain ⟨_, lowered, hset, helse⟩ := Script.exec_bind_eq_ok h
  have htest := laid_ifStart hstart
  rw [readCheck_flag] at htest
  have hlower := laid_emit (clause?_setFlag number false) hset
  rw [htest.flags, htest.loops] at hlower
  have hother := laid_elseStart helse
  rw [hlower.flags, hlower.loops] at hother
  exact (htest.trans hlower).trans hother

theorem laid_loopEnd {flag : String} {flags : List String}
    (hflags : s.flags = flag :: flags) (h : exec loopEnd s = (.ok (), s')) :
    Laid s s' [.endWhile] flags s.loops := by
  unfold loopEnd at h
  rw [Script.exec_get_bind, hflags] at h
  obtain ⟨_, popped, hset, hline⟩ := Script.exec_bind_eq_ok h
  obtain rfl : { s with flags } = popped := congrArg Prod.snd hset
  have hlaid := laid_outdent_then (laid_emit rfl) hline
  exact ⟨hlaid.clauses, hlaid.flags, hlaid.loops, hlaid.inFunction⟩

theorem laid_loopExit {exit : LoopExit} {command : Command} {clause : Clause}
    (hclause : clause? command.text.toList = some clause)
    (h : exec (loopExit exit command) s = (.ok (), s')) :
    Laid s s' [clause] s.flags s.loops := by
  unfold loopExit at h
  rw [Script.exec_get_bind] at h
  cases hflags : s.flags.isEmpty with
  | true =>
      rw [hflags] at h
      cases h
  | false =>
      rw [hflags] at h
      exact laid_emit hclause h

theorem laid_loopCondition {test : Option String}
    (htest : ∀ fragment ∈ test, Unflagged fragment)
    (h : exec (test.forM (Dialect.loopCondition : String → Write State Unit))
      s = (.ok (), s')) :
    Laid s s' (conditionClauses test) s.flags s.loops := by
  cases test with
  | none =>
      cases h
      exact ⟨(List.append_nil _).symm, rfl, rfl, rfl⟩
  | some test =>
      have hclause := clause?_leaveUnless test
      rw [(htest test rfl).readCheck] at hclause
      exact laid_emit hclause h

end Operations

/-! The lines of an outline. -/

/-- A writer of an outline whose lines are those of the program. -/
def Lays (p : Write State Flow) : Prop :=
  ∀ ⦃s flow s'⦄, s.inFunction = false → exec p s = (.ok flow, s') →
    Laid s s' (clausesOf s.loops flow) s.flags (s.loops + loopCount flow)

/-- The same for what follows the first branch of an if chain. -/
def ChainLays (p : Write State Chain) : Prop :=
  ∀ ⦃s chain s'⦄, s.inFunction = false → exec p s = (.ok chain, s') →
    Laid s s' (chainClauses s.loops chain) s.flags (s.loops + chainLoops chain)

theorem lays_straight {mentions : List Mention} {p : Write State α}
    {Q : α → Prop} (hp : ∀ scope, (steady scope).Enters mentions p Q) :
    Lays (keepLines State.texts p >>=
      fun result => pure (.straight result.2)) := by
  intro s flow s' _ hrun
  obtain ⟨⟨_, lines⟩, mid, hlines, hrun⟩ := Script.exec_bind_eq_ok hrun
  cases hrun
  exact (laid_straight hp hlines).1

theorem Lays.seq {p q : Write State Flow} (hp : Lays p) (hq : Lays q) :
    Lays (do
      let first ← p
      let second ← q
      return .seq first second) := by
  intro s flow s' houtside hrun
  obtain ⟨first, mid, hfirst, hrun⟩ := Script.exec_bind_eq_ok hrun
  obtain ⟨second, last, hsecond, hrun⟩ := Script.exec_bind_eq_ok hrun
  cases hrun
  have hlaid := hp houtside hfirst
  have hlaid' := hq (hlaid.inFunction.trans houtside) hsecond
  rw [hlaid.flags, hlaid.loops, Nat.add_assoc] at hlaid'
  exact hlaid.trans hlaid'

theorem branch_lays {test : String} {p : Write State Flow}
    {q : Write State Chain} (htest : Unflagged test) (hp : Lays p)
    (hq : ChainLays q) :
    ChainLays (do
      Dialect.elseIfStart test
      let inside ← p
      let rest ← q
      return .branch test inside rest) := by
  intro s chain s' houtside hrun
  obtain ⟨_, entered, hstart, hrun⟩ := Script.exec_bind_eq_ok hrun
  obtain ⟨inside, middle, hinside, hrun⟩ := Script.exec_bind_eq_ok hrun
  obtain ⟨others, last, hothers, hrun⟩ := Script.exec_bind_eq_ok hrun
  cases hrun
  have hopen := laid_elseIfStart hstart
  rw [htest.readCheck] at hopen
  have hmiddle := hp (hopen.inFunction.trans houtside) hinside
  rw [hopen.flags, hopen.loops] at hmiddle
  have hlast :=
    hq (hmiddle.inFunction.trans (hopen.inFunction.trans houtside)) hothers
  rw [hmiddle.flags, hmiddle.loops] at hlast
  have hlaid := hopen.trans (hmiddle.trans hlast)
  simpa only [chainClauses, chainLoops, Nat.add_assoc, List.singleton_append]
    using hlaid

theorem stop_lays : ChainLays (do
    Dialect.ifEnd
    return .stop) := by
  intro s chain s' _ hrun
  obtain ⟨_, last, hend, hrun⟩ := Script.exec_bind_eq_ok hrun
  cases hrun
  exact laid_ifEnd hend

theorem otherwise_lays {p : Write State Flow} (hp : Lays p) :
    ChainLays (do
      Dialect.elseStart
      let inside ← p
      Dialect.ifEnd
      return .otherwise inside) := by
  intro s chain s' houtside hrun
  obtain ⟨_, entered, hstart, hrun⟩ := Script.exec_bind_eq_ok hrun
  obtain ⟨inside, middle, hinside, hrun⟩ := Script.exec_bind_eq_ok hrun
  obtain ⟨_, last, hend, hrun⟩ := Script.exec_bind_eq_ok hrun
  cases hrun
  have hopen := laid_elseStart hstart
  have hmiddle := hp (hopen.inFunction.trans houtside) hinside
  rw [hopen.flags, hopen.loops] at hmiddle
  have hclose := laid_ifEnd hend
  rw [hmiddle.flags, hmiddle.loops] at hclose
  exact hopen.trans (hmiddle.trans hclose)

theorem choose_lays (condition : Expr) (branches : List (Expr × List Stmt))
    {p : Write State Flow} {q : List String → Write State Chain} (hp : Lays p)
    (hq : ∀ tests, (∀ test ∈ tests, Unflagged test) → ChainLays (q tests)) :
    Lays (do
      let ((test, tests), support) ← keepLines State.texts do
        let test ← Script.evaluate condition true
        let tests ← Script.conditions branches
        return (test, tests)
      Dialect.ifStart test
      let first ← p
      let rest ← q tests
      return .choose support test first rest) := by
  intro s flow s' houtside hrun
  obtain ⟨⟨⟨test, tests⟩, support⟩, opened, hsupport, hrun⟩ :=
    Script.exec_bind_eq_ok hrun
  obtain ⟨_, entered, hstart, hrun⟩ := Script.exec_bind_eq_ok hrun
  obtain ⟨first, middle, hfirst, hrun⟩ := Script.exec_bind_eq_ok hrun
  obtain ⟨rest, last, hothers, hrun⟩ := Script.exec_bind_eq_ok hrun
  cases hrun
  have hconditions : ∀ scope, (steady scope).Enters _ (do
      let test ← Script.evaluate condition true
      let tests ← Script.conditions branches
      return (test, tests) : Write State (String × List String))
      fun tests => Unflagged tests.1 ∧ ∀ test ∈ tests.2, Unflagged test :=
    fun _ => (steady_actions.evaluate condition).bind fun _ htest =>
      (steady_actions.conditions branches).before
        fun _ htests => .pure ⟨htest, htests.2⟩
  obtain ⟨hbefore, htest, htests⟩ := laid_straight hconditions hsupport
  have hopen := laid_ifStart hstart
  rw [htest.readCheck, hbefore.flags, hbefore.loops] at hopen
  have houtside' : entered.inFunction = false :=
    hopen.inFunction.trans (hbefore.inFunction.trans houtside)
  have hmiddle := hp houtside' hfirst
  rw [hopen.flags, hopen.loops] at hmiddle
  have hlast := hq tests htests (hmiddle.inFunction.trans houtside') hothers
  rw [hmiddle.flags, hmiddle.loops] at hlast
  have hlaid := hbefore.trans (hopen.trans (hmiddle.trans hlast))
  simpa only [clausesOf, loopCount, Nat.add_assoc, List.singleton_append]
    using hlaid

theorem loop_lays {init post : Option Stmt} (condition : Option Expr)
    {p : Write State Flow} (hinit : init.all Stmt.isStraight = true)
    (hpost : post.all Stmt.isStraight = true) (hp : Lays p) :
    Lays (do
      let (_, before) ← keepLines State.texts (Script.optional init)
      Dialect.loopStart
      Dialect.postStart
      let (_, between) ← keepLines State.texts (Script.postPart post)
      Dialect.postEnd
      let (test, support) ← keepLines State.texts
        (Script.evaluateOption condition)
      test.forM Dialect.loopCondition
      let inside ← p
      Dialect.loopEnd
      return .loop before between support test inside) := by
  intro s flow s' houtside hrun
  obtain ⟨⟨_, before⟩, s1, hbefore, hrun⟩ := Script.exec_bind_eq_ok hrun
  obtain ⟨_, s2, hstart, hrun⟩ := Script.exec_bind_eq_ok hrun
  obtain ⟨_, s3, hguard, hrun⟩ := Script.exec_bind_eq_ok hrun
  obtain ⟨⟨_, between⟩, s4, hbetween, hrun⟩ := Script.exec_bind_eq_ok hrun
  obtain ⟨_, s5, hclose, hrun⟩ := Script.exec_bind_eq_ok hrun
  obtain ⟨⟨test, support⟩, s6, hsupport, hrun⟩ := Script.exec_bind_eq_ok hrun
  obtain ⟨_, s7, hcondition, hrun⟩ := Script.exec_bind_eq_ok hrun
  obtain ⟨inside, s8, hinside, hrun⟩ := Script.exec_bind_eq_ok hrun
  obtain ⟨_, s9, hend, hrun⟩ := Script.exec_bind_eq_ok hrun
  cases hrun
  have h1 := (laid_straight (optional_straight hinit) hbefore).1
  have h2 := laid_loopStart (h1.inFunction.trans houtside) hstart
  rw [h1.flags, h1.loops] at h2
  have h3 := laid_postStart h2.flags hguard
  rw [h2.flags, h2.loops] at h3
  have h4 := (laid_straight (postPart_straight hpost) hbetween).1
  rw [h3.flags, h3.loops] at h4
  have h5 := laid_postEnd hclose
  rw [h4.flags, h4.loops] at h5
  have hoption : ∀ scope, (steady scope).Enters
    _ (Script.evaluateOption condition)
      fun test => ∀ fragment ∈ test, Unflagged fragment :=
    fun _ => steady_actions.evaluateOption condition
  obtain ⟨h6, htest⟩ := laid_straight hoption hsupport
  rw [h5.flags, h5.loops] at h6
  have h7 := laid_loopCondition htest hcondition
  rw [h6.flags, h6.loops] at h7
  have hhead :=
    h1.trans (h2.trans (h3.trans (h4.trans (h5.trans (h6.trans h7)))))
  have h8 := hp (hhead.inFunction.trans houtside) hinside
  rw [hhead.flags, hhead.loops] at h8
  have h9 := laid_loopEnd h8.flags hend
  rw [h8.loops] at h9
  have hlaid := hhead.trans (h8.trans h9)
  simpa [clausesOf, loopCount, Nat.add_assoc] using hlaid

theorem exit_lays {exit : LoopExit} {command : Command} {clause : Clause}
    {flow : Flow} (hclause : clause? command.text.toList = some clause)
    (hcode : ∀ loops, clausesOf loops flow = [clause])
    (hloops : loopCount flow = 0) :
    Lays (loopExit exit command >>= fun _ => pure flow) := by
  intro s flow' s' _ hrun
  obtain ⟨_, mid, hexit, hrun⟩ := Script.exec_bind_eq_ok hrun
  cases hrun
  rw [hcode, hloops]
  exact laid_loopExit hclause hexit

theorem empty_lays : Lays (pure (.straight [])) := by
  intro s flow s' _ hrun
  cases hrun
  exact ⟨(List.append_nil _).symm, rfl, rfl, rfl⟩

/-- Structured programs are laid out as their clauses. -/
theorem outlineRules :
    Script.OutlineRules State.texts Stmt.isStraight Unflagged Lays
      ChainLays where
  straight h := lays_straight fun _ => steady_actions.statement _ h
  noOp := lays_straight fun _ => nothing_straight.enters
  empty := empty_lays
  leaveLoop := exit_lays rfl (fun _ => rfl) rfl
  nextRound := exit_lays rfl (fun _ => rfl) rfl
  seq := .seq
  stop := stop_lays
  otherwise := otherwise_lays
  branch := branch_lays
  choose := choose_lays
  loop := loop_lays

/-- The lines of a structured program are nested commands.  Whichever flags are
up at their start, they end in a state just when the program does. -/
theorem bash_lines_run_as_structured {body : List Stmt} {s : State}
    (hbody : Stmt.isBlockFrom Stmt.isStraight body = true)
    (hrun : exec (Script.block body) (Dialect.fresh : State) = (.ok (), s)) :
    ∃ flow code, exec (outlineBlock State.texts body) Dialect.fresh =
      (.ok flow, s) ∧ readScript s.clauses = some code ∧
      ∀ {σ : Type u} (m : Meaning σ) (a b : σ) (f : Flags),
        (∃ limit f', runAll m limit code (a, f) = some (.done, b, f')) ↔
          flow.Runs m a .done b := by
  obtain ⟨flow, houtline⟩ := Script.exists_outlineBlock State.texts hrun
  have hlaid : Laid State.fresh s (clausesOf 0 flow) [] (0 + loopCount flow) :=
    outlineRules.block hbody rfl houtline
  have hclauses : s.clauses = clausesOf 0 flow := hlaid.clauses
  refine ⟨flow, codeOf 0 flow, houtline, ?_, fun {σ} m a b f => ?_⟩
  · rw [hclauses]
    exact readScript_clausesOf 0 flow
  · have hsimulates := codeOf_simulates m 0 flow
    constructor
    · rintro ⟨limit, f', hends⟩
      exact (hsimulates.sound ⟨limit, hends⟩).1
    · intro hruns
      obtain ⟨f', limit, hends⟩ := hsimulates.complete hruns f
      exact ⟨limit, f', hends⟩

/-- A loop in a loop.  The inner one starts again in every round of the outer
one, goes to its next round from one branch and is left from the other. -/
def nestedLoops : List Stmt :=
  [.loop (some (.define [⟨"i", .int⟩] (some (.int 0 [.int])) false))
    (some (.compare .lt (.var "i" [.int]) (.int 2 [.int]) [.bool]))
    (some (.assign [⟨"i", .int⟩]
      (.binary .add (.var "i" [.int]) (.int 1 [.int]) [.int])))
    [.loop none none (some (.print (.var "i" [.int])))
      [.choose [(.compare .eq (.var "i" [.int]) (.int 1 [.int]) [.bool],
        [.leaveLoop])] (some [.nextRound])]]]

/-- Every line counts.  The condition of the outer loop holds below eight, the
one of the branch at the multiples of three. -/
def countingMeaning : Meaning Nat :=
  ⟨fun _ count => count + 1, fun condition count =>
    if condition = "$(( ($\x7bv_i\x7d) < (2) ))" then count < 8
    else count % 3 == 0⟩

theorem bash_lines_run_as_structured_nested :
    Stmt.isBlockFrom Stmt.isStraight nestedLoops = true ∧
      ∃ flow code s, exec (Script.block nestedLoops) (Dialect.fresh : State) =
        (.ok (), s) ∧
        exec (outlineBlock State.texts nestedLoops) Dialect.fresh =
          (.ok flow, s) ∧
        readScript s.clauses = some code ∧
        (∃ f', runAll countingMeaning 8 code (0, fun _ => false) =
          some (.done, 10, f')) ∧
        flow.Runs countingMeaning 0 .done 10 := by
  have hdone :
      (exec (Script.block nestedLoops) (Dialect.fresh : State)).1.toBool =
        true := by
    decide +kernel
  have hends : (fun s : State => (readScript s.clauses).bind fun code =>
      (runAll countingMeaning 8 code (0, fun _ => false)).map fun result =>
        (result.1, result.2.1)) (exec (Script.block nestedLoops)
          Dialect.fresh).2 =
      some (.done, 10) := by
    decide +kernel
  have hbody : Stmt.isBlockFrom Stmt.isStraight nestedLoops = true := rfl
  rcases hrun : exec (Script.block nestedLoops) (Dialect.fresh : State)
    with ⟨_ | _, s⟩
  · rw [hrun] at hdone
    cases hdone
  · rw [hrun] at hends
    obtain ⟨flow, code, houtline, hread, hiff⟩ :=
      bash_lines_run_as_structured hbody hrun
    dsimp only at hends
    rw [hread, Option.bind_some] at hends
    obtain ⟨⟨o, b, f'⟩, hlast, hsame⟩ := Option.map_eq_some_iff.mp hends
    cases hsame
    exact ⟨hbody, flow, code, s, rfl, houtline, hread, ⟨f', hlast⟩,
      (hiff countingMeaning 0 10 fun _ => false).mp ⟨8, f', hlast⟩⟩

end Bash

end Shellwright
