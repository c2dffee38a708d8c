/-
If chains and loops keep their meaning when they become labels and jumps: the
lines of a batch script run as the structured program they are laid out from.
-/
import Shellwright.Proofs.Batch.Simple
import Shellwright.Proofs.Batch.Simulation
import Shellwright.Proofs.Script.Outline

namespace Shellwright

namespace Batch

open Script (exec keepLines outlineBlock)

universe u

variable {α : Type}

/-- The texts of the lines so far. -/
def State.texts (s : State) : List String := s.lines.toList.map Command.text

/-- The lines so far, as control flow sees them. -/
def State.flat (s : State) : List Line :=
  s.lines.toList.map fun command => readLine command.text

/-! The lines of an outline are its layout. -/

/-- Lines have been added that read as `code`, and the graph is `graph` now. -/
structure Laid (s s' : State) (code : List Line) (graph : Graph) : Prop where
  flat : s'.flat = s.flat ++ code
  graph : s'.graph = graph

theorem Laid.trans {s mid s' : State} {first second : List Line}
    {graph graph' : Graph} (h : Laid s mid first graph)
    (h' : Laid mid s' second graph') : Laid s s' (first ++ second) graph' :=
  ⟨by rw [h'.flat, h.flat, List.append_assoc], h'.graph⟩

theorem laid_keepLines {p : Write State α} {s s' : State} {a : α}
    {lines : List String} (hp : OnlyAdds p)
    (h : exec (keepLines State.texts p) s = (.ok (a, lines), s')) :
    Laid s s' (plainLines lines) s.graph := by
  obtain ⟨hrun, rfl⟩ := Script.exec_keepLines h
  have hextends := hp.changes s
  rw [hrun] at hextends
  obtain ⟨added, hlines, hallowed⟩ := hextends.lines
  have htexts : s'.texts = s.texts ++ added.map Command.text := by
    rw [State.texts, hlines, List.map_append, State.texts]
  refine ⟨?_, hextends.graph⟩
  unfold State.flat plainLines
  rw [htexts, List.drop_left, hlines, List.map_append, List.map_map]
  congr 1
  exact List.map_congr_left fun command hin =>
    readLine_of_allowed (hallowed command hin)

theorem laid_emitFlow {step : Write Graph (List Instruction)} {s s' : State}
    {graph : Graph} {instructions : List Instruction}
    (h : exec (emitFlow step) s = (.ok (), s'))
    (hstep : exec step s.graph = (.ok instructions, graph))
    (hread : ∀ instruction ∈ instructions, readLine instruction.text =
      instruction.line) :
    Laid s s' (instructions.map Instruction.line) graph := by
  rw [exec_emitFlow hstep] at h
  cases h
  refine ⟨?_, rfl⟩
  unfold State.flat State.flowed
  simp only [Array.toList_append, List.map_append, List.map_map]
  congr 1
  exact List.map_congr_left hread

theorem readLine_jumpUnless_counted (condition : String) {stem : String}
    (hstem : stem ∈ stems) (number : Nat) :
    readLine (Instruction.jumpUnless condition
      (countedLabel stem number)).text =
      .jumpUnless condition (countedLabel stem number) :=
  readLine_jumpUnless condition
    (isPlainLabel_countedLabel hstem number).isWordChar

/-- The innermost loop, if there is one, is left to `exits`. -/
def Exits.Serve (exits : Exits) (frames : List Frame) : Prop :=
  ∀ ⦃next stop⦄, Graph.innermostLoop? frames = some (next, stop) →
    exits = ⟨next, stop⟩

/-- The jump out of a loop or to its next round. -/
def Exits.target (exits : Exits) : LoopExit → String
  | .leave => exits.stop
  | .next => exits.next

theorem laid_loopExit {exit : LoopExit} {exits : Exits} {s s' : State}
    (hexits : exits.Serve s.graph.frames)
    (h : exec (emitFlow (Graph.loopExit exit)) s = (.ok (), s')) :
    Laid s s' [.jump (exits.target exit)] s.graph := by
  cases hloop : Graph.innermostLoop? s.graph.frames with
  | none =>
      rw [exec_emitFlow_error (exec_loopExit_outside hloop exit)] at h
      cases h
  | some loop =>
      obtain ⟨next, stop⟩ := loop
      obtain rfl := hexits hloop
      have hlaid := laid_emitFlow h (exec_loopExit hloop exit)
        (by simp [readLine_jump, Instruction.line])
      cases exit <;> exact hlaid

theorem Exits.Serve.branch {exits : Exits} {frames : List Frame}
    (h : exits.Serve frames) (stop : String) (next : Option String) :
    exits.Serve (.branch stop next :: frames) :=
  h

theorem Exits.serve_loop (next test stop : String) (frames : List Frame) :
    Exits.Serve ⟨next, stop⟩ (.loop next test stop :: frames) := by
  rintro _ _ ⟨⟩
  rfl

/-- The lines before the first condition, and the conditions themselves. -/
theorem conditions_onlyAdds (branches : List (Expr × List Stmt)) :
    OnlyAdds (Script.conditions branches : Write State (List String)) := by
  induction branches with
  | nil => exact .pure
  | cons branch branches ih =>
      exact .bind (evaluate_onlyAdds branch.1 (.inl rfl))
        fun _ => .bind ih fun _ => .pure

theorem optional_onlyAdds {part : Option Stmt}
    (h : part.all Stmt.isSimple = true) :
    OnlyAdds (Script.optional part : Write State Unit) := by
  cases part with
  | none => exact .pure
  | some s => exact statement_onlyAdds h

theorem postPart_onlyAdds {part : Option Stmt}
    (h : part.all Stmt.isSimple = true) :
    OnlyAdds (Script.postPart part : Write State Unit) := by
  cases part with
  | none => exact emit_adds fun _ => trivial
  | some s => exact statement_onlyAdds h

/-- A writer of an outline whose lines are its layout. -/
def Lays (p : Write State Flow) : Prop :=
  ∀ ⦃exits s flow s'⦄, exits.Serve s.graph.frames → exec p s = (.ok flow, s') →
    Laid s s' (flow.code exits s.graph.labels)
      ⟨s.graph.frames, s.graph.labels + flow.labels⟩

/-- The same for what follows the first branch of a chain, which is open. -/
def ChainLays (p : Write State Chain) : Prop :=
  ∀ ⦃exits s chain s' stop next frames⦄, exits.Serve frames →
    s.graph.frames = .branch stop (some next) :: frames →
      exec p s = (.ok chain, s') →
    Laid s s' (chain.joint stop next ++ chain.entry exits stop s.graph.labels)
      ⟨frames, s.graph.labels + chain.labels⟩

theorem lays_straight {p : Write State α} (hp : OnlyAdds p) :
    Lays (keepLines State.texts p >>=
      fun result => pure (.straight result.2)) := by
  intro exits s flow s' hexits hrun
  obtain ⟨⟨_, lines⟩, mid, hlines, hrun⟩ := Script.exec_bind_eq_ok hrun
  cases hrun
  exact laid_keepLines hp hlines

theorem Lays.seq {p q : Write State Flow} (hp : Lays p) (hq : Lays q) :
    Lays (do
      let first ← p
      let second ← q
      return .seq first second) := by
  intro exits s flow s' hexits hrun
  obtain ⟨first, mid, hfirst, hrun⟩ := Script.exec_bind_eq_ok hrun
  obtain ⟨second, last, hsecond, hrun⟩ := Script.exec_bind_eq_ok hrun
  cases hrun
  have hlaid := hp hexits hfirst
  have hlaid' := hq (by rw [hlaid.graph]; exact hexits) hsecond
  rw [hlaid.graph, Nat.add_assoc] at hlaid'
  exact hlaid.trans hlaid'

theorem branch_lays {test : String} {p : Write State Flow}
    {q : Write State Chain} (hp : Lays p) (hq : ChainLays q) :
    ChainLays (do
      Dialect.elseIfStart test
      let inside ← p
      let rest ← q
      return .branch test inside rest) := by
  intro exits s chain s' stop next frames hexits hframes hrun
  obtain ⟨_, entered, hstart, hrun⟩ := Script.exec_bind_eq_ok hrun
  obtain ⟨inside, middle, hinside, hrun⟩ := Script.exec_bind_eq_ok hrun
  obtain ⟨others, last, hothers, hrun⟩ := Script.exec_bind_eq_ok hrun
  cases hrun
  have helse := readLine_jumpUnless_counted test (by decide : "else" ∈ stems)
    (s.graph.labels + 1)
  have hopen := laid_emitFlow hstart (exec_elseIf hframes) (by
    simp [readLine_jump, readLine_label, helse, Instruction.line])
  have hgraph := hopen.graph
  have hmiddle := hp (by rw [hgraph]; exact hexits.branch _ _) hinside
  rw [hgraph] at hmiddle
  have hlast := hq hexits (by rw [hmiddle.graph]) hothers
  rw [hmiddle.graph] at hlast
  have hlaid := (hopen.trans hmiddle).trans hlast
  simpa [Chain.joint, Chain.entry, Chain.labels, Instruction.line,
    Nat.add_assoc] using hlaid

theorem stop_lays : ChainLays (do
    Dialect.ifEnd
    return .stop) := by
  intro exits s chain s' stop next frames hexits hframes hrun
  obtain ⟨_, last, hend, hrun⟩ := Script.exec_bind_eq_ok hrun
  cases hrun
  exact laid_emitFlow hend (exec_closeBranch hframes)
    (by simp [readLine_label, Instruction.line])

theorem otherwise_lays {p : Write State Flow} (hp : Lays p) :
    ChainLays (do
      Dialect.elseStart
      let inside ← p
      Dialect.ifEnd
      return .otherwise inside) := by
  intro exits s chain s' stop next frames hexits hframes hrun
  obtain ⟨_, entered, hstart, hrun⟩ := Script.exec_bind_eq_ok hrun
  obtain ⟨inside, middle, hinside, hrun⟩ := Script.exec_bind_eq_ok hrun
  obtain ⟨_, last, hend, hrun⟩ := Script.exec_bind_eq_ok hrun
  cases hrun
  have hopen := laid_emitFlow hstart (exec_elseBranch hframes) (by
    simp [readLine_jump, readLine_label, Instruction.line])
  have hgraph := hopen.graph
  have hmiddle := hp (by rw [hgraph]; exact hexits.branch _ _) hinside
  rw [hgraph] at hmiddle
  have hclose :=
    laid_emitFlow hend (exec_closeBranch (by rw [hmiddle.graph])) (by
    simp [readLine_label, Instruction.line])
  rw [hmiddle.graph] at hclose
  have hlaid := (hopen.trans hmiddle).trans hclose
  simpa [Chain.joint, Chain.entry, Chain.labels, Instruction.line] using hlaid

theorem choose_lays (condition : Expr) (branches : List (Expr × List Stmt))
    {p : Write State Flow} {q : List String → Write State Chain} (hp : Lays p)
    (hq : ∀ tests, ChainLays (q tests)) :
    Lays (do
      let ((test, tests), support) ← keepLines State.texts do
        let test ← Script.evaluate condition true
        let tests ← Script.conditions branches
        return (test, tests)
      Dialect.ifStart test
      let first ← p
      let rest ← q tests
      return .choose support test first rest) := by
  intro exits s flow s' hexits hrun
  obtain ⟨⟨⟨test, tests⟩, support⟩, opened, hsupport, hrun⟩ :=
    Script.exec_bind_eq_ok hrun
  obtain ⟨_, entered, hstart, hrun⟩ := Script.exec_bind_eq_ok hrun
  obtain ⟨first, middle, hfirst, hrun⟩ := Script.exec_bind_eq_ok hrun
  obtain ⟨rest, last, hothers, hrun⟩ := Script.exec_bind_eq_ok hrun
  cases hrun
  have hbefore :=
    laid_keepLines (.bind (evaluate_onlyAdds condition (.inl rfl)) fun _ =>
    .bind (conditions_onlyAdds branches) fun _ => .pure) hsupport
  have helse := readLine_jumpUnless_counted test (by decide : "else" ∈ stems)
    (opened.graph.labels + 1)
  have hopen := laid_emitFlow hstart exec_openBranch
    (by simp [helse, Instruction.line])
  rw [hbefore.graph] at hopen
  have hgraph := hopen.graph
  have hmiddle := hp (by rw [hgraph]; exact hexits.branch _ _) hfirst
  rw [hgraph] at hmiddle
  have hlast := hq tests hexits (by rw [hmiddle.graph]) hothers
  rw [hmiddle.graph] at hlast
  have hlaid := ((hbefore.trans hopen).trans hmiddle).trans hlast
  simpa [Flow.code, Flow.labels, Instruction.line, Nat.add_assoc] using hlaid

theorem laid_loopCondition {test : Option String} {s s' : State}
    {next head : String} {number : Nat} {frames : List Frame}
    (h : exec (test.forM (Dialect.loopCondition : String → Write State Unit))
      s = (.ok (), s'))
    (hframes : s.graph.frames = .loop next head (countedLabel "done" number) ::
      frames) :
    Laid s s' (test.map fun test => Line.jumpUnless test
      (countedLabel "done" number)).toList s.graph := by
  cases test with
  | none =>
      cases h
      exact ⟨(List.append_nil _).symm, rfl⟩
  | some test =>
      have hdone := readLine_jumpUnless_counted test
        (by decide : "done" ∈ stems) number
      exact laid_emitFlow h (exec_leaveUnless hframes)
        (by simp [hdone, Instruction.line])

theorem loop_lays {init post : Option Stmt} (condition : Option Expr)
    {p : Write State Flow} (hinit : init.all Stmt.isSimple = true)
    (hpost : post.all Stmt.isSimple = true) (hp : Lays p) :
    Lays (do
      let (_, before) ← keepLines State.texts (Script.optional init)
      Dialect.loopStart
      Dialect.postStart
      let (_, between) ← keepLines State.texts (Script.postPart post)
      Dialect.postEnd
      let (test, support) ← keepLines State.texts
        (Script.evaluateOption condition)
      test.forM Dialect.loopCondition
      let inside ← p
      Dialect.loopEnd
      return .loop before between support test inside) := by
  intro exits s flow s' hexits hrun
  obtain ⟨⟨_, before⟩, s1, hbefore, hrun⟩ := Script.exec_bind_eq_ok hrun
  obtain ⟨_, s2, hstart, hrun⟩ := Script.exec_bind_eq_ok hrun
  obtain ⟨_, s3, hskip, hrun⟩ := Script.exec_bind_eq_ok hrun
  obtain ⟨⟨_, between⟩, s4, hbetween, hrun⟩ := Script.exec_bind_eq_ok hrun
  obtain ⟨_, s5, htest, hrun⟩ := Script.exec_bind_eq_ok hrun
  obtain ⟨⟨test, support⟩, s6, hsupport, hrun⟩ := Script.exec_bind_eq_ok hrun
  obtain ⟨_, s7, hcondition, hrun⟩ := Script.exec_bind_eq_ok hrun
  obtain ⟨inside, s8, hinside, hrun⟩ := Script.exec_bind_eq_ok hrun
  obtain ⟨_, s9, hend, hrun⟩ := Script.exec_bind_eq_ok hrun
  cases hrun
  cases hskip
  have h1 := laid_keepLines (optional_onlyAdds hinit) hbefore
  have h2 := laid_emitFlow hstart exec_openLoop (by
    simp [readLine_jump, readLine_label, Instruction.line])
  rw [h1.graph] at h2
  have h3 := laid_keepLines (postPart_onlyAdds hpost) hbetween
  rw [h2.graph] at h3
  have h4 := laid_emitFlow htest (exec_loopTest (by rw [h3.graph])) (by
    simp [readLine_label, Instruction.line])
  rw [h3.graph] at h4
  have h5 := laid_keepLines (evaluateOption_onlyAdds condition) hsupport
  rw [h4.graph] at h5
  have h6 := laid_loopCondition hcondition (by rw [h5.graph])
  rw [h5.graph] at h6
  have h7 := hp (by rw [h6.graph]; exact Exits.serve_loop _ _ _ _) hinside
  rw [h6.graph] at h7
  have h8 := laid_emitFlow hend (exec_closeLoop (by rw [h7.graph])) (by
    simp [readLine_jump, readLine_label, Instruction.line])
  rw [h7.graph] at h8
  have hlaid :=
    ((((((h1.trans h2).trans h3).trans h4).trans h5).trans h6).trans
      h7).trans h8
  simpa [Flow.code, Flow.labels, roundCode, roundEnd, Instruction.line,
    Nat.add_assoc] using hlaid

theorem exit_lays {exit : LoopExit} {flow : Flow}
    (hcode : ∀ exits labels, flow.code exits labels =
      [.jump (exits.target exit)])
    (hlabels : flow.labels = 0) :
    Lays (emitFlow (Graph.loopExit exit) >>= fun _ => pure flow) := by
  intro exits s flow' s' hexits hrun
  obtain ⟨_, mid, hexit, hrun⟩ := Script.exec_bind_eq_ok hrun
  cases hrun
  rw [hcode, hlabels]
  exact laid_loopExit hexits hexit

theorem empty_lays : Lays (pure (.straight [])) := by
  intro exits s flow s' _ hrun
  cases hrun
  exact ⟨(List.append_nil _).symm, rfl⟩

/-- Structured programs are laid out as their code. -/
theorem outlineRules : Script.OutlineRules State.texts Stmt.isSimple
    (fun _ => True) Lays ChainLays where
  straight h := lays_straight (statement_onlyAdds h)
  noOp := lays_straight (emit_adds fun _ => trivial)
  empty := empty_lays
  leaveLoop := exit_lays (fun _ _ => rfl) rfl
  nextRound := exit_lays (fun _ _ => rfl) rfl
  seq := .seq
  stop := stop_lays
  otherwise := otherwise_lays
  branch _ := branch_lays
  choose condition branches _ _ hp hq := choose_lays condition branches hp
    fun tests => hq tests fun _ _ => trivial
  loop := loop_lays

/-- The lines of a structured program, read as labels, jumps and lines that do
something, end in a state just when the program does. -/
theorem batch_lines_run_as_structured {body : List Stmt} {s : State}
    (hbody : Stmt.isBlockFrom Stmt.isSimple body = true)
    (hrun : exec (Script.block body) (Dialect.fresh : State) = (.ok (), s)) :
    ∃ flow, exec (outlineBlock State.texts body) Dialect.fresh = (.ok flow, s) ∧
      ∀ {σ : Type u} (m : Meaning σ) (a b : σ),
        (∃ n, runFlat m s.flat n (some s.flat) a = some b) ↔
          flow.Runs m a .done b := by
  obtain ⟨flow, houtline⟩ := Script.exists_outlineBlock State.texts hrun
  refine ⟨flow, houtline, fun {σ} m a b => ?_⟩
  have hserve : Exits.none.Serve (Dialect.fresh : State).graph.frames := by
    intro next stop hloop
    cases hloop
  have hflat : s.flat = flow.code .none 0 :=
    (outlineRules.block hbody hserve houtline).flat
  rw [hflat]
  exact flow.runFlat_code_iff m 0 a b

/-- A counted loop that goes to its next round from one branch and is left from
the other. -/
def exampleLoop : List Stmt :=
  [.loop (some (.define [⟨"i", .int⟩] (some (.int 0 [.int])) false))
    (some (.compare .lt (.var "i" [.int]) (.int 3 [.int]) [.bool]))
    (some (.assign [⟨"i", .int⟩]
      (.binary .add (.var "i" [.int]) (.int 1 [.int]) [.int])))
    [.choose [(.compare .eq (.var "i" [.int]) (.int 1 [.int]) [.bool],
      [.nextRound])] (some [.leaveLoop])]]

/-- Every line counts, and conditions hold off the multiples of five. -/
def exampleMeaning : Meaning Nat :=
  ⟨fun _ count => count + 1, fun _ count => count % 5 != 0⟩

theorem batch_lines_run_as_structured_loop :
    Stmt.isBlockFrom Stmt.isSimple exampleLoop = true ∧
      ∃ flow s, exec (Script.block exampleLoop) (Dialect.fresh : State) =
        (.ok (), s) ∧
        exec (outlineBlock State.texts exampleLoop) Dialect.fresh =
          (.ok flow, s) ∧
        runFlat exampleMeaning s.flat 60 (some s.flat) 3 = some 20 ∧
        flow.Runs exampleMeaning 3 .done 20 := by
  have hdone :
      (exec (Script.block exampleLoop) (Dialect.fresh : State)).1.toBool =
        true := by
    decide +kernel
  have hflat :
    (fun s : State => runFlat exampleMeaning s.flat 60 (some s.flat) 3)
      (exec (Script.block exampleLoop) Dialect.fresh).2 = some 20 := by
    decide +kernel
  have hbody : Stmt.isBlockFrom Stmt.isSimple exampleLoop = true := rfl
  rcases hrun : exec (Script.block exampleLoop) (Dialect.fresh : State)
    with ⟨_ | _, s⟩
  · rw [hrun] at hdone
    cases hdone
  · rw [hrun] at hflat
    obtain ⟨flow, houtline, hiff⟩ := batch_lines_run_as_structured hbody hrun
    exact ⟨hbody, flow, s, rfl, houtline, hflat,
      (hiff exampleMeaning 3 20).mp ⟨60, hflat⟩⟩

end Batch

end Shellwright
