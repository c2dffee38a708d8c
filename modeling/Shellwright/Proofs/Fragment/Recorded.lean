/-
Scripts with a record of their operations.  The recorded dialect runs the
operations of another one and notes for each the states around it and the
fragments it has returned.  Without the notes a recorded run is the plain one.
-/
import Shellwright.Proofs.Script.Noted
import Shellwright.Proofs.Script.WriteProgram

namespace Shellwright

namespace Script

/-- What an operation gets that may be any text of the source: a literal, the
programs of a pipeline, or nothing of the kind. -/
inductive Operation where
  | literal (value : String)
  | pipeline (programs : List String)
  | plain
deriving DecidableEq, Repr

/-- An operation that has been run: the states before and after it, and the
fragments it has returned, each with the mark of a list. -/
structure Note (σ : Type) where
  operation : Operation
  before : σ
  after : σ
  fragments : List (String × Bool)

/-- The state of the plain dialect with the operations so far. -/
abbrev Recorded (σ : Type) := Noted σ (Note σ)

section

variable {σ α : Type}

/-- Runs an operation and notes it; one that fails returns no fragments. -/
def recorded (operation : Operation) (fragments : α → List (String × Bool))
    (p : Write σ α) : Write (Recorded σ) α :=
  noting (fun before result after =>
    [⟨operation, before, after, (result.toOption.map fragments).getD []⟩]) p

/-- An operation that returns no fragment. -/
def silent (p : Write σ α) : Write (Recorded σ) α :=
  recorded .plain (fun _ => []) p

/-- An operation that returns a fragment, of interest only when it is used. -/
def valued (isList used : Bool) (p : Write σ String) :
    Write (Recorded σ) String :=
  recorded .plain (fun text => if used then [(text, isList)] else []) p

end

instance {σ : Type} [Dialect σ] : Dialect (Recorded σ) :=
  { Noted.dialect silent valued with
    stringLiteral value := recorded (.literal value)
      (fun text => [(text, false)]) (Dialect.stringLiteral value)
    callFunction name args returns used :=
      recorded .plain
        (fun results => results.zip (returns.map ValueType.isList))
        (Dialect.callFunction name args returns used)
    runProcess stages results :=
      recorded (.pipeline (stages.map Invocation.program))
        (fun texts => texts.map fun text => (text, false))
        (Dialect.runProcess stages results) }

section

variable {σ α : Type} {operation : Operation}
  {fragments : α → List (String × Bool)} {p : Write σ α} {r r' : Recorded σ}

theorem exec_recorded (operation : Operation)
    (fragments : α → List (String × Bool)) (p : Write σ α) (r : Recorded σ) :
    exec (recorded operation fragments p) r =
      ((exec p r.writer).1,
        ⟨(exec p r.writer).2, r.notes ++
          [⟨operation, r.writer, (exec p r.writer).2,
            ((exec p r.writer).1.toOption.map fragments).getD []⟩]⟩) :=
  exec_noting _ p r

theorem recorded_forgets (operation : Operation)
    (fragments : α → List (String × Bool)) (p : Write σ α) :
    Forgets (recorded operation fragments p) p := by
  unfold recorded
  exact noting_forgets _ p

theorem silent_forgets (p : Write σ α) : Forgets (silent p) p :=
  recorded_forgets _ _ p

theorem valued_forgets (isList used : Bool) (p : Write σ String) :
    Forgets (valued isList used p) p :=
  recorded_forgets _ _ p

/-- The last operation of a run has returned its value. -/
theorem recorded_last {a : α}
    (h : exec (recorded operation fragments p) r = (.ok a, r')) :
    ∃ note, r'.notes = r.notes ++ [note] ∧ note.after = r'.writer ∧
      note.fragments = fragments a := by
  rw [exec_recorded] at h
  obtain ⟨hvalue, rfl⟩ := Prod.mk.inj h
  refine ⟨_, rfl, rfl, ?_⟩
  rw [hvalue]
  rfl

end

variable {σ : Type} [Dialect σ]

theorem recorded_coupled : Coupled (forgetting : Coupling (Recorded σ) σ) :=
  { Noted.coupled silent_forgets valued_forgets with
    stringLiteral := fun _ => recorded_forgets _ _ _ fun _ => rfl
    callFunction := fun h _ => Coupling.values_eq rfl h ▸ recorded_forgets _ _ _
      fun _ _ => List.forall₂_same.mpr fun _ _ => rfl
    runProcess := fun h _ => Coupling.stages_eq rfl h ▸
      recorded_forgets _ _ _ fun _ => List.forall₂_same.mpr fun _ _ => rfl }

/-- The operations of a program up to its end, whether one of them fails or
not. -/
def operations (σ : Type) [Dialect σ] (program : Program) : List (Note σ) :=
  (exec (writeStatements program) (Dialect.fresh : Recorded σ)).2.notes

theorem writeStatements_matches {τ : Type} [Dialect τ] {c : Coupling σ τ}
    (law : Coupled c) {program : Program} (hnested : program.isNested = true) :
    c.Matches .start .start (writeStatements program) (writeStatements program)
      fun _ _ => True := by
  have houter : ∀ s ∈ program.statements, s.isOuter = true :=
    List.all_eq_true.mp hnested
  unfold writeStatements
  refine .bind (law.programStart _) fun _ _ _ => ?_
  cases hbody : program.statements with
  | nil => exact law.noOp _
  | cons first rest =>
      rw [block_cons, block_cons, ← hbody]
      exact outer_statements_matches law houter

/-- A plain run that succeeds has a record that succeeds. -/
theorem exec_recorded_of_exec {program : Program}
    (hnested : program.isNested = true) {s : σ}
    (h : exec (writeStatements program) (Dialect.fresh : σ) = (.ok (), s)) :
    ∃ r : Recorded σ, exec (writeStatements program) Dialect.fresh =
      (.ok (), r) ∧ r.writer = s := by
  obtain ⟨_, r, hrun, _, hwriter⟩ := exec_of_forgetting
    (writeStatements_matches recorded_coupled hnested)
    (n := (Dialect.fresh : Recorded σ)) h
  exact ⟨r, hrun, hwriter⟩

/-- A plain run that succeeds leaves the state of the recorded one. -/
theorem writer_of_exec {program : Program}
    (hnested : program.isNested = true) {s : σ}
    (h : exec (writeStatements program) (Dialect.fresh : σ) = (.ok (), s)) :
    (exec (writeStatements program) (Dialect.fresh : Recorded σ)).2.writer =
      s := by
  obtain ⟨r, hrun, hwriter⟩ := exec_recorded_of_exec hnested h
  rw [hrun]
  exact hwriter

/-! The fragments of expressions are in the record. -/

/-- The fragment is among those the last operation has returned. -/
def Noted.Returned (r : Recorded σ) (text : String) (isList : Bool) : Prop :=
  ∃ earlier note, r.notes = earlier ++ [note] ∧ note.after = r.writer ∧
    (text, isList) ∈ note.fragments

omit [Dialect σ] in
theorem valued_returned {isList kind : Bool} {p : Write σ String}
    {r r' : Recorded σ} {text : String} (hkind : kind = isList)
    (h : exec (valued isList true p) r = (.ok text, r')) :
    r'.Returned text kind := by
  obtain ⟨note, hnotes, hafter, hfragments⟩ := recorded_last h
  exact ⟨_, note, hnotes, hafter, by simp [hfragments, hkind]⟩

/-- What an expression stands for is what the last operation of its evaluation
has returned, if pipelines return what is asked of them. -/
theorem evaluate_returned
    (hprocess : ∀ {stages results} {s s' : σ},
      exec (Dialect.runProcess stages 1) s = (.ok results, s') → results ≠ [])
    {tables : Tables} {e : Expr} (htyped : e.Typed tables) (hne : e.types ≠ [])
    {r r' : Recorded σ} {text : String}
    (h : exec (evaluate e true) r = (.ok text, r')) :
    r'.Returned text e.ty.isList := by
  cases htyped with
  | bool | int | var _ =>
      unfold evaluate at h
      exact valued_returned rfl h
  | string =>
      unfold evaluate at h
      obtain ⟨note, hnotes, hafter, hfragments⟩ := recorded_last h
      exact ⟨_, note, hnotes, hafter, hfragments ▸ List.mem_singleton_self _⟩
  | @unary op =>
      unfold evaluate at h
      obtain ⟨_, _, _, h⟩ := exec_bind_eq_ok h
      exact valued_returned op.operand_isList h
  | binary _ _ _ _ hop =>
      unfold evaluate at h
      obtain ⟨_, _, _, h⟩ := exec_bind_eq_ok h
      obtain ⟨_, _, _, h⟩ := exec_bind_eq_ok h
      exact valued_returned hop.isList h
  | compare | logical | listElement =>
      unfold evaluate at h
      obtain ⟨_, _, _, h⟩ := exec_bind_eq_ok h
      obtain ⟨_, _, _, h⟩ := exec_bind_eq_ok h
      exact valued_returned rfl h
  | listLiteral hlist | copy _ _ hlist =>
      unfold evaluate at h
      obtain ⟨_, _, _, h⟩ := exec_bind_eq_ok h
      exact valued_returned hlist h
  | listLength | stringLength | group | input | fileExists | fileContent
  | intToString | stringToInt =>
      unfold evaluate at h
      obtain ⟨_, _, _, h⟩ := exec_bind_eq_ok h
      exact valued_returned rfl h
  | substring =>
      unfold evaluate at h
      obtain ⟨_, _, _, h⟩ := exec_bind_eq_ok h
      obtain ⟨_, _, _, h⟩ := exec_bind_eq_ok h
      obtain ⟨_, _, _, h⟩ := exec_bind_eq_ok h
      exact valued_returned rfl h
  | @call name args signature =>
      unfold evaluate at h
      obtain ⟨_, _, _, h⟩ := exec_bind_eq_ok h
      obtain ⟨results, _, hcall, h⟩ := exec_bind_eq_ok h
      obtain ⟨note, hnotes, hafter, hfragments⟩ := recorded_last hcall
      cases results with
      | nil => cases h
      | cons result results =>
          cases h
          refine ⟨_, note, hnotes, hafter, ?_⟩
          cases hreturns : signature.returns with
          | nil => exact absurd hreturns hne
          | cons ty types =>
              rw [hfragments, hreturns]
              exact List.mem_cons_self
  | process =>
      unfold evaluate at h
      obtain ⟨_, mid, _, h⟩ := exec_bind_eq_ok h
      obtain ⟨results, _, hrun, h⟩ := exec_bind_eq_ok h
      obtain ⟨note, hnotes, hafter, hfragments⟩ := recorded_last hrun
      cases h
      refine ⟨_, note, hnotes, hafter, ?_⟩
      cases results with
      | nil =>
          rw [show Dialect.runProcess _ _ = recorded _ _ _ from rfl,
            exec_recorded] at hrun
          exact absurd rfl (hprocess (Prod.ext (Prod.mk.inj hrun).1 rfl))
      | cons result results =>
          rw [hfragments]
          exact List.mem_cons_self

end Script

end Shellwright
