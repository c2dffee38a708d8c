/-
The programs a tree runs.  A successful writer notes the pipelines of its tree
one by one: read off the record, the programs are those of the tree, in the same
order, and each pipeline has been written to its end.
-/
import Shellwright.Proofs.Fragment.Recorded
import Shellwright.Proofs.Script.Journal

namespace Shellwright

/-- The programs of all pipelines in a program.  The arguments of a pipeline
come before its own programs. -/
def Program.programs (program : Program) : List String :=
  program.mentions.flatMap Mention.programs

namespace Script

variable {σ α : Type}

def Operation.programs : Operation → List String
  | .pipeline programs => programs
  | .literal _ | .plain => []

/-- A pipeline that has been noted has been written to its end. -/
def Note.Completed [Dialect σ] (note : Note σ) : Prop :=
  ∀ programs, note.operation = .pipeline programs → ∃ stages count results,
    exec (Dialect.runProcess stages count) note.before =
      (.ok results, note.after)

/-- The pipelines noted so far run the programs of the mentions. -/
def programsNoted [Dialect σ] : Journal (Recorded σ) where
  step mentions r r' := ∃ more, r'.notes = r.notes ++ more ∧
    (∀ note ∈ more, note.Completed) ∧
    more.flatMap (·.operation.programs) = mentions.flatMap Mention.programs
  fragment _ := True
  refl r := ⟨[], by simp⟩
  trans := by
    rintro first second r mid r' ⟨notes, hnotes, hcompleted, hprograms⟩
      ⟨more, hmore, hcompleted', hprograms'⟩
    refine ⟨notes ++ more, ?_, List.forall_mem_append.mpr
      ⟨hcompleted, hcompleted'⟩, ?_⟩
    · rw [hmore, hnotes, List.append_assoc]
    · rw [List.flatMap_append, List.flatMap_append, hprograms, hprograms']

section Noted

variable [Dialect σ] {fragments : α → List (String × Bool)} {q : Write σ α}
  {Q : α → Prop} {operation : Operation} {mentions : List Mention}

/-- An operation that gets no programs. -/
theorem recorded_noted (hoperation : ∀ programs, operation ≠ .pipeline programs)
    (hmentions : mentions.flatMap Mention.programs = []) (hQ : ∀ a, Q a) :
    programsNoted.Enters mentions (recorded operation fragments q) Q := by
  intro r a r' h
  rw [exec_recorded] at h
  obtain ⟨_, rfl⟩ := Prod.mk.inj h
  refine ⟨⟨_, rfl, ?_, ?_⟩, hQ a⟩
  · intro note hnote programs hpipeline
    obtain rfl := List.mem_singleton.mp hnote
    exact absurd hpipeline (hoperation programs)
  · rw [hmentions]
    cases operation with
    | pipeline programs => exact absurd rfl (hoperation programs)
    | literal _ => rfl
    | plain => rfl

theorem plain_noted (hmentions : mentions.flatMap Mention.programs = [])
    (hQ : ∀ a, Q a) :
    programsNoted.Enters mentions (recorded .plain fragments q) Q :=
  recorded_noted (by simp) hmentions hQ

/-- A pipeline runs its own programs. -/
theorem runProcess_noted {stages : List Invocation} {count : Nat} :
    programsNoted.Enters [.pipeline (stages.map Invocation.program)]
      (Dialect.runProcess stages count : Write (Recorded σ) (List String))
        fun results => ∀ part ∈ results, True := by
  intro r results r' h
  rw [show Dialect.runProcess stages count = recorded _ _ _ from rfl,
    exec_recorded] at h
  obtain ⟨hresults, rfl⟩ := Prod.mk.inj h
  refine ⟨⟨_, rfl, ?_, ?_⟩, fun _ _ => trivial⟩
  · intro note hnote programs _
    obtain rfl := List.mem_singleton.mp hnote
    exact ⟨stages, count, results, Prod.ext hresults rfl⟩
  · simp [Operation.programs, Mention.programs]

theorem programsNoted_programs :
    (programsNoted : Journal (Recorded σ)).Programs where
  boolLiteral := plain_noted rfl fun _ => trivial
  intLiteral := plain_noted rfl fun _ => trivial
  stringLiteral := recorded_noted (by simp) rfl fun _ => trivial
  readVariable := plain_noted rfl fun _ => trivial
  readElement := plain_noted rfl fun _ => trivial
  unary := plain_noted rfl fun _ => trivial
  binary _ _ := plain_noted rfl fun _ => trivial
  compare := plain_noted rfl fun _ => trivial
  logical := plain_noted rfl fun _ => trivial
  listLiteral := plain_noted rfl fun _ => trivial
  listLength := plain_noted rfl fun _ => trivial
  substring := plain_noted rfl fun _ => trivial
  stringLength := plain_noted rfl fun _ => trivial
  group _ := plain_noted rfl fun _ => trivial
  callFunction := plain_noted rfl fun _ _ _ => trivial
  runProcess := runProcess_noted
  inputLine := plain_noted rfl fun _ => trivial
  copyList := plain_noted rfl fun _ => trivial
  fileExists := plain_noted rfl fun _ => trivial
  fileContent := plain_noted rfl fun _ => trivial
  intToString _ := plain_noted rfl fun _ => trivial
  stringToInt := plain_noted rfl fun _ => trivial
  nothing := trivial
  defineVariable := plain_noted rfl fun _ => trivial
  assignVariable := plain_noted rfl fun _ => trivial
  storeElement := plain_noted rfl fun _ => trivial
  print := plain_noted rfl fun _ => trivial
  writeFile := plain_noted rfl fun _ => trivial
  noOp := plain_noted rfl fun _ => trivial
  panic := plain_noted rfl fun _ => trivial
  giveBack := plain_noted rfl fun _ => trivial
  ifStart := plain_noted rfl fun _ => trivial
  elseIfStart := plain_noted rfl fun _ => trivial
  elseStart := plain_noted rfl fun _ => trivial
  ifEnd := plain_noted rfl fun _ => trivial
  loopStart := plain_noted rfl fun _ => trivial
  postStart := plain_noted rfl fun _ => trivial
  postEnd := plain_noted rfl fun _ => trivial
  loopCondition := plain_noted rfl fun _ => trivial
  loopEnd := plain_noted rfl fun _ => trivial
  leaveLoop := plain_noted rfl fun _ => trivial
  nextRound := plain_noted rfl fun _ => trivial
  functionStart := plain_noted (by simp [Mention.programs]) fun _ => trivial
  functionEnd := plain_noted rfl fun _ => trivial
  programStart := plain_noted rfl fun _ => trivial

end Noted

variable [Dialect σ]

/-- The operations of a program that is written to its end run the programs of
its tree, in the same order. -/
theorem operations_programs {program : Program}
    (hnested : program.isNested = true) {s : σ}
    (h : exec (writeStatements program) (Dialect.fresh : σ) = (.ok (), s)) :
    (∀ note ∈ operations σ program, note.Completed) ∧
      (operations σ program).flatMap (·.operation.programs) =
        program.programs := by
  obtain ⟨r, hrun, _⟩ := exec_recorded_of_exec hnested h
  obtain ⟨⟨notes, hnotes, hcompleted, hprograms⟩, _⟩ :=
    programsNoted_programs.writeStatements hnested _ _ _ hrun
  have hall : operations σ program = notes := by
    unfold operations
    rw [hrun]
    exact hnotes
  rw [hall]
  exact ⟨hcompleted, hprograms⟩

end Script

end Shellwright
