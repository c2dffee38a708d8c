/-
Every program that is accepted can be written.  Only the batch dialect refuses
some: those in which a function calls itself.
-/
import Shellwright.Proofs.Bash.Lawful
import Shellwright.Proofs.Batch.Lawful
import Shellwright.Proofs.Hidden.Words
import Shellwright.Proofs.Script.WriteProgram
import Shellwright.Compile

namespace Shellwright

open Script

/-- What a lawful dialect makes of a program that has been read. -/
theorem writtenIn_of_lawful {σ : Type} [Dialect σ] {strict : Bool}
    {Inv : Progress → σ → Prop} (law : Lawful (Course.sure strict Inv))
    (hend : ∀ {known seen s}, Inv ⟨none, [], known, seen⟩ s →
      ∃ script s', exec (Dialect.programEnd : Write σ String) s =
        (.ok script, s'))
    {source : String} {program : Program}
    (h : parseSource source = .ok program) :
    match firstRefusal strict program.definitions with
    | none => ∃ script, program.writtenIn σ = .ok script
    | some name => program.writtenIn σ = .error (.recursion name .batch) := by
  obtain ⟨tables, hchecked, hfunctions⟩ := parseSource_checked h
  have hmeets := program_meets law hchecked hfunctions (parseSource_words h)
  have hends : Ends (firstRefusal strict program.definitions) _ :=
    hmeets.ends trivial
  have hwritten : program.writtenIn σ =
    (exec (generate program) Dialect.fresh).1 := rfl
  rw [generate_eq] at hwritten
  cases hrefusal : firstRefusal strict program.definitions with
  | none =>
      rw [hrefusal] at hends
      obtain ⟨_, hrun⟩ := hends
      obtain ⟨script, s', hscript⟩ := hend (hmeets.ensures.yields _ hrun).2
      exact ⟨script, by rw [hwritten, exec_bind_ok (Prod.ext hrun rfl),
        hscript]⟩
  | some name =>
      rw [hrefusal] at hends
      show program.writtenIn σ = _
      rw [hwritten, exec_bind_error (Prod.ext hends rfl)]

/-- The script of a program that has been read, for each shell: there is always
one for bash, and for batch the first function that calls itself is refused. -/
theorem script_of_accepted {source : String} {program : Program}
    (h : parseSource source = .ok program) :
    (∃ script, program.script .bash = .ok script) ∧
      match program.definitions.find? callsItself with
      | none => ∃ script, program.script .batch = .ok script
      | some definition =>
          program.script .batch = .error (.recursion definition.1 .batch) := by
  constructor
  · have hbash := writtenIn_of_lawful Bash.lawful
      (fun hinv => (Bash.programEnd_ok hinv).imp fun _ hrun => ⟨_, hrun⟩) h
    rw [firstRefusal_lenient] at hbash
    exact hbash
  · have hbatch := writtenIn_of_lawful Batch.lawful
      (fun hinv => ⟨_, _, Batch.exec_programEnd hinv⟩) h
    rw [firstRefusal_strict] at hbatch
    cases hfind : program.definitions.find? callsItself with
    | none =>
        rw [hfind] at hbatch
        exact hbatch
    | some definition =>
        rw [hfind] at hbatch
        exact hbatch

/-- An accepted program has a bash script, and a batch script unless a function
calls itself.  The first such function is the only error there is. -/
theorem accepted_script_fails_only_on_recursion {source : String}
    {program : Program} (h : parseSource source = .ok program) :
    (∃ script, program.script .bash = .ok script) ∧
      ((∃ script, program.script .batch = .ok script) ↔
        ∀ definition ∈ program.definitions, callsItself definition = false) ∧
      (∀ definition, program.definitions.find? callsItself = some definition →
        program.script .batch = .error (.recursion definition.1 .batch)) ∧
      ∀ shell error, program.script shell = .error error →
        ∃ definition, program.definitions.find? callsItself = some definition ∧
          shell = .batch ∧ error = .recursion definition.1 .batch := by
  obtain ⟨⟨bash, hbash⟩, hbatch⟩ := script_of_accepted h
  refine ⟨⟨bash, hbash⟩, ?_⟩
  cases hfind : program.definitions.find? callsItself with
  | none =>
      rw [hfind] at hbatch
      obtain ⟨script, hscript⟩ := hbatch
      have hnone : ∀ definition ∈ program.definitions, callsItself definition =
          false := by
        simpa using List.find?_eq_none.mp hfind
      refine ⟨iff_of_true ⟨script, hscript⟩ hnone,
        fun _ hsome => (nomatch hsome), ?_⟩
      intro shell error herror
      cases shell with
      | bash =>
          rw [hbash] at herror
          cases herror
      | batch =>
          rw [hscript] at herror
          cases herror
  | some definition =>
      rw [hfind] at hbatch
      have hbatch : program.script .batch =
        .error (.recursion definition.1 .batch) := hbatch
      have hcalls := List.find?_some hfind
      have hmem := List.mem_of_find?_eq_some hfind
      refine ⟨iff_of_false ?_ ?_, ?_, ?_⟩
      · rintro ⟨script, hscript⟩
        rw [hscript] at hbatch
        cases hbatch
      · intro hnone
        rw [hnone definition hmem] at hcalls
        cases hcalls
      · rintro other ⟨⟩
        exact hbatch
      · intro shell error herror
        cases shell with
        | bash =>
            rw [hbash] at herror
            cases herror
        | batch =>
            rw [hbatch] at herror
            cases herror
            exact ⟨definition, rfl, rfl, rfl⟩

/-- A program with two functions, the second of which calls itself. -/
theorem accepted_script_fails_only_on_recursion_again :
    ∃ program again,
      parseSource
        "func f() \x7b\nprint(1)\n\x7d\nfunc g() \x7b\nf()\ng()\n\x7d\n" =
          .ok program ∧
        program.definitions.map Prod.fst = ["f", "g"] ∧
        program.definitions.find? callsItself = some ("g", again) ∧
        (∃ script, program.script .bash = .ok script) ∧
        program.script .batch = .error (.recursion "g" .batch) := by
  have h : parseSource
    "func f() \x7b\nprint(1)\n\x7d\nfunc g() \x7b\nf()\ng()\n\x7d\n" =
      .ok ⟨[.function "f" [] [] [.print (.int 1 [.int])],
        .function "g" [] [] [.action (.call "f" [] []),
          .action (.call "g" [] [])]]⟩ := by
    cbv
  obtain ⟨hbash, _, hrecursion, _⟩ := accepted_script_fails_only_on_recursion h
  exact ⟨_, _, h, rfl, rfl, hbash, hrecursion _ rfl⟩

end Shellwright
