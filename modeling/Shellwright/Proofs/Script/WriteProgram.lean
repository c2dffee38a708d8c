/-
A lawful dialect writes a well-typed program up to the first function that calls
itself, if the dialect is strict, and up to its end otherwise.
-/
import Shellwright.Proofs.Script.WriteStmt

namespace Shellwright

/-! Functions are defined at the top level only. -/

mutual

theorem Stmt.Checked.definitions_eq_nil {place : Place} {before after : Tables}
    {s : Stmt} (h : Stmt.Checked place before s after)
    (hinner : place.topLevel = false) : s.definitions = [] := by
  match h with
  | .function htop _ _ _ _ _ =>
      rw [hinner] at htop
      cases htop
  | .choose _ hchain =>
      obtain ⟨hbodies, hfallback⟩ := hchain.definitions_eq_nil rfl
      rw [Stmt.definitions, hbodies, hfallback, List.append_nil]
  | .loop hinit _ hpost hbody _ =>
      rw [Stmt.definitions, hinit.definitions_eq_nil rfl,
        hpost.definitions_eq_nil rfl, hbody.definitions_eq_nil rfl,
        List.append_nil, List.append_nil]
  | .defineEmpty .. | .define .. | .assign .. | .store .. | .giveBack ..
  | .leaveLoop .. | .nextRound .. | .print .. | .panic .. | .writeFile ..
  | .action .. | .noOp => rfl

theorem Block.Checked.definitions_eq_nil {place : Place} {before after : Tables}
    {body : List Stmt} (h : Block.Checked place before body after)
    (hinner : place.topLevel = false) : Stmt.definitionsOfBlock body = [] := by
  match h with
  | .nil => rfl
  | .cons hfirst hrest =>
      rw [Stmt.definitionsOfBlock, hfirst.definitions_eq_nil hinner,
        hrest.definitions_eq_nil hinner, List.append_nil]

theorem Part.Checked.definitions_eq_nil {place : Place} {before after : Tables}
    {part : Option Stmt} (h : Part.Checked place before part after)
    (hinner : place.topLevel = false) : Stmt.definitionsOfPart part = [] := by
  match h with
  | .none => rfl
  | .some hstatement =>
      rw [Stmt.definitionsOfPart, hstatement.definitions_eq_nil hinner]

theorem Chain.Checked.definitions_eq_nil {place : Place} {before after : Tables}
    {branches : List (Expr × List Stmt)} {otherwise : Option (List Stmt)}
    (h : Chain.Checked place before branches otherwise after)
    (hinner : place.topLevel = false) :
    Stmt.definitionsOfBodies branches = [] ∧
      Stmt.definitionsOfFallback otherwise = [] := by
  match h with
  | .nil => exact ⟨rfl, rfl⟩
  | .branch _ _ hbody hrest =>
      obtain ⟨hbodies, hfallback⟩ := hrest.definitions_eq_nil hinner
      refine ⟨?_, hfallback⟩
      rw [Stmt.definitionsOfBodies, hbody.definitions_eq_nil hinner, hbodies,
        List.append_nil]
  | .otherwise hbody hrest =>
      obtain ⟨hbodies, _⟩ := hrest.definitions_eq_nil hinner
      refine ⟨hbodies, ?_⟩
      rw [Stmt.definitionsOfFallback, hbody.definitions_eq_nil hinner]

end

namespace Script

variable {σ : Type} [Dialect σ] {c : Course σ} {s : σ} {body : List Stmt}
  {seen : List Event}

/-- The first of the functions that is refused. -/
def firstRefusal (strict : Bool) (definitions : List (String × List Stmt)) :
    Option String :=
  definitions.findSome? fun definition =>
    refusal strict (some definition.1) (Stmt.eventsOfBlock definition.2)

theorem firstRefusal_append (strict : Bool)
    (first second : List (String × List Stmt)) :
    firstRefusal strict (first ++ second) =
      (firstRefusal strict first).or (firstRefusal strict second) :=
  List.findSome?_append

theorem refusal_self (name : String) (events : List Event) :
    refusal true (some name) events = if Event.call name ∈ events then some name
      else none := by
  induction events with
  | nil => rfl
  | cons event events ih =>
      unfold refusal at ih ⊢
      rw [List.findSome?_cons, ih]
      cases event with
      | call other =>
          by_cases hname : name = other
          · subst hname
            simp
          · simp [hname]
      | literal value => simp
      | capture => simp
      | command => simp

/-- A strict dialect refuses the first function that calls itself. -/
theorem firstRefusal_strict (definitions : List (String × List Stmt)) :
    firstRefusal true definitions =
      (definitions.find? callsItself).map Prod.fst := by
  induction definitions with
  | nil => rfl
  | cons definition definitions ih =>
      unfold firstRefusal at ih ⊢
      rw [List.findSome?_cons, refusal_self, List.find?_cons, ih]
      by_cases hcalls :
          Event.call definition.1 ∈ Stmt.eventsOfBlock definition.2
      · simp [hcalls, callsItself]
      · simp [hcalls, callsItself]

theorem firstRefusal_lenient (definitions : List (String × List Stmt)) :
    firstRefusal false definitions = none := by
  unfold firstRefusal
  rw [List.findSome?_eq_none_iff]
  exact fun definition _ => refusal_lenient _ _

/-- Everything but the last step of writing a program. -/
def writeStatements {σ : Type} [Dialect σ] (program : Program) :
    Write σ Unit := do
  Dialect.programStart
  block program.statements

theorem generate_eq {σ : Type} [Dialect σ] (program : Program) :
    (generate program : Write σ String) =
      writeStatements program >>= fun _ => Dialect.programEnd := by
  unfold generate writeStatements
  rw [bind_assoc]

/-- How far a writer has come between two statements of the program. -/
def between (tables : Tables) (seen : List Event) : Progress :=
  ⟨none, [], tables.functions.map Prod.fst, seen⟩

variable (law : Lawful c)

include law

theorem function_meets {before inside bodyEnd : Tables} {name : String}
    {params : List Binding} {returns : List ValueType} {signature : Signature}
    (hword : isWord name.toList = true)
    (hwords : Words (Stmt.function name params returns body).mentions)
    (hnew : before.lookupFunction? name = none)
    (hinside : inside.functions = (name, signature) :: before.functions)
    (hbody : Block.Checked (.functionBody returns) inside body bodyEnd)
    (hinv : c.Inv (between before seen) s) :
    c.Meets (refusal c.strict (some name) (Stmt.eventsOfBlock body))
      (statement (.function name params returns body)) s (fun _ _ => True)
      (between (before.withFunction name signature)
        (seen ++ Stmt.eventsOfBlock body)) := by
  obtain ⟨hparams, hbodyWords⟩ := words_append.mp hwords
  have hknows : Knows (between before seen) before := rfl
  unfold statement
  refine (law.functionStart hword ((words_map fun _ => .rfl).mp hparams)
    (hknows.not_mem hnew) hinv).first fun _ s' _ _ hinv' => ?_
  have hinner : Knows ⟨some name, [], name :: before.functions.map Prod.fst,
      seen⟩ inside := by
    unfold Knows
    rw [hinside, List.map_cons]
  have hwritten := block_meets law
    (statements_meets law hbody rfl hbodyWords hinv' hinner
      fun h => by cases h) hinv'
  exact hwritten.andThen fun _ _ _ _ => law.functionEnd

/-- One statement of the program. -/
theorem program_statement_meets {before after : Tables} {first : Stmt}
    (h : first.Checked .program before after)
    (hfunctions : ∀ entry ∈ after.functions, isWord entry.1.toList = true)
    (hwords : Words first.mentions) (hinv : c.Inv (between before seen) s) :
    c.Meets (firstRefusal c.strict first.definitions) (statement first) s
      (fun _ _ => True) (between after (seen ++ first.events)) := by
  by_cases hfunction : ∃ name params returns body, first =
    .function name params returns body
  · obtain ⟨name, params, returns, body, rfl⟩ := hfunction
    cases h with
    | function _ hnew _ hparams hbody _ =>
        rw [Stmt.definitions, hbody.definitions_eq_nil rfl]
        unfold firstRefusal Stmt.events
        rw [List.findSome?_singleton]
        exact function_meets law (hfunctions _ List.mem_cons_self) hwords hnew
          hparams.functions hbody hinv
  · have hinner : first.Checked Place.program.inner before after :=
      h.at_place rfl fun name params returns body hname =>
        absurd ⟨name, params, returns, body, hname⟩ hfunction
    have hwritten := statement_meets law hinner rfl hwords hinv rfl
      fun h => by cases h
    rw [hinner.definitions_eq_nil rfl]
    unfold between
    rw [hinner.leaves.functions rfl]
    simpa [firstRefusal, between, Progress.noted] using hwritten

/-- The statements of the program, from left to right. -/
theorem program_statements_meets {before after : Tables}
    (h : Block.Checked .program before body after)
    (hfunctions : ∀ entry ∈ after.functions, isWord entry.1.toList = true)
    (hwords : Words (Stmt.mentionsOfBlock body))
    (hinv : c.Inv (between before seen) s) :
    c.Meets (firstRefusal c.strict (Stmt.definitionsOfBlock body))
      (statements body) s
      (fun _ _ => True) (between after (seen ++ Stmt.eventsOfBlock body)) := by
  induction body generalizing before s seen with
  | nil =>
      cases h
      unfold statements
      exact .pure trivial (by simpa [Stmt.eventsOfBlock] using hinv)
  | cons first rest ih =>
      obtain ⟨hfirstWords, hrestWords⟩ := words_append.mp hwords
      cases h with
      | cons hfirst hrest =>
          unfold Stmt.definitionsOfBlock Stmt.eventsOfBlock statements
          rw [firstRefusal_append, ← List.append_assoc]
          have hknown :=
            fun entry hentry => hfunctions entry
              (hrest.leaves.older.subset hentry)
          exact (program_statement_meets law hfirst hknown hfirstWords
            hinv).bind fun _ s' _ _ hinv' => ih hrest hrestWords hinv'

theorem program_meets {program : Program} {tables : Tables}
    (h : Block.Checked .program .empty program.statements tables)
    (hfunctions : ∀ entry ∈ tables.functions, isWord entry.1.toList = true)
    (hwords : Words (Stmt.mentionsOfBlock program.statements)) :
    c.Meets (firstRefusal c.strict program.definitions)
      (writeStatements program) Dialect.fresh
      (fun _ _ => True) (between tables program.events) := by
  refine (law.programStart law.fresh).first fun _ s _ _ hinv => ?_
  have hwritten := program_statements_meets law h hfunctions hwords
    (hinv : c.Inv (between .empty []) s)
  unfold Program.definitions Program.events
  cases hbody : program.statements with
  | nil =>
      rw [hbody] at h
      cases h
      exact law.noOp hinv
  | cons first rest =>
      rw [block_cons, ← hbody]
      exact hwritten

end Script

end Shellwright
