/-
Whose variable a name is in a batch script.  At the top level all variables are
numbered 0.  In a function the names it declares have its own number and all
other names have the number 0; only a name that an if chain uses ahead of its
definition has both.
-/
import Shellwright.Proofs.Accepted
import Shellwright.Proofs.Batch.Resolution
import Shellwright.Proofs.Precedence

namespace Shellwright

/-- A function of a program, with all that names variables in it. -/
structure FunctionDefinition where
  name : String
  params : List Binding
  body : List Stmt

def Stmt.function? : Stmt → Option FunctionDefinition
  | .function name params _ body => some ⟨name, params, body⟩
  | _ => none

/-- The functions of a program in order. -/
def Program.functions (program : Program) : List FunctionDefinition :=
  program.statements.filterMap Stmt.function?

/-- The variables of the statements in the order they are written, each with the
function it occurs in.  The functions are numbered on from those before. -/
def occurrencesFrom (functions : Nat) : List Stmt →
    List (Option (Nat × String) × String)
  | [] => []
  | .function name params _ body :: rest =>
      (params.map Binding.name ++ (Stmt.mentionsOfBlock body).filterMap
        Mention.var?).map
        (some (functions + 1, name), ·) ++ occurrencesFrom (functions + 1) rest
  | s :: rest =>
      (s.mentions.filterMap Mention.var?).map (none, ·) ++
        occurrencesFrom functions rest

theorem occurrencesFrom_inner {s : Stmt} (hinner : s.isInner = true)
    (functions : Nat) (rest : List Stmt) :
    occurrencesFrom functions (s :: rest) =
      (s.mentions.filterMap Mention.var?).map (none, ·) ++
        occurrencesFrom functions rest := by
  cases s with
  | function name params returns body => cases hinner
  | _ => rfl

theorem Stmt.function?_of_isInner {s : Stmt} (hinner : s.isInner = true) :
    s.function? = none := by
  cases s with
  | function name params returns body => cases hinner
  | _ => rfl

namespace Batch

open Script

/-! Names that are resolved one after the other. -/

/-- The occurrence is written as a variable with this number. -/
def Access.IsOf (number : Nat) (access : Access) : Prop :=
  access.storage = storageName number access.name access.isList

section Access

variable {frame : FunctionFrame} {name : String} {isList : Bool}

theorem accessIn_own (h : name ∈ frame.locals) :
    (accessIn (some frame) name isList).IsOf frame.number := by
  simp [Access.IsOf, accessIn, ownerIn, h]

theorem accessIn_free (h : name ∉ frame.locals) :
    (accessIn (some frame) name isList).IsOf 0 := by
  simp [Access.IsOf, accessIn, ownerIn, h]

end Access

namespace Resolves

variable {current after : Option FunctionFrame} {frame : FunctionFrame}
  {name : String} {mentions : List Mention} {accesses : List Access}

theorem key_declaring (current : Option FunctionFrame) (name : String) :
    (declaring current name).map FunctionFrame.key =
      current.map FunctionFrame.key := by
  rw [declaring, Option.map_map]
  rfl

theorem key (h : Resolves current mentions accesses after) :
    after.map FunctionFrame.key = current.map FunctionFrame.key := by
  induction h with
  | nil => rfl
  | use _ _ ih | skip _ _ ih => exact ih
  | define _ ih => rw [ih, key_declaring]

/-- Every variable that is mentioned is noted, and nothing else. -/
theorem occurrences (h : Resolves current mentions accesses after) :
    accesses.map (fun access => (access.function, access.name)) =
      (mentions.filterMap Mention.var?).map
        (current.map FunctionFrame.key, ·) := by
  induction h with
  | nil => rfl
  | skip hmention _ ih => rw [ih, List.filterMap_cons_none hmention]
  | use hmention _ ih =>
      rw [List.map_cons, ih, List.filterMap_cons_some
        (Mention.var?_of_used? hmention)]
      rfl
  | define _ ih =>
      rw [List.map_cons, ih, accessIn, key_declaring]
      rfl

theorem function (h : Resolves current mentions accesses after) :
    ∀ access ∈ accesses, access.function = current.map FunctionFrame.key := by
  intro access haccess
  have hmem : (access.function, access.name) ∈
      accesses.map fun access => (access.function, access.name) :=
    List.mem_map_of_mem haccess
  rw [h.occurrences] at hmem
  obtain ⟨_, _, heq⟩ := List.mem_map.mp hmem
  exact (Prod.mk.inj heq).1.symm

theorem isOf_top (h : Resolves none mentions accesses after) :
    ∀ access ∈ accesses, access.IsOf 0 := by
  generalize hcurrent : none = current at h
  induction h with
  | nil => simp
  | skip _ _ ih => exact ih hcurrent
  | use _ _ ih =>
      subst hcurrent
      exact List.forall_mem_cons.mpr ⟨rfl, ih rfl⟩
  | define _ ih =>
      subst hcurrent
      exact List.forall_mem_cons.mpr ⟨rfl, ih rfl⟩

theorem isOf_either (h : Resolves (some frame) mentions accesses after) :
    ∀ access ∈ accesses, access.IsOf frame.number ∨ access.IsOf 0 := by
  generalize hcurrent : some frame = current at h
  induction h generalizing frame with
  | nil => simp
  | skip _ _ ih => exact ih hcurrent
  | @use _ _ _ other _ _ _ _ _ ih =>
      subst hcurrent
      refine List.forall_mem_cons.mpr ⟨?_, ih rfl⟩
      by_cases hlocal : other ∈ frame.locals
      · exact .inl (accessIn_own hlocal)
      · exact .inr (accessIn_free hlocal)
  | @define _ _ other _ _ _ _ ih =>
      subst hcurrent
      refine List.forall_mem_cons.mpr
        ⟨.inl (accessIn_own List.mem_cons_self), ?_⟩
      exact @ih { frame with locals := other :: frame.locals } rfl

/-- A name that is the function's own at first, or is defined before it is
used. -/
theorem isOf_own (h : Resolves (some frame) mentions accesses after)
    (hname : name ∈ frame.locals ∨ DefinedFirst .any name mentions) :
    ∀ access ∈ accesses, access.name = name → access.IsOf frame.number := by
  generalize hcurrent : some frame = current at h
  induction h generalizing frame with
  | nil => simp
  | skip hmention _ ih =>
      refine ih (hname.imp_right fun hfirst => hfirst.tail ?_) hcurrent
      rintro rfl
      cases hmention
  | @use _ _ _ other _ _ _ hmention _ ih =>
      subst hcurrent
      refine List.forall_mem_cons.mpr ⟨fun (hother : other = name) => ?_,
        ih (hname.imp_right fun hfirst => (hfirst.of_used hmention).2) rfl⟩
      rcases hname with hlocal | hfirst
      · exact accessIn_own (hother ▸ hlocal)
      · exact absurd hother (hfirst.of_used hmention).1
  | @define _ _ other _ mentions _ _ ih =>
      subst hcurrent
      refine List.forall_mem_cons.mpr
        ⟨fun _ => accessIn_own List.mem_cons_self, ?_⟩
      have hlater : name ∈ other :: frame.locals ∨
          DefinedFirst .any name mentions := by
        rcases hname with hlocal | hother | hfirst
        · exact .inl (List.mem_cons_of_mem other hlocal)
        · exact .inl (Mention.define.inj hother ▸ List.mem_cons_self)
        · exact .inr hfirst.2
      exact @ih { frame with locals := other :: frame.locals } hlater rfl

/-- A name that is never defined. -/
theorem isOf_free (h : Resolves (some frame) mentions accesses after)
    (hlocals : name ∉ frame.locals) (hundefined : .define name ∉ mentions) :
    ∀ access ∈ accesses, access.name = name → access.IsOf 0 := by
  generalize hcurrent : some frame = current at h
  induction h generalizing frame with
  | nil => simp
  | skip _ _ ih =>
      exact ih hlocals
        (fun hmem => hundefined (List.mem_cons_of_mem _ hmem)) hcurrent
  | @use _ _ _ other _ _ _ _ _ ih =>
      subst hcurrent
      have hrest := ih hlocals
        (fun hmem => hundefined (List.mem_cons_of_mem _ hmem)) rfl
      exact List.forall_mem_cons.mpr
        ⟨fun (hother : other = name) => accessIn_free (hother ▸ hlocals), hrest⟩
  | @define _ _ other _ _ _ _ ih =>
      subst hcurrent
      have hother : other ≠ name := by
        rintro rfl
        exact hundefined List.mem_cons_self
      have hlater : name ∉ other :: frame.locals :=
        List.not_mem_cons_of_ne_of_not_mem hother.symm hlocals
      refine List.forall_mem_cons.mpr ⟨fun hname => absurd hname hother, ?_⟩
      exact ih hlater (fun hmem => hundefined (List.mem_cons_of_mem _ hmem)) rfl

end Resolves

/-! Functions. -/

section Function

variable {name : String} {params : List Binding} {s s' : State}

theorem enterFunction_ok
    (h : exec (enterFunction name params) s = (.ok (), s')) :
    s'.functions = s.functions + 1 ∧
      s'.current = some ⟨s.functions + 1, name, params.map Binding.name⟩ := by
  unfold enterFunction at h
  rw [exec_get_bind] at h
  split at h
  · cases h
  · cases h
    exact ⟨rfl, rfl⟩

/-- The names of a function are resolved from its parameters on. -/
theorem function_resolves {returns : List ValueType} {body : List Stmt}
    {t t' : Traced} (hinner : Stmt.isInnerBlock body = true)
    (h : exec (statement (.function name params returns body)) t =
      (.ok (), t')) :
    ∃ accesses after, t'.notes = t.notes ++ accesses ∧
      Resolves (some ⟨t.writer.functions + 1, name, params.map Binding.name⟩)
        ((params.map fun param => .use param.name) ++
          Stmt.mentionsOfBlock body) accesses after ∧
      t'.writer.functions = t.writer.functions + 1 ∧
        t'.writer.current = none := by
  obtain ⟨_, started, hstart, h⟩ := exec_bind_eq_ok h
  obtain ⟨_, entered, henter, hparams⟩ := exec_bind_eq_ok hstart
  obtain ⟨_, finished, hbody, hend⟩ := exec_bind_eq_ok h
  obtain ⟨henter, hentered⟩ := exec_quiet_ok henter
  obtain ⟨hfunctions, hcurrent⟩ := enterFunction_ok henter
  obtain ⟨hend, hended⟩ := exec_quiet_ok hend
  obtain ⟨_, hleft⟩ := functionEnd_ok hend
  obtain ⟨hsame, accesses, haccesses, hresolves⟩ :=
    (accessParameters_notes hparams).trans (block_notes hinner hbody)
  refine ⟨accesses, _, ?_, hcurrent ▸ hresolves, ?_,
    congrArg State.current hleft⟩
  · rw [hended, haccesses, hentered]
  · exact (congrArg State.functions hleft).trans (hsame.trans hfunctions)

end Function

/-! Programs. -/

/-- The names of the statements of a program, behind so many functions. -/
inductive ResolvesAll : Nat → List Stmt → List Access → Prop where
  | nil {functions} : ResolvesAll functions [] []
  | function {functions name params returns body rest accesses
      accesses' after} :
      Resolves (some ⟨functions + 1, name, params.map Binding.name⟩)
        ((params.map fun param => .use param.name) ++
          Stmt.mentionsOfBlock body) accesses after →
      ResolvesAll (functions + 1) rest accesses' →
      ResolvesAll functions (.function name params returns body :: rest)
        (accesses ++ accesses')
  | inner {functions s rest accesses accesses'} :
      s.isInner = true → Resolves none s.mentions accesses none →
      ResolvesAll functions rest accesses' →
      ResolvesAll functions (s :: rest) (accesses ++ accesses')

/-- One statement of a program. -/
theorem statement_resolves {s : Stmt} {t t' : Traced}
    (houter : s.isOuter = true) (hcurrent : t.writer.current = none)
    (h : exec (statement s) t = (.ok (), t')) :
    ∃ accesses, t'.notes = t.notes ++ accesses ∧ t'.writer.current = none ∧
      ∀ {rest accesses'}, ResolvesAll t'.writer.functions rest accesses' →
        ResolvesAll t.writer.functions (s :: rest) (accesses ++ accesses') := by
  rcases Stmt.isInner_or_function houter with hinner
    | ⟨name, params, returns, body, rfl⟩
  · obtain ⟨hfunctions, accesses, haccesses, hresolves⟩ :=
      statement_notes hinner h
    have hleft : t'.writer.current = none := by
      simpa [hcurrent] using hresolves.key
    rw [hcurrent, hleft] at hresolves
    refine ⟨accesses, haccesses, hleft, fun hrest => .inner hinner hresolves ?_⟩
    rwa [hfunctions] at hrest
  · obtain ⟨accesses, after, haccesses, hresolves, hfunctions, hleft⟩ :=
      function_resolves houter h
    refine ⟨accesses, haccesses, hleft, fun hrest => .function hresolves ?_⟩
    rwa [hfunctions] at hrest

theorem statements_resolve {body : List Stmt} {t t' : Traced}
    (houter : body.all Stmt.isOuter = true) (hcurrent : t.writer.current = none)
    (h : exec (statements body) t = (.ok (), t')) :
    ∃ accesses, t'.notes = t.notes ++ accesses ∧
      ResolvesAll t.writer.functions body accesses := by
  induction body generalizing t with
  | nil =>
      cases h
      exact ⟨[], (List.append_nil _).symm, .nil⟩
  | cons s rest ih =>
      obtain ⟨hfirst, hrest⟩ := Bool.and_eq_true_iff.mp houter
      obtain ⟨_, middle, hrun, h⟩ := exec_bind_eq_ok h
      obtain ⟨accesses, haccesses, hleft, hresolves⟩ :=
        statement_resolves hfirst hcurrent hrun
      obtain ⟨accesses', haccesses', hresolves'⟩ := ih hrest hleft h
      refine ⟨accesses ++ accesses', ?_, hresolves hresolves'⟩
      rw [haccesses', haccesses, List.append_assoc]

/-- The occurrences in a script are those of the tree, in order. -/
theorem generate_resolves {program : Program} {script : String} {t : Traced}
    (hnested : program.isNested = true)
    (h : exec (generate program) Dialect.fresh = (.ok script, t)) :
    ResolvesAll 0 program.statements t.notes := by
  obtain ⟨_, started, hstart, h⟩ := exec_bind_eq_ok h
  obtain ⟨_, written, hwritten, hend⟩ := exec_bind_eq_ok h
  cases hstart
  obtain ⟨_, hsame⟩ := exec_quiet_ok hend
  rw [hsame]
  cases hstatements : program.statements with
  | nil =>
      rw [hstatements] at hwritten
      cases hwritten
      exact .nil
  | cons s rest =>
      rw [hstatements, block_cons] at hwritten
      rw [Program.isNested, hstatements] at hnested
      obtain ⟨accesses, haccesses, hresolves⟩ :=
        statements_resolve hnested rfl hwritten
      rw [haccesses]
      exact hresolves

theorem ResolvesAll.occurrences {functions : Nat} {body : List Stmt}
    {accesses : List Access} (h : ResolvesAll functions body accesses) :
    accesses.map (fun access => (access.function, access.name)) =
      occurrencesFrom functions body := by
  induction h with
  | nil => rfl
  | function hresolves _ ih =>
      rw [List.map_append, hresolves.occurrences, ih, occurrencesFrom]
      simp [FunctionFrame.key, Mention.var?, Function.comp_def]
  | inner hinner hresolves _ ih =>
      rw [List.map_append, hresolves.occurrences, ih,
        occurrencesFrom_inner hinner]
      rfl

/-- An occurrence in the function with this number.  The names the function
declares are its own and all others are not. -/
structure Access.OwnedIn (access : Access) (number : Nat)
    (function : FunctionDefinition) : Prop where
  inside : access.function = some (number, function.name)
  own : access.name ∈ declaredNames function.params function.body →
    Stmt.blockUsesAhead .any access.name function.body = false →
      access.IsOf number
  free : access.name ∉ declaredNames function.params function.body →
    access.IsOf 0
  either : access.IsOf number ∨ access.IsOf 0

theorem function_owned {place : Place} {before after : Tables} {name : String}
    {params : List Binding} {returns : List ValueType} {body : List Stmt}
    {number : Nat}
    {accesses : List Access} {last : Option FunctionFrame}
    (hchecked : (Stmt.function name params returns body).Checked place
      before after)
    (h : Resolves (some ⟨number, name, params.map Binding.name⟩)
      ((params.map fun param => .use param.name) ++ Stmt.mentionsOfBlock body)
        accesses last) :
    ∀ access ∈ accesses, access.OwnedIn number ⟨name, params, body⟩ := by
  intro access haccess
  refine ⟨h.function access haccess, fun hdeclared hahead => ?_,
    fun hfree => ?_, h.isOf_either access haccess⟩
  · by_cases hparam : access.name ∈ params.map Binding.name
    · exact h.isOf_own (.inl hparam) access haccess rfl
    · have hunused : ∀ mention ∈ params.map fun param => Mention.use param.name,
          mention.isUse .any access.name = false := by
        simpa [Mention.isUse] using hparam
      have hfirst := definedFirst_of_declared hchecked hdeclared hparam hahead
      exact h.isOf_own (.inr (definedFirst_append.mpr
        ⟨definedFirst_of_unused hunused, .inr hfirst⟩)) access haccess rfl
  · have hfree' : access.name ∉ params.map Binding.name ∧
        .define access.name ∉ Stmt.mentionsOfBlock body := by
      rw [declaredNames, List.mem_append, Mention.mem_filterMap_defined?]
        at hfree
      exact not_or.mp hfree
    refine h.isOf_free hfree'.1 ?_ access haccess rfl
    simpa using hfree'.2

theorem ResolvesAll.owned {functions : Nat} {body : List Stmt}
    {accesses : List Access} {before after : Tables}
    (h : ResolvesAll functions body accesses)
    (hchecked : Block.Checked .program before body after) :
    ∀ access ∈ accesses, (access.function = none ∧ access.IsOf 0) ∨
      ∃ index function, (body.filterMap Stmt.function?)[index]? =
        some function ∧ access.OwnedIn (functions + index + 1) function := by
  induction h generalizing before with
  | nil => simp
  | function hresolves _ ih =>
      cases hchecked with
      | cons hfirst hrest =>
          refine List.forall_mem_append.mpr
            ⟨fun access haccess => .inr ?_, fun access haccess => ?_⟩
          · exact ⟨0, _, rfl, function_owned hfirst hresolves access haccess⟩
          · rcases ih hrest access haccess with htop
              | ⟨index, function, hindex, howned⟩
            · exact .inl htop
            · refine .inr ⟨index + 1, function, hindex, ?_⟩
              rwa [Nat.add_right_comm _ 1 index] at howned
  | inner hinner hresolves _ ih =>
      cases hchecked with
      | cons hfirst hrest =>
          refine List.forall_mem_append.mpr ⟨fun access haccess => .inl ?_, ?_⟩
          · exact ⟨hresolves.function access haccess,
              hresolves.isOf_top access haccess⟩
          · rw [List.filterMap_cons, Stmt.function?_of_isInner hinner]
            exact ih hrest

/-- In the script of an accepted source every variable of the tree is written
once where it occurs, in order.  At the top level it has the number 0.  In a
function it has the function's number if the function declares it, unless an if
chain uses it ahead of its definition, and 0 if the function does not declare
it. -/
theorem batch_names_resolve {source script : String} {program : Program}
    (hsource : parseSource source = .ok program)
    (hscript : program.script .batch = .ok script) :
    ∃ t : Traced, exec (generate program) Dialect.fresh = (.ok script, t) ∧
      t.notes.map (fun access => (access.function, access.name)) =
        occurrencesFrom 0 program.statements ∧
      ∀ access ∈ t.notes, (access.function = none ∧ access.IsOf 0) ∨
        ∃ index function, program.functions[index]? = some function ∧
          access.OwnedIn (index + 1) function := by
  obtain ⟨tables, hchecked, _⟩ := parseSource_checked hsource
  have hnested : program.isNested = true := hchecked.isOuter
  have hwritten : (exec (generate program) State.fresh).1 =
    .ok script := hscript
  obtain ⟨t, hrun, _⟩ := exec_traced hnested (Prod.ext hwritten rfl)
  have hresolves := generate_resolves hnested hrun
  refine ⟨t, hrun, hresolves.occurrences, ?_⟩
  intro access haccess
  rcases hresolves.owned hchecked access haccess with htop
    | ⟨index, function, hindex, howned⟩
  · exact .inl htop
  · rw [Nat.zero_add] at howned
    exact .inr ⟨index, function, hindex, howned⟩

/-- A function with a parameter, a variable of its own and one of the
program's. -/
theorem batch_names_resolve_branches :
    ∃ (program : Program) (script : String) (function : FunctionDefinition)
      (t : Traced),
      parseSource
        ("x := 1\nfunc f(a int) int \x7b\ny := a + x\nif y == 2 \x7b\nx = y\n" ++
        "\x7d else if x == 1 \x7b\ny = a\n\x7d\nreturn y\n\x7d\nprint(f(x))\n")
          = .ok program ∧
      program.script .batch = .ok script ∧ program.functions = [function] ∧
      declaredNames function.params function.body = ["a", "y"] ∧
      exec (generate program) Dialect.fresh = (.ok script, t) ∧
        t.notes.length = 13 ∧
      ∀ access ∈ t.notes, (access.name = "x" → access.IsOf 0) ∧
        (access.name = "y" → access.function = some (1, "f") ∧
          access.IsOf 1) := by
  obtain ⟨program, function, hsource, hdefinitions, hfunctions, hdeclared,
    hahead, hall⟩ :
      ∃ (program : Program) (function : FunctionDefinition),
        parseSource
          ("x := 1\nfunc f(a int) int \x7b\ny := a + x\nif y == 2 \x7b\nx = y\n" ++
          "\x7d else if x == 1 \x7b\ny = a\n\x7d\nreturn y\n\x7d\nprint(f(x))\n") =
            .ok program ∧
        program.definitions.find? callsItself = none ∧
          program.functions = [function] ∧
        declaredNames function.params function.body = ["a", "y"] ∧
        Stmt.blockUsesAhead .any "y" function.body = false ∧
        occurrencesFrom 0 program.statements =
          [(none, "x"), (some (1, "f"), "a"), (some (1, "f"), "a"),
            (some (1, "f"), "x"), (some (1, "f"), "y"), (some (1, "f"), "y"),
            (some (1, "f"), "x"), (some (1, "f"), "y"), (some (1, "f"), "x"),
            (some (1, "f"), "a"), (some (1, "f"), "y"), (some (1, "f"), "y"),
            (none, "x")] :=
    ⟨⟨[.define [⟨"x", .int⟩] (some (.int 1 [.int])) false,
      .function "f" [⟨"a", .int⟩] [.int]
        [.define [⟨"y", .int⟩]
          (some (.binary .add (.var "a" [.int]) (.var "x" [.int]) [.int]))
            false,
          .choose [(.compare .eq (.var "y" [.int]) (.int 2 [.int]) [.bool],
              [.assign [⟨"x", .int⟩] (.var "y" [.int])]),
            (.compare .eq (.var "x" [.int]) (.int 1 [.int]) [.bool],
              [.assign [⟨"y", .int⟩] (.var "a" [.int])])] none,
          .giveBack [.var "y" [.int]]],
      .print (.call "f" [.var "x" [.int]] [.int])]⟩, _, by
        cbv, rfl, rfl, rfl, by decide, rfl⟩
  have hbatch := (script_of_accepted hsource).2
  rw [hdefinitions] at hbatch
  obtain ⟨script, hscript⟩ := hbatch
  obtain ⟨t, hrun, hoccurrences, howned⟩ := batch_names_resolve hsource hscript
  rw [hall] at hoccurrences
  have hlength : t.notes.length = 13 := by
    rw [← List.length_map, hoccurrences]
    rfl
  refine ⟨program, script, function, t, hsource, hscript, hfunctions, hdeclared,
    hrun, hlength, ?_⟩
  intro access haccess
  have hplaced : (access.function, access.name) ∈
      t.notes.map fun access => (access.function, access.name) :=
    List.mem_map_of_mem haccess
  rw [hoccurrences] at hplaced
  rcases howned access haccess with ⟨htop, hzero⟩ | ⟨index, other, hindex, hin⟩
  · refine ⟨fun _ => hzero, fun hname => ?_⟩
    simp [htop, hname] at hplaced
  · rw [hfunctions] at hindex
    obtain ⟨rfl, rfl⟩ : index = 0 ∧ function = other := by
      cases index with
      | zero => exact ⟨rfl, Option.some.inj hindex⟩
      | succ n => simp at hindex
    refine ⟨fun hname => hin.free (by simp [hdeclared, hname]),
      fun hname => ⟨?_, ?_⟩⟩
    · rw [hin.inside, hname] at hplaced
      rw [hin.inside]
      simpa using hplaced
    · exact hin.own (by simp [hdeclared, hname]) (hname ▸ hahead)

/-- The condition of a later branch is written before the first one defines the
name, and reads the program's variable. -/
theorem batch_name_used_ahead :
    ∃ program : Program,
      parseSource
        ("func f() \x7b\nif true \x7b\nx := 1\n\x7d else if x == 1 \x7b\nprint(x)\n" ++
        "\x7d\n\x7d\nx := 1\nf()\n") = .ok program ∧
      (program.script .batch).toOption.isSome = true ∧
      ((exec (generate program) (Dialect.fresh : Traced)).2.notes.filter
        (·.function = some (1, "f"))).map Access.storage =
          ["__sb_f0_x", "__sb_f1_x", "__sb_f1_x"] := by
  refine ⟨⟨[.function "f" [] []
    [.choose [(.bool true [.bool],
      [.define [⟨"x", .int⟩] (some (.int 1 [.int])) false]),
        (.compare .eq (.var "x" [.int]) (.int 1 [.int]) [.bool],
          [.print (.var "x" [.int])])] none],
    .define [⟨"x", .int⟩] (some (.int 1 [.int])) false,
    .action (.call "f" [] [])]⟩, by cbv, by decide +kernel, by decide +kernel⟩

end Batch

end Shellwright
