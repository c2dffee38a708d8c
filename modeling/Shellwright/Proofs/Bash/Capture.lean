/-
Bash looks names up where a function is called.  A variable that is local to a
function hides a global one of the same name from every function it calls, but
in an accepted program no callee means a variable its callers have locally: all
its free names were known before it, and a caller comes later and defines none
of them again.
-/
import Shellwright.Proofs.Names
import Shellwright.Proofs.Parse.Source

namespace Shellwright

/-- A statement with the tables before and behind it. -/
structure Visit where
  statement : Stmt
  before : Tables
  after : Tables

/-- The statements of a block one by one; what one leaves the later ones
find. -/
theorem Block.Checked.visits {place : Place} {before after : Tables}
    {body : List Stmt} (h : Block.Checked place before body after) :
    ∃ visits : List Visit, visits.map Visit.statement = body ∧
      (∀ visit ∈ visits, Leaves place before visit.before ∧
        visit.statement.Checked place visit.before visit.after) ∧
      visits.Pairwise fun first second =>
        Leaves place first.after second.before := by
  induction body generalizing before with
  | nil => exact ⟨[], rfl, by simp, .nil⟩
  | cons first rest ih =>
      cases h with
      | @cons _ _ middle _ _ _ hfirst hrest =>
          obtain ⟨visits, hstatements, hchecked, hpairs⟩ := ih hrest
          refine ⟨⟨first, before, middle⟩ :: visits, by
            rw [List.map_cons, hstatements], ?_, ?_⟩
          · refine List.forall_mem_cons.mpr
              ⟨⟨.refl _ _, hfirst⟩, fun visit hvisit => ?_⟩
            obtain ⟨hleaves, hvisited⟩ := hchecked visit hvisit
            exact ⟨hfirst.leaves.trans hleaves, hvisited⟩
          · exact List.pairwise_cons.mpr
              ⟨fun visit hvisit => (hchecked visit hvisit).1, hpairs⟩

/-- The first function calls the second one somewhere in its body. -/
def Program.Calls (program : Program) (caller callee : String) : Prop :=
  ∃ params returns body, Stmt.function caller params returns body ∈
    program.statements ∧ Mention.call callee ∈ Stmt.mentionsOfBlock body

/-- The statements of a program in order, as they are checked. -/
structure Visited (program : Program) (visits : List Visit) : Prop where
  statements : visits.map Visit.statement = program.statements
  checked : ∀ visit ∈ visits, visit.statement.Checked
    .program visit.before visit.after
  ordered : visits.Pairwise fun first second =>
    Leaves .program first.after second.before

namespace Visited

variable {program : Program} {visits : List Visit}

theorem exists_visit (h : Visited program visits) {s : Stmt}
    (hs : s ∈ program.statements) : ∃ visit ∈ visits, visit.statement = s := by
  rw [← h.statements] at hs
  exact List.mem_map.mp hs

/-- Of two visits one is the other, comes before it or behind it. -/
theorem trichotomy (h : Visited program visits) {first second : Visit}
    (hfirst : first ∈ visits) (hsecond : second ∈ visits) :
    first = second ∨ Leaves .program first.after second.before ∨
      Leaves .program second.after first.before :=
  List.Pairwise.forall_of_forall_of_flip
    (R := fun first second => first = second ∨
      Leaves .program first.after second.before ∨
      Leaves .program second.after first.before)
    (fun _ _ => .inl rfl) (h.ordered.imp fun hleaves => .inr (.inl hleaves))
    (h.ordered.imp fun hleaves => .inr (.inr hleaves)) hfirst hsecond

variable {caller callee : Visit} {f g : String} {params params' : List Binding}
  {returns returns' : List ValueType} {body body' : List Stmt}

theorem function_checked (h : Visited program visits)
    (hcaller : caller ∈ visits)
    (hf : caller.statement = .function f params returns body) :
    (Stmt.function f params returns body).Checked .program caller.before
      caller.after := by
  rw [← hf]
  exact h.checked caller hcaller

/-- A function that is known behind another one is that function or comes before
it. -/
theorem not_later (h : Visited program visits) (hcallee : callee ∈ visits)
    (hg : callee.statement = .function g params' returns' body')
    (hknown : caller.after.lookupFunction? g ≠ none) :
    ¬Leaves .program caller.after callee.before := by
  intro hleaves
  obtain ⟨signature, hlookup⟩ := Option.ne_none_iff_exists'.mp hknown
  obtain ⟨hnew, _⟩ := (h.function_checked hcallee hg).function_tables
  rw [hleaves.within.functions hlookup] at hnew
  cases hnew

theorem knows_itself (h : Visited program visits) (hcaller : caller ∈ visits)
    (hf : caller.statement = .function f params returns body) :
    caller.after.lookupFunction? f ≠ none := by
  obtain ⟨_, hafter⟩ := (h.function_checked hcaller hf).function_tables
  rw [hafter]
  simp

/-- No two functions have the same name. -/
theorem eq_of_name (h : Visited program visits) (hcaller : caller ∈ visits)
    (hcallee : callee ∈ visits)
    (hf : caller.statement = .function f params returns body)
    (hg : callee.statement = .function f params' returns' body') :
    caller = callee := by
  rcases h.trichotomy hcaller hcallee with heq | hleaves | hleaves
  · exact heq
  · exact absurd hleaves (h.not_later hcallee hg (h.knows_itself hcaller hf))
  · exact absurd hleaves (h.not_later hcaller hf (h.knows_itself hcallee hg))

/-- What is known before a function is known before every function that calls
it. -/
theorem within_of_call (h : Visited program visits) (hcaller : caller ∈ visits)
    (hcallee : callee ∈ visits)
    (hf : caller.statement = .function f params returns body)
    (hg : callee.statement = .function g params' returns' body')
    (hcall : .call g ∈ Stmt.mentionsOfBlock body) :
    callee.before.Within caller.before := by
  obtain ⟨bodyEnd, haccounts⟩ :=
    (h.function_checked hcaller hf).function_accounts
  have hknown : caller.after.lookupFunction? g ≠ none :=
    haccounts.called (List.mem_append_right _ hcall)
  rcases h.trichotomy hcaller hcallee with rfl | hleaves | hleaves
  · exact .refl _
  · exact absurd hleaves (h.not_later hcallee hg hknown)
  · exact (h.checked callee hcallee).leaves.within.trans hleaves.within

/-- The same along a chain of calls. -/
theorem within_of_calls (h : Visited program visits) (hcaller : caller ∈ visits)
    (hcallee : callee ∈ visits)
    (hf : caller.statement = .function f params returns body)
    (hg : callee.statement = .function g params' returns' body')
    (hcalls : Relation.TransGen program.Calls f g) :
    callee.before.Within caller.before := by
  induction hcalls generalizing callee params' returns' body' with
  | single hcall =>
      obtain ⟨_, _, _, hmem, hcall⟩ := hcall
      obtain ⟨visit, hvisit, hstatement⟩ := h.exists_visit hmem
      obtain rfl := h.eq_of_name hcaller hvisit hf hstatement
      exact h.within_of_call hcaller hcallee hstatement hg hcall
  | tail _ hcall ih =>
      obtain ⟨_, _, _, hmem, hcall⟩ := hcall
      obtain ⟨visit, hvisit, hstatement⟩ := h.exists_visit hmem
      exact (h.within_of_call hvisit hcallee hstatement hg hcall).trans
        (ih hvisit hstatement)

end Visited

theorem visited_of_accepted {source : String} {program : Program}
    (h : parseSource source = .ok program) :
    ∃ visits, Visited program visits := by
  obtain ⟨tables, hchecked, _⟩ := parseSource_checked h
  obtain ⟨visits, hstatements, hvisits, hordered⟩ := hchecked.visits
  exact ⟨visits, hstatements, fun visit hvisit => (hvisits visit hvisit).2,
    hordered⟩

/-- A variable that a function uses and does not declare is declared by none of
the functions it is called from, directly or through others. -/
theorem bash_locals_capture_nothing {source : String} {program : Program}
    (h : parseSource source = .ok program) {f g : String}
    {params params' : List Binding} {returns returns' : List ValueType}
    {body body' : List Stmt}
    (hf : .function f params returns body ∈ program.statements)
    (hg : .function g params' returns' body' ∈ program.statements)
    (hcalls : Relation.TransGen program.Calls f g) :
    ∀ name ∈ declaredNames params body, name ∉ freeNames params' body' := by
  intro name hdeclared hfree
  obtain ⟨visits, hvisited⟩ := visited_of_accepted h
  obtain ⟨caller, hcaller, hf⟩ := hvisited.exists_visit hf
  obtain ⟨callee, hcallee, hg⟩ := hvisited.exists_visit hg
  have hwithin := hvisited.within_of_calls hcaller hcallee hf hg hcalls
  obtain ⟨var, hknown⟩ := Option.ne_none_iff_exists'.mp
    ((hvisited.function_checked hcallee hg).known_of_free hfree)
  have hunknown := (hvisited.function_checked hcaller hf).unknown_of_declared
    hdeclared
  rw [hwithin.vars hknown] at hunknown
  cases hunknown

/-- A global variable is read two calls away from a function with a parameter
and a variable of its own. -/
theorem bash_locals_capture_nothing_chain :
    ∃ program paramsF returnsF bodyF paramsG returnsG bodyG,
      parseSource
        ("x := 1\nfunc g() \x7b\nprint(x)\n\x7d\nfunc h() \x7b\ng()\n\x7d\n" ++
        "func f(a int) \x7b\nz := a\nh()\n\x7d\n") = .ok program ∧
      .function "f" paramsF returnsF bodyF ∈ program.statements ∧
      .function "g" paramsG returnsG bodyG ∈ program.statements ∧
      Relation.TransGen program.Calls "f" "g" ∧
        declaredNames paramsF bodyF = ["a", "z"] ∧
      freeNames paramsG bodyG = ["x"] ∧
      ∀ name ∈ declaredNames paramsF bodyF, name ∉ freeNames paramsG bodyG := by
  have h : parseSource
    ("x := 1\nfunc g() \x7b\nprint(x)\n\x7d\nfunc h() \x7b\ng()\n\x7d\n" ++
      "func f(a int) \x7b\nz := a\nh()\n\x7d\n") =
        .ok ⟨[.define [⟨"x", .int⟩] (some (.int 1 [.int])) false,
          .function "g" [] [] [.print (.var "x" [.int])],
          .function "h" [] [] [.action (.call "g" [] [])],
          .function "f" [⟨"a", .int⟩] []
            [.define [⟨"z", .int⟩] (some (.var "a" [.int])) false,
              .action (.call "h" [] [])]]⟩ := by
    cbv
  generalize hprogram : Program.mk _ = program at h
  have hg : .function "g" [] [] [.print (.var "x" [.int])] ∈
      program.statements := by
    simp [← hprogram]
  have hh : .function "h" [] [] [.action (.call "g" [] [])] ∈
      program.statements := by
    simp [← hprogram]
  have hf : .function "f" [⟨"a", .int⟩] []
      [.define [⟨"z", .int⟩] (some (.var "a" [.int])) false,
        .action (.call "h" [] [])] ∈ program.statements := by
    simp [← hprogram]
  have hfirst : program.Calls "f" "h" := ⟨_, _, _, hf, by decide⟩
  have hcalls : Relation.TransGen program.Calls "f" "g" :=
    .tail (.single hfirst) ⟨_, _, _, hh, by decide⟩
  exact ⟨program, _, _, _, _, _, _, h, hf, hg, hcalls, by decide, by decide,
    bash_locals_capture_nothing h hf hg hcalls⟩

end Shellwright
