/-
Names in the order they are written.  A checker reads the branches of an if
chain one by one, while all its conditions are written first and its last
alternative at the end, wherever that stands.  Apart from this, the definition
of a name is written before every use of it.
-/
import Shellwright.Proofs.Names

namespace Shellwright

variable {mention : Mention}

/-- The uses of a variable that count: all of them, or its assignments. -/
inductive Usage where
  | any
  | assigned
deriving DecidableEq, Repr

/-- The variable is used in a way that counts. -/
def Mention.isUse (usage : Usage) (name : String) : Mention → Bool
  | .use other => usage == .any && other == name
  | .assign other => other == name
  | _ => false

variable {usage : Usage}

theorem Mention.used?_of_isUse {name : String}
    (h : mention.isUse usage name = true) : mention.used? = some name := by
  cases mention with
  | use other => exact congrArg some (eq_of_beq (Bool.and_eq_true_iff.mp h).2)
  | assign other => exact congrArg some (eq_of_beq h)
  | _ => cases h

/-- No use of the name comes before its first definition. -/
def DefinedFirst (usage : Usage) (name : String) : List Mention → Prop
  | [] => True
  | mention :: rest => mention = .define name ∨
      mention.isUse usage name = false ∧ DefinedFirst usage name rest

section

variable {usage : Usage} {name : String} {mentions : List Mention}

theorem definedFirst_of_unused
    (h : ∀ mention ∈ mentions, mention.isUse usage name = false) :
    DefinedFirst usage name mentions := by
  induction mentions with
  | nil => trivial
  | cons mention mentions ih =>
      obtain ⟨hfirst, hrest⟩ := List.forall_mem_cons.mp h
      exact .inr ⟨hfirst, ih hrest⟩

theorem DefinedFirst.tail (h : DefinedFirst usage name (mention :: mentions))
    (hmention : mention ≠ .define name) : DefinedFirst usage name mentions :=
  (h.resolve_left hmention).2

theorem DefinedFirst.of_used {other : String}
    (h : DefinedFirst .any name (mention :: mentions))
    (hused : mention.used? = some other) :
    other ≠ name ∧ DefinedFirst .any name mentions := by
  cases mention with
  | use first | assign first =>
      obtain rfl : first = other := Option.some.inj hused
      simpa [DefinedFirst, Mention.isUse] using h
  | _ => cases hused

theorem definedFirst_append {first second : List Mention} :
    DefinedFirst usage name (first ++ second) ↔ DefinedFirst usage name first ∧
      (.define name ∈ first ∨ DefinedFirst usage name second) := by
  induction first with
  | nil => simp [DefinedFirst]
  | cons mention first ih =>
      by_cases hmention : mention = .define name
      · simp [DefinedFirst, hmention]
      · simp [DefinedFirst, hmention, Ne.symm hmention, ih, and_assoc]

end

namespace Stmt

mutual

/-- Somewhere in an if chain the name is used in a part that is written before
the part that defines it. -/
def usesAhead (usage : Usage) (name : String) : Stmt → Bool
  | .choose branches otherwise =>
      ((mentionsOfConditions branches).any (·.isUse usage name) &&
          (mentions (.choose branches otherwise)).contains (.define name)) ||
        ((mentionsOfBodies branches).any (·.isUse usage name) &&
          (mentionsOfFallback otherwise).contains (.define name)) ||
        anyUsesAhead usage name branches ||
          fallbackUsesAhead usage name otherwise
  | .loop init _ post body =>
      partUsesAhead usage name init || partUsesAhead usage name post ||
        blockUsesAhead usage name body
  | _ => false

def blockUsesAhead (usage : Usage) (name : String) : List Stmt → Bool
  | [] => false
  | s :: rest => s.usesAhead usage name || blockUsesAhead usage name rest

def partUsesAhead (usage : Usage) (name : String) : Option Stmt → Bool
  | none => false
  | some s => s.usesAhead usage name

def anyUsesAhead (usage : Usage) (name : String) :
    List (Expr × List Stmt) → Bool
  | [] => false
  | (_, body) :: rest =>
      blockUsesAhead usage name body || anyUsesAhead usage name rest

def fallbackUsesAhead (usage : Usage) (name : String) :
    Option (List Stmt) → Bool
  | none => false
  | some body => blockUsesAhead usage name body

end

end Stmt

section

variable {usage : Usage} {name : String} {before middle tables : Tables}
  {first second : List Mention}

/-- What is known behind the first part and not before it is defined there. -/
theorem DefinedFirst.seq (hfirst : DefinedFirst usage name first)
    (haccounts : Accounts before first middle)
    (hnew : before.lookupVariable? name = none)
    (hsecond : middle.lookupVariable? name = none →
      DefinedFirst usage name second) :
    DefinedFirst usage name (first ++ second) := by
  refine definedFirst_append.mpr ⟨hfirst, ?_⟩
  by_cases hmiddle : middle.lookupVariable? name = none
  · exact .inr (hsecond hmiddle)
  · exact .inl ((haccounts.grown hmiddle).resolve_left
      fun hknown => hknown hnew)

theorem definedFirst_of_known {mentions : List Mention}
    (h : ∀ mention ∈ mentions, mention.Known tables)
    (hnew : tables.lookupVariable? name = none) :
    DefinedFirst usage name mentions :=
  definedFirst_of_unused fun mention hmem => Bool.of_not_eq_true fun huse =>
    (h mention hmem).used (Mention.used?_of_isUse huse) hnew

theorem Expr.Typed.definedFirst {e : Expr} (h : e.Typed tables)
    (hnew : tables.lookupVariable? name = none) :
    DefinedFirst usage name e.mentions :=
  definedFirst_of_known h.known hnew

theorem definedFirst_of_definitions (targets : List Binding) :
    DefinedFirst usage name (targets.map fun target => .define target.name) :=
  definedFirst_of_unused (by simp [Mention.isUse])

end

mutual

theorem Stmt.Checked.definedFirst {place : Place} {before after : Tables}
    {s : Stmt} {usage : Usage} {name : String}
    (h : s.Checked place before after) (hinner : place.topLevel = false)
    (hnew : before.lookupVariable? name = none)
    (hahead : s.usesAhead usage name = false) :
    DefinedFirst usage name s.mentions := by
  match h with
  | .defineEmpty _ _ _ =>
      rw [Stmt.mentions]
      exact definedFirst_of_definitions _
  | .define hvalue _ _ =>
      rw [Stmt.mentions]
      exact (hvalue.definedFirst hnew).seq hvalue.accounts hnew fun _ =>
        definedFirst_of_definitions _
  | .assign hvalue _ htargets =>
      rw [Stmt.mentions]
      exact (hvalue.definedFirst hnew).seq hvalue.accounts hnew
        (definedFirst_of_known (known_of_assignable htargets))
  | .store hlookup _ hindex _ hvalue _ =>
      rw [Stmt.mentions]
      exact (hindex.definedFirst hnew).seq hindex.accounts hnew fun _ =>
        (hvalue.definedFirst hnew).seq hvalue.accounts hnew
          (definedFirst_of_known (known_of_lookup hlookup))
  | .function htop _ _ _ _ _ =>
      rw [hinner] at htop
      cases htop
  | .giveBack _ hvalues _ =>
      rw [Stmt.mentions]
      exact definedFirst_of_known (known_of_all_typed hvalues) hnew
  | .choose _ hchain =>
      simp only [Stmt.usesAhead, Bool.or_eq_false_iff, Bool.and_eq_false_iff,
        List.any_eq_false, Bool.not_eq_true, List.contains_eq_mem,
        decide_eq_false_iff_not, Stmt.mentions] at hahead
      obtain ⟨⟨⟨hconditions, hturn⟩, hbodies⟩, hfallback⟩ := hahead
      rw [Stmt.mentions]
      refine definedFirst_append.mpr ⟨?_,
        .inr (hchain.definedFirst rfl hnew hbodies hfallback hturn)⟩
      rcases hconditions with hunused | hundefined
      · exact definedFirst_of_unused hunused
      · refine definedFirst_of_unused fun mention hmem => Bool.of_not_eq_true
          fun huse => ?_
        -- A name that a condition uses is known before the chain or defined in
        -- it.
        exact ((hchain.accounts rfl).used (List.mem_append_left _ hmem)
          (Mention.used?_of_isUse huse)).elim (· hnew) hundefined
  | .loop hinit hcondition hpost hbody _ =>
      simp only [Stmt.usesAhead, Bool.or_eq_false_iff] at hahead
      obtain ⟨⟨hinitAhead, hpostAhead⟩, hbodyAhead⟩ := hahead
      rw [Stmt.mentions]
      refine (hinit.definedFirst rfl hnew hinitAhead).seq
        (hinit.accounts rfl) hnew fun hstarted => ?_
      refine (hpost.definedFirst rfl hstarted hpostAhead).seq
        (hpost.accounts rfl) hstarted fun hstepped => ?_
      -- The condition is checked before the post statement and written behind
      -- it.
      refine definedFirst_append.mpr
        ⟨definedFirst_of_known (known_of_condition hcondition)
          hstarted, .inr ?_⟩
      exact hbody.definedFirst rfl hstepped hbodyAhead
  | .leaveLoop _ | .nextRound _ | .noOp => trivial
  | .print hvalue _ _ | .action hvalue _ =>
      rw [Stmt.mentions]
      exact hvalue.definedFirst hnew
  | .panic hvalue _ =>
      rw [Stmt.mentions]
      exact definedFirst_append.mpr
        ⟨hvalue.definedFirst hnew, .inr (.inr ⟨rfl, trivial⟩)⟩
  | .writeFile hpath _ hcontent _ =>
      rw [Stmt.mentions]
      exact (hpath.definedFirst hnew).seq hpath.accounts hnew
        hcontent.definedFirst

theorem Block.Checked.definedFirst {place : Place} {before after : Tables}
    {body : List Stmt} {usage : Usage} {name : String}
    (h : Block.Checked place before body after)
    (hinner : place.topLevel = false)
    (hnew : before.lookupVariable? name = none)
    (hahead : Stmt.blockUsesAhead usage name body = false) :
    DefinedFirst usage name (Stmt.mentionsOfBlock body) := by
  match h with
  | .nil => trivial
  | .cons hfirst hrest =>
      obtain ⟨hfirstAhead, hrestAhead⟩ := Bool.or_eq_false_iff.mp hahead
      rw [Stmt.mentionsOfBlock]
      exact (hfirst.definedFirst hinner hnew hfirstAhead).seq
        (hfirst.accounts hinner) hnew
        fun hmiddle => hrest.definedFirst hinner hmiddle hrestAhead

theorem Part.Checked.definedFirst {place : Place} {before after : Tables}
    {part : Option Stmt} {usage : Usage} {name : String}
    (h : Part.Checked place before part after) (hinner : place.topLevel = false)
    (hnew : before.lookupVariable? name = none)
    (hahead : Stmt.partUsesAhead usage name part = false) :
    DefinedFirst usage name (Stmt.mentionsOfPart part) := by
  match h with
  | .none => trivial
  | .some hstatement => exact hstatement.definedFirst hinner hnew hahead

/-- The last alternative is written behind the branches, wherever it is
checked. -/
theorem Chain.Checked.definedFirst {place : Place} {before after : Tables}
    {branches : List (Expr × List Stmt)} {otherwise : Option (List Stmt)}
    {usage : Usage} {name : String}
    (h : Chain.Checked place before branches otherwise after)
    (hinner : place.topLevel = false)
    (hnew : before.lookupVariable? name = none)
    (hbodies : Stmt.anyUsesAhead usage name branches = false)
    (hfallback : Stmt.fallbackUsesAhead usage name otherwise = false)
    (hturn : (∀ mention ∈ Stmt.mentionsOfBodies branches,
        mention.isUse usage name = false) ∨
      .define name ∉ Stmt.mentionsOfFallback otherwise) :
    DefinedFirst usage name (Stmt.mentionsOfBodies branches ++
      Stmt.mentionsOfFallback otherwise) := by
  match h with
  | .nil => trivial
  | .branch _ _ hbody hrest =>
      obtain ⟨hbodyAhead, hrestAhead⟩ := Bool.or_eq_false_iff.mp hbodies
      rw [Stmt.mentionsOfBodies, List.append_assoc]
      refine (hbody.definedFirst hinner hnew hbodyAhead).seq
        (hbody.accounts hinner) hnew
        fun hmiddle => hrest.definedFirst hinner hmiddle hrestAhead hfallback ?_
      exact hturn.imp_left fun hunused mention hmem =>
        hunused mention (List.mem_append_right _ hmem)
  | @Chain.Checked.otherwise _ _ middle _ _ _ hbody hrest =>
      refine definedFirst_append.mpr
        ⟨?_, .inr (hbody.definedFirst hinner hnew hfallback)⟩
      rcases hturn with hunused | hundefined
      · exact definedFirst_of_unused hunused
      · have hmiddle : middle.lookupVariable? name = none := by
          by_contra hknown
          rcases (hbody.accounts hinner).grown hknown with hold | hdefined
          · exact hold hnew
          · exact hundefined hdefined
        rw [← List.append_nil (Stmt.mentionsOfBodies branches)]
        exact hrest.definedFirst hinner hmiddle hbodies rfl
          (.inr List.not_mem_nil)

end

/-- What a function defines in its body is defined there before it is used. -/
theorem definedFirst_of_declared {place : Place} {before after : Tables}
    {name other : String} {params : List Binding} {returns : List ValueType}
    {body : List Stmt}
    (hchecked : (Stmt.function name params returns body).Checked place before
      after) (hdeclared : other ∈ declaredNames params body)
    (hparam : other ∉ params.map Binding.name)
    (hahead : Stmt.blockUsesAhead usage other body = false) :
    DefinedFirst usage other (Stmt.mentionsOfBlock body) := by
  have hdefined : .define other ∈ Stmt.mentionsOfBlock body := by
    rcases List.mem_append.mp hdeclared with hin | hin
    · exact absurd hin hparam
    · exact Mention.mem_filterMap_defined?.mp hin
  cases hchecked with
  | function _ _ _ _ hbody _ =>
      exact hbody.definedFirst rfl
        ((hbody.accounts rfl).defined hdefined) hahead

end Shellwright
