/-
What is mentioned in a tree, in the order a script writer meets it: names,
pipelines and panics.  In a well-typed statement every name that is used is
known before or defined inside, and no name that is known is defined again.
-/
import Shellwright.Proofs.Typing

namespace Shellwright

variable {tables : Tables} {targets : List Binding}

/-- Something in a tree that is written into a script.  A target `_` is no
name. -/
inductive Mention where
  /-- A variable that is read. -/
  | use (name : String)
  /-- A variable that is assigned, or a list that is stored into. -/
  | assign (name : String)
  | define (name : String)
  | call (name : String)
  /-- The programs of a pipeline. -/
  | pipeline (programs : List String)
  | panic
deriving DecidableEq, Repr

namespace Mention

def used? : Mention → Option String
  | .use name | .assign name => some name
  | _ => none

def defined? : Mention → Option String
  | .define name => some name
  | _ => none

/-- The variable that is meant. -/
def var? : Mention → Option String
  | .use name | .assign name | .define name => some name
  | _ => none

theorem var?_of_used? {mention : Mention} {name : String}
    (h : mention.used? = some name) : mention.var? = some name := by
  cases mention with
  | use other | assign other => exact h
  | _ => cases h

/-- The programs that are run. -/
def programs : Mention → List String
  | .pipeline programs => programs
  | _ => []

theorem mem_filterMap_defined? {mentions : List Mention} {name : String} :
    name ∈ mentions.filterMap defined? ↔ .define name ∈ mentions := by
  rw [List.mem_filterMap]
  constructor
  · rintro ⟨mention, hmem, hname⟩
    cases mention with
    | define other =>
        obtain rfl : other = name := Option.some.inj hname
        exact hmem
    | _ => cases hname
  · exact fun hmem => ⟨_, hmem, rfl⟩

end Mention

namespace Expr

mutual

def mentions : Expr → List Mention
  | .bool _ _ | .int _ _ | .string _ _ => []
  | .unary _ operand _ => operand.mentions
  | .binary _ left right _ | .compare _ left right _
  | .logical _ left right _ =>
      left.mentions ++ right.mentions
  | .var name _ => [.use name]
  | .listLiteral items _ => mentionsOfAll items
  | .listElement list index _ => list.mentions ++ index.mentions
  | .listLength list _ => list.mentions
  | .substring value start stop _ =>
      value.mentions ++ (start.mentions ++ mentionsOfOption stop)
  | .stringLength value _ => value.mentions
  | .group inner _ => inner.mentions
  | .call name args _ => mentionsOfAll args ++ [.call name]
  | .process stages _ =>
      mentionsOfStages stages ++ [.pipeline (stages.map Prod.fst)]
  | .input prompt _ => mentionsOfOption prompt
  | .copy list _ => list.mentions
  | .fileExists path _ | .fileContent path _ => path.mentions
  | .intToString value _ | .stringToInt value _ => value.mentions

def mentionsOfAll : List Expr → List Mention
  | [] => []
  | e :: rest => e.mentions ++ mentionsOfAll rest

def mentionsOfOption : Option Expr → List Mention
  | none => []
  | some e => e.mentions

def mentionsOfStages : List (String × List Expr) → List Mention
  | [] => []
  | (_, args) :: rest => mentionsOfAll args ++ mentionsOfStages rest

end

theorem mem_mentionsOfAll {items : List Expr} {mention : Mention} :
    mention ∈ mentionsOfAll items ↔ ∃ e ∈ items, mention ∈ e.mentions := by
  induction items with
  | nil => simp [mentionsOfAll]
  | cons e items ih => simp [mentionsOfAll, ih]

theorem mem_mentionsOfOption {item : Option Expr} {mention : Mention} :
    mention ∈ mentionsOfOption item ↔ ∃ e ∈ item, mention ∈ e.mentions := by
  cases item <;> simp [mentionsOfOption]

theorem mem_mentionsOfStages {stages : List (String × List Expr)}
    {mention : Mention} :
    mention ∈ mentionsOfStages stages ↔
      ∃ stage ∈ stages, ∃ arg ∈ stage.2, mention ∈ arg.mentions := by
  induction stages with
  | nil => simp [mentionsOfStages]
  | cons stage stages ih => simp [mentionsOfStages, mem_mentionsOfAll, ih]

end Expr

/-- The targets that take a value. -/
def keptTargets (targets : List Binding) : List Binding :=
  targets.filter (·.name != "_")

namespace Stmt

mutual

/-- What a statement mentions.  All conditions of an if chain come before its
bodies, and the post statement of a loop before its condition. -/
def mentions : Stmt → List Mention
  | .define targets none _ => targets.map fun target => .define target.name
  | .define targets (some value) _ =>
      value.mentions ++ (keptTargets targets).map
        fun target => .define target.name
  | .assign targets value =>
      value.mentions ++ (keptTargets targets).map
        fun target => .assign target.name
  | .store target index value =>
      index.mentions ++ (value.mentions ++ [.assign target.name])
  | .function _ params _ body =>
      (params.map fun param => .define param.name) ++ mentionsOfBlock body
  | .giveBack values => Expr.mentionsOfAll values
  | .choose branches otherwise =>
      mentionsOfConditions branches ++
        (mentionsOfBodies branches ++ mentionsOfFallback otherwise)
  | .loop init condition post body =>
      mentionsOfPart init ++ (mentionsOfPart post ++
        (Expr.mentionsOfOption condition ++ mentionsOfBlock body))
  | .leaveLoop | .nextRound | .noOp => []
  | .print value | .action value => value.mentions
  | .panic message => message.mentions ++ [.panic]
  | .writeFile path content _ => path.mentions ++ content.mentions

def mentionsOfBlock : List Stmt → List Mention
  | [] => []
  | s :: rest => s.mentions ++ mentionsOfBlock rest

def mentionsOfPart : Option Stmt → List Mention
  | none => []
  | some s => s.mentions

def mentionsOfConditions : List (Expr × List Stmt) → List Mention
  | [] => []
  | (condition, _) :: rest => condition.mentions ++ mentionsOfConditions rest

def mentionsOfBodies : List (Expr × List Stmt) → List Mention
  | [] => []
  | (_, body) :: rest => mentionsOfBlock body ++ mentionsOfBodies rest

def mentionsOfFallback : Option (List Stmt) → List Mention
  | none => []
  | some body => mentionsOfBlock body

end

end Stmt

def Program.mentions (program : Program) : List Mention :=
  Stmt.mentionsOfBlock program.statements

/-- The variables a function declares: its parameters and what its body
defines. -/
def declaredNames (params : List Binding) (body : List Stmt) : List String :=
  params.map Binding.name ++ (Stmt.mentionsOfBlock body).filterMap
    Mention.defined?

/-- The variables a function reads, assigns or stores into and does not
declare. -/
def freeNames (params : List Binding) (body : List Stmt) : List String :=
  (Stmt.mentionsOfBlock body).filterMap Mention.used? |>.filter
    fun name => !(declaredNames params body).contains name

/-- The name, if there is one, is in the tables. -/
def Mention.Known (tables : Tables) : Mention → Prop
  | .use name | .assign name => tables.lookupVariable? name ≠ none
  | .define _ => False
  | .call name => tables.lookupFunction? name ≠ none
  | .pipeline _ | .panic => True

theorem Mention.Known.used {mention : Mention} {name : String}
    (h : mention.Known tables) (hused : mention.used? = some name) :
    tables.lookupVariable? name ≠ none := by
  cases mention with
  | use other | assign other =>
      obtain rfl : other = name := Option.some.inj hused
      exact h
  | _ => cases hused

/-- A typed expression defines nothing and knows all its names. -/
theorem Expr.Typed.known {tables : Tables} {e : Expr} (h : e.Typed tables) :
    ∀ mention ∈ e.mentions, mention.Known tables := by
  induction h with
  | bool | int | string => simp [Expr.mentions]
  | unary _ _ ih | listLength _ _ _ ih | stringLength _ _ ih | group _ _ ih
  | copy _ _ _ ih | fileExists _ _ ih | fileContent _ _ ih | intToString _ _ ih
  | stringToInt _ _ ih =>
      simpa only [Expr.mentions] using ih
  | binary _ _ _ _ _ ihl ihr | compare _ _ _ _ _ ihl ihr
  | logical _ _ _ _ ihl ihr | listElement _ _ _ _ _ ihl ihr =>
      rw [Expr.mentions]
      exact List.forall_mem_append.mpr ⟨ihl, ihr⟩
  | var hlookup =>
      rw [Expr.mentions, List.forall_mem_singleton]
      simp [Mention.Known, hlookup]
  | listLiteral _ _ _ _ ih =>
      rw [Expr.mentions]
      intro mention hmention
      obtain ⟨item, hitem, hin⟩ := Expr.mem_mentionsOfAll.mp hmention
      exact ih item hitem mention hin
  | substring _ _ _ _ _ _ ihv ihs ihe =>
      rw [Expr.mentions]
      refine List.forall_mem_append.mpr
        ⟨ihv, List.forall_mem_append.mpr ⟨ihs, ?_⟩⟩
      intro mention hmention
      obtain ⟨stop, hstop, hin⟩ := Expr.mem_mentionsOfOption.mp hmention
      exact ihe stop hstop mention hin
  | call hlookup _ _ ih =>
      rw [Expr.mentions]
      refine List.forall_mem_append.mpr ⟨?_, ?_⟩
      · intro mention hmention
        obtain ⟨arg, harg, hin⟩ := Expr.mem_mentionsOfAll.mp hmention
        exact ih arg harg mention hin
      · rw [List.forall_mem_singleton]
        simp [Mention.Known, hlookup]
  | process _ _ _ ih =>
      rw [Expr.mentions]
      refine List.forall_mem_append.mpr
        ⟨?_, List.forall_mem_singleton.mpr trivial⟩
      intro mention hmention
      obtain ⟨stage, hstage, arg, harg, hin⟩ :=
        Expr.mem_mentionsOfStages.mp hmention
      exact ih stage hstage arg harg mention hin
  | input _ _ ih =>
      rw [Expr.mentions]
      intro mention hmention
      obtain ⟨prompt, hprompt, hin⟩ := Expr.mem_mentionsOfOption.mp hmention
      exact ih prompt hprompt mention hin

/-- What names a piece of a program takes from the tables before it, and adds to
those behind it. -/
structure Accounts (before : Tables) (mentions : List Mention)
    (after : Tables) : Prop where
  used : ∀ {mention name}, mention ∈ mentions → mention.used? = some name →
    before.lookupVariable? name ≠ none ∨ .define name ∈ mentions
  called : ∀ {name}, .call name ∈ mentions → before.lookupFunction? name ≠ none
  defined : ∀ {name}, .define name ∈ mentions →
    before.lookupVariable? name = none
  grown : ∀ {name}, after.lookupVariable? name ≠ none →
    before.lookupVariable? name ≠ none ∨ .define name ∈ mentions
  kept : ∀ {name}, before.lookupVariable? name ≠ none →
    after.lookupVariable? name ≠ none
  functions : after.functions = before.functions

namespace Accounts

variable {before middle after tables : Tables} {first second : List Mention}

theorem of_known {mentions : List Mention}
    (h : ∀ mention ∈ mentions, mention.Known tables) :
    Accounts tables mentions tables where
  used hmem hused := .inl ((h _ hmem).used hused)
  called hmem := h _ hmem
  defined hmem := (h _ hmem).elim
  grown := .inl
  kept := id
  functions := rfl

theorem trans (hfirst : Accounts before first middle)
    (hsecond : Accounts middle second after) :
    Accounts before (first ++ second) after where
  used hmem hused := by
    rcases List.mem_append.mp hmem with hin | hin
    · exact (hfirst.used hin hused).imp_right (List.mem_append_left _)
    · rcases hsecond.used hin hused with hknown | hdefined
      · exact (hfirst.grown hknown).imp_right (List.mem_append_left _)
      · exact .inr (List.mem_append_right _ hdefined)
  called hmem := by
    rcases List.mem_append.mp hmem with hin | hin
    · exact hfirst.called hin
    · unfold Tables.lookupFunction?
      rw [← hfirst.functions]
      exact hsecond.called hin
  defined hmem := by
    rcases List.mem_append.mp hmem with hin | hin
    · exact hfirst.defined hin
    · exact Classical.byContradiction fun hknown =>
        hfirst.kept hknown (hsecond.defined hin)
  grown hknown := by
    rcases hsecond.grown hknown with hmiddle | hdefined
    · exact (hfirst.grown hmiddle).imp_right (List.mem_append_left _)
    · exact .inr (List.mem_append_right _ hdefined)
  kept hknown := hsecond.kept (hfirst.kept hknown)
  functions := hsecond.functions.trans hfirst.functions

/-- The order of the names does not matter. -/
theorem congr (h : Accounts before first after)
    (hsame : ∀ mention, mention ∈ second ↔ mention ∈ first) :
    Accounts before second after where
  used hmem hused := (h.used ((hsame _).mp hmem) hused).imp_right (hsame _).mpr
  called hmem := h.called ((hsame _).mp hmem)
  defined hmem := h.defined ((hsame _).mp hmem)
  grown hknown := (h.grown hknown).imp_right (hsame _).mpr
  kept := h.kept
  functions := h.functions

theorem of_declares {constant : Bool}
    (h : Tables.Declares constant before targets after) :
    Accounts before (targets.map fun target => .define target.name) after := by
  induction h with
  | nil => exact of_known (by simp)
  | @cons tables after target targets hnew _ ih =>
      have hfirst : Accounts tables [.define target.name]
          (tables.withVariable target.name ⟨target.ty, constant⟩) := by
        refine ⟨?_, by simp, ?_, ?_, ?_, rfl⟩
        · intro mention name hmem hused
          obtain rfl := List.mem_singleton.mp hmem
          cases hused
        · intro name hmem
          obtain rfl : name = target.name := by simpa using hmem
          exact hnew
        · intro name hknown
          by_cases hname : name = target.name
          · exact .inr (by simp [hname])
          · exact .inl (by simpa [hname] using hknown)
        · intro name hknown
          by_cases hname : name = target.name
          · simp [hname]
          · simpa [hname] using hknown
      exact hfirst.trans ih

/-- A loop forgets names, but none that were known before it. -/
theorem forgets {inside : Tables} (h : Accounts before first inside)
    (hforgets : Tables.Forgets before inside after) :
    Accounts before first after where
  used := h.used
  called := h.called
  defined := h.defined
  grown {name} hknown := by
    obtain ⟨var, hlookup⟩ := Option.ne_none_iff_exists'.mp hknown
    exact h.grown (by simp [hforgets.old hlookup])
  kept {name} hknown := by
    obtain ⟨var, hlookup⟩ := Option.ne_none_iff_exists'.mp hknown
    simp [hforgets.kept hlookup]
  functions := hforgets.functions.trans h.functions

end Accounts

theorem Expr.Typed.accounts {e : Expr} (h : e.Typed tables) :
    Accounts tables e.mentions tables :=
  .of_known h.known

/-! Parts of statements that know all their names. -/

theorem known_of_all_typed {values : List Expr}
    (h : ∀ value ∈ values, value.Typed tables) :
    ∀ mention ∈ Expr.mentionsOfAll values, mention.Known tables := by
  intro mention hmention
  obtain ⟨value, hvalue, hin⟩ := Expr.mem_mentionsOfAll.mp hmention
  exact (h value hvalue).known mention hin

theorem known_of_condition {condition : Option Expr}
    (h : ∀ test ∈ condition, test.Typed tables ∧ test.Yields .bool) :
    ∀ mention ∈ Expr.mentionsOfOption condition, mention.Known tables := by
  intro mention hmention
  obtain ⟨test, htest, hin⟩ := Expr.mem_mentionsOfOption.mp hmention
  exact (h test htest).1.known mention hin

theorem known_of_assignable (h : ∀ target ∈ targets, target.Assignable tables) :
    ∀ mention ∈ (keptTargets targets).map fun target =>
        Mention.assign target.name,
      mention.Known tables := by
  intro mention hmention
  obtain ⟨target, htarget, rfl⟩ := List.mem_map.mp hmention
  obtain ⟨hmem, hname⟩ := List.mem_filter.mp htarget
  rcases h target hmem with hdiscard | hlookup
  · simp [hdiscard] at hname
  · simp [Mention.Known, hlookup]

theorem known_of_lookup {name : String} {var : Variable}
    (h : tables.lookupVariable? name = some var) :
    ∀ mention ∈ [Mention.assign name], mention.Known tables := by
  rw [List.forall_mem_singleton]
  simp [Mention.Known, h]

mutual

theorem Stmt.Checked.accounts {place : Place} {before after : Tables} {s : Stmt}
    (h : s.Checked place before after) (hinner : place.topLevel = false) :
    Accounts before s.mentions after := by
  match h with
  | .defineEmpty _ _ hdeclares =>
      rw [Stmt.mentions]
      exact .of_declares hdeclares
  | .define hvalue _ hdeclares =>
      rw [Stmt.mentions]
      exact hvalue.accounts.trans (.of_declares hdeclares)
  | .assign hvalue _ htargets =>
      rw [Stmt.mentions]
      exact hvalue.accounts.trans (.of_known (known_of_assignable htargets))
  | .store hlookup _ hindex _ hvalue _ =>
      rw [Stmt.mentions]
      exact hindex.accounts.trans
        (hvalue.accounts.trans (.of_known (known_of_lookup hlookup)))
  | .function htop _ _ _ _ _ =>
      rw [hinner] at htop
      cases htop
  | .giveBack _ hvalues _ =>
      rw [Stmt.mentions]
      exact .of_known (known_of_all_typed hvalues)
  | .choose _ hchain =>
      rw [Stmt.mentions]
      exact hchain.accounts rfl
  | .loop hinit hcondition hpost hbody hforgets =>
      rw [Stmt.mentions]
      refine Accounts.forgets (Accounts.congr ((hinit.accounts rfl).trans
        ((Accounts.of_known (known_of_condition hcondition)).trans
          ((hpost.accounts rfl).trans (hbody.accounts rfl)))) ?_) hforgets
      intro mention
      simp only [List.mem_append]
      tauto
  | .leaveLoop _ | .nextRound _ | .noOp =>
      exact .of_known (by simp [Stmt.mentions])
  | .print hvalue _ _ | .action hvalue _ =>
      rw [Stmt.mentions]
      exact hvalue.accounts
  | .panic hvalue _ =>
      rw [Stmt.mentions]
      exact hvalue.accounts.trans
        (.of_known (List.forall_mem_singleton.mpr trivial))
  | .writeFile hpath _ hcontent _ =>
      rw [Stmt.mentions]
      exact hpath.accounts.trans hcontent.accounts

theorem Block.Checked.accounts {place : Place} {before after : Tables}
    {body : List Stmt} (h : Block.Checked place before body after)
    (hinner : place.topLevel = false) :
    Accounts before (Stmt.mentionsOfBlock body) after := by
  match h with
  | .nil => exact .of_known (by simp [Stmt.mentionsOfBlock])
  | .cons hfirst hrest =>
      rw [Stmt.mentionsOfBlock]
      exact (hfirst.accounts hinner).trans (hrest.accounts hinner)

theorem Part.Checked.accounts {place : Place} {before after : Tables}
    {part : Option Stmt} (h : Part.Checked place before part after)
    (hinner : place.topLevel = false) :
    Accounts before (Stmt.mentionsOfPart part) after := by
  match h with
  | .none => exact .of_known (by simp [Stmt.mentionsOfPart])
  | .some hstatement =>
      rw [Stmt.mentionsOfPart]
      exact hstatement.accounts hinner

/-- The conditions and bodies are checked in turns and written apart. -/
theorem Chain.Checked.accounts {place : Place} {before after : Tables}
    {branches : List (Expr × List Stmt)} {otherwise : Option (List Stmt)}
    (h : Chain.Checked place before branches otherwise after)
    (hinner : place.topLevel = false) :
    Accounts before (Stmt.mentionsOfConditions branches ++
      (Stmt.mentionsOfBodies branches ++ Stmt.mentionsOfFallback otherwise))
        after := by
  match h with
  | .nil =>
      exact .of_known (by
        simp [Stmt.mentionsOfConditions, Stmt.mentionsOfBodies,
          Stmt.mentionsOfFallback])
  | .branch hcondition _ hbody hrest =>
      refine (hcondition.accounts.trans
        ((hbody.accounts hinner).trans (hrest.accounts hinner))).congr
          fun mention => ?_
      simp only [Stmt.mentionsOfConditions, Stmt.mentionsOfBodies,
        List.mem_append]
      tauto
  | .otherwise hbody hrest =>
      refine ((hbody.accounts hinner).trans (hrest.accounts hinner)).congr
        fun mention => ?_
      simp only [Stmt.mentionsOfFallback, List.mem_append, List.append_nil]
      tauto

end

/-! Functions. -/

section Function

variable {place : Place} {before after : Tables} {name : String}
  {params : List Binding} {returns : List ValueType} {body : List Stmt}
  {x : String}

/-- A function has a new name and adds nothing else. -/
theorem Stmt.Checked.function_tables
    (h : (Stmt.function name params returns body).Checked place before after) :
    before.lookupFunction? name = none ∧
      after = before.withFunction name ⟨params.map Binding.ty, returns⟩ := by
  cases h with
  | function _ hnew _ _ _ _ => exact ⟨hnew, rfl⟩

/-- A function takes its names from the tables before it, where it is known
itself. -/
theorem Stmt.Checked.function_accounts
    (h : (Stmt.function name params returns body).Checked place before after) :
    ∃ bodyEnd, Accounts after ((params.map fun param => .define param.name) ++
      Stmt.mentionsOfBlock body) bodyEnd := by
  cases h with
  | function _ _ _ hparams hbody _ =>
      exact ⟨_, (Accounts.of_declares hparams).trans (hbody.accounts rfl)⟩

theorem mem_declaredNames : x ∈ declaredNames params body ↔
    .define x ∈ (params.map fun param => .define param.name) ++
      Stmt.mentionsOfBlock body := by
  rw [declaredNames, List.mem_append, List.mem_append,
    Mention.mem_filterMap_defined?]
  simp

/-- A function declares no name that is known before it. -/
theorem Stmt.Checked.unknown_of_declared
    (h : (Stmt.function name params returns body).Checked place before after)
    (hdeclared : x ∈ declaredNames params body) :
    before.lookupVariable? x = none := by
  obtain ⟨bodyEnd, haccounts⟩ := h.function_accounts
  obtain ⟨_, rfl⟩ := h.function_tables
  exact haccounts.defined (mem_declaredNames.mp hdeclared)

/-- All names a function uses without declaring them are known before it. -/
theorem Stmt.Checked.known_of_free
    (h : (Stmt.function name params returns body).Checked place before after)
    (hfree : x ∈ freeNames params body) : before.lookupVariable? x ≠ none := by
  obtain ⟨bodyEnd, haccounts⟩ := h.function_accounts
  obtain ⟨_, rfl⟩ := h.function_tables
  obtain ⟨hused, hdeclared⟩ := List.mem_filter.mp hfree
  obtain ⟨mention, hmention, huse⟩ := List.mem_filterMap.mp hused
  rcases haccounts.used (List.mem_append_right _ hmention) huse with hknown
    | hdefined
  · exact hknown
  · simp [mem_declaredNames.mpr hdefined] at hdeclared

end Function

end Shellwright
