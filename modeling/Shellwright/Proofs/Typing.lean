/-
Well-typed programs.  The judgement looks at a tree alone: it walks the
statements in order and keeps a table of the variables and one of the
functions, and says which table a statement leaves to the next one.
-/
import Shellwright.Program
import Shellwright.Scope
import Mathlib.Data.List.Forall2

namespace Shellwright

/-- The names a statement can see. -/
structure Tables where
  vars : VariableTable
  functions : List (String × Signature)
deriving DecidableEq, Repr

namespace Tables

def empty : Tables := ⟨[], []⟩

def lookupVariable? (tables : Tables) (name : String) : Option Variable :=
  tables.vars.lookup name

def lookupFunction? (tables : Tables) (name : String) : Option Signature :=
  tables.functions.lookup name

def withVariable (tables : Tables) (name : String) (var : Variable) : Tables :=
  { tables with vars := (name, var) :: tables.vars }

def withFunction (tables : Tables) (name : String) (signature : Signature) :
    Tables :=
  { tables with functions := (name, signature) :: tables.functions }

/-- Whatever can be looked up in `tables` gives the same in `wider`. -/
structure Within (tables wider : Tables) : Prop where
  vars : ∀ {name var}, tables.lookupVariable? name = some var →
    wider.lookupVariable? name = some var
  functions : ∀ {name signature}, tables.lookupFunction? name = some signature →
    wider.lookupFunction? name = some signature

/-- The bindings are entered one after the other; none of their names is taken
when its turn comes. -/
inductive Declares (constant : Bool) : Tables → List Binding → Tables →
    Prop where
  | nil {tables} : Declares constant tables [] tables
  | cons {tables after target targets} :
      tables.lookupVariable? target.name = none →
      Declares constant (tables.withVariable target.name
        ⟨target.ty, constant⟩) targets after →
      Declares constant tables (target :: targets) after

/-- What a loop leaves: it may forget names, but none that were visible before
it. -/
structure Forgets (before inside after : Tables) : Prop where
  kept : ∀ {name var}, before.lookupVariable? name = some var →
    after.lookupVariable? name = some var
  old : ∀ {name var}, after.lookupVariable? name = some var →
    inside.lookupVariable? name = some var
  functions : after.functions = inside.functions

theorem Within.refl (tables : Tables) : tables.Within tables := ⟨id, id⟩

theorem Within.trans {first second third : Tables}
    (hfirst : first.Within second) (hsecond : second.Within third) :
    first.Within third :=
  ⟨fun h => hsecond.vars (hfirst.vars h),
    fun h => hsecond.functions (hfirst.functions h)⟩

@[simp] theorem lookupVariable?_withVariable (tables : Tables)
    (name other : String) (var : Variable) :
    (tables.withVariable name var).lookupVariable? other =
      if other = name then some var else tables.lookupVariable? other := by
  unfold lookupVariable? withVariable
  by_cases hname : other = name
  · simp [hname]
  · rw [List.lookup_cons, beq_eq_false_iff_ne.mpr hname, if_neg hname]

@[simp] theorem lookupFunction?_withVariable (tables : Tables)
    (name other : String) (var : Variable) :
    (tables.withVariable name var).lookupFunction? other =
      tables.lookupFunction? other :=
  rfl

@[simp] theorem lookupFunction?_withFunction (tables : Tables)
    (name other : String) (signature : Signature) :
    (tables.withFunction name signature).lookupFunction? other =
      if other = name then some signature
      else tables.lookupFunction? other := by
  unfold lookupFunction? withFunction
  by_cases hname : other = name
  · simp [hname]
  · rw [List.lookup_cons, beq_eq_false_iff_ne.mpr hname, if_neg hname]

@[simp] theorem lookupVariable?_withFunction (tables : Tables)
    (name other : String) (signature : Signature) :
    (tables.withFunction name signature).lookupVariable? other =
      tables.lookupVariable? other := rfl

theorem within_withVariable {tables : Tables} {name : String} (var : Variable)
    (hnew : tables.lookupVariable? name = none) :
    tables.Within (tables.withVariable name var) := by
  refine ⟨fun {other found} h => ?_, fun h => h⟩
  have hne : other ≠ name := by
    rintro rfl
    rw [hnew] at h
    cases h
  simpa [hne] using h

theorem within_withFunction {tables : Tables} {name : String}
    (signature : Signature) (hnew : tables.lookupFunction? name = none) :
    tables.Within (tables.withFunction name signature) := by
  refine ⟨fun h => h, fun {other found} h => ?_⟩
  have hne : other ≠ name := by
    rintro rfl
    rw [hnew] at h
    cases h
  simpa [hne] using h

theorem Declares.within {constant : Bool} {tables after : Tables}
    {targets : List Binding} (h : Declares constant tables targets after) :
    tables.Within after := by
  induction h with
  | nil => exact .refl _
  | cons hnew _ ih => exact (within_withVariable _ hnew).trans ih

end Tables

namespace Expr

/-- The expression stands for a single value of type `ty`.  A pipeline counts as
what it prints. -/
def Yields (e : Expr) (ty : ValueType) : Prop :=
  e.types = [ty] ∨ (e.isProcess = true ∧ e.types.head? = some ty)

/-- The expression hands values of the given types to a list of targets.  A
pipeline hands out any prefix of its values. -/
def Hands (e : Expr) (types : List ValueType) : Prop :=
  types ≠ [] ∧ if e.isProcess then types <+: e.types else types = e.types

theorem Yields.ty_eq {e : Expr} {ty : ValueType} (h : e.Yields ty) :
    e.ty = ty := by
  unfold Expr.ty
  rcases h with h | ⟨_, h⟩
  · simp [h]
  · cases htypes : e.types <;> simp_all

end Expr

/-- The type an operand must have. -/
def UnaryOp.operand : UnaryOp → ValueType
  | neg => .int
  | not => .bool

theorem UnaryOp.operand_isList (op : UnaryOp) : op.operand.isList = false := by
  cases op <;> rfl

/-- Arithmetic is defined on numbers, and `+` on strings. -/
def BinaryOp.DefinedOn (op : BinaryOp) (ty : ValueType) : Prop :=
  ty = .int ∨ (ty = .string ∧ op = .add)

theorem BinaryOp.DefinedOn.isList {op : BinaryOp} {ty : ValueType}
    (h : op.DefinedOn ty) : ty.isList = false := by
  rcases h with rfl | ⟨rfl, _⟩ <;> rfl

theorem ValueType.isList_of_isScalar {ty : ValueType} (h : ty.isScalar = true) :
    ty.isList = false := by
  simpa using (Bool.and_eq_true_iff.mp h).1

/-- Comparison is defined on scalars, ordering on numbers. -/
def CompareOp.DefinedOn (op : CompareOp) (ty : ValueType) : Prop :=
  ty.isScalar = true ∧ (op.isOrdering = true → ty = .int)

/-- Every name is known with the type the tree records, and every operator,
index, call and builtin gets operands of the types it is defined on. -/
inductive Expr.Typed (tables : Tables) : Expr → Prop where
  | bool {value} : Typed tables (.bool value [.bool])
  | int {value} : Typed tables (.int value [.int])
  | string {value} : Typed tables (.string value [.string])
  | unary {op operand} :
      Typed tables operand → operand.Yields op.operand →
      Typed tables (.unary op operand [op.operand])
  | binary {op left right ty} :
      Typed tables left → Typed tables right → left.Yields ty →
        right.Yields ty →
      op.DefinedOn ty → Typed tables (.binary op left right [ty])
  | compare {op left right ty} :
      Typed tables left → Typed tables right → left.Yields ty →
        right.Yields ty →
      op.DefinedOn ty → Typed tables (.compare op left right [.bool])
  | logical {op left right} :
      Typed tables left → Typed tables right → left.Yields .bool →
        right.Yields .bool →
      Typed tables (.logical op left right [.bool])
  | var {name var} :
      tables.lookupVariable? name = some var → Typed tables (.var name [var.ty])
  | listLiteral {items ty} :
      ty.isList = true → ty.element.isScalar = true →
        (∀ item ∈ items, Typed tables item) →
      (∀ item ∈ items, item.Yields ty.element) →
        Typed tables (.listLiteral items [ty])
  | listElement {list index ty} :
      Typed tables list → Typed tables index → list.Yields ty →
        ty.isList = true →
      index.Yields .int → Typed tables (.listElement list index [ty.element])
  | listLength {list ty} :
      Typed tables list → list.Yields ty → ty.isList = true →
      Typed tables (.listLength list [.int])
  | substring {value start stop} :
      Typed tables value → Typed tables start → (∀ e ∈ stop, Typed tables e) →
      value.Yields .string → start.Yields .int → (∀ e ∈ stop, e.Yields .int) →
      Typed tables (.substring value start stop [.string])
  | stringLength {value} :
      Typed tables value → value.Yields .string →
        Typed tables (.stringLength value [.int])
  | group {inner ty} :
      Typed tables inner → inner.Yields ty → Typed tables (.group inner [ty])
  | call {name args signature} :
      tables.lookupFunction? name = some signature →
        (∀ arg ∈ args, Typed tables arg) →
      List.Forall₂ Expr.Yields args signature.params →
      Typed tables (.call name args signature.returns)
  | process {stages} :
      stages ≠ [] → (∀ stage ∈ stages, ∀ arg ∈ stage.2, Typed tables arg) →
      (∀ stage ∈ stages, ∀ arg ∈ stage.2, ∃ ty, arg.Yields ty ∧
        ty.isScalar = true) →
      Typed tables (.process stages [.string, .string, .int])
  | input {prompt} :
      (∀ e ∈ prompt, Typed tables e) → (∀ e ∈ prompt, e.Yields .string) →
      Typed tables (.input prompt [.string])
  | copy {list ty} :
      Typed tables list → list.Yields ty → ty.isList = true →
        Typed tables (.copy list [ty])
  | fileExists {path} :
      Typed tables path → path.Yields .string →
        Typed tables (.fileExists path [.bool])
  | fileContent {path} :
      Typed tables path → path.Yields .string →
        Typed tables (.fileContent path [.string])
  | intToString {value} :
      Typed tables value → value.Yields .int →
        Typed tables (.intToString value [.string])
  | stringToInt {value} :
      Typed tables value → value.Yields .string →
        Typed tables (.stringToInt value [.int])

/-- More names do not hurt an expression. -/
theorem Expr.Typed.mono {tables wider : Tables} (hwithin : tables.Within wider)
    {e : Expr} (h : e.Typed tables) : e.Typed wider := by
  induction h with
  | bool => exact .bool
  | int => exact .int
  | string => exact .string
  | unary _ hyields ih => exact .unary ih hyields
  | binary _ _ hleft hright hop ihl ihr =>
      exact .binary ihl ihr hleft hright hop
  | compare _ _ hleft hright hop ihl ihr =>
      exact .compare ihl ihr hleft hright hop
  | logical _ _ hleft hright ihl ihr => exact .logical ihl ihr hleft hright
  | var hlookup => exact .var (hwithin.vars hlookup)
  | listLiteral hlist hscalar _ hyields ih =>
      exact .listLiteral hlist hscalar ih hyields
  | listElement _ _ hyields hlist hindex ihl ihi =>
      exact .listElement ihl ihi hyields hlist hindex
  | listLength _ hyields hlist ih => exact .listLength ih hyields hlist
  | substring _ _ _ hvalue hstart hstop ihv ihs ihe =>
      exact .substring ihv ihs ihe hvalue hstart hstop
  | stringLength _ hyields ih => exact .stringLength ih hyields
  | group _ hyields ih => exact .group ih hyields
  | call hlookup _ hargs ih => exact .call (hwithin.functions hlookup) ih hargs
  | process hstages _ hargs ih => exact .process hstages ih hargs
  | input _ hprompt ih => exact .input ih hprompt
  | copy _ hyields hlist ih => exact .copy ih hyields hlist
  | fileExists _ hyields ih => exact .fileExists ih hyields
  | fileContent _ hyields ih => exact .fileContent ih hyields
  | intToString _ hyields ih => exact .intToString ih hyields
  | stringToInt _ hyields ih => exact .stringToInt ih hyields

/-- Where a statement stands: directly in the program or deeper, inside a loop
or not, and what the enclosing function returns. -/
structure Place where
  topLevel : Bool
  inLoop : Bool
  returns : Option (List ValueType)
deriving DecidableEq, Repr

namespace Place

def program : Place := ⟨true, false, none⟩

def functionBody (returns : List ValueType) : Place :=
  ⟨false, false, some returns⟩

/-- Inside a block. -/
def inner (place : Place) : Place := { place with topLevel := false }

def loopBody (place : Place) : Place :=
  { place with topLevel := false, inLoop := true }

end Place

/-- A target of an assignment is a known variable of the recorded type that may
change; the name `_` takes a value and forgets it. -/
def Binding.Assignable (tables : Tables) (target : Binding) : Prop :=
  target.name = "_" ∨ tables.lookupVariable? target.name =
    some ⟨target.ty, false⟩

/-- The values of a `return` are those the function promises: the results of a
single call, or one value for each. -/
def Returned (values : List Expr) (required : List ValueType) : Prop :=
  (∃ value, values = [value] ∧ value.isProcess = false ∧
    1 < value.types.length ∧ value.types = required) ∨
  List.Forall₂ Expr.Yields values required

mutual

/-- `Checked place before s after`: the statement is well typed where it stands
when the names in `before` are known, and leaves those in `after`. -/
inductive Stmt.Checked : Place → Tables → Stmt → Tables → Prop where
  | defineEmpty {place before after targets constant} :
      targets ≠ [] → (∀ target ∈ targets, target.name ≠ "_") →
      Tables.Declares constant before targets after →
      Stmt.Checked place before (.define targets none constant) after
  /-- The value is checked before its targets are known. -/
  | define {place before after targets value constant} :
      value.Typed before → value.Hands (targets.map Binding.ty) →
      Tables.Declares constant before (targets.filter (·.name != "_")) after →
      Stmt.Checked place before (.define targets (some value) constant) after
  | assign {place tables targets value} :
      value.Typed tables → value.Hands (targets.map Binding.ty) →
      (∀ target ∈ targets, target.Assignable tables) →
      Stmt.Checked place tables (.assign targets value) tables
  | store {place tables target index value} :
      tables.lookupVariable? target.name = some ⟨target.ty, false⟩ →
      target.ty.isList = true → index.Typed tables → index.Yields .int →
      value.Typed tables → value.Yields target.ty.element →
      Stmt.Checked place tables (.store target index value) tables
  /-- The body works on a copy of the variables, to which the parameters are
  added, and the function is known inside it. -/
  | function {place before inside bodyEnd name params returns body} :
      place.topLevel = true → before.lookupFunction? name = none →
      before.lookupVariable? name = none →
      Tables.Declares false
        (before.withFunction name ⟨params.map Binding.ty, returns⟩)
        params inside →
      Block.Checked (.functionBody returns) inside body bodyEnd →
      (returns ≠ [] → body.getLast?.any Stmt.isReturn = true) →
      Stmt.Checked place before (.function name params returns body)
        (before.withFunction name ⟨params.map Binding.ty, returns⟩)
  | giveBack {place tables values required} :
      place.returns = some required → (∀ value ∈ values, value.Typed tables) →
      Returned values required →
        Stmt.Checked place tables (.giveBack values) tables
  | choose {place before after branches otherwise} :
      branches ≠ [] →
        Chain.Checked place.inner before branches otherwise after →
      Stmt.Checked place before (.choose branches otherwise) after
  /-- The parts of a loop are checked in the order start, condition, post
  statement, body. -/
  | loop {place before started stepped inside after init condition post body} :
      Part.Checked place.inner before init started →
      (∀ test ∈ condition, test.Typed started ∧ test.Yields .bool) →
      Part.Checked place.inner started post stepped →
      Block.Checked place.loopBody stepped body inside →
      Tables.Forgets before inside after →
      Stmt.Checked place before (.loop init condition post body) after
  | leaveLoop {place tables} :
      place.inLoop = true → Stmt.Checked place tables .leaveLoop tables
  | nextRound {place tables} :
      place.inLoop = true → Stmt.Checked place tables .nextRound tables
  | print {place tables value ty} :
      value.Typed tables → value.Yields ty → ty.isScalar = true →
      Stmt.Checked place tables (.print value) tables
  | panic {place tables message} :
      message.Typed tables → message.Yields .string →
      Stmt.Checked place tables (.panic message) tables
  | writeFile {place tables path content append} :
      path.Typed tables → path.Yields .string → content.Typed tables →
      content.Yields .string →
        Stmt.Checked place tables (.writeFile path content append) tables
  | action {place tables value} :
      value.Typed tables → value.isAction = true →
      Stmt.Checked place tables (.action value) tables
  | noOp {place tables} : Stmt.Checked place tables .noOp tables

/-- Statements one after the other. -/
inductive Block.Checked : Place → Tables → List Stmt → Tables → Prop where
  | nil {place tables} : Block.Checked place tables [] tables
  | cons {place before middle after s rest} :
      Stmt.Checked place before s middle →
        Block.Checked place middle rest after →
      Block.Checked place before (s :: rest) after

/-- Part of a loop header that may be missing. -/
inductive Part.Checked : Place → Tables → Option Stmt → Tables → Prop where
  | none {place tables} : Part.Checked place tables none tables
  | some {place before after s} :
      Stmt.Checked place before s after →
        Part.Checked place before (some s) after

/-- The branches of an if chain in order, each condition before its body.  The
last alternative has a turn of its own, before, between or after them. -/
inductive Chain.Checked :
    Place → Tables → List (Expr × List Stmt) → Option (List Stmt) → Tables →
      Prop where
  | nil {place tables} : Chain.Checked place tables [] none tables
  | branch {place before middle after condition body branches otherwise} :
      condition.Typed before → condition.Yields .bool →
      Block.Checked place before body middle →
      Chain.Checked place middle branches otherwise after →
      Chain.Checked place before ((condition, body) :: branches) otherwise after
  | otherwise {place before middle after body branches} :
      Block.Checked place before body middle →
      Chain.Checked place middle branches none after →
      Chain.Checked place before branches (some body) after

end

/-! What a statement does to the tables. -/

/-- A statement keeps what is known and adds functions in front; away from the
top level it defines no function. -/
structure Leaves (place : Place) (before after : Tables) : Prop where
  within : before.Within after
  older : before.functions <:+ after.functions
  functions : place.topLevel = false → after.functions = before.functions

theorem Leaves.refl (place : Place) (tables : Tables) :
    Leaves place tables tables :=
  ⟨.refl tables, List.suffix_refl _, fun _ => rfl⟩

theorem Leaves.trans {place : Place} {before middle after : Tables}
    (hfirst : Leaves place before middle)
    (hsecond : Leaves place middle after) :
    Leaves place before after :=
  ⟨hfirst.within.trans hsecond.within, hfirst.older.trans hsecond.older,
    fun hinside => (hsecond.functions hinside).trans (hfirst.functions hinside)⟩

theorem Leaves.of_inner {place : Place} {before after : Tables}
    (h : Leaves place.inner before after) : Leaves place before after :=
  ⟨h.within, h.older, fun _ => h.functions rfl⟩

theorem Tables.Declares.functions {constant : Bool} {tables after : Tables}
    {targets : List Binding} (h : Declares constant tables targets after) :
    after.functions = tables.functions := by
  induction h with
  | nil => rfl
  | cons _ _ ih => exact ih

theorem Tables.Declares.leaves {constant : Bool} {tables after : Tables}
    {targets : List Binding} (place : Place)
    (h : Declares constant tables targets after) :
    Leaves place tables after :=
  ⟨h.within, h.functions ▸ List.suffix_refl _, fun _ => h.functions⟩

/-- A loop leaves the functions its body has left, and what was known before. -/
theorem Tables.Forgets.leaves {place : Place} {before inside after : Tables}
    (hforgets : Forgets before inside after)
    (h : Leaves place.inner before inside) :
    Leaves place before after where
  within := by
    refine ⟨hforgets.kept, fun {name signature} hlookup => ?_⟩
    unfold lookupFunction?
    rw [hforgets.functions, h.functions rfl]
    exact hlookup
  older := by rw [hforgets.functions]; exact h.older
  functions _ := hforgets.functions.trans (h.functions rfl)

mutual

theorem Stmt.Checked.leaves {place : Place} {before after : Tables} {s : Stmt} :
    Stmt.Checked place before s after → Leaves place before after
  | .defineEmpty _ _ hdeclares => hdeclares.leaves place
  | .define _ _ hdeclares => hdeclares.leaves place
  | .assign .. => .refl _ _
  | .store .. => .refl _ _
  | .function htop hnew _ _ _ _ =>
      ⟨Tables.within_withFunction _ hnew, List.suffix_cons _ _,
        fun hinside => by simp [htop] at hinside⟩
  | .giveBack .. => .refl _ _
  | .choose _ hchain => hchain.leaves.of_inner
  | .loop hinit _ hpost hbody hforgets =>
      hforgets.leaves ((hinit.leaves.trans hpost.leaves).trans
        ⟨hbody.leaves.within, hbody.leaves.older,
          fun _ => hbody.leaves.functions rfl⟩)
  | .leaveLoop _ => .refl _ _
  | .nextRound _ => .refl _ _
  | .print .. => .refl _ _
  | .panic .. => .refl _ _
  | .writeFile .. => .refl _ _
  | .action .. => .refl _ _
  | .noOp => .refl _ _

theorem Block.Checked.leaves {place : Place} {before after : Tables}
    {body : List Stmt} :
    Block.Checked place before body after → Leaves place before after
  | .nil => .refl _ _
  | .cons hfirst hrest => hfirst.leaves.trans hrest.leaves

theorem Part.Checked.leaves {place : Place} {before after : Tables}
    {part : Option Stmt} :
    Part.Checked place before part after → Leaves place before after
  | .none => .refl _ _
  | .some h => h.leaves

theorem Chain.Checked.leaves {place : Place} {before after : Tables}
    {branches : List (Expr × List Stmt)} {otherwise : Option (List Stmt)} :
    Chain.Checked place before branches otherwise after →
      Leaves place before after
  | .nil => .refl _ _
  | .branch _ _ hbody hrest => hbody.leaves.trans hrest.leaves
  | .otherwise hbody hrest => hbody.leaves.trans hrest.leaves

end

/-! Blocks and chains grow at their ends. -/

theorem Block.Checked.singleton {place : Place} {before after : Tables}
    {s : Stmt} (h : s.Checked place before after) :
    Block.Checked place before [s] after :=
  .cons h .nil

theorem Block.Checked.append {place : Place} {before middle after : Tables}
    {first second : List Stmt}
    (hfirst : Block.Checked place before first middle)
    (hsecond : Block.Checked place middle second after) :
    Block.Checked place before (first ++ second) after := by
  induction first generalizing before with
  | nil =>
      cases hfirst
      exact hsecond
  | cons s rest ih =>
      cases hfirst with
      | cons hs hrest => exact .cons hs (ih hrest)

theorem Chain.Checked.concat {place : Place} {before middle after : Tables}
    {branches : List (Expr × List Stmt)} {otherwise : Option (List Stmt)}
    {condition : Expr}
    {body : List Stmt}
    (h : Chain.Checked place before branches otherwise middle)
    (htyped : condition.Typed middle) (hyields : condition.Yields .bool)
    (hbody : Block.Checked place middle body after) :
    Chain.Checked place before (branches ++ [(condition, body)]) otherwise
      after := by
  match h with
  | .nil => exact .branch htyped hyields hbody .nil
  | .branch htyped' hyields' hbody' hrest =>
      exact .branch htyped' hyields' hbody' (hrest.concat htyped hyields hbody)
  | .otherwise hbody' hrest =>
      exact .otherwise hbody' (hrest.concat htyped hyields hbody)

/-- An alternative that comes last. -/
theorem Chain.Checked.close {place : Place} {before middle after : Tables}
    {branches : List (Expr × List Stmt)} {body : List Stmt}
    (h : Chain.Checked place before branches none middle)
    (hbody : Block.Checked place middle body after) :
    Chain.Checked place before branches (some body) after := by
  match h with
  | .nil => exact .otherwise hbody .nil
  | .branch htyped hyields hbody' hrest =>
      exact .branch htyped hyields hbody' (hrest.close hbody)

/-- A chain without branches is its alternative. -/
theorem Chain.Checked.alternative {place : Place} {before after : Tables}
    {otherwise : Option (List Stmt)}
    (h : Chain.Checked place before [] otherwise after) :
    Block.Checked place before (otherwise.getD []) after := by
  match h with
  | .nil => exact .nil
  | .otherwise hbody .nil => exact hbody

/-- Whether a statement is directly in the program matters to functions only. -/
theorem Stmt.Checked.at_place {place other : Place} {before after : Tables}
    {s : Stmt} (h : s.Checked place before after)
    (hinner : other.inner = place.inner)
    (hfunction : ∀ name params returns body,
      s = .function name params returns body →
      other.topLevel = true) : s.Checked other before after := by
  obtain ⟨top, inLoop, returns⟩ := place
  obtain ⟨otherTop, otherLoop, otherReturns⟩ := other
  obtain ⟨rfl, rfl⟩ : otherLoop = inLoop ∧ otherReturns = returns := by
    simpa [Place.inner] using hinner
  cases h with
  | defineEmpty hne hnames hdeclares => exact .defineEmpty hne hnames hdeclares
  | define hvalue hhands hdeclares => exact .define hvalue hhands hdeclares
  | assign hvalue hhands htargets => exact .assign hvalue hhands htargets
  | store hlookup hlist hindex hint hvalue helement =>
      exact .store hlookup hlist hindex hint hvalue helement
  | function _ hnew hvar hparams hbody hreturn =>
      exact .function (hfunction _ _ _ _ rfl) hnew hvar hparams hbody hreturn
  | giveBack hreturns hvalues hreturned =>
      exact .giveBack hreturns hvalues hreturned
  | choose hne hchain => exact .choose hne hchain
  | loop hinit hcondition hpost hbody hforgets =>
      exact .loop hinit hcondition hpost hbody hforgets
  | leaveLoop hloop => exact .leaveLoop hloop
  | nextRound hloop => exact .nextRound hloop
  | print hvalue hyields hscalar => exact .print hvalue hyields hscalar
  | panic hmessage hyields => exact .panic hmessage hyields
  | writeFile hpath hpathYields hcontent hcontentYields =>
      exact .writeFile hpath hpathYields hcontent hcontentYields
  | action hvalue haction => exact .action hvalue haction
  | noOp => exact .noOp

/-- What is well typed inside a block is so around it. -/
theorem Stmt.Checked.of_inner {place : Place} {before after : Tables} {s : Stmt}
    (h : s.Checked place.inner before after) :
    s.Checked place before after := by
  refine h.at_place rfl ?_
  rintro name params returns body rfl
  cases h with
  | function htop => cases htop

theorem Block.Checked.of_inner {place : Place} {before after : Tables}
    {body : List Stmt} (h : Block.Checked place.inner before body after) :
    Block.Checked place before body after := by
  induction body generalizing before with
  | nil =>
      cases h
      exact .nil
  | cons s rest ih =>
      cases h with
      | cons hs hrest => exact .cons hs.of_inner (ih hrest)

/-- A program is well typed when its statements are, starting with no names. -/
def Program.WellTyped (program : Program) : Prop :=
  ∃ tables, Block.Checked .program .empty program.statements tables

end Shellwright
