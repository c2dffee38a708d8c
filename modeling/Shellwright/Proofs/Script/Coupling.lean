/-
Two dialects side by side.  A coupling relates the states of two dialects and
the fragments they yield.  If every operation keeps it, the two write a tree in
step: both succeed, or both fail with the same error.
-/
import Shellwright.Proofs.Script.WriteStmt

namespace Shellwright

namespace Stmt

mutual

/-- No function is defined inside, and every if chain has a branch. -/
def isInner : Stmt → Bool
  | .function .. => false
  | .choose branches otherwise =>
      !branches.isEmpty && areInner branches && isInnerFallback otherwise
  | .loop init _ post body =>
      isInnerPart init && isInnerPart post && isInnerBlock body
  | _ => true

def isInnerBlock : List Stmt → Bool
  | [] => true
  | s :: rest => s.isInner && isInnerBlock rest

def isInnerPart : Option Stmt → Bool
  | none => true
  | some s => s.isInner

def areInner : List (Expr × List Stmt) → Bool
  | [] => true
  | (_, body) :: rest => isInnerBlock body && areInner rest

def isInnerFallback : Option (List Stmt) → Bool
  | none => true
  | some body => isInnerBlock body

end

/-- A statement of a program, where functions are defined. -/
def isOuter : Stmt → Bool
  | .function _ _ _ body => isInnerBlock body
  | s => s.isInner

end Stmt

theorem Stmt.isInner_or_function {s : Stmt} (houter : s.isOuter = true) :
    s.isInner = true ∨ ∃ name params returns body, s =
      .function name params returns body := by
  cases s with
  | function name params returns body =>
      exact .inr ⟨name, params, returns, body, rfl⟩
  | _ => exact .inl houter

/-- Functions are defined at the top level only, and every if chain has a
branch. -/
def Program.isNested (program : Program) : Bool :=
  program.statements.all Stmt.isOuter

/-! What is well typed is nested. -/

mutual

theorem Stmt.Checked.isInner {place : Place} {before after : Tables} {s : Stmt}
    (h : s.Checked place before after) (hinner : place.topLevel = false) :
    s.isInner = true := by
  match h with
  | .function htop _ _ _ _ _ =>
      rw [hinner] at htop
      cases htop
  | .choose hsome hchain =>
      obtain ⟨hbodies, hfallback⟩ := hchain.isInner rfl
      simp [Stmt.isInner, hsome, hbodies, hfallback]
  | .loop hinit _ hpost hbody _ =>
      simp [Stmt.isInner, hinit.isInner rfl, hpost.isInner rfl,
        hbody.isInner rfl]
  | .defineEmpty .. | .define .. | .assign .. | .store .. | .giveBack ..
  | .leaveLoop .. | .nextRound .. | .print .. | .panic .. | .writeFile ..
  | .action .. | .noOp => rfl

theorem Block.Checked.isInner {place : Place} {before after : Tables}
    {body : List Stmt} (h : Block.Checked place before body after)
    (hinner : place.topLevel = false) : Stmt.isInnerBlock body = true := by
  match h with
  | .nil => rfl
  | .cons hfirst hrest =>
      simp [Stmt.isInnerBlock, hfirst.isInner hinner, hrest.isInner hinner]

theorem Part.Checked.isInner {place : Place} {before after : Tables}
    {part : Option Stmt} (h : Part.Checked place before part after)
    (hinner : place.topLevel = false) : Stmt.isInnerPart part = true := by
  match h with
  | .none => rfl
  | .some hstatement => exact hstatement.isInner hinner

theorem Chain.Checked.isInner {place : Place} {before after : Tables}
    {branches : List (Expr × List Stmt)} {otherwise : Option (List Stmt)}
    (h : Chain.Checked place before branches otherwise after)
    (hinner : place.topLevel = false) :
    Stmt.areInner branches = true ∧ Stmt.isInnerFallback otherwise = true := by
  match h with
  | .nil => exact ⟨rfl, rfl⟩
  | .branch _ _ hbody hrest =>
      obtain ⟨hbodies, hfallback⟩ := hrest.isInner hinner
      exact ⟨by simp [Stmt.areInner, hbody.isInner hinner, hbodies], hfallback⟩
  | .otherwise hbody hrest =>
      exact ⟨(hrest.isInner hinner).1, hbody.isInner hinner⟩

end

theorem Stmt.Checked.isOuter {place : Place} {before after : Tables} {s : Stmt}
    (h : s.Checked place before after) : s.isOuter = true := by
  cases s with
  | function name params returns body =>
      cases h with
      | function _ _ _ _ hbody _ => exact hbody.isInner rfl
  | _ =>
      have hat : Stmt.Checked place.inner before _ after :=
        h.at_place rfl (by rintro _ _ _ _ ⟨⟩)
      exact hat.isInner rfl

theorem Block.Checked.isOuter {place : Place} {before after : Tables}
    {body : List Stmt} (h : Block.Checked place before body after) :
    body.all Stmt.isOuter = true := by
  induction body generalizing before with
  | nil => rfl
  | cons s rest ih =>
      cases h with
      | cons hfirst hrest => simp [hfirst.isOuter, ih hrest]

namespace Script

variable {σ τ α β γ δ : Type} {targets : List Binding}

/-- What relates two dialects.  The second one may raise the errors it is
excused for wherever it likes. -/
structure Coupling (σ τ : Type) where
  excused : ScriptError → Prop
  states : Progress → σ → τ → Prop
  fragments : String → String → Prop

namespace Coupling

variable {r : α → β → Prop}

/-- Two outcomes that go together. -/
inductive InStep (c : Coupling σ τ) (after : Progress) (Q : α → β → Prop) :
    Except ScriptError α × σ → Except ScriptError β × τ → Prop where
  | excused {outcome error t} : c.excused error →
      InStep c after Q outcome (.error error, t)
  | failed {error s t} : InStep c after Q (.error error, s) (.error error, t)
  | done {a b s t} : Q a b → c.states after s t →
      InStep c after Q (.ok a, s) (.ok b, t)

theorem InStep.weaken {c : Coupling σ τ} {after : Progress}
    {Q Q' : α → β → Prop} {outcome : Except ScriptError α × σ}
    {outcome' : Except ScriptError β × τ}
    (h : c.InStep after Q outcome outcome') (hQ : ∀ a b, Q a b → Q' a b) :
    c.InStep after Q' outcome outcome' := by
  cases h with
  | excused hexcused => exact .excused hexcused
  | failed => exact .failed
  | done hvalues hstates => exact .done (hQ _ _ hvalues) hstates

/-- Two writers that come from `before` to `after` in step. -/
def Matches (c : Coupling σ τ) (before after : Progress) (p : Write σ α)
    (q : Write τ β) (Q : α → β → Prop) : Prop :=
  ∀ s t, c.states before s t → c.InStep after Q (exec p s) (exec q t)

/-- Two writers that stay where they are. -/
abbrev Keeps (c : Coupling σ τ) (p : Write σ α) (q : Write τ β)
    (Q : α → β → Prop) : Prop :=
  ∀ here, c.Matches here here p q Q

abbrev texts (c : Coupling σ τ) : List String → List String → Prop :=
  List.Forall₂ c.fragments

abbrev text? (c : Coupling σ τ) : Option String → Option String → Prop :=
  Option.Rel c.fragments

abbrev values (c : Coupling σ τ) :
    List (String × ValueType) → List (String × ValueType) → Prop :=
  List.Forall₂ fun first second => c.fragments first.1 second.1 ∧
    first.2 = second.2

abbrev stages (c : Coupling σ τ) : List Invocation → List Invocation → Prop :=
  List.Forall₂ fun first second => first.program = second.program ∧
    c.texts first.args second.args

namespace Matches

variable {c : Coupling σ τ} {before mid after here : Progress} {p : Write σ α}
  {q : Write τ β} {Q : α → β → Prop}

theorem bind {f : α → Write σ γ} {g : β → Write τ δ} {Q' : γ → δ → Prop}
    (h : c.Matches before mid p q Q)
    (hrest : ∀ a b, Q a b → c.Matches mid after (f a) (g b) Q') :
    c.Matches before after (p >>= f) (q >>= g) Q' := by
  intro s t hstates
  have hfirst := h s t hstates
  rw [exec_bind, exec_bind]
  rcases hp : exec p s with ⟨result, s'⟩
  rcases hq : exec q t with ⟨result', t'⟩
  rw [hp, hq] at hfirst
  cases hfirst with
  | excused hexcused => exact .excused hexcused
  | failed => exact .failed
  | done hvalues hstates' => exact hrest _ _ hvalues s' t' hstates'

theorem weaken {Q' : α → β → Prop} (h : c.Matches before after p q Q)
    (hQ : ∀ a b, Q a b → Q' a b) : c.Matches before after p q Q' :=
  fun s t hstates => (h s t hstates).weaken hQ

theorem pure {a : α} {b : β} (h : Q a b) :
    c.Matches here here (Pure.pure a : Write σ α) (Pure.pure b : Write τ β) Q :=
  fun _ _ hstates => .done h hstates

theorem throw {error : ScriptError} :
    c.Matches before after (MonadExcept.throw error : Write σ α)
      (MonadExcept.throw error : Write τ β) Q :=
  fun _ _ _ => .failed

/-- The same step for every pair of items. -/
theorem forM {items : List α} {others : List β} {step : α → Write σ Unit}
    {step' : β → Write τ Unit} (hitems : List.Forall₂ r items others)
    (h : ∀ item other, r item other → c.Matches here here (step item) (step'
      other) fun _ _ => True) :
    c.Matches here here (items.forM step) (others.forM step')
      fun _ _ => True := by
  induction hitems with
  | nil => exact .pure trivial
  | cons hitem _ ih => exact .bind (h _ _ hitem) fun _ _ _ => ih

end Matches

theorem forall₂_zip_right {firsts : List α} {seconds : List β} {others : List γ}
    (h : List.Forall₂ r firsts seconds) :
    List.Forall₂ (fun first second => r first.1 second.1 ∧ first.2 = second.2)
      (firsts.zip others) (seconds.zip others) := by
  induction h generalizing others with
  | nil => exact .nil
  | cons hfirst _ ih =>
      cases others with
      | nil => exact .nil
      | cons other others => exact .cons ⟨hfirst, rfl⟩ ih

theorem forall₂_zip_left {r : β → γ → Prop} {others : List α} {firsts : List β}
    {seconds : List γ} (h : List.Forall₂ r firsts seconds) :
    List.Forall₂ (fun first second => first.1 = second.1 ∧ r first.2 second.2)
      (others.zip firsts) (others.zip seconds) := by
  induction h generalizing others with
  | nil =>
      rw [List.zip_nil_right, List.zip_nil_right]
      exact .nil
  | cons hfirst _ ih =>
      cases others with
      | nil => exact .nil
      | cons other others => exact .cons ⟨rfl, hfirst⟩ ih

/-! Couplings of equal fragments. -/

theorem texts_eq {c : Coupling σ τ} (hc : c.fragments = Eq)
    {first second : List String} (h : c.texts first second) :
    first = second := by
  rw [← List.forall₂_eq_eq_eq, ← hc]
  exact h

theorem text?_eq {c : Coupling σ τ} (hc : c.fragments = Eq)
    {first second : Option String} (h : c.text? first second) :
    first = second := by
  unfold text? at h
  rw [hc] at h
  cases h with
  | some hvalue => exact congrArg some hvalue
  | none => rfl

theorem values_eq {c : Coupling σ τ} (hc : c.fragments = Eq)
    {first second : List (String × ValueType)} (h : c.values first second) :
    first = second := by
  unfold values at h
  rw [hc] at h
  induction h with
  | nil => rfl
  | cons hvalue _ ih => rw [Prod.ext hvalue.1 hvalue.2, ih]

theorem stages_eq {c : Coupling σ τ} (hc : c.fragments = Eq)
    {first second : List Invocation} (h : c.stages first second) :
    first = second := by
  unfold stages at h
  induction h with
  | nil => rfl
  | @cons stage stage' _ _ hstage _ ih =>
      obtain ⟨program, args⟩ := stage
      obtain ⟨program', args'⟩ := stage'
      obtain ⟨rfl, hargs⟩ : program = program' ∧ c.texts args args' := hstage
      rw [texts_eq hc hargs, ih]

end Coupling

/-- What the operations of two dialects do to a coupling. -/
structure Coupled [Dialect σ] [Dialect τ] (c : Coupling σ τ) : Prop where
  fresh : c.states .start Dialect.fresh Dialect.fresh
  programStart : c.Keeps Dialect.programStart Dialect.programStart
    fun _ _ => True
  programEnd : c.Matches .start .start Dialect.programEnd Dialect.programEnd
    c.fragments
  boolLiteral : ∀ {value},
    c.Keeps (Dialect.boolLiteral value) (Dialect.boolLiteral value) c.fragments
  intLiteral : ∀ {value}, c.Keeps (Dialect.intLiteral value)
    (Dialect.intLiteral value) c.fragments
  stringLiteral : ∀ {value},
    c.Keeps (Dialect.stringLiteral value) (Dialect.stringLiteral value)
      c.fragments
  defineVariable : ∀ {name ty value value'}, c.text? value value' →
    c.Keeps (Dialect.defineVariable name ty value)
      (Dialect.defineVariable name ty value') fun _ _ => True
  assignVariable : ∀ {name ty value value'}, c.fragments value value' →
    c.Keeps (Dialect.assignVariable name ty value)
      (Dialect.assignVariable name ty value') fun _ _ => True
  storeElement : ∀ {name element index index' value value'},
    c.fragments index index' → c.fragments value value' →
    c.Keeps (Dialect.storeElement name element index value)
      (Dialect.storeElement name element index' value') fun _ _ => True
  readVariable : ∀ {name ty},
    c.Keeps (Dialect.readVariable name ty) (Dialect.readVariable name ty)
      c.fragments
  readElement : ∀ {list list' element index index'}, c.fragments list list' →
    c.fragments index index' →
    c.Keeps (Dialect.readElement list element index)
      (Dialect.readElement list' element index') c.fragments
  ifStart : ∀ {condition condition' here}, c.fragments condition condition' →
    c.Matches here (here.opened .branch) (Dialect.ifStart condition)
      (Dialect.ifStart condition') fun _ _ => True
  elseIfStart : ∀ {condition condition'} {here : Progress},
    c.fragments condition condition' →
    c.Matches (here.opened .branch) (here.opened .branch)
      (Dialect.elseIfStart condition)
      (Dialect.elseIfStart condition') fun _ _ => True
  elseStart : ∀ {here : Progress}, c.Matches (here.opened .branch)
    (here.opened .alternative)
    Dialect.elseStart Dialect.elseStart fun _ _ => True
  ifEnd : ∀ {here : Progress} {construct}, construct = .branch ∨
    construct = .alternative →
    c.Matches (here.opened construct) here Dialect.ifEnd Dialect.ifEnd
      fun _ _ => True
  loopStart : ∀ {here}, c.Matches here (here.opened .started) Dialect.loopStart
    Dialect.loopStart fun _ _ => True
  postStart : ∀ {here : Progress}, c.Matches (here.opened .started)
    (here.opened .post) Dialect.postStart Dialect.postStart fun _ _ => True
  postEnd : ∀ {here : Progress}, c.Matches (here.opened .post)
    (here.opened .loop) Dialect.postEnd Dialect.postEnd fun _ _ => True
  loopCondition : ∀ {condition condition'} {here : Progress},
    c.fragments condition condition' →
    c.Matches (here.opened .loop) (here.opened .loop)
      (Dialect.loopCondition condition)
      (Dialect.loopCondition condition') fun _ _ => True
  loopEnd : ∀ {here : Progress},
    c.Matches (here.opened .loop) here Dialect.loopEnd Dialect.loopEnd
      fun _ _ => True
  leaveLoop : c.Keeps Dialect.leaveLoop Dialect.leaveLoop fun _ _ => True
  nextRound : c.Keeps Dialect.nextRound Dialect.nextRound fun _ _ => True
  functionStart : ∀ {name params returns},
    c.Matches .start { Progress.start with function := some name }
      (Dialect.functionStart name params returns)
        (Dialect.functionStart name params returns)
      fun _ _ => True
  functionEnd : ∀ {name},
    c.Matches { Progress.start with function := some name } .start
      Dialect.functionEnd Dialect.functionEnd fun _ _ => True
  giveBack : ∀ {values values'}, c.values values values' →
    c.Keeps (Dialect.giveBack values) (Dialect.giveBack values') fun _ _ => True
  unary : ∀ {op operand operand' ty used}, c.fragments operand operand' →
    c.Keeps (Dialect.unary op operand ty used)
      (Dialect.unary op operand' ty used) c.fragments
  binary : ∀ {op left left' right right' ty used}, c.fragments left left' →
    c.fragments right right' →
    c.Keeps (Dialect.binary op left right ty used)
      (Dialect.binary op left' right' ty used) c.fragments
  compare : ∀ {op left left' right right' ty used}, c.fragments left left' →
    c.fragments right right' →
    c.Keeps (Dialect.compare op left right ty used)
      (Dialect.compare op left' right' ty used) c.fragments
  logical : ∀ {op left left' right right' used}, c.fragments left left' →
    c.fragments right right' →
    c.Keeps (Dialect.logical op left right used)
      (Dialect.logical op left' right' used) c.fragments
  print : ∀ {value value' ty}, c.fragments value value' →
    c.Keeps (Dialect.print value ty) (Dialect.print value' ty) fun _ _ => True
  panic : ∀ {message message'}, c.fragments message message' →
    c.Keeps (Dialect.panic message) (Dialect.panic message') fun _ _ => True
  listLiteral : ∀ {element values values' used}, c.texts values values' →
    c.Keeps (Dialect.listLiteral element values used)
      (Dialect.listLiteral element values' used) c.fragments
  listLength : ∀ {list list' used}, c.fragments list list' →
    c.Keeps (Dialect.listLength list used) (Dialect.listLength list' used)
      c.fragments
  substring : ∀ {value value' start start' stop stop' used},
    c.fragments value value' → c.fragments start start' → c.text? stop stop' →
    c.Keeps (Dialect.substring value start stop used)
      (Dialect.substring value' start' stop' used) c.fragments
  stringLength : ∀ {value value' used}, c.fragments value value' →
    c.Keeps (Dialect.stringLength value used) (Dialect.stringLength value' used)
      c.fragments
  group : ∀ {inner inner' ty}, c.fragments inner inner' →
    c.Keeps (Dialect.group inner ty) (Dialect.group inner' ty) c.fragments
  callFunction : ∀ {name args args' returns used}, c.values args args' →
    c.Keeps (Dialect.callFunction name args returns used)
      (Dialect.callFunction name args' returns used) fun results results' =>
        used = true → c.texts results results'
  runProcess : ∀ {stages stages' count}, c.stages stages stages' →
    c.Keeps (Dialect.runProcess stages count)
      (Dialect.runProcess stages' count) c.texts
  inputLine : ∀ {prompt prompt' used}, c.text? prompt prompt' →
    c.Keeps (Dialect.inputLine prompt used) (Dialect.inputLine prompt' used)
      c.fragments
  copyList : ∀ {list list' element used}, c.fragments list list' →
    c.Keeps (Dialect.copyList list element used)
      (Dialect.copyList list' element used) c.fragments
  fileExists : ∀ {path path' used}, c.fragments path path' →
    c.Keeps (Dialect.fileExists path used) (Dialect.fileExists path' used)
      c.fragments
  fileContent : ∀ {path path' used}, c.fragments path path' →
    c.Keeps (Dialect.fileContent path used) (Dialect.fileContent path' used)
      c.fragments
  writeFile : ∀ {path path' content content' append}, c.fragments path path' →
    c.fragments content content' →
    c.Keeps (Dialect.writeFile path content append)
      (Dialect.writeFile path' content' append) fun _ _ => True
  intToString : ∀ {value value' used}, c.fragments value value' →
    c.Keeps (Dialect.intToString value used) (Dialect.intToString value' used)
      c.fragments
  stringToInt : ∀ {value value' used}, c.fragments value value' →
    c.Keeps (Dialect.stringToInt value used) (Dialect.stringToInt value' used)
      c.fragments
  noOp : c.Keeps Dialect.noOp Dialect.noOp fun _ _ => True
  /-- A pipeline that yields nothing stands for the empty text. -/
  nothing : c.fragments "" ""

variable [Dialect σ] [Dialect τ] {c : Coupling σ τ}

/-! Expressions. -/

mutual

theorem evaluate_keeps (law : Coupled c) (e : Expr) {used : Bool} :
    c.Keeps (evaluate e used) (evaluate e used) c.fragments := by
  intro here
  match e with
  | .bool _ _ => exact law.boolLiteral here
  | .int _ _ => exact law.intLiteral here
  | .string _ _ => exact law.stringLiteral here
  | .unary _ operand _ =>
      exact .bind (evaluate_keeps law operand here)
        fun _ _ hvalue => law.unary hvalue here
  | .binary _ left right _ =>
      exact .bind (evaluate_keeps law left here) fun _ _ hleft =>
        .bind (evaluate_keeps law right here)
          fun _ _ hright => law.binary hleft hright here
  | .compare _ left right _ =>
      exact .bind (evaluate_keeps law left here) fun _ _ hleft =>
        .bind (evaluate_keeps law right here)
          fun _ _ hright => law.compare hleft hright here
  | .logical _ left right _ =>
      exact .bind (evaluate_keeps law left here) fun _ _ hleft =>
        .bind (evaluate_keeps law right here)
          fun _ _ hright => law.logical hleft hright here
  | .var _ _ => exact law.readVariable here
  | .listLiteral items _ =>
      exact .bind (evaluateAll_keeps law items here) fun _ _ hvalues =>
        law.listLiteral hvalues here
  | .listElement list index _ =>
      exact .bind (evaluate_keeps law list here) fun _ _ hlist =>
        .bind (evaluate_keeps law index here)
          fun _ _ hindex => law.readElement hlist hindex here
  | .listLength list _ =>
      exact .bind (evaluate_keeps law list here)
        fun _ _ hlist => law.listLength hlist here
  | .substring value start stop _ =>
      exact .bind (evaluate_keeps law value here) fun _ _ hvalue =>
        .bind (evaluate_keeps law start here) fun _ _ hstart =>
          .bind (evaluateOption_keeps law stop here) fun _ _ hstop =>
            law.substring hvalue hstart hstop here
  | .stringLength value _ =>
      exact .bind (evaluate_keeps law value here)
        fun _ _ hvalue => law.stringLength hvalue here
  | .group inner _ =>
      exact .bind (evaluate_keeps law inner here)
        fun _ _ hvalue => law.group hvalue here
  | .call name args types =>
      refine .bind (evaluateAll_keeps law args here) fun _ _ hargs =>
        .bind (law.callFunction (Coupling.forall₂_zip_right hargs) here)
          fun _ _ hresults => ?_
      cases used with
      | false => exact .pure law.nothing
      | true =>
          cases hresults rfl with
          | nil => exact .throw
          | cons hresult _ => exact .pure hresult
  | .process stages _ =>
      refine .bind (evaluateStages_keeps law stages here) fun _ _ hstages =>
        .bind (law.runProcess hstages here) fun _ _ hresults => .pure ?_
      cases hresults with
      | nil => exact law.nothing
      | cons hresult _ => exact hresult
  | .input prompt _ =>
      exact .bind (evaluateOption_keeps law prompt here) fun _ _ hprompt =>
        law.inputLine hprompt here
  | .copy list _ =>
      exact .bind (evaluate_keeps law list here)
        fun _ _ hlist => law.copyList hlist here
  | .fileExists path _ =>
      exact .bind (evaluate_keeps law path here)
        fun _ _ hpath => law.fileExists hpath here
  | .fileContent path _ =>
      exact .bind (evaluate_keeps law path here)
        fun _ _ hpath => law.fileContent hpath here
  | .intToString value _ =>
      exact .bind (evaluate_keeps law value here)
        fun _ _ hvalue => law.intToString hvalue here
  | .stringToInt value _ =>
      exact .bind (evaluate_keeps law value here)
        fun _ _ hvalue => law.stringToInt hvalue here

theorem evaluateAll_keeps (law : Coupled c) (items : List Expr) :
    c.Keeps (evaluateAll items) (evaluateAll items) c.texts := by
  intro here
  match items with
  | [] => exact .pure .nil
  | e :: rest =>
      exact .bind (evaluate_keeps law e here) fun _ _ hvalue =>
        .bind (evaluateAll_keeps law rest here)
          fun _ _ hvalues => .pure (.cons hvalue hvalues)

theorem evaluateOption_keeps (law : Coupled c) (item : Option Expr) :
    c.Keeps (evaluateOption item) (evaluateOption item) c.text? := by
  intro here
  match item with
  | none => exact .pure .none
  | some e =>
      exact .bind (evaluate_keeps law e here)
        fun _ _ hvalue => .pure (.some hvalue)

theorem evaluateStages_keeps (law : Coupled c)
    (stages : List (String × List Expr)) :
    c.Keeps (evaluateStages stages) (evaluateStages stages) c.stages := by
  intro here
  match stages with
  | [] => exact .pure .nil
  | (_, args) :: rest =>
      exact .bind (evaluateAll_keeps law args here) fun _ _ hargs =>
        .bind (evaluateStages_keeps law rest here) fun _ _ hrest =>
          .pure (.cons ⟨rfl, hargs⟩ hrest)

end

theorem evaluateResults_keeps (law : Coupled c) (value : Expr) {count : Nat} :
    c.Keeps (evaluateResults value count) (evaluateResults value count)
      c.texts := by
  intro here
  unfold evaluateResults
  split
  · exact .bind (evaluateAll_keeps law _ here) fun _ _ hargs =>
      (law.callFunction (Coupling.forall₂_zip_right hargs) here).weaken
        fun _ _ h => h rfl
  · exact .bind (evaluateStages_keeps law _ here)
      fun _ _ hstages => law.runProcess hstages here
  · exact .bind (evaluate_keeps law _ here)
      fun _ _ hvalue => .pure (.cons hvalue .nil)

/-- Both dialects miss the same values. -/
theorem evaluateMany_keeps (law : Coupled c) (value : Expr) {count : Nat} :
    c.Keeps (evaluateMany value count) (evaluateMany value count) c.texts := by
  intro here
  refine .bind (evaluateResults_keeps law value here)
    fun results results' hresults => ?_
  rw [hresults.length_eq]
  by_cases hcount : results'.length < count
  · rw [if_pos hcount, if_pos hcount]
    exact fun _ _ _ => .failed
  · rw [if_neg hcount, if_neg hcount]
    exact .pure hresults

theorem typedValues_keeps (law : Coupled c) (values : List Expr) :
    c.Keeps (typedValues values) (typedValues values) c.values := fun here =>
  .bind (evaluateAll_keeps law values here) fun _ _ hvalues =>
    .pure (Coupling.forall₂_zip_right hvalues)

theorem returnedValues_keeps (law : Coupled c) (values : List Expr) :
    c.Keeps (returnedValues values) (returnedValues values) c.values := by
  intro here
  unfold returnedValues
  split
  · split
    · exact .bind (evaluateMany_keeps law _ here) fun _ _ hresults =>
        .pure (Coupling.forall₂_zip_right hresults)
    · exact typedValues_keeps law _ here
  · exact typedValues_keeps law _ here

/-! Statements. -/

theorem defineTargets_keeps (law : Coupled c) {values values' : List String}
    (hvalues : c.texts values values') :
    c.Keeps (defineTargets targets values) (defineTargets targets values')
      fun _ _ => True := by
  intro here
  refine .forM (Coupling.forall₂_zip_left hvalues) ?_
  rintro ⟨target, value⟩ ⟨_, value'⟩ ⟨rfl, hvalue⟩
  by_cases hname : target.name = "_"
  · simp only [hname, if_pos]
    exact .pure trivial
  · simp only [hname, if_neg, not_false_iff]
    exact law.defineVariable (.some hvalue) here

theorem assignTargets_keeps (law : Coupled c) {values values' : List String}
    (hvalues : c.texts values values') :
    c.Keeps (assignTargets targets values) (assignTargets targets values')
      fun _ _ => True := by
  intro here
  refine .forM (Coupling.forall₂_zip_left hvalues) ?_
  rintro ⟨target, value⟩ ⟨_, value'⟩ ⟨rfl, hvalue⟩
  by_cases hname : target.name = "_"
  · simp only [hname, if_pos]
    exact .pure trivial
  · simp only [hname, if_neg, not_false_iff]
    exact law.assignVariable hvalue here

theorem conditions_keeps (law : Coupled c)
    (branches : List (Expr × List Stmt)) :
    c.Keeps (conditions branches) (conditions branches) fun tests tests' =>
      c.texts tests tests' ∧ tests.length = branches.length := by
  intro here
  induction branches with
  | nil => exact .pure ⟨.nil, rfl⟩
  | cons branch branches ih =>
      exact .bind (evaluate_keeps law branch.1 here) fun _ _ htest =>
        .bind ih fun _ _ htests =>
          .pure ⟨.cons htest htests.1, congrArg Nat.succ htests.2⟩

theorem conditionPart_keeps (law : Coupled c) (condition : Option Expr)
    {here : Progress} :
    c.Matches (here.opened .loop) (here.opened .loop) (conditionPart condition)
      (conditionPart condition) fun _ _ => True := by
  cases condition with
  | none => exact .pure trivial
  | some condition =>
      exact .bind (evaluate_keeps law condition _)
        fun _ _ htest => law.loopCondition htest

theorem action_keeps (law : Coupled c) (value : Expr) :
    c.Keeps (statement (.action value)) (statement (.action value))
      fun _ _ => True := by
  intro here
  cases value with
  | process stages types =>
      exact .bind (evaluateStages_keeps law stages here) fun _ _ hstages =>
        .bind (law.runProcess hstages here) fun _ _ _ => .pure trivial
  | _ => exact .bind (evaluate_keeps law _ here) fun _ _ _ => .pure trivial

mutual

theorem statement_keeps (law : Coupled c) (s : Stmt)
    (hinner : s.isInner = true) :
    c.Keeps (statement s) (statement s) fun _ _ => True := by
  intro here
  match s with
  | .function _ _ _ _ => cases hinner
  | .define targets none _ =>
      exact .forM (r := Eq) (List.forall₂_same.mpr fun _ _ => rfl)
        fun _ _ htarget => htarget ▸ law.defineVariable .none here
  | .define _ (some value) _ =>
      exact .bind (evaluateMany_keeps law value here) fun _ _ hvalues =>
        defineTargets_keeps law hvalues here
  | .assign _ value =>
      exact .bind (evaluateMany_keeps law value here) fun _ _ hvalues =>
        assignTargets_keeps law hvalues here
  | .store _ index value =>
      exact .bind (evaluate_keeps law index here) fun _ _ hindex =>
        .bind (evaluate_keeps law value here) fun _ _ hvalue =>
          law.storeElement hindex hvalue here
  | .giveBack values =>
      exact .bind (returnedValues_keeps law values here) fun _ _ hvalues =>
        law.giveBack hvalues here
  | .choose branches otherwise =>
      simp only [Stmt.isInner, Bool.and_eq_true, Bool.not_eq_true',
        List.isEmpty_eq_false_iff] at hinner
      obtain ⟨⟨hsome, hbranches⟩, hotherwise⟩ := hinner
      refine .bind (conditions_keeps law branches here)
        fun tests tests' htests => ?_
      refine .bind (guarded_first_matches law branches hbranches hsome htests.1
        htests.2) fun _ _ _ => fallback_matches law otherwise hotherwise
  | .loop init condition post body =>
      simp only [Stmt.isInner, Bool.and_eq_true] at hinner
      obtain ⟨⟨hinit, hpost⟩, hbody⟩ := hinner
      rw [statement_loop, statement_loop]
      refine .bind (optional_keeps law init hinit here) fun _ _ _ =>
        .bind law.loopStart fun _ _ _ => .bind law.postStart fun _ _ _ =>
        .bind (postPart_keeps law post hpost _) fun _ _ _ =>
        .bind law.postEnd fun _ _ _ => .bind (conditionPart_keeps law condition)
          fun _ _ _ =>
        .bind (block_keeps law body hbody _) fun _ _ _ => law.loopEnd
  | .leaveLoop => exact law.leaveLoop here
  | .nextRound => exact law.nextRound here
  | .print value =>
      exact .bind (evaluate_keeps law value here)
        fun _ _ hvalue => law.print hvalue here
  | .panic message =>
      exact .bind (evaluate_keeps law message here)
        fun _ _ hmessage => law.panic hmessage here
  | .writeFile path content _ =>
      exact .bind (evaluate_keeps law path here) fun _ _ hpath =>
        .bind (evaluate_keeps law content here) fun _ _ hcontent =>
          law.writeFile hpath hcontent here
  | .action value => exact action_keeps law value here
  | .noOp => exact law.noOp here

theorem optional_keeps (law : Coupled c) (part : Option Stmt)
    (hinner : Stmt.isInnerPart part = true) :
    c.Keeps (optional part) (optional part) fun _ _ => True := by
  intro here
  match part with
  | none => exact .pure trivial
  | some s => exact statement_keeps law s hinner here

theorem postPart_keeps (law : Coupled c) (post : Option Stmt)
    (hinner : Stmt.isInnerPart post = true) :
    c.Keeps (postPart post) (postPart post) fun _ _ => True := by
  intro here
  match post with
  | none => exact law.noOp here
  | some s => exact statement_keeps law s hinner here

theorem statements_keeps (law : Coupled c) (body : List Stmt)
    (hinner : Stmt.isInnerBlock body = true) :
    c.Keeps (statements body) (statements body) fun _ _ => True := by
  intro here
  match body with
  | [] => exact .pure trivial
  | s :: rest =>
      obtain ⟨hfirst, hrest⟩ := Bool.and_eq_true_iff.mp hinner
      exact .bind (statement_keeps law s hfirst here) fun _ _ _ =>
        statements_keeps law rest hrest here

theorem block_keeps (law : Coupled c) (body : List Stmt)
    (hinner : Stmt.isInnerBlock body = true) :
    c.Keeps (block body) (block body) fun _ _ => True := by
  intro here
  match body with
  | [] => exact law.noOp here
  | s :: rest =>
      obtain ⟨hfirst, hrest⟩ := Bool.and_eq_true_iff.mp hinner
      exact .bind (statement_keeps law s hfirst here) fun _ _ _ =>
        statements_keeps law rest hrest here

/-- The first branch opens the chain. -/
theorem guarded_first_matches (law : Coupled c)
    (branches : List (Expr × List Stmt))
    (hinner : Stmt.areInner branches = true) (hsome : branches ≠ [])
    {tests tests' : List String} (htests : c.texts tests tests')
    (hlength : tests.length = branches.length) {here : Progress} :
    c.Matches here (here.opened .branch) (guarded true branches tests)
      (guarded true branches tests') fun _ _ => True := by
  match branches, htests with
  | [], _ => exact absurd rfl hsome
  | (_, body) :: rest, .nil => cases hlength
  | (_, body) :: rest, .cons htest htests =>
      obtain ⟨hbody, hrest⟩ := Bool.and_eq_true_iff.mp hinner
      exact .bind (law.ifStart htest) fun _ _ _ =>
        .bind (block_keeps law body hbody _)
        fun _ _ _ => guarded_rest_matches law rest hrest htests

theorem guarded_rest_matches (law : Coupled c)
    (branches : List (Expr × List Stmt))
    (hinner : Stmt.areInner branches = true) {tests tests' : List String}
    (htests : c.texts tests tests') {here : Progress} :
    c.Matches (here.opened .branch) (here.opened .branch)
      (guarded false branches tests)
      (guarded false branches tests') fun _ _ => True := by
  match branches, htests with
  | [], _ => exact .pure trivial
  | (_, body) :: rest, .nil => exact .pure trivial
  | (_, body) :: rest, .cons htest htests =>
      obtain ⟨hbody, hrest⟩ := Bool.and_eq_true_iff.mp hinner
      exact .bind (law.elseIfStart htest)
        fun _ _ _ => .bind (block_keeps law body hbody _)
        fun _ _ _ => guarded_rest_matches law rest hrest htests

/-- The end of a chain, with or without an alternative. -/
theorem fallback_matches (law : Coupled c) (otherwise : Option (List Stmt))
    (hinner : Stmt.isInnerFallback otherwise = true) {here : Progress} :
    c.Matches (here.opened .branch) here (fallback otherwise >>=
      fun _ => Dialect.ifEnd)
      (fallback otherwise >>= fun _ => Dialect.ifEnd) fun _ _ => True := by
  match otherwise with
  | none =>
      exact .bind (Q := fun _ _ => True) (.pure trivial)
        fun _ _ _ => law.ifEnd (.inl rfl)
  | some body =>
      exact .bind (Q := fun _ _ => True)
        (.bind law.elseStart fun _ _ _ => block_keeps law body hinner _)
        fun _ _ _ => law.ifEnd (.inr rfl)

end

/-! Programs. -/

theorem outer_matches (law : Coupled c) {s : Stmt} (houter : s.isOuter = true) :
    c.Matches .start .start (statement s) (statement s) fun _ _ => True := by
  rcases Stmt.isInner_or_function houter with hinner
    | ⟨name, params, returns, body, rfl⟩
  · exact statement_keeps law s hinner _
  · exact .bind law.functionStart fun _ _ _ =>
      .bind (block_keeps law body houter _) fun _ _ _ => law.functionEnd

theorem outer_statements_matches (law : Coupled c) {body : List Stmt}
    (houter : ∀ s ∈ body, s.isOuter = true) :
    c.Matches .start .start (statements body) (statements body)
      fun _ _ => True := by
  induction body with
  | nil => exact .pure trivial
  | cons first rest ih =>
      obtain ⟨hfirst, hrest⟩ := List.forall_mem_cons.mp houter
      exact .bind (outer_matches law hfirst) fun _ _ _ => ih hrest

/-- Coupled dialects write a program in step. -/
theorem generate_matches (law : Coupled c) {program : Program}
    (hnested : program.isNested = true) :
    c.Matches .start .start (generate program) (generate program)
      c.fragments := by
  have houter : ∀ s ∈ program.statements, s.isOuter = true :=
    List.all_eq_true.mp hnested
  unfold generate
  refine .bind (law.programStart _) fun _ _ _ => .bind (Q := fun _ _ => True) ?_
    fun _ _ _ => law.programEnd
  cases hbody : program.statements with
  | nil => exact law.noOp _
  | cons first rest =>
      rw [block_cons, block_cons, ← hbody]
      exact outer_statements_matches law houter

end Script

end Shellwright
