/-
Which variables a batch script uses.  While a function is written the state
keeps a list of its own names; only definitions add to it.  The occurrences a
traced run notes are the names of the tree in order, each resolved by the list
as it is then.
-/
import Shellwright.Proofs.Batch.Extends
import Shellwright.Proofs.Batch.Flow
import Shellwright.Proofs.Batch.Traced
import Shellwright.Proofs.Script.Journal

namespace Shellwright

namespace Batch

variable {place : Nat} {params : List Binding}

open Script

variable {α : Type}

/-! Names. -/

/-- The function with a name that has become its own. -/
def declaring (current : Option FunctionFrame) (name : String) :
    Option FunctionFrame :=
  current.map fun frame => { frame with locals := name :: frame.locals }

/-- The occurrences of the names in order, while `current` is written. -/
inductive Resolves :
    Option FunctionFrame → List Mention → List Access → Option FunctionFrame →
      Prop where
  | nil {current} : Resolves current [] [] current
  | use {current after mention name isList mentions accesses} :
      mention.used? = some name → Resolves current mentions accesses after →
      Resolves current (mention :: mentions)
        (accessIn current name isList :: accesses) after
  /-- A name is the function's own from its definition on. -/
  | define {current after name isList mentions accesses} :
      Resolves (declaring current name) mentions accesses after →
      Resolves current (.define name :: mentions)
        (accessIn (declaring current name) name isList :: accesses) after
  | skip {current after mention mentions accesses} : mention.var? = none →
      Resolves current mentions accesses after →
      Resolves current (mention :: mentions) accesses after

theorem Resolves.append {current middle after : Option FunctionFrame}
    {first second : List Mention} {accesses accesses' : List Access}
    (hfirst : Resolves current first accesses middle)
    (hsecond : Resolves middle second accesses' after) :
    Resolves current (first ++ second) (accesses ++ accesses') after := by
  induction hfirst with
  | nil => exact hsecond
  | use hmention _ ih => exact .use hmention (ih hsecond)
  | define _ ih => exact .define (ih hsecond)
  | skip hmention _ ih => exact .skip hmention (ih hsecond)

/-- The names have been written between two states of a traced run. -/
structure Traced.Notes (t : Traced) (mentions : List Mention) (t' : Traced) :
    Prop where
  functions : t'.writer.functions = t.writer.functions
  resolves : ∃ accesses, t'.notes = t.notes ++ accesses ∧
    Resolves t.writer.current mentions accesses t'.writer.current

theorem Traced.Notes.trans {t mid t' : Traced} {first second : List Mention}
    (hfirst : t.Notes first mid) (hsecond : mid.Notes second t') :
    t.Notes (first ++ second) t' := by
  obtain ⟨accesses, haccesses, hresolves⟩ := hfirst.resolves
  obtain ⟨accesses', haccesses', hresolves'⟩ := hsecond.resolves
  refine ⟨hsecond.functions.trans hfirst.functions,
    accesses ++ accesses', ?_, ?_⟩
  · rw [haccesses', haccesses, List.append_assoc]
  · exact hresolves.append hresolves'

/-- The names have been written. -/
def namesNoted : Journal Traced where
  step mentions t t' := t.Notes mentions t'
  fragment _ := True
  refl t := ⟨rfl, [], by simp, .nil⟩
  trans hfirst hsecond := hfirst.trans hsecond

/-- Anything but making a name the function's own. -/
def quietly : Permit where
  callable _ := True
  own _ := True
  declares := False
  panics := True
  captures := True

section Operations

variable {able : Prop} {var : String} {ty : ValueType}
  {index name value : String} {mention : Mention} {Q : α → Prop}
  {p : Write State α}

theorem quiet_noted
    (h : ∀ s, (exec p s).2.functions = s.functions ∧ (exec p s).2.current =
      s.current) : namesNoted.Enters [] (quiet p) fun _ => True := by
  intro t a t' hrun
  rw [exec_quiet] at hrun
  obtain ⟨_, rfl⟩ := Prod.mk.inj hrun
  obtain ⟨hfunctions, hcurrent⟩ := h t.writer
  refine ⟨⟨hfunctions, [], by simp, ?_⟩, trivial⟩
  rw [hcurrent]
  exact .nil

theorem noted_of_adds (h : Adds quietly False p Q) :
    namesNoted.Enters [] (quiet p) fun _ => True :=
  quiet_noted fun s => ⟨(h.changes s).functions, (h.changes s).undeclared id⟩

theorem emitFlow_noted {step : Write Graph (List Instruction)} :
    namesNoted.Enters [] (quiet (emitFlow step)) fun _ => True := by
  refine quiet_noted fun s => ?_
  rcases hrun : exec step s.graph with ⟨result, graph⟩
  cases result with
  | ok instructions =>
      rw [exec_emitFlow hrun]
      exact ⟨rfl, rfl⟩
  | error error =>
      rw [exec_emitFlow_error hrun]
      exact ⟨rfl, rfl⟩

theorem fill_adds : Adds quietly able (fill var ty value) fun _ => True :=
  .ite (fun _ => copyListTo_adds) fun _ => emit_adds fun _ => trivial

theorem fillNew_adds {value : Option String} :
    Adds quietly able (fillNew var ty value) fun _ => True := by
  refine .ite (fun _ => ?_) fun _ => emit_adds fun _ => trivial
  cases value with
  | some source => exact copyListTo_adds
  | none => exact emit_adds fun _ => trivial

theorem fillElement_adds :
    Adds quietly able (fillElement var ty index value) fun _ => True :=
  .bind (emit_adds fun _ => trivial)
    fun _ => .bind (emit_adds fun _ => trivial) fun _ =>
    emit_adds fun _ => .inr trivial

theorem fillParameter_adds :
    Adds quietly able (fillParameter var ty place) fun _ => True :=
  .ite (fun _ => copyListTo_adds) fun _ => emit_adds fun _ => trivial

/-- What is mentioned is no variable. -/
theorem skip_noted {p : Write Traced α} (hmention : mention.var? = none)
    (h : namesNoted.Enters [] p Q) : namesNoted.Enters [mention] p Q := by
  intro t a t' hrun
  obtain ⟨⟨hfunctions, accesses, haccesses, hresolves⟩, hvalue⟩ := h t a t' hrun
  exact ⟨⟨hfunctions, accesses, haccesses, .skip hmention hresolves⟩, hvalue⟩

theorem callFunction_noted {args : List (String × ValueType)}
    {returns : List ValueType} {used : Bool} :
    namesNoted.Enters [.call name] (Dialect.callFunction name args returns used)
      fun _ => True := by
  refine skip_noted rfl (quiet_noted (p := callFunction name args returns used)
    fun s => ?_)
  have hallowed : Adds quietly True (callAllowed name args returns used) _ :=
    callAllowed_adds trivial
  rw [exec_callFunction]
  split
  · exact ⟨rfl, rfl⟩
  · exact ⟨(hallowed.changes s).functions, (hallowed.changes s).undeclared id⟩

theorem access_noted (hmention : mention.used? = some name) :
    namesNoted.Enters [mention] (access name ty) fun _ => True := by
  intro t a t' hrun
  rw [exec_access] at hrun
  obtain ⟨_, rfl⟩ := Prod.mk.inj hrun
  exact ⟨⟨rfl, _, rfl, .use hmention .nil⟩, trivial⟩

theorem defineVariable_noted {value : Option String} :
    namesNoted.Enters [.define name] (Dialect.defineVariable name ty value)
      fun _ => True := by
  have hdefined : namesNoted.Enters [.define name]
      (quiet (declareLocal name) >>= fun _ => access name ty)
        fun _ => True := by
    intro t a t' hrun
    rw [exec_bind, exec_quiet] at hrun
    change exec (access name ty) _ = _ at hrun
    rw [exec_access] at hrun
    obtain ⟨_, rfl⟩ := Prod.mk.inj hrun
    exact ⟨⟨rfl, _, rfl, .define .nil⟩, trivial⟩
  have hall : (Dialect.defineVariable name ty value : Write Traced Unit) =
      (quiet (declareLocal name) >>= fun _ => access name ty) >>= fun var =>
        quiet (fillNew var ty value) := by
    rw [bind_assoc]
    rfl
  rw [hall]
  exact hdefined.before fun _ _ => noted_of_adds fillNew_adds

theorem storeElement_noted :
    namesNoted.Enters [.assign name] (Dialect.storeElement name ty index value)
      fun _ => True := by
  have hrequired : Adds quietly False (require ({ · with listSet := true }))
      fun _ => True :=
    require_only_adds (fun _ => ⟨id, fun _ => rfl, id, id, id, id, id, id, id⟩)
      fun _ _ => rfl
  exact (noted_of_adds hrequired).after fun _ _ =>
    (access_noted rfl).before fun _ _ => noted_of_adds fillElement_adds

theorem accessParameters_noted :
    namesNoted.Enters (params.map fun param => .use param.name)
      (accessParameters place params) fun _ => True := by
  induction params generalizing place with
  | nil => exact .pure trivial
  | cons param params ih =>
      exact (access_noted rfl).bind
        fun _ _ => (noted_of_adds fillParameter_adds).after fun _ _ => ih

end Operations

theorem namesNoted_blocks : namesNoted.Blocks where
  boolLiteral := quiet_noted fun _ => ⟨rfl, rfl⟩
  intLiteral := quiet_noted fun _ => ⟨rfl, rfl⟩
  stringLiteral := noted_of_adds stringLiteral_adds
  readVariable := (access_noted rfl).before fun _ _ => .pure trivial
  readElement := noted_of_adds readElement_adds
  unary := noted_of_adds unary_adds.unable
  binary _ _ := noted_of_adds binary_adds.unable
  compare := noted_of_adds compare_adds.unable
  logical := noted_of_adds logical_adds
  listLiteral := noted_of_adds listLiteral_adds
  listLength := noted_of_adds listLength_adds
  substring := noted_of_adds substring_adds
  stringLength := noted_of_adds stringLength_adds
  group _ := quiet_noted fun _ => ⟨rfl, rfl⟩
  callFunction := callFunction_noted.weaken fun _ _ _ _ => trivial
  runProcess := skip_noted rfl ((noted_of_adds
    (runProcess_adds (fun _ _ => trivial) fun _ => trivial)).weaken
      fun _ _ _ _ => trivial)
  inputLine := noted_of_adds inputLine_adds
  copyList := noted_of_adds copyList_adds
  fileExists := noted_of_adds anyHolds_adds
  fileContent := noted_of_adds fileContent_adds
  intToString _ := quiet_noted fun _ => ⟨rfl, rfl⟩
  stringToInt := noted_of_adds stringToInt_adds
  nothing := trivial
  defineVariable := defineVariable_noted
  assignVariable := (access_noted rfl).before fun _ _ => noted_of_adds fill_adds
  storeElement := storeElement_noted
  print := noted_of_adds print_adds.unable
  writeFile := noted_of_adds (emit_adds fun _ => trivial)
  noOp := noted_of_adds (emit_adds fun _ => trivial)
  panic := skip_noted rfl (noted_of_adds (panic_adds trivial trivial trivial))
  giveBack := noted_of_adds (giveBack_adds trivial)
  ifStart := emitFlow_noted
  elseIfStart := emitFlow_noted
  elseStart := emitFlow_noted
  ifEnd := emitFlow_noted
  loopStart := emitFlow_noted
  postStart := quiet_noted fun _ => ⟨rfl, rfl⟩
  postEnd := emitFlow_noted
  loopCondition := emitFlow_noted
  loopEnd := emitFlow_noted
  leaveLoop := emitFlow_noted
  nextRound := emitFlow_noted

theorem accessParameters_notes {t t' : Traced}
    (h : exec (accessParameters place params) t = (.ok (), t')) :
    t.Notes (params.map fun param => .use param.name) t' :=
  (accessParameters_noted t () t' h).1

theorem block_notes {body : List Stmt} (hinner : Stmt.isInnerBlock body = true)
    {t t' : Traced} (h : exec (block body) t = (.ok (), t')) :
    t.Notes (Stmt.mentionsOfBlock body) t' := by
  exact (namesNoted_blocks.block body hinner t () t' h).1

theorem statement_notes {s : Stmt} (hinner : s.isInner = true) {t t' : Traced}
    (h : exec (statement s) t = (.ok (), t')) : t.Notes s.mentions t' := by
  exact (namesNoted_blocks.statement s hinner t () t' h).1

end Batch

end Shellwright
