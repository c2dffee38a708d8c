/-
Simple statements of a batch script.  Whatever their expressions are, typed or
not, they only add lines that jump nowhere.
-/
import Shellwright.Proofs.Batch.Extends

namespace Shellwright

/-- The expression between the parentheses. -/
def Expr.ungrouped : Expr → Expr
  | .group inner _ => inner.ungrouped
  | e => e

/-- A statement without a block that hands control to the next line, and whose
lines are not those of a pipeline as it stands. -/
def Stmt.isSimple : Stmt → Bool
  | .define targets value _ => !(targets.isEmpty && value.any Expr.isProcess)
  | .assign targets value => !(targets.isEmpty && value.isProcess)
  | .store .. | .print _ | .writeFile .. | .noOp => true
  | .action value => !value.ungrouped.isProcess
  | _ => false

namespace Batch

open Script (exec evaluate evaluateAll evaluateOption evaluateStages)

variable {α β : Type}

/-- An operation that writes lines that jump nowhere, whether it fails or
not. -/
def OnlyAdds (p : Write State α) : Prop :=
  Adds straightOn False p fun _ => True

namespace OnlyAdds

variable {p : Write State α}

theorem of_adds {able : Prop} {Q : α → Prop} (h : Adds straightOn able p Q) :
    OnlyAdds p :=
  ⟨h.changes, False.elim⟩

theorem bind {f : α → Write State β} (hp : OnlyAdds p)
    (hf : ∀ a, OnlyAdds (f a)) : OnlyAdds (p >>= f) :=
  Script.Steps.bind hp fun a => (hf a).weaken And.left fun _ _ => id

theorem pure {a : α} : OnlyAdds (Pure.pure a : Write State α) :=
  Script.Steps.pure fun _ => trivial

theorem throw {error : ScriptError} :
    OnlyAdds (MonadExcept.throw error : Write State α) :=
  Script.Steps.throw id

theorem ite {c : Prop} [Decidable c] {q : Write State α} (hp : c → OnlyAdds p)
    (hq : ¬c → OnlyAdds q) : OnlyAdds (if c then p else q) :=
  Script.Steps.ite hp hq

theorem forM {step : α → Write State Unit} {items : List α}
    (h : ∀ item, OnlyAdds (step item)) : OnlyAdds (items.forM step) :=
  Script.Steps.forM h

end OnlyAdds

/-! Expressions. -/

theorem callFunction_onlyAdds {name : String} {args : List (String × ValueType)}
    {returns : List ValueType} {used : Bool} :
    OnlyAdds (callFunction name args returns used) where
  changes s := by
    rw [exec_callFunction]
    have hallowed : OnlyAdds (callAllowed name args returns used) :=
      (callAllowed_adds trivial).weaken id fun _ _ _ => trivial
    split
    · exact State.Extends.refl s
    · exact hallowed.changes s
  yields h := h.elim

theorem runProcess_onlyAdds {stages : List Invocation} {count : Nat}
    (hcount : count ≠ 0) : OnlyAdds (runProcess stages count) :=
  (runProcess_adds (fun hzero => absurd hzero hcount)
    fun _ => trivial).weaken id fun _ _ _ => trivial

mutual

/-- The value of an expression is used, or the expression is no pipeline. -/
theorem evaluate_onlyAdds (e : Expr) {used : Bool}
    (h : used = true ∨ e.ungrouped.isProcess = false) :
    OnlyAdds (evaluate e used : Write State String) := by
  match e with
  | .bool value _ => exact .pure
  | .int value _ => exact .pure
  | .string value _ => exact stringLiteral_adds
  | .unary op operand _ =>
      exact .bind (evaluate_onlyAdds operand (.inl rfl))
        fun _ => .of_adds unary_adds
  | .binary op left right _ =>
      exact .bind (evaluate_onlyAdds left (.inl rfl)) fun _ =>
        .bind (evaluate_onlyAdds right (.inl rfl)) fun _ => .of_adds binary_adds
  | .compare op left right _ =>
      exact .bind (evaluate_onlyAdds left (.inl rfl)) fun _ =>
        .bind (evaluate_onlyAdds right (.inl rfl))
          fun _ => .of_adds compare_adds
  | .logical op left right _ =>
      exact .bind (evaluate_onlyAdds left (.inl rfl)) fun _ =>
        .bind (evaluate_onlyAdds right (.inl rfl)) fun _ => logical_adds
  | .var name _ => exact readVariable_adds
  | .listLiteral items _ =>
      exact .bind (evaluateAll_onlyAdds items) fun _ => listLiteral_adds
  | .listElement list index _ =>
      exact .bind (evaluate_onlyAdds list (.inl rfl)) fun _ =>
        .bind (evaluate_onlyAdds index (.inl rfl)) fun _ => readElement_adds
  | .listLength list _ =>
      exact .bind (evaluate_onlyAdds list (.inl rfl)) fun _ => listLength_adds
  | .substring value start stop _ =>
      exact .bind (evaluate_onlyAdds value (.inl rfl)) fun _ =>
        .bind (evaluate_onlyAdds start (.inl rfl)) fun _ =>
          .bind (evaluateOption_onlyAdds stop) fun _ => substring_adds
  | .stringLength value _ =>
      exact .bind (evaluate_onlyAdds value (.inl rfl))
        fun _ => stringLength_adds
  | .group inner _ => exact .bind (evaluate_onlyAdds inner h) fun _ => .pure
  | .call name args types =>
      refine .bind (evaluateAll_onlyAdds args)
        fun values => .bind callFunction_onlyAdds fun results => ?_
      refine .ite (fun _ => ?_) fun _ => .pure
      cases results with
      | nil => exact .throw
      | cons result _ => exact .pure
  | .process stages _ =>
      refine .bind (evaluateStages_onlyAdds stages)
        fun _ => .bind (runProcess_onlyAdds ?_) fun _ => .pure
      rcases h with rfl | h
      · decide
      · cases h
  | .input prompt _ =>
      exact .bind (evaluateOption_onlyAdds prompt) fun _ => inputLine_adds
  | .copy list _ =>
      exact .bind (evaluate_onlyAdds list (.inl rfl)) fun _ => copyList_adds
  | .fileExists path _ =>
      exact .bind (evaluate_onlyAdds path (.inl rfl)) fun _ => anyHolds_adds
  | .fileContent path _ =>
      exact .bind (evaluate_onlyAdds path (.inl rfl)) fun _ => fileContent_adds
  | .intToString value _ =>
      exact .bind (evaluate_onlyAdds value (.inl rfl)) fun _ => .pure
  | .stringToInt value _ =>
      exact .bind (evaluate_onlyAdds value (.inl rfl)) fun _ => stringToInt_adds

theorem evaluateAll_onlyAdds (items : List Expr) :
    OnlyAdds (evaluateAll items : Write State (List String)) := by
  match items with
  | [] => exact .pure
  | e :: rest =>
      exact .bind (evaluate_onlyAdds e (.inl rfl)) fun _ =>
        .bind (evaluateAll_onlyAdds rest) fun _ => .pure

theorem evaluateOption_onlyAdds (item : Option Expr) :
    OnlyAdds (evaluateOption item : Write State (Option String)) := by
  match item with
  | none => exact .pure
  | some e => exact .bind (evaluate_onlyAdds e (.inl rfl)) fun _ => .pure

theorem evaluateStages_onlyAdds (stages : List (String × List Expr)) :
    OnlyAdds (evaluateStages stages : Write State (List Invocation)) := by
  match stages with
  | [] => exact .pure
  | (_, args) :: rest =>
      exact .bind (evaluateAll_onlyAdds args) fun _ =>
        .bind (evaluateStages_onlyAdds rest) fun _ => .pure

end

/-! Statements. -/

theorem evaluateMany_onlyAdds {value : Expr} {count : Nat}
    (h : value.isProcess = true → count ≠ 0) :
    OnlyAdds (Script.evaluateMany value count : Write State (List String)) := by
  have hresults :
      OnlyAdds (Script.evaluateResults value count :
        Write State (List String)) := by
    unfold Script.evaluateResults
    split
    · exact .bind (evaluateAll_onlyAdds _) fun _ => callFunction_onlyAdds
    · exact .bind (evaluateStages_onlyAdds _)
        fun _ => runProcess_onlyAdds (h rfl)
    · exact .bind (evaluate_onlyAdds _ (.inl rfl)) fun _ => .pure
  exact .bind hresults fun _ => .ite (fun _ => .bind .throw fun _ => .pure)
    fun _ => .pure

theorem length_ne_zero {targets : List Binding} {value : Expr}
    (h : (!(targets.isEmpty && value.isProcess)) = true)
    (hprocess : value.isProcess = true) :
    targets.length ≠ 0 := by
  simpa [hprocess] using h

theorem statement_onlyAdds {s : Stmt} (h : s.isSimple = true) :
    OnlyAdds (Script.statement s : Write State Unit) := by
  cases s with
  | define targets value constant =>
      cases value with
      | none => exact .forM fun _ => defineVariable_adds trivial
      | some value =>
          exact .bind (evaluateMany_onlyAdds (length_ne_zero h)) fun _ =>
            .forM fun _ => .ite (fun _ => .pure)
              fun _ => defineVariable_adds trivial
  | assign targets value =>
      exact .bind (evaluateMany_onlyAdds (length_ne_zero h)) fun _ =>
        .forM fun _ => .ite (fun _ => .pure) fun _ => assignVariable_adds
  | store target index value =>
      exact .bind (evaluate_onlyAdds index (.inl rfl)) fun _ =>
        .bind (evaluate_onlyAdds value (.inl rfl)) fun _ => storeElement_adds
  | print value =>
      exact .bind (evaluate_onlyAdds value (.inl rfl))
        fun _ => .of_adds print_adds
  | writeFile path content append =>
      exact .bind (evaluate_onlyAdds path (.inl rfl)) fun _ =>
        .bind (evaluate_onlyAdds content (.inl rfl))
          fun _ => emit_adds fun _ => trivial
  | action value =>
      have hvalue : value.ungrouped.isProcess = false := by
        simpa [Stmt.isSimple] using h
      have hevaluate : OnlyAdds (evaluate value false : Write State String) :=
        evaluate_onlyAdds value (.inr hvalue)
      cases value with
      | process stages types => cases hvalue
      | _ => exact .bind hevaluate fun _ => .pure
  | noOp => exact emit_adds fun _ => trivial
  | function name params returns body => cases h
  | giveBack values => cases h
  | choose branches otherwise => cases h
  | loop init condition post body => cases h
  | leaveLoop => cases h
  | nextRound => cases h
  | panic message => cases h

end Batch

end Shellwright
