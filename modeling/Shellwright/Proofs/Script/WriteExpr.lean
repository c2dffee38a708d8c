/-
A lawful dialect writes every typed expression whose value is used, and gives it
a fragment of its type, by induction on its typing.
-/
import Shellwright.Proofs.Hidden.Words
import Shellwright.Proofs.Script.Lawful

namespace Shellwright

namespace Script

variable {σ α : Type} [Dialect σ] {c : Course σ} {tables : Tables}
  {here : Progress} {s : σ} {used : Bool} {e value : Expr} {name : String}
  {args items : List Expr} {ty : ValueType} {Q : α → σ → Prop}
  {types : List ValueType} {stages : List (String × List Expr)}

/-- The functions known by now are those of the tables. -/
def Knows (here : Progress) (tables : Tables) : Prop :=
  here.known = tables.functions.map Prod.fst

theorem Knows.mem {signature : Signature} (h : Knows here tables)
    (hlookup : tables.lookupFunction? name = some signature) :
    name ∈ here.known := by
  rw [h]
  obtain ⟨first, second, hsplit, _⟩ := List.lookup_eq_some_iff.mp hlookup
  rw [hsplit]
  simp

theorem Knows.not_mem (h : Knows here tables)
    (hlookup : tables.lookupFunction? name = none) : name ∉ here.known := by
  rw [h, List.mem_map]
  rintro ⟨entry, hentry, rfl⟩
  simpa using List.lookup_eq_none_iff.mp hlookup entry hentry

/-! Expressions. -/

theorem types_ne_nil (h : e.Yields ty) : e.types ≠ [] := by
  intro hnil
  rcases h with h | ⟨_, h⟩
  · rw [hnil] at h
    cases h
  · rw [hnil] at h
    cases h

theorem types_ne_nil_of_forall₂ (h : List.Forall₂ Expr.Yields args types) :
    ∀ arg ∈ args, arg.types ≠ [] := by
  induction h with
  | nil => simp
  | cons hyields _ ih =>
      exact List.forall_mem_cons.mpr ⟨types_ne_nil hyields, ih⟩

/-- The expression is written as a fragment of its type wherever its value is
used. -/
def ExprWritten (c : Course σ) (tables : Tables) (e : Expr) : Prop :=
  ∀ ⦃here s⦄, c.Inv here s → Knows here tables → e.types ≠ [] →
    c.Meets (refusal c.strict here.function e.events) (evaluate e true) s
      (fun text s' => c.fragment s' e.ty.isList text) (here.noted e.events)

/-- An expression that yields a value of a known type. -/
theorem ExprWritten.yields (h : ExprWritten c tables e) (hyields : e.Yields ty)
    (hinv : c.Inv here s) (hknows : Knows here tables) :
    c.Meets (refusal c.strict here.function e.events) (evaluate e true) s
      (fun text s' => c.fragment s' ty.isList text) (here.noted e.events) := by
  rw [← hyields.ty_eq]
  exact h hinv hknows (types_ne_nil hyields)

theorem evaluateAll_meets (hitems : ∀ e ∈ items, ExprWritten c tables e)
    (htypes : ∀ e ∈ items, e.types ≠ []) (hinv : c.Inv here s)
    (hknows : Knows here tables) :
    c.Meets (refusal c.strict here.function (Expr.eventsOfAll items))
      (evaluateAll items) s
      (fun values s' => c.Values s' (values.zip (items.map Expr.ty)) ∧
        values.length = items.length) (here.noted
          (Expr.eventsOfAll items)) := by
  induction items generalizing here s with
  | nil =>
      exact .pure ⟨fun _ hvalue => (nomatch hvalue), rfl⟩
        (by simpa [Expr.eventsOfAll] using hinv)
  | cons e items ih =>
      obtain ⟨he, hitems⟩ := List.forall_mem_cons.mp hitems
      obtain ⟨hne, htypes⟩ := List.forall_mem_cons.mp htypes
      unfold Expr.eventsOfAll evaluateAll
      refine (he hinv hknows hne).seq fun value s' _ hvalue hinv' => ?_
      refine (ih hitems htypes hinv' hknows).andThen
        fun values s'' hgrows hvalues hinv'' => ?_
      refine .pure ⟨List.forall_mem_cons.mpr ⟨c.mono hgrows hvalue, hvalues.1⟩,
        ?_⟩ hinv''
      rw [List.length_cons, List.length_cons, hvalues.2]

/-- Scalars one after the other. -/
theorem evaluateAll_scalars (hitems : ∀ e ∈ items, ExprWritten c tables e)
    (hyields : ∀ e ∈ items, ∃ ty, e.Yields ty ∧ ty.isList = false)
    (hinv : c.Inv here s) (hknows : Knows here tables) :
    c.Meets (refusal c.strict here.function (Expr.eventsOfAll items))
      (evaluateAll items) s
      (fun values s' => c.Scalars s' values)
        (here.noted (Expr.eventsOfAll items)) := by
  refine (evaluateAll_meets hitems ?_ hinv hknows).weaken
    fun values s' hvalues =>
    hvalues.1.scalars (by simpa using hvalues.2) (List.forall_mem_map.mpr ?_)
  · intro e he
    obtain ⟨ty, hty, _⟩ := hyields e he
    exact types_ne_nil hty
  · intro e he
    obtain ⟨ty, hty, hscalar⟩ := hyields e he
    rw [hty.ty_eq]
    exact hscalar

theorem evaluateOption_meets {part : Option Expr}
    (hpart : ∀ e ∈ part, ExprWritten c tables e)
    (hyields : ∀ e ∈ part, e.Yields ty) (hinv : c.Inv here s)
    (hknows : Knows here tables) :
    c.Meets (refusal c.strict here.function (Expr.eventsOfOption part))
      (evaluateOption part) s
      (fun value s' => ∀ text ∈ value, c.fragment s' ty.isList text)
      (here.noted (Expr.eventsOfOption part)) := by
  cases part with
  | none =>
      exact .pure (fun _ htext => (nomatch htext))
        (by simpa [Expr.eventsOfOption] using hinv)
  | some e =>
      unfold Expr.eventsOfOption evaluateOption
      refine ((hpart e rfl).yields (hyields e rfl) hinv hknows).andThen
        fun value s' _ hvalue hinv' => .pure ?_ hinv'
      rintro _ ⟨⟩
      exact hvalue

theorem evaluateStages_meets
    (hstages : ∀ stage ∈ stages, ∀ arg ∈ stage.2, ExprWritten c tables arg)
    (hyields : ∀ stage ∈ stages, ∀ arg ∈ stage.2, ∃ ty, arg.Yields ty ∧
      ty.isScalar = true) (hinv : c.Inv here s) (hknows : Knows here tables) :
    c.Meets (refusal c.strict here.function (Expr.eventsOfStages stages))
      (evaluateStages stages) s
      (fun invocations s' => ∀ invocation ∈ invocations,
        c.Scalars s' invocation.args)
      (here.noted (Expr.eventsOfStages stages)) := by
  induction stages generalizing here s with
  | nil =>
      exact .pure (fun _ hstage => (nomatch hstage))
        (by simpa [Expr.eventsOfStages] using hinv)
  | cons stage stages ih =>
      obtain ⟨hstage, hstages⟩ := List.forall_mem_cons.mp hstages
      obtain ⟨hargs, hyields⟩ := List.forall_mem_cons.mp hyields
      have hscalars : ∀ arg ∈ stage.2, ∃ ty, arg.Yields ty ∧
          ty.isList = false := by
        intro arg harg
        obtain ⟨ty, hty, hscalar⟩ := hargs arg harg
        exact ⟨ty, hty, ValueType.isList_of_isScalar hscalar⟩
      unfold Expr.eventsOfStages evaluateStages
      refine (evaluateAll_scalars hstage hscalars hinv hknows).seq
        fun values s' _ hvalues hinv' => ?_
      refine (ih hstages hyields hinv' hknows).andThen
        fun invocations s'' hgrows hrest => ?_
      exact .pure (List.forall_mem_cons.mpr ⟨hvalues.mono hgrows, hrest⟩)

/-- An operation on one value. -/
theorem evaluate_single_meets {f : String → Write σ α}
    (he : ExprWritten c tables e) (hty : e.Yields ty)
    (hf : ∀ {text s' here}, c.fragment s' ty.isList text → c.Inv here s' →
      c.Meets none (f text) s' Q here) (hinv : c.Inv here s)
    (hknows : Knows here tables) :
    c.Meets (refusal c.strict here.function e.events)
      (evaluate e true >>= f) s Q (here.noted e.events) :=
  (he.yields hty hinv hknows).andThen fun _ _ _ htext hinv' => hf htext hinv'

/-- An operation on two values, written one after the other. -/
theorem evaluate_pair_meets {left right : Expr} {lty rty : ValueType}
    {f : String → String → Write σ α} (hleft : ExprWritten c tables left)
    (hright : ExprWritten c tables right) (hlty : left.Yields lty)
    (hrty : right.Yields rty)
    (hf : ∀ {l r s' here}, c.fragment s' lty.isList l → c.fragment s'
      rty.isList r → c.Inv here s' → c.Meets none (f l r) s' Q here)
    (hinv : c.Inv here s) (hknows : Knows here tables) :
    c.Meets (refusal c.strict here.function (left.events ++ right.events))
      (do
        let l ← evaluate left true
        let r ← evaluate right true
        f l r) s Q (here.noted (left.events ++ right.events)) := by
  refine (hleft.yields hlty hinv hknows).seq fun l s' _ hl hinv' => ?_
  refine (hright.yields hrty hinv' hknows).andThen
    fun r s'' hgrows hr hinv'' => ?_
  exact hf (c.mono hgrows hl) hr hinv''

variable (law : Lawful c)

include law

/-- The results of a call, or of its arguments' refusal. -/
theorem callFunction_meets (hword : isWord name.toList = true)
    (hargs : ∀ arg ∈ args, ExprWritten c tables arg)
    (htypes : ∀ arg ∈ args, arg.types ≠ []) (hname : name ∈ here.known)
    (hinv : c.Inv here s) (hknows : Knows here tables) :
    c.Meets (refusal c.strict here.function (Expr.call name args types).events)
      (do
        let values ← evaluateAll args
        Dialect.callFunction name (values.zip (args.map Expr.ty)) types used) s
      (fun results s' => c.Values s' (results.zip types) ∧
        (c.total → used = true → results.length = types.length))
      (here.noted (Expr.call name args types).events) := by
  unfold Expr.events
  refine (evaluateAll_meets hargs htypes hinv hknows).seq
    fun values s' _ hvalues hinv' => ?_
  exact law.callFunction hword
    (show name ∈ (here.noted (Expr.eventsOfAll args)).known from hname)
      hvalues.1 hinv'

theorem evaluate_call_meets (hword : isWord name.toList = true)
    (hargs : ∀ arg ∈ args, ExprWritten c tables arg)
    (htypes : ∀ arg ∈ args, arg.types ≠ []) (hname : name ∈ here.known)
    (hused : used = true → types ≠ []) (hinv : c.Inv here s)
    (hknows : Knows here tables) :
    c.Meets (refusal c.strict here.function (Expr.call name args types).events)
      (evaluate (.call name args types) used) s
      (fun text s' => used = true →
        c.fragment s' (types.headD .void).isList text)
      (here.noted (Expr.call name args types).events) := by
  unfold evaluate
  rw [← bind_assoc]
  refine (callFunction_meets law hword hargs htypes hname hinv hknows).andThen
    fun results s' _ hresults hinv' => ?_
  cases used with
  | false => exact .pure (fun h => absurd h Bool.false_ne_true) hinv'
  | true =>
      cases results with
      | nil =>
          refine .throw (fun htotal => hused rfl ?_) hinv'
          exact List.length_eq_zero_iff.mp (hresults.2 htotal rfl).symm
      | cons result results =>
          refine .pure (fun _ => ?_) hinv'
          cases types with
          | nil => exact absurd rfl (hused rfl)
          | cons ty types => exact hresults.1 (result, ty) List.mem_cons_self

theorem runProcess_meets {count : Nat}
    (hstages : ∀ stage ∈ stages, ∀ arg ∈ stage.2, ExprWritten c tables arg)
    (hyields : ∀ stage ∈ stages, ∀ arg ∈ stage.2, ∃ ty, arg.Yields ty ∧
      ty.isScalar = true) (hcount : count ≤ 3) (hinv : c.Inv here s)
    (hknows : Knows here tables) :
    c.Meets
      (refusal c.strict here.function
        (Expr.eventsOfStages stages ++ [if count = 0 then .command
          else .capture]))
      (do
        let invocations ← evaluateStages stages
        Dialect.runProcess invocations count) s
      (fun results s' => c.Scalars s' results ∧
        (c.total → results.length = count))
      (here.noted (Expr.eventsOfStages stages ++
        [if count = 0 then .command else .capture])) := by
  refine (evaluateStages_meets hstages hyields hinv hknows).seq
    fun invocations s' _ hinvocations hinv' => ?_
  have hrefusal :
      refusal c.strict here.function [if count = 0 then .command
        else .capture] = none := by
    by_cases hzero : count = 0 <;> simp [hzero, refusal]
  rw [hrefusal]
  exact law.runProcess hcount hinvocations hinv'

theorem evaluate_input_meets {prompt : Option Expr}
    (hprompt : ∀ e ∈ prompt, ExprWritten c tables e)
    (hyields : ∀ e ∈ prompt, e.Yields .string) (hinv : c.Inv here s)
    (hknows : Knows here tables) :
    c.Meets (refusal c.strict here.function (Expr.input prompt types).events)
      (evaluate (.input prompt types) used) s
      (fun text s' => used = true → c.fragment s' false text)
      (here.noted (Expr.input prompt types).events) := by
  unfold Expr.events evaluate
  exact (evaluateOption_meets hprompt hyields hinv hknows).andThen
    fun _ _ _ htexts hinv' => law.inputLine htexts hinv'

/-- A typed expression whose names are words is written wherever its value is
used. -/
theorem evaluate_meets (htyped : e.Typed tables) (hwords : Words e.mentions) :
    ExprWritten c tables e := by
  induction htyped with
  | bool =>
      intro here s hinv _ _
      unfold Expr.events evaluate
      rw [Progress.noted_nil]
      exact law.boolLiteral hinv
  | int =>
      intro here s hinv _ _
      unfold Expr.events evaluate
      rw [Progress.noted_nil]
      exact law.intLiteral hinv
  | string =>
      intro here s hinv _ _
      unfold Expr.events evaluate
      exact law.stringLiteral hinv
  | @unary op operand _ hyields ih =>
      intro here s hinv hknows _
      unfold Expr.events evaluate
      rw [hyields.ty_eq]
      refine evaluate_single_meets (ih hwords) hyields
        (fun htext => ?_) hinv hknows
      rw [op.operand_isList] at htext
      show c.Gives _ _ op.operand.isList _
      rw [op.operand_isList]
      exact law.unary htext
  | @binary op left right ty _ _ hleft hright hop ihl ihr =>
      intro here s hinv hknows _
      obtain ⟨hl, hr⟩ := words_append.mp hwords
      unfold Expr.events evaluate
      rw [hleft.ty_eq]
      refine evaluate_pair_meets (ihl hl) (ihr hr) hleft hright
        (fun hl hr => ?_) hinv hknows
      rw [hop.isList] at hl hr
      show c.Gives _ _ ty.isList _
      rw [hop.isList]
      exact law.binary hop hl hr
  | compare _ _ hleft hright hop ihl ihr =>
      intro here s hinv hknows _
      obtain ⟨hl, hr⟩ := words_append.mp hwords
      unfold Expr.events evaluate
      rw [hleft.ty_eq]
      refine evaluate_pair_meets (ihl hl) (ihr hr) hleft hright
        (fun hl hr => ?_) hinv hknows
      rw [ValueType.isList_of_isScalar hop.1] at hl hr
      exact law.compare hop hl hr
  | logical _ _ hleft hright ihl ihr =>
      intro here s hinv hknows _
      obtain ⟨hl, hr⟩ := words_append.mp hwords
      unfold Expr.events evaluate
      exact evaluate_pair_meets (ihl hl) (ihr hr) hleft hright law.logical
        hinv hknows
  | var _ =>
      intro here s hinv _ _
      unfold Expr.events evaluate
      rw [Progress.noted_nil]
      exact law.readVariable (words_cons.mp hwords).1 hinv
  | @listLiteral items ty hlist _ _ hyields ih =>
      intro here s hinv hknows _
      have hitems := words_mentionsOfAll.mp hwords
      unfold Expr.events evaluate
      refine (evaluateAll_scalars (fun e he => ih e he (hitems e he))
        (fun e he => ⟨_, hyields e he, rfl⟩) hinv hknows).andThen
          fun values s' _ hvalues => ?_
      show c.Gives s' _ ty.isList _
      rw [hlist]
      exact law.listLiteral hvalues
  | listElement _ _ hyields hlist hindex ihl ihi =>
      intro here s hinv hknows _
      obtain ⟨hl, hi⟩ := words_append.mp hwords
      unfold Expr.events evaluate
      refine evaluate_pair_meets (ihl hl) (ihi hi) hyields hindex
        (fun hl hi => ?_) hinv hknows
      rw [hlist] at hl
      exact law.readElement hl hi
  | listLength _ hyields hlist ih =>
      intro here s hinv hknows _
      unfold Expr.events evaluate
      refine evaluate_single_meets (ih hwords) hyields
        (fun htext => ?_) hinv hknows
      rw [hlist] at htext
      exact law.listLength htext
  | substring _ _ _ hvalue hstart hstop ihv ihs ihe =>
      intro here s hinv hknows _
      obtain ⟨hv, hrest⟩ := words_append.mp hwords
      obtain ⟨hs, he⟩ := words_append.mp hrest
      have hstops := words_mentionsOfOption.mp he
      unfold Expr.events evaluate
      rw [List.append_assoc]
      refine ((ihv hv).yields hvalue hinv hknows).seq fun v s₁ _ hv hinv₁ => ?_
      refine ((ihs hs).yields hstart hinv₁ hknows).seq
        fun start s₂ hgrows hstart hinv₂ => ?_
      refine (evaluateOption_meets (fun e he => ihe e he (hstops e he)) hstop
        hinv₂ hknows).andThen fun stop s₃ hgrows' hstop hinv₃ => ?_
      exact law.substring (c.mono (c.trans hgrows hgrows') hv)
        (c.mono hgrows' hstart) hstop hinv₃
  | stringLength _ hyields ih =>
      intro here s hinv hknows _
      unfold Expr.events evaluate
      exact evaluate_single_meets (ih hwords) hyields law.stringLength
        hinv hknows
  | group _ hyields ih =>
      intro here s hinv hknows _
      unfold Expr.events evaluate
      exact evaluate_single_meets (ih hwords) hyields law.group hinv hknows
  | call hlookup _ hargs ih =>
      intro here s hinv hknows hne
      obtain ⟨hwords, hname⟩ := words_append.mp hwords
      have hall := words_mentionsOfAll.mp hwords
      exact (evaluate_call_meets law (words_cons.mp hname).1
        (fun arg harg => ih arg harg (hall arg harg))
          (types_ne_nil_of_forall₂ hargs)
        (hknows.mem hlookup) (fun _ => hne) hinv hknows).weaken
          fun _ _ h => h rfl
  | process _ _ hargs ih =>
      intro here s hinv hknows _
      have hall := words_mentionsOfStages.mp (words_append.mp hwords).1
      unfold Expr.events evaluate
      rw [← bind_assoc]
      refine (runProcess_meets law
        (fun stage hstage arg harg => ih stage hstage arg harg
          (hall stage hstage arg harg))
        hargs (show 1 ≤ 3 by decide) hinv hknows).andThen
          fun results s' _ hresults => .pure ?_
      cases results with
      | nil => exact law.nothing
      | cons result results => exact hresults.1 result List.mem_cons_self
  | input _ hprompt ih =>
      intro here s hinv hknows _
      have hall := words_mentionsOfOption.mp hwords
      exact (evaluate_input_meets law (fun e he => ih e he (hall e he)) hprompt
        hinv hknows).weaken fun _ _ h => h rfl
  | @copy list ty _ hyields hlist ih =>
      intro here s hinv hknows _
      unfold Expr.events evaluate
      refine evaluate_single_meets (ih hwords) hyields
        (fun htext => ?_) hinv hknows
      show c.Gives _ _ ty.isList _
      rw [hlist] at htext ⊢
      exact law.copyList htext
  | fileExists _ hyields ih =>
      intro here s hinv hknows _
      unfold Expr.events evaluate
      exact evaluate_single_meets (ih hwords) hyields law.fileExists hinv hknows
  | fileContent _ hyields ih =>
      intro here s hinv hknows _
      unfold Expr.events evaluate
      exact evaluate_single_meets (ih hwords) hyields law.fileContent
        hinv hknows
  | intToString _ hyields ih =>
      intro here s hinv hknows _
      unfold Expr.events evaluate
      exact evaluate_single_meets (ih hwords) hyields law.intToString
        hinv hknows
  | stringToInt _ hyields ih =>
      intro here s hinv hknows _
      unfold Expr.events evaluate
      exact evaluate_single_meets (ih hwords) hyields law.stringToInt
        hinv hknows

/-- The results of an expression are fragments of the types its targets have. -/
theorem evaluateResults_meets (htyped : value.Typed tables)
    (hwords : Words value.mentions) (hhands : value.Hands types)
    (hinv : c.Inv here s) (hknows : Knows here tables) :
    c.Meets (refusal c.strict here.function value.events)
      (evaluateResults value types.length) s
      (fun results s' => c.Values s' (results.zip types) ∧
        (c.total → types.length ≤ results.length))
          (here.noted value.events) := by
  obtain ⟨hne, htypes⟩ := hhands
  have hwritten := evaluate_meets law htyped hwords
  cases htyped with
  | call hlookup hargs hyields =>
      obtain rfl : types = _ := htypes
      obtain ⟨hwords, hname⟩ := words_append.mp hwords
      have hall := words_mentionsOfAll.mp hwords
      exact (callFunction_meets law (words_cons.mp hname).1
        (fun arg harg => evaluate_meets law (hargs arg harg) (hall arg harg))
        (types_ne_nil_of_forall₂ hyields) (hknows.mem hlookup) hinv
          hknows).weaken
        fun _ _ h => ⟨h.1, fun htotal => Nat.le_of_eq (h.2 htotal rfl).symm⟩
  | process hstages hargs hyields =>
      have hall := words_mentionsOfStages.mp (words_append.mp hwords).1
      have hbegins : types <+: [.string, .string, .int] := htypes
      have hpositive : types.length ≠ 0 := by
        simpa using hne
      have hscalars : ∀ ty ∈ types, ty.isList = false := by
        intro ty hty
        have hmem := hbegins.subset hty
        simp only [List.mem_cons, List.not_mem_nil, or_false] at hmem
        rcases hmem with rfl | rfl | rfl <;> rfl
      have hmeets := runProcess_meets law
        (fun stage hstage arg harg => evaluate_meets law
        (hargs stage hstage arg harg) (hall stage hstage arg harg)) hyields
          hbegins.length_le
        hinv hknows
      rw [if_neg hpositive] at hmeets
      exact hmeets.weaken fun _ _ h =>
        ⟨h.1.values hscalars, fun htotal => Nat.le_of_eq (h.2 htotal).symm⟩
  | _ =>
      obtain rfl : types = _ := htypes
      refine (hwritten hinv hknows hne).andThen
        fun result s' _ hresult => .pure ?_
      exact ⟨List.forall_mem_singleton.mpr hresult, fun _ => Nat.le_refl 1⟩

theorem evaluateMany_meets (htyped : value.Typed tables)
    (hwords : Words value.mentions) (hhands : value.Hands types)
    (hinv : c.Inv here s) (hknows : Knows here tables) :
    c.Meets (refusal c.strict here.function value.events)
      (evaluateMany value types.length) s
      (fun results s' => c.Values s' (results.zip types))
        (here.noted value.events) := by
  unfold evaluateMany
  refine (evaluateResults_meets law htyped hwords hhands hinv hknows).andThen
    fun results s' _ hresults hinv' => ?_
  by_cases hfew : results.length < types.length
  · rw [if_pos hfew]
    exact .throw (fun htotal => Nat.not_lt.mpr (hresults.2 htotal) hfew) hinv'
  · rw [if_neg hfew]
    exact .pure hresults.1 hinv'

end Script

end Shellwright
