/-
Expressions, whatever is to be known of them.  While a condition on the state is
kept, rules say what holds of each form of an expression when it holds of the
parts; the rules see which checks the parts have passed and how tightly they
bind.
-/
import Shellwright.Proofs.Parse.Reading
import Shellwright.Proofs.Typing

namespace Shellwright

variable {pos : Position}

/-! How tightly an expression binds, from 0 for `||` over `&&`, comparisons,
sums, products and unary operators to 6 for indices and 7 for everything that
stands on its own. -/

def LogicalOp.level : LogicalOp → Nat
  | or => 0
  | and => 1

def BinaryOp.level : BinaryOp → Nat
  | add | sub => 3
  | mul | div | mod => 4

/-! Checks of finished parts. -/

theorem except_bind_ok {ε α β : Type} {x : Except ε α} {f : α → Except ε β}
    {b : β} : (x >>= f) = .ok b ↔ ∃ a, x = .ok a ∧ f a = .ok b := by
  cases x <;> simp [bind, Except.bind]

theorem except_pure_ok {ε α : Type} {a b : α} :
    (pure a : Except ε α) = .ok b ↔ a = b := by
  simp [pure, Except.pure]

theorem except_throw_ok {ε α : Type} {e : ε} {a : α} :
    ¬(throw e : Except ε α) = .ok a := by
  simp [throw, throwThe, MonadExceptOf.throw]

theorem except_ite_ok {ε α : Type} {c : Prop} [Decidable c] {x y : Except ε α}
    {a : α} :
    (if c then x else y) = .ok a ↔ (c ∧ x = .ok a) ∨ (¬c ∧ y = .ok a) := by
  by_cases hc : c <;> simp [hc]

theorem Expr.singleType_ok {e : Expr} {ty : ValueType} :
    e.singleType pos = .ok ty ↔ e.Yields ty := by
  unfold Expr.singleType Expr.Yields
  match htypes : e.types with
  | [] => simp
  | [found] => simp
  | found :: second :: rest =>
      by_cases hprocess : e.isProcess <;> simp [hprocess]

theorem UnaryOp.apply_ok {op : UnaryOp} {operand e : Expr}
    (h : op.apply operand pos = .ok e) :
    operand.Yields op.operand ∧ e = .unary op operand [op.operand] := by
  simp only [UnaryOp.apply, except_bind_ok, Expr.singleType_ok, except_ite_ok,
    except_pure_ok, except_throw_ok, and_false, or_false] at h
  obtain ⟨ty, hyields, rfl, rfl⟩ := h
  cases op with
  | neg => exact ⟨hyields, rfl⟩
  | not => exact ⟨hyields, rfl⟩

theorem BinaryOp.apply_ok {op : BinaryOp} {left right e : Expr}
    (h : op.apply left right pos = .ok e) :
    ∃ ty, left.Yields ty ∧ right.Yields ty ∧ op.DefinedOn ty ∧
      e = .binary op left right [ty] := by
  simp only [BinaryOp.apply, except_bind_ok, Expr.singleType_ok, except_ite_ok,
    except_pure_ok, except_throw_ok, and_false, or_false, false_and,
    exists_false, false_or, not_not] at h
  obtain ⟨_, hleft, ty, hright, rfl, hop, rfl⟩ := h
  exact ⟨_, hleft, hright, hop, rfl⟩

theorem CompareOp.apply_ok {op : CompareOp} {left right e : Expr}
    (h : op.apply left right pos = .ok e) :
    ∃ ty, left.Yields ty ∧ right.Yields ty ∧ op.DefinedOn ty ∧
      e = .compare op left right [.bool] := by
  simp only [CompareOp.apply, except_bind_ok, Expr.singleType_ok, except_ite_ok,
    except_pure_ok, except_throw_ok, and_false, false_and, exists_false,
    false_or, not_not] at h
  obtain ⟨_, hleft, ty, hright, rfl, hop, rfl⟩ := h
  refine ⟨_, hleft, hright, ⟨?_, ?_⟩, rfl⟩
  · by_contra hscalar
    simp [hscalar] at hop
  · intro hordering
    by_contra hint
    simp [hordering, hint] at hop

theorem LogicalOp.apply_ok {op : LogicalOp} {left right e : Expr}
    (h : op.apply left right pos = .ok e) :
    left.Yields .bool ∧ right.Yields .bool ∧
      e = .logical op left right [.bool] := by
  simp only [LogicalOp.apply, except_bind_ok, Expr.singleType_ok, except_ite_ok,
    except_pure_ok, except_throw_ok, and_false, false_and, exists_false,
    false_or, not_not] at h
  obtain ⟨_, hleft, rfl, _, hright, rfl, rfl⟩ := h
  exact ⟨hleft, hright, rfl⟩

namespace Parse

variable {st st' : ParserState} {expr : Parse Expr} {role : Role}
  {required : ValueType} {Q : Expr → Prop} {inv : ParserState → Prop}

theorem single_ok {e : Expr} :
    single expr st = .ok (e, st') ↔ expr st = .ok (e, st') ∧ e.Yields e.ty := by
  simp only [single, position_bind, bind_ok, lift_ok,
    Expr.singleType_ok, pure_ok]
  constructor
  · rintro ⟨_, _, h, ty, _, ⟨hyields, rfl⟩, rfl, rfl⟩
    exact ⟨h, hyields.ty_eq.symm ▸ hyields⟩
  · rintro ⟨h, hyields⟩
    exact ⟨_, _, h, _, _, ⟨hyields, rfl⟩, rfl, rfl⟩

theorem typed_ok {e : Expr} {ty : ValueType} :
    typed expr ty role st = .ok (e, st') ↔
      expr st = .ok (e, st') ∧ e.Yields ty := by
  simp [typed, Expr.singleType_ok]

theorem checkArguments_ok {function : String} {number : Nat}
    {args : List (Expr × Position)} {params : List ValueType} {u : Unit}
    (h : checkArguments function number args params = .ok u)
    (hlength : args.length = params.length)
    (hargs : ∀ arg ∈ args, arg.1.Yields arg.1.ty) :
    List.Forall₂ Expr.Yields (args.map Prod.fst) params := by
  induction args generalizing number params with
  | nil =>
      cases params with
      | nil => exact .nil
      | cons param params => simp at hlength
  | cons arg args ih =>
      cases params with
      | nil => simp at hlength
      | cons param params =>
          simp [checkArguments, except_ite_ok] at h
          obtain ⟨hty, h⟩ := h
          exact .cons (hty ▸ hargs arg (by simp))
            (ih h (by simpa using hlength)
              fun other hother => hargs other (by simp [hother]))

theorem single_yields (hexpr : Keeps inv expr Q) :
    Keeps inv (single expr) fun e => Q e ∧ e.Yields e.ty := by
  intro st e st' hst h
  obtain ⟨h, hyields⟩ := single_ok.mp h
  obtain ⟨he, hinv⟩ := hexpr hst h
  exact ⟨⟨he, hyields⟩, hinv⟩

theorem typed_yields (hexpr : Keeps inv expr Q) :
    Keeps inv (typed expr required role) fun e => Q e ∧ e.Yields required := by
  intro st e st' hst h
  obtain ⟨h, hyields⟩ := typed_ok.mp h
  obtain ⟨he, hinv⟩ := hexpr hst h
  exact ⟨⟨he, hyields⟩, hinv⟩

theorem single_keeps (hexpr : Keeps inv expr Q) : Keeps inv (single expr) Q :=
  (single_yields hexpr).mono fun _ he => he.1

theorem typed_keeps (hexpr : Keeps inv expr Q) :
    Keeps inv (typed expr required role) Q :=
  (typed_yields hexpr).mono fun _ he => he.1

/-- What holds of the expressions that bind as tightly as a level asks for,
while a condition on the state is kept. -/
structure Grammar (inv : ParserState → Prop) where
  value : Nat → Expr → Prop
  /-- Names that stand in the source. -/
  spelled : String → Prop
  ident : ∀ {st name}, inv st → st.next.kind = .ident name → spelled name
  /-- The condition is found again behind the program of a pipeline. -/
  program : ∀ {st}, inv st → st.next.kind = .atSign →
    ((∃ name, st.advanced.next.kind = .ident name) ∨
      ∃ name, st.advanced.next.kind = .string name) → inv st.advanced.advanced
  looser : ∀ {level e}, value (level + 1) e → value level e
  bool : ∀ {b}, value 7 (.bool b [.bool])
  int : ∀ {n : Nat}, value 7 (.int n [.int])
  string : ∀ {text}, value 7 (.string text [.string])
  unary : ∀ {op : UnaryOp} {operand}, value 5 operand →
    operand.Yields op.operand → value 5 (.unary op operand [op.operand])
  binary : ∀ {op : BinaryOp} {left right ty}, value op.level left →
    value (op.level + 1) right →
    left.Yields ty → right.Yields ty → op.DefinedOn ty →
      value op.level (.binary op left right [ty])
  compare : ∀ {op : CompareOp} {left right ty}, value 2 left → value 3 right →
    left.Yields ty → right.Yields ty → op.DefinedOn ty →
      value 2 (.compare op left right [.bool])
  logical : ∀ {op : LogicalOp} {left right}, value op.level left →
    value (op.level + 1) right →
    left.Yields .bool → right.Yields .bool →
      value op.level (.logical op left right [.bool])
  var : ∀ {st name var}, spelled name → inv st →
    st.scope.lookupVariable? name = some var → value 7 (.var name [var.ty])
  listLiteral : ∀ {items ty}, ty.isList = true → ty.element.isScalar = true →
    (∀ item ∈ items, value 0 item) → (∀ item ∈ items, item.Yields ty.element) →
      value 7 (.listLiteral items [ty])
  listElement : ∀ {list index ty}, value 6 list → value 0 index →
    list.Yields ty →
    ty.isList = true → index.Yields .int →
      value 6 (.listElement list index [ty.element])
  listLength : ∀ {list ty}, value 0 list → list.Yields ty → ty.isList = true →
    value 7 (.listLength list [.int])
  substring : ∀ {e start stop}, value 6 e → value 0 start →
    (∀ e ∈ stop, value 0 e) →
    e.Yields .string → start.Yields .int → (∀ e ∈ stop, e.Yields .int) →
      value 6 (.substring e start stop [.string])
  stringLength : ∀ {e}, value 0 e → e.Yields .string →
    value 7 (.stringLength e [.int])
  group : ∀ {inner ty}, value 0 inner → inner.Yields ty →
    value 7 (.group inner [ty])
  call : ∀ {st name args signature}, spelled name → inv st →
    st.scope.lookupFunction? name = some signature →
      (∀ arg ∈ args, value 0 arg) →
      List.Forall₂ Expr.Yields args signature.params →
        value 7 (.call name args signature.returns)
  process : ∀ {stages}, stages ≠ [] →
    (∀ stage ∈ stages, ∀ arg ∈ stage.2, value 0 arg) →
    (∀ stage ∈ stages, ∀ arg ∈ stage.2, ∃ ty, arg.Yields ty ∧
      ty.isScalar = true) → value 7 (.process stages [.string, .string, .int])
  input : ∀ {prompt}, (∀ e ∈ prompt, value 0 e) →
    (∀ e ∈ prompt, e.Yields .string) → value 7 (.input prompt [.string])
  copy : ∀ {list ty}, value 0 list → list.Yields ty → ty.isList = true →
    value 7 (.copy list [ty])
  fileExists : ∀ {path}, value 0 path → path.Yields .string →
    value 7 (.fileExists path [.bool])
  fileContent : ∀ {path}, value 0 path → path.Yields .string →
    value 7 (.fileContent path [.string])
  intToString : ∀ {e}, value 0 e → e.Yields .int →
    value 7 (.intToString e [.string])
  stringToInt : ∀ {e}, value 0 e → e.Yields .string →
    value 7 (.stringToInt e [.int])

namespace Grammar

variable {inv : ParserState → Prop} (rules : Grammar inv) {name : String}
  {builtin : Builtin}

/-- The expression is read by the rules. -/
abbrev Makes (level : Nat) (p : Parse Expr) : Prop :=
  Keeps inv p (rules.value level)

/-- So is something that stands on its own and starts with such a token. -/
abbrev MakesAt (kind : TokenKind) (p : Parse Expr) : Prop :=
  Ensures (At kind inv) p fun e st => rules.value 7 e ∧ inv st

/-- What stands on its own may stand anywhere. -/
theorem loosest {level : Nat} {e : Expr} (h : rules.value level e) :
    rules.value 0 e := by
  induction level with
  | zero => exact h
  | succ level ih => exact ih (rules.looser h)

theorem builtin_made {arg e : Expr} (h : builtin.apply arg pos = .ok e)
    (harg : rules.value 0 arg) (hyields : arg.Yields arg.ty) :
    rules.value 7 e := by
  cases builtin <;> simp [Builtin.apply, except_ite_ok] at h <;>
    obtain ⟨hwant, rfl⟩ := h
  case copy => exact rules.copy harg hyields hwant
  all_goals rw [hwant] at hyields
  case «exists» => exact rules.fileExists harg hyields
  case read => exact rules.fileContent harg hyields
  case itoa => exact rules.intToString harg hyields
  all_goals exact rules.stringToInt harg hyields

variable [Reading inv]

theorem chain_makes {ω : Type} {level : Nat} {operand : Parse Expr}
    {operator? : TokenKind → Option ω}
    {apply : ω → Expr → Expr → Position → Except SyntaxError Expr}
    (hoperand : rules.Makes (level + 1) operand)
    (hat : operator? .atSign = none)
    (happly : ∀ {kind op left right pos e}, operator? kind = some op →
      apply op left right pos = .ok e → rules.value level left →
        rules.value (level + 1) right →
        rules.value level e) : rules.Makes level (chain operand operator?
          apply) := by
  refine hoperand.step fun first hfirst =>
    iterate_keeps (rules.value level) (fun left hleft => ?_)
      (rules.looser hfirst)
  refine peek_ensures.bind fun token => ?_
  cases hop : operator? token.kind with
  | none => exact .pure fun _ hst => ⟨hleft, hst.1⟩
  | some op =>
      have hkind : token.kind ≠ .atSign := by
        intro heq
        rw [heq, hat] at hop
        cases hop
      refine (advance_ensures hkind).bind
        fun _ => hoperand.step fun right hright => ?_
      exact (Keeps.lift fun e he => happly hop he hleft hright).step fun e he =>
        .pure fun _ hst => ⟨he, hst⟩

section

variable {expr : Parse Expr} (hexpr : rules.Makes 0 expr)

include hexpr

/-! What stands on its own. -/

theorem listLiteral_makes : rules.Makes 7 (Parse.listLiteral expr) := by
  refine valueType_keeps.step fun ty hscalar => .demand
    fun hlist => .expect rfl ?_
  refine (commaSeparated_keeps (Q := fun item => rules.value 0 item ∧
    item.Yields ty.element)
    fun _ _ => ?_).step fun items hitems => .expect rfl (.done ?_)
  · refine position_keeps.step fun _ _ => (single_yields hexpr).step
      fun item hitem => ?_
    exact .ite (fun hty => .done (hty ▸ hitem)) fun _ => .fail
  · exact rules.listLiteral (by simpa using hlist) hscalar
      (fun item h => (hitems item h).1) fun item h => (hitems item h).2

theorem lengthOf_makes : rules.MakesAt (.keyword .lenWord) (lengthOf expr) := by
  refine .pass rfl (.expect rfl (position_keeps.step fun _ _ => ?_))
  refine (single_yields hexpr).step fun inner hinner => .expect rfl ?_
  refine .ite (fun hlist => .done (rules.listLength hinner.1 hinner.2 hlist))
    fun _ => ?_
  exact .ite (fun hty => .done (rules.stringLength hinner.1 (hty ▸ hinner.2)))
    fun _ => .fail

theorem inputLine_makes : rules.MakesAt (.keyword .inputWord)
    (inputLine expr) := by
  refine .pass rfl (.expect rfl (peekKind_keeps.step fun _ _ => ?_))
  refine .ite (fun _ => .expect rfl (.done (rules.input (by simp) (by simp))))
    fun _ => ?_
  exact (typed_yields hexpr).step fun prompt hprompt => .expect rfl
    (.done (rules.input (by simpa using hprompt.1) (by simpa using hprompt.2)))

theorem stage_makes : Keeps inv (stage expr) fun stage =>
    ∀ arg ∈ stage.2, rules.value 0 arg ∧ ∃ ty, arg.Yields ty ∧
      ty.isScalar = true := by
  have hargs : ∀ name : String, Keeps inv (do
      expect .lbrace
      let args ← commaSeparated .rbrace fun _ => do
        let pos ← position
        let arg ← single expr
        if arg.ty.isScalar then
          return arg
        else
          fail (.stageArgument arg.ty) pos
      expect .rbrace
      return (name, args)) fun stage =>
        ∀ arg ∈ stage.2, rules.value 0 arg ∧ ∃ ty, arg.Yields ty ∧
          ty.isScalar = true := by
    intro name
    refine .expect rfl ?_
    refine (commaSeparated_keeps fun _ _ => ?_).step
      fun args hargs => .expect rfl (.done hargs)
    exact position_keeps.step fun _ _ => (single_yields hexpr).step
      fun arg harg =>
      .ite (fun hscalar => .done ⟨harg.1, _, harg.2, hscalar⟩) fun _ => .fail
  -- between the sign and the program there is no place to go on from
  have hsign : Ensures inv (expect .atSign) fun _ st =>
      ∃ before, inv before ∧ before.next.kind = .atSign ∧
        st = before.advanced := by
    intro st _ st' hst h
    obtain ⟨hnext, rfl⟩ := expect_ok.mp h
    exact ⟨st, hst, hnext, rfl⟩
  refine hsign.bind fun _ => peekKind_ensures.bind fun kind => ?_
  have hprogram : (∃ name, kind = .ident name) ∨ (∃ name, kind = .string name) →
      Ensures (At kind fun st => ∃ before, inv before ∧
        before.next.kind = .atSign ∧
        st = before.advanced) advance fun _ => inv := by
    rintro hname _ _ _ ⟨⟨before, hbefore, hat, rfl⟩, rfl⟩ ⟨⟩
    exact rules.program hbefore hat hname
  cases kind with
  | ident name => exact .pure_bind ((hprogram (.inl ⟨name, rfl⟩)).bind
      fun _ => hargs name)
  | string name => exact .pure_bind ((hprogram (.inr ⟨name, rfl⟩)).bind
      fun _ => hargs name)
  | _ => exact .abort .expected

theorem pipeline_makes : rules.Makes 7 (pipeline expr) := by
  refine (rules.stage_makes hexpr).step fun first hfirst => iterate_keeps
    (fun stages : List (String × List Expr) => stages ≠ [] ∧
      ∀ stage ∈ stages, ∀ arg ∈ stage.2,
      rules.value 0 arg ∧ ∃ ty, arg.Yields ty ∧ ty.isScalar = true)
    (fun stages hstages => ?_) ⟨List.cons_ne_nil _ _,
      List.forall_mem_singleton.mpr hfirst⟩
  refine .accept rfl ?_ (.pure fun _ hst => ⟨?_, hst⟩)
  · refine skipLineBreaks_keeps.step fun _ _ => peekKind_keeps.step
      fun _ _ => .demand fun _ => ?_
    refine (rules.stage_makes hexpr).step
      fun next hnext => .pure fun _ hst => ⟨?_, hst⟩
    exact ⟨by simp, List.forall_mem_append.mpr
      ⟨hstages.2, List.forall_mem_singleton.mpr hnext⟩⟩
  · exact rules.process hstages.1
      (fun stage hstage arg harg => (hstages.2 stage hstage arg harg).1)
      fun stage hstage arg harg => (hstages.2 stage hstage arg harg).2

theorem arguments_makes : Keeps inv (arguments expr) fun args =>
    ∀ arg ∈ args, rules.value 0 arg.1 ∧ arg.1.Yields arg.1.ty := by
  refine .expect rfl ((commaSeparated_keeps fun _ _ => ?_).step
    fun _ hargs => .expect rfl (.done hargs))
  exact position_keeps.step fun _ _ => (single_yields hexpr).step
    fun _ harg => .done harg

theorem callOf_makes : rules.Makes 7 (callOf expr) := by
  refine (identifier_keeps rules.ident).step fun found hname =>
    lookupFunction?_ensures.bind fun signature? => ?_
  obtain ⟨name, pos⟩ := found
  cases signature? with
  | none => exact .undeclaredFunction
  | some signature =>
      refine .assume fun st hst => .weaken ?_ fun _ hst => hst.1
      refine (rules.arguments_makes hexpr).step
        fun args hargs => .guard fun hlength => ?_
      refine (Keeps.lift fun _ hcheck => checkArguments_ok hcheck
        (not_not.mp hlength)
        fun arg harg => (hargs arg harg).2).step fun _ hyields => .done ?_
      refine rules.call hname hst.1 hst.2 (fun arg harg => ?_) hyields
      obtain ⟨pair, hpair, rfl⟩ := List.mem_map.mp harg
      exact (hargs pair hpair).1

theorem builtinCall_makes :
    rules.MakesAt (.ident name) (builtinCall expr builtin pos) := by
  unfold builtinCall
  refine .guard fun _ => .pass rfl ((rules.arguments_makes hexpr).step
    fun args hargs => ?_)
  rcases args with _ | ⟨⟨arg, argPos⟩, _ | ⟨second, rest⟩⟩
  · exact .fail
  · obtain ⟨harg, hyields⟩ := hargs _ List.mem_cons_self
    exact Keeps.lift fun e he => rules.builtin_made he harg hyields
  · exact .fail

theorem named_makes : rules.MakesAt (.ident name) (named expr name pos) := by
  refine peekAfter_keeps.step fun _ _ => .ite (fun _ => ?_) fun _ => ?_
  · cases Builtin.ofName? name with
    | some builtin => exact rules.builtinCall_makes hexpr
    | none => exact (rules.callOf_makes hexpr).weaken fun _ hst => hst.1
  · refine .assume fun st hst => ?_
    have hname := rules.ident hst.1 hst.2
    refine .pass rfl (lookupVariable?_ensures.bind fun var? => ?_)
    cases var? with
    | some var =>
        exact .pure fun _ hmid => ⟨rules.var hname hmid.1 hmid.2, hmid.1⟩
    | none => exact .undeclaredVariable

theorem primary_makes : rules.Makes 7 (primary expr) := by
  refine peek_ensures.bind fun token => ?_
  obtain ⟨kind, text, pos⟩ := token
  cases kind with
  | number => exact .pass rfl (.done rules.int)
  | string => exact .pass rfl (.done rules.string)
  | bool => exact .pass rfl (.done rules.bool)
  | lparen =>
      refine .pass rfl (skipLineBreaks_keeps.step
        fun _ _ => (single_yields hexpr).step fun inner hinner => ?_)
      exact skipLineBreaks_keeps.step
        fun _ _ => .expect rfl (.done (rules.group hinner.1 hinner.2))
  | lbracket => exact (rules.listLiteral_makes hexpr).weaken fun _ hst => hst.1
  | keyword word =>
      cases word with
      | lenWord => exact rules.lengthOf_makes hexpr
      | inputWord => exact rules.inputLine_makes hexpr
      | _ => exact .expected
  | atSign => exact (rules.pipeline_makes hexpr).weaken fun _ hst => hst.1
  | ident name => exact rules.named_makes hexpr
  | _ => exact .expected

/-! Indices and operators. -/

theorem subscript_makes {e : Expr} (he : rules.value 6 e)
    (hstring : e.Yields .string) : rules.Makes 6 (subscript expr e) := by
  have hzero : rules.value 0 (.int 0 [.int]) := rules.loosest rules.int
  have hlength : rules.value 0 (.stringLength e [.int]) :=
    rules.loosest (rules.stringLength (rules.loosest he) hstring)
  refine peekKind_keeps.step fun _ _ => .joinElse (fun _ => typed_yields hexpr)
    (fun _ => ⟨hzero, .inl rfl⟩) fun start hstart => ?_
  have hrest : ∀ stop : Option Expr, (∀ e ∈ stop, rules.value 0 e ∧
    e.Yields .int) →
      rules.Makes 6 (do
        expect .rbracket
        return .substring e start stop [.string]) := fun stop hstop =>
    .expect rfl
      (.done (rules.substring he hstart.1
        (fun e h => (hstop e h).1) hstring hstart.2
      fun e h => (hstop e h).2))
  refine .accept rfl ?_ (hrest none (by simp))
  refine peekKind_keeps.step fun _ _ => .joinElse
    (fun _ => (typed_yields hexpr).map ?_) ?_ hrest
  · rintro e he _ ⟨⟩
    exact he
  · rintro _ _ ⟨⟩
    exact ⟨hlength, .inl rfl⟩

theorem indexed_makes : rules.Makes 6 (indexed expr) := by
  refine (rules.primary_makes hexpr).step fun first hfirst =>
    iterate_keeps (rules.value 6) (fun e he => ?_) (rules.looser hfirst)
  refine peek_ensures.bind fun token => ?_
  refine .ite (fun _ => .pure fun _ hst => ⟨he, hst.1⟩) fun hkind => ?_
  have hbracket : token.kind = .lbracket := not_not.mp hkind
  refine (advance_ensures (by simp [hbracket])).bind fun _ => ?_
  refine (Keeps.lift fun _ hty => Expr.singleType_ok.mp hty).step fun ty hty =>
    .ite (fun hlist => ?_) fun _ => ?_
  · refine (typed_yields hexpr).step fun index hindex =>
      .expect rfl (.pure fun _ hst => ⟨?_, hst⟩)
    exact rules.listElement he hindex.1 hty hlist hindex.2
  · refine .ite (fun hstring => ?_) fun _ => .fail
    exact (rules.subscript_makes hexpr he (hstring ▸ hty)).step fun e he =>
      .pure fun _ hst => ⟨he, hst⟩

omit hexpr in
theorem unaryOperators_keeps : Keeps inv unaryOperators fun _ => True := by
  refine iterate_keeps (fun _ => True)
    (fun ops _ => peek_ensures.bind fun token => ?_) trivial
  cases hop : unaryOperator? token.kind with
  | some op =>
      refine (advance_ensures ?_).bind fun _ => .pure
        fun _ hst => ⟨trivial, hst⟩
      intro heq
      rw [heq] at hop
      cases hop
  | none => exact .pure fun _ hst => ⟨trivial, hst.1⟩

theorem unary_makes : rules.Makes 5 (Parse.unary expr) := by
  refine unaryOperators_keeps.step fun ops _ =>
    (rules.indexed_makes hexpr).step fun operand hoperand => ?_
  induction ops with
  | nil => exact .done (rules.looser hoperand)
  | cons first ops ih =>
      rw [List.foldrM_cons]
      refine Keeps.step ih fun e he => Keeps.lift fun _ h => ?_
      obtain ⟨hyields, rfl⟩ := UnaryOp.apply_ok h
      exact rules.unary he hyields

theorem expressionRule_makes : rules.Makes 0 (expressionRule expr) := by
  have hbinary : ∀ {op : BinaryOp} {level left right pos e}, op.level = level →
      op.apply left right pos = .ok e → rules.value level left →
        rules.value (level + 1) right → rules.value level e := by
    rintro op _ left right pos e rfl h hleft hright
    obtain ⟨ty, hl, hr, hop, rfl⟩ := BinaryOp.apply_ok h
    exact rules.binary hleft hright hl hr hop
  have hlogical : ∀ {op : LogicalOp} {level left right pos e},
    op.level = level →
      op.apply left right pos = .ok e → rules.value level left →
        rules.value (level + 1) right → rules.value level e := by
    rintro op _ left right pos e rfl h hleft hright
    obtain ⟨hl, hr, rfl⟩ := LogicalOp.apply_ok h
    exact rules.logical hleft hright hl hr
  refine rules.chain_makes
    (rules.chain_makes (rules.chain_makes (rules.chain_makes
    (rules.chain_makes (rules.unary_makes hexpr) rfl fun hop => hbinary ?_) rfl
    fun hop => hbinary ?_) rfl fun hop h hleft hright => ?_) rfl
      fun hop => hlogical ?_) rfl
    fun hop => hlogical ?_
  · unfold productOperator? at hop
    split at hop <;> cases hop <;> rfl
  · unfold sumOperator? at hop
    split at hop <;> cases hop <;> rfl
  · obtain ⟨ty, hl, hr, hdefined, rfl⟩ := CompareOp.apply_ok h
    exact rules.compare hleft hright hl hr hdefined
  · unfold conjunction? at hop
    split at hop <;> cases hop
    rfl
  · unfold disjunction? at hop
    split at hop <;> cases hop
    rfl

end

/-- Every expression that is read is made by the rules. -/
theorem expression_makes : rules.Makes 0 expression :=
  nested_ensures (fun _ : Unit => inv) _
    (fun _ hexpr _ => rules.expressionRule_makes (hexpr ())) ()

end Grammar

end Parse

end Shellwright
