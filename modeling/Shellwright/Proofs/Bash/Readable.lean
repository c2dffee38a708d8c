/-
Arithmetic fragments of bash scripts can be read in one way only.  An operation
puts both its operands in parentheses, so that its text tells where each of them
ends, and no rule of precedence has a say in it.
-/
import Shellwright.Proofs.Bash.Quoting
import Shellwright.Proofs.Script.Run
import Shellwright.Proofs.Token.Spelling
import Shellwright.Proofs.Typing

namespace Shellwright

namespace Bash

open Script (exec evaluate exec_bind_ok)

/-- An operator between two operands. -/
inductive Connective where
  | binary (op : BinaryOp)
  | compare (op : CompareOp)
  | logical (op : LogicalOp)
deriving DecidableEq, Repr

def Connective.symbol : Connective → String
  | binary op => op.symbol
  | compare op => op.symbol
  | logical op => op.symbol

/-- An arithmetic expression without its parentheses and types.  Truth values
are the numbers 1 and 0. -/
inductive OperatorTree where
  | number (value : Nat)
  | read (name : String) (word : isWord name.toList = true)
  | unary (op : UnaryOp) (operand : OperatorTree)
  | operation (op : Connective) (left right : OperatorTree)

/-- The operators of an expression that is made from numbers, truth values and
variables for them. -/
def operatorTree? : Expr → Option OperatorTree
  | .bool value _ => some (.number value.toNat)
  | .int value _ => if 0 ≤ value then some (.number value.toNat) else none
  | .var name types =>
      if h : isWord name.toList = true ∧ (types = [.int] ∨ types = [.bool]) then
        some (.read name h.1)
      else none
  | .unary op operand _ => (operatorTree? operand).map (.unary op)
  | .binary op left right _ => do
      return .operation (.binary op) (← operatorTree? left)
        (← operatorTree? right)
  | .compare op left right _ => do
      return .operation (.compare op) (← operatorTree? left)
        (← operatorTree? right)
  | .logical op left right _ => do
      return .operation (.logical op) (← operatorTree? left)
        (← operatorTree? right)
  | .group inner _ => operatorTree? inner
  | _ => none

def OperatorTree.text : OperatorTree → String
  | number value => toString value
  | read name _ => expand (variableName name)
  | unary op operand => arithmetic (op.symbol ++ parenthesized operand.text)
  | operation op left right =>
      arithmeticOperation left.text op.symbol right.text

/-! What the dialect writes. -/

section Written

variable {tables : Tables} {e left right : Expr} {ty : ValueType}
  {tree : OperatorTree}

theorem ty_of_operatorTree? (htyped : e.Typed tables)
    (h : operatorTree? e = some tree) : e.ty = .int ∨ e.ty = .bool := by
  induction htyped generalizing tree with
  | bool | compare | logical => exact .inr rfl
  | int => exact .inl rfl
  | @unary op => cases op with
    | neg => exact .inl rfl
    | not => exact .inr rfl
  | binary _ _ hleft _ _ ihl _ =>
      obtain ⟨_, htree, _⟩ := Option.bind_eq_some_iff.mp h
      exact hleft.ty_eq ▸ ihl htree
  | group _ hinner ih => exact hinner.ty_eq ▸ ih h
  | var =>
      simp only [operatorTree?, Option.dite_none_right_eq_some] at h
      obtain ⟨⟨_, htypes⟩, _⟩ := h
      exact htypes.imp (by simp [Expr.ty, Expr.types])
        (by simp [Expr.ty, Expr.types])
  | _ => cases h

theorem compare_arithmetic {op : CompareOp} {l r : String}
    (hop : op.DefinedOn ty) (hty : ty = .int ∨ ty = .bool) :
    compare op l r ty = return arithmeticOperation l op.symbol r := by
  rcases hty with rfl | rfl
  · rfl
  · cases op with
    | eq | notEq => rfl
    | _ => cases hop.2 rfl

/-- The fragment of an arithmetic expression needs no line and hangs on its
operators alone. -/
theorem evaluate_arithmetic (htyped : e.Typed tables)
    (h : operatorTree? e = some tree) (used : Bool) (s : State) :
    exec (evaluate e used) s = (.ok tree.text, s) := by
  induction htyped generalizing tree used with
  | @bool value =>
      cases h
      cases value <;> rfl
  | @int value =>
      obtain ⟨hvalue, htree⟩ := Option.ite_none_right_eq_some.mp h
      cases htree
      obtain ⟨number, rfl⟩ := Int.eq_ofNat_of_zero_le hvalue
      rfl
  | var =>
      simp only [operatorTree?, Option.dite_none_right_eq_some] at h
      obtain ⟨⟨_, htypes⟩, htree⟩ := h
      cases htree
      show exec (readVariable _ _) s = (.ok (expand (variableName _)), s)
      rcases htypes with htypes | htypes <;> rw [htypes] <;> rfl
  | @unary op operand _ hoperand ih =>
      obtain ⟨inner, hinner, rfl⟩ := Option.map_eq_some_iff.mp h
      rw [evaluate, exec_bind_ok (ih hinner true), hoperand.ty_eq]
      cases op <;> rfl
  | @binary op left right ty hleft _ hyields _ hop ihl ihr =>
      obtain ⟨l, hl, h⟩ := Option.bind_eq_some_iff.mp h
      obtain ⟨r, hr, h⟩ := Option.bind_eq_some_iff.mp h
      cases h
      rw [evaluate, exec_bind_ok (ihl hl true), exec_bind_ok (ihr hr true),
        hyields.ty_eq]
      rcases hop with rfl | ⟨rfl, _⟩
      · rfl
      · have hty := ty_of_operatorTree? hleft hl
        rw [hyields.ty_eq] at hty
        exact absurd hty (by decide)
  | @compare op left right ty hleft _ hyields _ hop ihl ihr =>
      obtain ⟨l, hl, h⟩ := Option.bind_eq_some_iff.mp h
      obtain ⟨r, hr, h⟩ := Option.bind_eq_some_iff.mp h
      cases h
      rw [evaluate, exec_bind_ok (ihl hl true), exec_bind_ok (ihr hr true)]
      have := ty_of_operatorTree? hleft hl
      rw [hyields.ty_eq] at this ⊢
      show exec (compare op l.text r.text ty) s = _
      rw [compare_arithmetic hop this]
      rfl
  | logical _ _ _ _ ihl ihr =>
      obtain ⟨l, hl, h⟩ := Option.bind_eq_some_iff.mp h
      obtain ⟨r, hr, h⟩ := Option.bind_eq_some_iff.mp h
      cases h
      rw [evaluate, exec_bind_ok (ihl hl true), exec_bind_ok (ihr hr true)]
      rfl
  | group _ _ ih =>
      rw [evaluate, exec_bind_ok (ih h used)]
      rfl
  | _ => cases h

end Written

/-! Reading the text. -/

/-- Two texts are split alike where both splits are at the first character that
is not kept. -/
theorem append_inj_of_boundary {keep : Char → Bool}
    {first second rest rest' : List Char} (hfirst : first.all keep = true)
    (hsecond : second.all keep = true)
    (hrest : ∀ c ∈ rest.head?, keep c = false)
    (hrest' : ∀ c ∈ rest'.head?, keep c = false)
    (h : first ++ rest = second ++ rest') : first = second ∧ rest = rest' := by
  have htake := congrArg (List.takeWhile keep) h
  rw [Lexeme.takeWhile_boundary hfirst hrest,
    Lexeme.takeWhile_boundary hsecond hrest'] at htake
  exact ⟨htake, List.append_cancel_left (htake ▸ h)⟩

theorem Connective.symbol_inj {op other : Connective}
    (h : op.symbol = other.symbol) : op = other := by
  rcases op with op | op | op <;> rcases other with other | other | other <;>
    cases op <;> cases other <;> first | rfl | exact absurd h (by decide)

theorem Connective.symbol_solid (op : Connective) :
    op.symbol.toList.all (· != ' ') = true := by
  rcases op with op | op | op <;> cases op <;> rfl

namespace OperatorTree

/-- The text of a tree that does not end in the middle of a number. -/
def Ends (rest : List Char) : Prop := ∀ c ∈ rest.head?, c.isDigit = false

theorem toList_unary (op : UnaryOp) (operand : OperatorTree)
    (rest : List Char) :
    (unary op operand).text.toList ++ rest = '$' :: '(' :: '(' :: ' ' ::
      (op.symbol.toList ++
      '(' :: (operand.text.toList ++ ')' :: ' ' :: ')' :: ')' :: rest)) := by
  simp [text, arithmetic, parenthesized]

theorem toList_operation (op : Connective) (left right : OperatorTree)
    (rest : List Char) :
    (operation op left right).text.toList ++ rest =
      '$' :: '(' :: '(' :: ' ' :: '(' ::
      (left.text.toList ++ ')' :: ' ' :: (op.symbol.toList ++
        ' ' :: '(' :: (right.text.toList ++ ')' :: ' ' :: ')' :: ')' ::
          rest))) := by
  simp [text, arithmeticOperation, arithmetic, parenthesized]

theorem toList_read (name : String) (hword : isWord name.toList = true)
    (rest : List Char) :
    (read name hword).text.toList ++ rest =
      '$' :: '\x7b' :: 'v' :: '_' :: (name.toList ++ '\x7d' :: rest) := by
  simp [text, expand, variableName]

theorem toList_number (value : Nat) : (number value).text.toList =
    Nat.toDigits 10 value := by
  rw [text, Nat.toString_eq_repr, Nat.toList_repr]

theorem number_isDigit (value : Nat) :
    (number value).text.toList.all Char.isDigit = true := by
  rw [toList_number, List.all_eq_true]
  exact fun c hc => Nat.isDigit_of_mem_toDigits (by decide) (by decide) hc

theorem number_ne_dollar {value : Nat} {rest tail : List Char}
    (h : (number value).text.toList ++ rest = '$' :: tail) : False := by
  have hdigits := number_isDigit value
  cases hchars : (number value).text.toList with
  | nil => exact Nat.toDigits_ne_nil (toList_number value ▸ hchars)
  | cons c chars =>
      rw [hchars] at h hdigits
      obtain ⟨rfl, _⟩ := List.cons.inj h
      cases hdigits

/-- Where the text of a tree ends can be told from what is before. -/
theorem text_append_inj {tree other : OperatorTree} {rest rest' : List Char}
    (hrest : Ends rest) (hrest' : Ends rest')
    (h : tree.text.toList ++ rest = other.text.toList ++ rest') :
    tree = other ∧ rest = rest' := by
  have hparen : ∀ more, Ends (')' :: more) := by simp [Ends]
  induction tree generalizing other rest rest' with
  | number value =>
      cases other with
      | number value' =>
          obtain ⟨hdigits, hsame⟩ :=
            append_inj_of_boundary (number_isDigit value)
            (number_isDigit value') hrest hrest' h
          rw [toList_number, toList_number] at hdigits
          have hvalue := congrArg (Nat.ofDigitChars 10 · 0) hdigits
          simp only [Nat.ofDigitChars_ten_toDigits] at hvalue
          exact ⟨congrArg number hvalue, hsame⟩
      | read name word =>
          exact (number_ne_dollar (h.trans (toList_read ..))).elim
      | unary op operand =>
          exact (number_ne_dollar (h.trans (toList_unary ..))).elim
      | operation op left right =>
          exact (number_ne_dollar (h.trans (toList_operation ..))).elim
  | read name hword =>
      rw [toList_read] at h
      cases other with
      | number value => exact (number_ne_dollar h.symm).elim
      | read name' hword' =>
          simp only [toList_read, List.cons.injEq, true_and] at h
          obtain ⟨hname, htail⟩ := append_inj_of_boundary
            (List.all_eq_true.mpr fun _ => isWordChar_of_isWord hword)
            (List.all_eq_true.mpr fun _ => isWordChar_of_isWord hword')
              (by simp; decide)
            (by simp; decide) h
          obtain rfl := String.toList_inj.mp hname
          exact ⟨rfl, (List.cons.inj htail).2⟩
      | unary op operand => simp [toList_unary] at h
      | operation op left right => simp [toList_operation] at h
  | unary op operand ih =>
      rw [toList_unary] at h
      cases other with
      | number value => exact (number_ne_dollar h.symm).elim
      | read name hword => simp [toList_read] at h
      | unary op' operand' =>
          rw [toList_unary] at h
          obtain rfl : op = op' := by
            cases op <;> cases op' <;> simp [UnaryOp.symbol] at h ⊢
          simp only [List.cons.injEq, true_and, List.append_cancel_left_eq] at h
          obtain ⟨rfl, htail⟩ := ih (hparen _) (hparen _) h
          exact ⟨rfl, by simpa using htail⟩
      | operation _ left right =>
          cases op <;> simp [toList_operation, UnaryOp.symbol] at h
  | operation op left right ihl ihr =>
      rw [toList_operation] at h
      cases other with
      | number value => exact (number_ne_dollar h.symm).elim
      | read name hword => simp [toList_read] at h
      | unary op operand =>
          cases op <;> simp [toList_unary, UnaryOp.symbol] at h
      | operation op' left' right' =>
          simp only [toList_operation, List.cons.injEq, true_and] at h
          obtain ⟨rfl, hmiddle⟩ := ihl (hparen _) (hparen _) h
          simp only [List.cons.injEq, true_and] at hmiddle
          obtain ⟨hop, hright⟩ :=
            append_inj_of_boundary op.symbol_solid op'.symbol_solid
            (by simp) (by simp) hmiddle
          simp only [List.cons.injEq, true_and] at hright
          obtain ⟨rfl, htail⟩ := ihr (hparen _) (hparen _) hright
          obtain rfl := Connective.symbol_inj (String.toList_inj.mp hop)
          exact ⟨rfl, by simpa using htail⟩

theorem text_inj {tree other : OperatorTree} : tree.text = other.text ↔
    tree = other := by
  refine ⟨fun h => ?_, fun h => h ▸ rfl⟩
  have hends : Ends [] := by simp [Ends]
  exact (text_append_inj hends hends (congrArg (·.toList ++ []) h)).1

end OperatorTree

/-- Every typed expression that is made from numbers, truth values and variables
for them has a fragment, the same in every state, and two of them have the same
fragment if and only if they have the same operators, whatever parentheses they
were written with. -/
theorem bash_fragment_fixes_operators {tables tables' : Tables} {e e' : Expr}
    {tree tree' : OperatorTree} (htyped : e.Typed tables)
    (htyped' : e'.Typed tables') (htree : operatorTree? e = some tree)
    (htree' : operatorTree? e' = some tree') :
    ∃ text text',
      (∀ used s, exec (evaluate e used) s = (.ok text, (s : State))) ∧
      (∀ used s, exec (evaluate e' used) s = (.ok text', (s : State))) ∧
      (text = text' ↔ tree = tree') :=
  ⟨_, _, evaluate_arithmetic htyped htree, evaluate_arithmetic htyped' htree',
    OperatorTree.text_inj⟩

/-- The products `(x + 2) * 3` and `x + 2 * 3` are told apart. -/
theorem bash_fragment_fixes_operators_product :
    ∃ text text',
      (∀ used s,
        exec (evaluate (.binary .mul
          (.group (.binary .add (.var "x" [.int]) (.int 2 [.int]) [.int]) [.int])
          (.int 3 [.int]) [.int]) used) s = (.ok text, (s : State))) ∧
      (∀ used s,
        exec (evaluate (.binary .add (.var "x" [.int])
          (.binary .mul (.int 2 [.int]) (.int 3 [.int]) [.int]) [.int]) used)
          s = (.ok text', (s : State))) ∧
      text ≠ text' := by
  have hx : (Expr.var "x" [.int]).Typed ⟨[("x", ⟨.int, false⟩)], []⟩ :=
    @Expr.Typed.var _ "x" ⟨.int, false⟩ rfl
  have hplain :
    (Expr.binary .add (.var "x" [.int]) (.binary .mul (.int 2 [.int])
      (.int 3 [.int]) [.int]) [.int]).Typed ⟨[("x", ⟨.int, false⟩)], []⟩ :=
    .binary hx (.binary .int .int (.inl rfl) (.inl rfl) (.inl rfl)) (.inl rfl)
      (.inl rfl) (.inl rfl)
  have hgrouped :
    (Expr.binary .mul (.group (.binary .add (.var "x" [.int]) (.int 2 [.int])
      [.int]) [.int]) (.int 3 [.int]) [.int]).Typed ⟨[("x",
      ⟨.int, false⟩)], []⟩ :=
    .binary (.group (.binary hx .int (.inl rfl) (.inl rfl) (.inl rfl))
      (.inl rfl)) .int (.inl rfl) (.inl rfl) (.inl rfl)
  obtain ⟨text, text', hfirst, hsecond, hsame⟩ :=
    bash_fragment_fixes_operators hgrouped hplain rfl rfl
  refine ⟨text, text', hfirst, hsecond, fun h => ?_⟩
  cases hsame.mp h

end Bash

end Shellwright
