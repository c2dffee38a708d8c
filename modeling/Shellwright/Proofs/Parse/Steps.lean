/-
What a successful parser has done.  Every elementary step is described by an
equivalence between its success and the state it leaves behind, so that a
grammar rule opens into the successes of its parts.  Repetitions and nested
rules are opened by an invariant each.
-/
import Mathlib
import Shellwright.Parse.Stmt

namespace Shellwright

namespace ParserState

/-- The state after the next token has been read. -/
def advanced (st : ParserState) : ParserState :=
  { st with ahead := st.ahead.tail }

/-- The kinds of the tokens still to be read, the closing one included. -/
def kinds (st : ParserState) : List TokenKind :=
  (st.last :: st.ahead).map Token.kind

/-- Nothing but tokens has been read on the way from `st` to `st'`. -/
structure Reads (st st' : ParserState) : Prop where
  ahead : st'.ahead <:+ st.ahead
  last : st'.last = st.last
  scope : st'.scope = st.scope
  hidden : st'.hidden = st.hidden

theorem Reads.refl (st : ParserState) : st.Reads st :=
  ⟨List.suffix_refl _, rfl, rfl, rfl⟩

theorem Reads.trans {st mid st' : ParserState} (hfirst : st.Reads mid)
    (hsecond : mid.Reads st') : st.Reads st' :=
  ⟨hsecond.ahead.trans hfirst.ahead, hsecond.last.trans hfirst.last,
    hsecond.scope.trans hfirst.scope, hsecond.hidden.trans hfirst.hidden⟩

theorem reads_advanced (st : ParserState) : st.Reads st.advanced :=
  ⟨List.tail_suffix _, rfl, rfl, rfl⟩

theorem Reads.advance {st mid : ParserState} (hreads : st.Reads mid) :
    st.Reads mid.advanced := hreads.trans mid.reads_advanced

@[simp] theorem advanced_scope (st : ParserState) :
    st.advanced.scope = st.scope := rfl

@[simp] theorem advanced_hidden (st : ParserState) :
    st.advanced.hidden = st.hidden := rfl

theorem next_kind_mem_kinds (st : ParserState) : st.next.kind ∈ st.kinds := by
  unfold next kinds
  cases st.ahead with
  | nil => simp
  | cons token rest => simp

theorem Reads.kinds_subset {st st' : ParserState} (hreads : st.Reads st') :
    st'.kinds ⊆ st.kinds := by
  unfold kinds
  rw [hreads.last]
  exact List.map_subset _ (List.cons_subset_cons _ hreads.ahead.subset)

end ParserState

/-- The name the compiler makes with its counter at `count`. -/
def hiddenNameAt (stem : String) (count : Nat) : String :=
  "__" ++ stem ++ toString count

namespace Parse

variable {α β : Type} {st st' : ParserState} {a value : α} {result : β}
  {found : Bool} {u : Unit} {name : String} {wanted : Wanted} {p : Parse α}
  {pos : Position} {kind : TokenKind} {f : Token → Parse β}
  {skipped : TokenKind → Bool} {round : α → Parse (Round α β)}
  {Post : β → ParserState → Prop}

/-! Sequencing. -/

@[simp] theorem bind_ok {f : α → Parse β} {b : β} :
    (p >>= f) st = .ok (b, st') ↔
      ∃ a mid, p st = .ok (a, mid) ∧ f a mid = .ok (b, st') := by
  simp only [bind, StateT.bind, Except.bind]
  constructor
  · intro h
    split at h
    · exact absurd h (by simp)
    · next result hp => exact ⟨result.1, result.2, hp, h⟩
  · rintro ⟨a, mid, hp, hf⟩
    rw [hp]
    exact hf

@[simp] theorem pure_ok {b : α} :
    (pure a : Parse α) st = .ok (b, st') ↔ b = a ∧ st' = st := by
  simp [pure, StateT.pure, Except.pure, eq_comm]

@[simp] theorem map_ok {f : α → β} {b : β} :
    (f <$> p) st = .ok (b, st') ↔ ∃ a, p st = .ok (a, st') ∧ b = f a := by
  rw [map_eq_pure_bind, bind_ok]
  constructor
  · rintro ⟨a, mid, hp, hf⟩
    obtain ⟨rfl, rfl⟩ := pure_ok.mp hf
    exact ⟨a, hp, rfl⟩
  · rintro ⟨a, hp, rfl⟩
    exact ⟨a, st', hp, pure_ok.mpr ⟨rfl, rfl⟩⟩

@[simp] theorem ite_ok {c : Prop} [Decidable c] {q : Parse α} :
    (if c then p else q) st = .ok (a, st') ↔
      (c ∧ p st = .ok (a, st')) ∨ (¬c ∧ q st = .ok (a, st')) := by
  by_cases hc : c <;> simp [hc]

@[simp] theorem lift_ok {x : Except SyntaxError α} :
    (liftM x : Parse α) st = .ok (a, st') ↔ x = .ok a ∧ st' = st := by
  cases x with
  | error e => simp [liftM, monadLift, MonadLift.monadLift, StateT.lift, bind,
      Except.bind]
  | ok b =>
      simp [liftM, monadLift, MonadLift.monadLift, StateT.lift, bind,
        Except.bind, pure, Except.pure, eq_comm]

@[simp] theorem fail_ok {fault : SyntaxFault} :
    ¬(fail fault pos : Parse α) st = .ok (a, st') := by
  simp [fail, throw, throwThe, MonadExceptOf.throw, StateT.lift, bind,
    Except.bind]

/-! Steps that always succeed are equations. -/

@[simp] theorem get_bind {f : ParserState → Parse β} :
    (get >>= f) st = f st st := rfl

@[simp] theorem set_bind {new : ParserState} {f : PUnit → Parse β} :
    (set new >>= f) st = f () new := rfl

@[simp] theorem modify_eq {change : ParserState → ParserState} :
    (modify change : Parse Unit) st = .ok ((), change st) := rfl

@[simp] theorem peek_bind : (peek >>= f) st = f st.next st := rfl

@[simp] theorem peekKind_bind {f : TokenKind → Parse β} :
    (peekKind >>= f) st = f st.next.kind st := rfl

@[simp] theorem position_bind {f : Position → Parse β} :
    (position >>= f) st = f st.next.pos st := rfl

@[simp] theorem peekAfter_bind {n : Nat} {f : Option TokenKind → Parse β} :
    (peekAfter n >>= f) st = f (st.ahead[n]?.map Token.kind) st := rfl

@[simp] theorem advance_bind : (advance >>= f) st = f st.next st.advanced := rfl

@[simp] theorem advance_eq : advance st = .ok (st.next, st.advanced) := rfl

@[simp] theorem skipWhile_eq :
    skipWhile skipped st =
      .ok ((), { st with
        ahead := st.ahead.dropWhile (fun token => skipped token.kind) }) := rfl

@[simp] theorem modifyScope_eq {change : Scope → Scope} :
    modifyScope change st =
      .ok ((), { st with scope := change st.scope }) := rfl

@[simp] theorem hiddenName_bind {stem : String} {f : String → Parse β} :
    (hiddenName stem >>= f) st =
      f (hiddenNameAt stem st.hidden) { st with hidden := st.hidden + 1 } := rfl

@[simp] theorem lookupVariable?_bind {f : Option Variable → Parse β} :
    (lookupVariable? name >>= f) st = f
    (st.scope.lookupVariable? name) st := rfl

@[simp] theorem lookupFunction?_bind {f : Option Signature → Parse β} :
    (lookupFunction? name >>= f) st = f
    (st.scope.lookupFunction? name) st := rfl

/-! Steps that can fail. -/

@[simp] theorem expected_ok :
    ¬(expected wanted : Parse α) st = .ok (a, st') := by
  rw [expected, peek_bind]
  exact fail_ok

@[simp] theorem undeclaredVariable_ok :
    ¬(undeclaredVariable name pos : Parse α) st = .ok (a, st') := by
  rw [undeclaredVariable, get_bind]
  exact fail_ok

@[simp] theorem undeclaredFunction_ok :
    ¬(undeclaredFunction name pos : Parse α) st = .ok (a, st') := by
  rw [undeclaredFunction, get_bind]
  exact fail_ok

@[simp] theorem expect_ok :
    expect kind st = .ok (u, st') ↔
      st.next.kind = kind ∧ st.advanced = st' := by
  simp [expect]

theorem accept_ok :
    accept kind st = .ok (found, st') ↔
      (st.next.kind = kind ∧ st.advanced = st' ∧ found = true) ∨
        (st.next.kind ≠ kind ∧ found = false ∧ st' = st) := by
  simp [accept]

@[simp] theorem accept_true :
    accept kind st = .ok (true, st') ↔
      st.next.kind = kind ∧ st.advanced = st' := by
  simp [accept_ok]

@[simp] theorem accept_false :
    accept kind st = .ok (false, st') ↔ st.next.kind ≠ kind ∧ st' = st := by
  simp [accept_ok]

@[simp] theorem identifier_ok {found : String × Position} :
    identifier wanted st = .ok (found, st') ↔
      st.next.kind = .ident found.1 ∧ found.2 = st.next.pos ∧
        st.advanced = st' := by
  simp only [identifier, peek_bind]
  cases hkind : st.next.kind with
  | ident name =>
      simp only [advance_bind, pure_ok, TokenKind.ident.injEq, Prod.ext_iff]
      constructor
      · rintro ⟨⟨hname, hpos⟩, hst⟩
        exact ⟨hname.symm, hpos, hst.symm⟩
      · rintro ⟨hname, hpos, hst⟩
        exact ⟨⟨hname.symm, hpos⟩, hst.symm⟩
  | _ => simp

/-! Steps that only read tokens. -/

theorem skipWhile_reads (h : skipWhile skipped st = .ok (u, st')) :
    st.Reads st' := by
  simp only [skipWhile_eq, Except.ok.injEq, Prod.mk.injEq] at h
  rw [← h.2]
  exact ⟨List.dropWhile_suffix _, rfl, rfl, rfl⟩

theorem skipSeparators_reads (h : skipSeparators st = .ok (u, st')) :
    st.Reads st' := skipWhile_reads h

theorem accept_reads (h : accept kind st = .ok (found, st')) :
    st.Reads st' := by
  rcases accept_ok.mp h with ⟨_, rfl, _⟩ | ⟨_, _, rfl⟩
  · exact st.reads_advanced
  · exact .refl st'

theorem isScalar_of_ofName? {base : BaseType}
    (h : BaseType.ofName? name = some base) :
    (ValueType.scalar base).isScalar = true := by
  unfold BaseType.ofName? at h
  split at h
  · cases h; rfl
  · split at h
    · cases h; rfl
    · split at h
      · cases h; rfl
      · cases h

/-- The part of a type behind the brackets of a list. -/
def baseType (isList : Bool) : Parse ValueType := do
  match ← peekKind with
  | .ident name =>
      match BaseType.ofName? name with
      | some base =>
          let _ ← advance
          return ⟨base, isList⟩
      | none => expected .typeName
  | _ => expected .typeName

theorem valueType_eq : valueType = (do
    let isList ← accept .lbracket
    if isList then
      expect .rbracket
    baseType isList) :=
  rfl

/-! Repetitions and nested rules. -/

theorem nestedAt_sound {rule : Parse α → Parse α} {P : Parse α → Prop}
    (hfail : P (do fail .tooDeep (← position))) (hrule : ∀ p, P p → P (rule p))
    (depth : Nat) : P (nestedAt rule depth) := by
  induction depth with
  | zero => exact hfail
  | succ depth ih => exact hrule _ ih

theorem iterateAt_ok {Inv : α → ParserState → Prop}
    (hagain : ∀ value st next st', Inv value st → round value st = .ok (.again
      next, st') → Inv next st')
    (hdone : ∀ value st result st', Inv value st → round value st = .ok (.done
      result, st') → Post result st') {rounds : Nat} (hstart : Inv value st)
    (h : iterateAt round rounds value st = .ok (result, st')) :
    Post result st' := by
  induction rounds generalizing value st with
  | zero => simp [iterateAt] at h
  | succ rounds ih =>
      simp only [iterateAt, bind_ok] at h
      obtain ⟨outcome, mid, hround, h⟩ := h
      cases outcome with
      | again next => exact ih (hagain _ _ _ _ hstart hround) h
      | done final =>
          obtain ⟨rfl, rfl⟩ := pure_ok.mp h
          exact hdone _ _ _ _ hstart hround

/-- What every round keeps holds at the end of a repetition. -/
theorem iterate_ok (Inv : α → ParserState → Prop)
    (h : iterate round value st = .ok (result, st')) (hstart : Inv value st)
    (hagain : ∀ value st next st', Inv value st → round value st = .ok (.again
      next, st') → Inv next st')
    (hdone : ∀ value st result st', Inv value st → round value st = .ok
      (.done result, st') → Post result st') : Post result st' := by
  rw [iterate, get_bind] at h
  exact iterateAt_ok hagain hdone hstart h

end Parse

end Shellwright
