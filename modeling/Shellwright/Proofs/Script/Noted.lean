/-
Dialects that take notes.  The state of a dialect is kept together with a list
of notes, and its operations are run with notes or without.  Whatever is noted,
a run does what the plain dialect does.
-/
import Shellwright.Proofs.Script.Coupling

namespace Shellwright

namespace Script

/-- The state of a dialect and the notes so far. -/
structure Noted (σ ν : Type) where
  writer : σ
  notes : List ν

variable {σ ν α β : Type}

/-- Runs the plain dialect and notes what `note` makes of the state before, the
result and the state after it. -/
def noting (note : σ → Except ScriptError α → σ → List ν) (p : Write σ α) :
    Write (Noted σ ν) α := do
  let n ← get
  let (result, writer) := p.run.run n.writer
  set (Noted.mk writer (n.notes ++ note n.writer result writer))
  match result with
  | .ok value => return value
  | .error error => throw error

/-- A run of the plain dialect without a note. -/
def quiet (p : Write σ α) : Write (Noted σ ν) α := noting (fun _ _ _ => []) p

theorem exec_noting (note : σ → Except ScriptError α → σ → List ν)
    (p : Write σ α) (n : Noted σ ν) :
    exec (noting note p) n = ((exec p n.writer).1, ⟨(exec p n.writer).2,
      n.notes ++ note n.writer (exec p n.writer).1 (exec p n.writer).2⟩) := by
  unfold noting
  rw [exec_get_bind]
  rcases hrun : exec p n.writer with ⟨result, writer⟩
  unfold exec at hrun
  rw [hrun]
  cases result <;> rfl

theorem exec_quiet (p : Write σ α) (n : Noted σ ν) :
    exec (quiet p) n =
      ((exec p n.writer).1, { n with writer := (exec p n.writer).2 }) := by
  rw [quiet, exec_noting, List.append_nil]

theorem exec_quiet_ok {p : Write σ α} {n n' : Noted σ ν} {a : α}
    (h : exec (quiet p) n = (.ok a, n')) :
    exec p n.writer = (.ok a, n'.writer) ∧ n'.notes = n.notes := by
  rw [exec_quiet] at h
  obtain ⟨hvalue, rfl⟩ := Prod.mk.inj h
  exact ⟨Prod.ext hvalue rfl, rfl⟩

/-! Forgetting the notes. -/

/-- A run with notes beside the plain one. -/
def forgetting : Coupling (Noted σ ν) σ where
  excused _ := False
  states _ n s := n.writer = s
  fragments := Eq

/-- Without the notes `p` does what `q` does. -/
def Forgets (p : Write (Noted σ ν) α) (q : Write σ α) : Prop :=
  ∀ ⦃before after : Progress⦄ ⦃Q : α → α → Prop⦄, (∀ a, Q a a) →
    forgetting.Matches before after p q Q

theorem noting_forgets (note : σ → Except ScriptError α → σ → List ν)
    (p : Write σ α) : Forgets (noting note p) p := by
  rintro before after Q hQ n s rfl
  rw [exec_noting]
  rcases hrun : exec p n.writer with ⟨result, s'⟩
  cases result with
  | ok a => exact .done (hQ a) rfl
  | error error => exact .failed

theorem quiet_forgets (p : Write σ α) :
    Forgets (quiet p : Write (Noted σ ν) α) p :=
  noting_forgets _ p

/-- A plain run that succeeds has one with notes that succeeds. -/
theorem exec_of_forgetting {p : Write (Noted σ ν) α} {q : Write σ β}
    {before after : Progress} {Q : α → β → Prop}
    (h : forgetting.Matches before after p q Q) {n : Noted σ ν} {b : β} {s : σ}
    (hrun : exec q n.writer = (.ok b, s)) :
    ∃ a n', exec p n = (.ok a, n') ∧ Q a b ∧ n'.writer = s := by
  have hstep := h n n.writer rfl
  rw [hrun] at hstep
  rcases hnoted : exec p n with ⟨outcome, n'⟩
  rw [hnoted] at hstep
  cases hstep with
  | done hvalues hstate => exact ⟨_, n', rfl, hvalues, hstate⟩

theorem Forgets.pure (a : α) : Forgets (Pure.pure a : Write (Noted σ ν) α)
    (Pure.pure a) :=
  fun _ _ _ hQ _ _ hstates => .done (hQ a) hstates

theorem Forgets.bind {p : Write (Noted σ ν) α} {q : Write σ α}
    {f : α → Write (Noted σ ν) β} {g : α → Write σ β} (h : Forgets p q)
    (hrest : ∀ a, Forgets (f a) (g a)) : Forgets (p >>= f) (q >>= g) := by
  intro before after Q hQ
  have hfirst : forgetting.Matches before before p q Eq := h fun _ => rfl
  exact hfirst.bind fun a _ hvalue => hvalue ▸ hrest a hQ

section Dialect

variable [Dialect σ]

/-- The operations of the plain dialect.  Those that return a fragment are run
by `valued`, which learns whether it is a list and whether it is used, and the
others by `silent`. -/
@[reducible] def Noted.dialect (silent : ∀ {α}, Write σ α → Write (Noted σ ν) α)
    (valued : Bool → Bool → Write σ String → Write (Noted σ ν) String) :
    Dialect (Noted σ ν) where
  fresh := ⟨Dialect.fresh, []⟩
  programStart := silent Dialect.programStart
  programEnd := quiet Dialect.programEnd
  boolLiteral value := valued false true (Dialect.boolLiteral value)
  intLiteral value := valued false true (Dialect.intLiteral value)
  stringLiteral value := valued false true (Dialect.stringLiteral value)
  defineVariable name ty value := silent (Dialect.defineVariable name ty value)
  assignVariable name ty value := silent (Dialect.assignVariable name ty value)
  storeElement name element index value :=
    silent (Dialect.storeElement name element index value)
  readVariable name ty := valued ty.isList true (Dialect.readVariable name ty)
  readElement list element index :=
    valued false true (Dialect.readElement list element index)
  ifStart condition := silent (Dialect.ifStart condition)
  elseIfStart condition := silent (Dialect.elseIfStart condition)
  elseStart := silent Dialect.elseStart
  ifEnd := silent Dialect.ifEnd
  loopStart := silent Dialect.loopStart
  postStart := silent Dialect.postStart
  postEnd := silent Dialect.postEnd
  loopCondition condition := silent (Dialect.loopCondition condition)
  loopEnd := silent Dialect.loopEnd
  leaveLoop := silent Dialect.leaveLoop
  nextRound := silent Dialect.nextRound
  functionStart name params returns :=
    silent (Dialect.functionStart name params returns)
  functionEnd := silent Dialect.functionEnd
  giveBack values := silent (Dialect.giveBack values)
  unary op operand ty used :=
    valued false used (Dialect.unary op operand ty used)
  binary op left right ty used :=
    valued false used (Dialect.binary op left right ty used)
  compare op left right ty used :=
    valued false used (Dialect.compare op left right ty used)
  logical op left right used :=
    valued false used (Dialect.logical op left right used)
  print value ty := silent (Dialect.print value ty)
  panic message := silent (Dialect.panic message)
  listLiteral element values used :=
    valued true used (Dialect.listLiteral element values used)
  listLength list used := valued false used (Dialect.listLength list used)
  substring value start stop used :=
    valued false used (Dialect.substring value start stop used)
  stringLength value used := valued false used (Dialect.stringLength value used)
  group inner ty := valued ty.isList true (Dialect.group inner ty)
  callFunction name args returns used :=
    silent (Dialect.callFunction name args returns used)
  runProcess stages results := silent (Dialect.runProcess stages results)
  inputLine prompt used := valued false used (Dialect.inputLine prompt used)
  copyList list element used :=
    valued true used (Dialect.copyList list element used)
  fileExists path used := valued false used (Dialect.fileExists path used)
  fileContent path used := valued false used (Dialect.fileContent path used)
  writeFile path content append :=
    silent (Dialect.writeFile path content append)
  intToString value used := valued false used (Dialect.intToString value used)
  stringToInt value used := valued false used (Dialect.stringToInt value used)
  noOp := silent Dialect.noOp

/-- If no operation does anything but take notes, the two dialects go in
step. -/
theorem Noted.coupled {silent : ∀ {α}, Write σ α → Write (Noted σ ν) α}
    {valued : Bool → Bool → Write σ String → Write (Noted σ ν) String}
    (hsilent : ∀ {α} (p : Write σ α), Forgets (silent p) p)
    (hvalued : ∀ isList used p, Forgets (valued isList used p) p) :
    @Coupled _ _ (Noted.dialect silent valued) _ forgetting := by
  let _ : Dialect (Noted σ ν) := Noted.dialect silent valued
  constructor
  case fresh | nothing => rfl
  case programEnd => exact quiet_forgets _ fun _ => rfl
  case boolLiteral | intLiteral | stringLiteral | readVariable =>
    exact fun _ => hvalued _ _ _ fun _ => rfl
  case elseStart | loopStart | postStart | postEnd | loopEnd | functionStart
      | functionEnd =>
    exact hsilent _ fun _ => trivial
  case programStart | ifEnd | leaveLoop | nextRound | noOp =>
    exact fun _ => hsilent _ fun _ => trivial
  case ifStart | elseIfStart | loopCondition =>
    exact fun h => h ▸ hsilent _ fun _ => trivial
  case defineVariable =>
    exact fun h _ => Coupling.text?_eq rfl h ▸ hsilent _ fun _ => trivial
  case print | panic | assignVariable =>
    exact fun h _ => h ▸ hsilent _ fun _ => trivial
  case writeFile | storeElement =>
    exact fun h h' _ => h ▸ h' ▸ hsilent _ fun _ => trivial
  case unary | listLength | stringLength | group | copyList | fileExists
      | fileContent | intToString | stringToInt =>
    exact fun h _ => h ▸ hvalued _ _ _ fun _ => rfl
  case binary | compare | logical | readElement =>
    exact fun h h' _ => h ▸ h' ▸ hvalued _ _ _ fun _ => rfl
  case giveBack =>
    exact fun h _ => Coupling.values_eq rfl h ▸ hsilent _ fun _ => trivial
  case listLiteral =>
    exact fun h _ => Coupling.texts_eq rfl h ▸ hvalued _ _ _ fun _ => rfl
  case inputLine =>
    exact fun h _ => Coupling.text?_eq rfl h ▸ hvalued _ _ _ fun _ => rfl
  case substring =>
    exact fun h h' h'' _ =>
      h ▸ h' ▸ Coupling.text?_eq rfl h'' ▸ hvalued _ _ _ fun _ => rfl
  case callFunction =>
    exact fun h _ => Coupling.values_eq rfl h ▸ hsilent _ fun _ _ =>
      List.forall₂_same.mpr fun _ _ => rfl
  case runProcess =>
    exact fun h _ => Coupling.stages_eq rfl h ▸ hsilent _ fun _ =>
      List.forall₂_same.mpr fun _ _ => rfl

end Dialect

end Script

end Shellwright
