/-
The lines a bash writer adds.  Lines are only ever added at the end, so that a
writer that succeeds is described by its value and by the commands of the lines
it has added.  What evaluates an expression adds plain lines, and it either adds
some whenever it succeeds or is silent: then it changes nothing at all.
-/
import Shellwright.Proofs.Bash.Lawful

namespace Shellwright

namespace Bash

variable {c : Prop} {command : Command} {error : ScriptError}
  {change : State → State}

open Script

/-- Whenever the writer succeeds it has added commands that fit its value. -/
def Writes {α : Type} (p : Write State α)
    (Q : α → List Command → Prop) : Prop :=
  ∀ ⦃s a s'⦄, exec p s = (.ok a, s') →
    ∃ new, s'.commands = s.commands ++ new ∧ Q a new

namespace Writes

variable {α β : Type} {p q : Write State α} {f : α → Write State β}
  {Q : α → List Command → Prop} {Q' : β → List Command → Prop}

theorem weaken {Q' : α → List Command → Prop} (h : Writes p Q)
    (hQ : ∀ a new, Q a new → Q' a new) : Writes p Q' := by
  intro s a s' hrun
  obtain ⟨new, hlines, ha⟩ := h hrun
  exact ⟨new, hlines, hQ a new ha⟩

theorem pure {a : α} (ha : Q a []) : Writes (Pure.pure a) Q := by
  intro s b s' hrun
  obtain ⟨rfl, rfl⟩ : a = b ∧ s = s' := by simpa using hrun
  exact ⟨[], by simp, ha⟩

theorem throw : Writes (MonadExcept.throw error) Q := by
  intro s a s' hrun
  simp at hrun

/-- What is added by two writers one after the other. -/
theorem bind (hp : Writes p Q)
    (hf : ∀ a, Writes (f a) fun b new => ∀ first, Q a first →
      Q' b (first ++ new)) :
    Writes (p >>= f) Q' := by
  intro s b s' hrun
  obtain ⟨a, mid, hfirst, hsecond⟩ := exec_bind_eq_ok hrun
  obtain ⟨first, hmid, ha⟩ := hp hfirst
  obtain ⟨second, hend, hb⟩ := hf a hsecond
  exact ⟨first ++ second, by rw [hend, hmid, List.append_assoc], hb first ha⟩

theorem ite [Decidable c] (hp : c → Writes p Q) (hq : ¬c → Writes q Q) :
    Writes (if c then p else q) Q := by
  by_cases hc : c
  · rw [if_pos hc]
    exact hp hc
  · rw [if_neg hc]
    exact hq hc

/-- A change of the state that leaves the lines alone. -/
theorem modify {Q : Unit → List Command → Prop}
    (hlines : ∀ s, (change s).lines = s.lines) (hQ : Q () []) :
    Writes (modify change) Q := by
  intro s a s' hrun
  obtain rfl : change s = s' := by simpa using hrun
  exact ⟨[], by simp [State.commands, hlines], hQ⟩

/-- A writer that looks at the state first. -/
theorem get {f : State → Write State β} (hf : ∀ s, Writes (f s) Q') :
    Writes (MonadState.get >>= f) Q' := by
  intro s b s' hrun
  rw [exec_get_bind] at hrun
  exact hf s hrun

end Writes

theorem emit_writes : Writes (emit command) fun _ new => new = [command] := by
  intro s a s' hrun
  have hs' : { s with lines := s.lines.push ⟨s.depth, command⟩ } = s' :=
    congrArg Prod.snd hrun
  exact ⟨[command], by simp [State.commands, ← hs'], rfl⟩

/-- Helpers are counted, not written. -/
theorem helper_writes : Writes helper fun _ new => new = [] := by
  intro s a s' hrun
  have hs' : { s with helpers := s.helpers + 1 } = s' := congrArg Prod.snd hrun
  exact ⟨[], by simp [State.commands, ← hs'], rfl⟩

theorem isLocal_writes : Writes isLocal fun _ new => new = [] :=
  .get fun _ => .pure rfl

section Kinds

variable {α : Type}

/-- Only plain lines are added. -/
def Plain (p : Write State α) : Prop :=
  Writes p fun _ new => ∀ c ∈ new, c.isPlain = true

/-- Plain lines are added, at least one. -/
def Loud (p : Write State α) : Prop :=
  Writes p fun _ new => new ≠ [] ∧ ∀ c ∈ new, c.isPlain = true

/-- There is always the same value, and the state stays as it is. -/
def Silent (p : Write State α) : Prop := ∃ a, ∀ s, exec p s = (.ok a, s)

/-- Silent, or loud whenever it succeeds. -/
def Settled (p : Write State α) : Prop := Silent p ∨ Loud p

end Kinds

section Rules

variable {α β : Type} {p q : Write State α} {f : α → Write State β} {a : α}

theorem Plain.pure :
    Plain (Pure.pure a : Write State α) := Writes.pure (by simp)

theorem Plain.bind (hp : Plain p) (hf : ∀ a, Plain (f a)) : Plain (p >>= f) :=
  Writes.bind hp fun a => (hf a).weaken fun _ _ hsecond _ hfirst =>
    List.forall_mem_append.mpr ⟨hfirst, hsecond⟩

theorem Plain.ite [Decidable c] (hp : c → Plain p) (hq : ¬c → Plain q) :
    Plain (if c then p else q) := Writes.ite hp hq

theorem Loud.plain (h : Loud p) : Plain p := h.weaken fun _ _ => And.right

theorem Loud.bind (hp : Loud p) (hf : ∀ a, Plain (f a)) : Loud (p >>= f) :=
  Writes.bind hp fun a => (hf a).weaken fun _ _ hsecond _ hfirst =>
    ⟨by simp [hfirst.1], List.forall_mem_append.mpr ⟨hfirst.2, hsecond⟩⟩

theorem Plain.loud (hp : Plain p) (hf : ∀ a, Loud (f a)) : Loud (p >>= f) :=
  Writes.bind hp fun a => (hf a).weaken fun _ _ hsecond _ hfirst =>
    ⟨by simp [hsecond.1], List.forall_mem_append.mpr ⟨hfirst, hsecond.2⟩⟩

theorem Loud.ite [Decidable c] (hp : c → Loud p) (hq : ¬c → Loud q) :
    Loud (if c then p else q) := Writes.ite hp hq

/-- A part that may be left out, and then the rest. -/
theorem Loud.after_part [Decidable c] {p : Write State PUnit}
    {f : PUnit → Write State β} (hp : Plain p) (hf : Loud (f ⟨⟩)) :
    Loud (if c then p >>= f else f ⟨⟩) :=
  .ite (fun _ => hp.loud fun _ => hf) fun _ => hf

theorem Loud.throw : Loud (MonadExcept.throw error : Write State α) :=
  Writes.throw

/-- A silent writer is only passed through. -/
theorem exec_silent_bind (h : ∀ s, exec p s = (.ok a, s)) (s : State) :
    exec (p >>= f) s = exec (f a) s := exec_bind_ok (h s)

/-- A writer that goes on after a silent one does what it does alone. -/
theorem Writes.after_silent {Q : β → List Command → Prop}
    (h : ∀ s, exec p s = (.ok a, s)) (hf : Writes (f a) Q) :
    Writes (p >>= f) Q := by
  intro s b s' hrun
  rw [exec_silent_bind h] at hrun
  exact hf hrun

/-- What adds a line is not silent. -/
theorem Loud.not_silent (h : Loud p) : ¬Silent p := by
  rintro ⟨a, hsilent⟩
  obtain ⟨new, hlines, hne, _⟩ := h (hsilent State.fresh)
  exact hne (by simpa using hlines)

namespace Settled

theorem plain (h : Settled p) : Plain p := by
  rcases h with ⟨a, hsilent⟩ | hloud
  · intro s b s' hrun
    obtain ⟨_, rfl⟩ := Prod.mk.inj ((hsilent s).symm.trans hrun)
    exact ⟨[], by simp, by simp⟩
  · exact hloud.plain

theorem pure : Settled (Pure.pure a : Write State α) := .inl ⟨a, fun _ => rfl⟩

theorem throw : Settled (MonadExcept.throw error : Write State α) :=
  .inr Loud.throw

theorem bind (hp : Settled p) (hf : ∀ a, Settled (f a)) :
    Settled (p >>= f) := by
  rcases hp with ⟨a, hsilent⟩ | hloud
  · rcases hf a with ⟨b, hb⟩ | hloud
    · exact .inl ⟨b, fun s => (exec_silent_bind hsilent s).trans (hb s)⟩
    · exact .inr (Writes.after_silent hsilent hloud)
  · exact .inr (hloud.bind fun a => (hf a).plain)

theorem ite [Decidable c] (hp : c → Settled p) (hq : ¬c → Settled q) :
    Settled (if c then p else q) := by
  by_cases hc : c
  · rw [if_pos hc]
    exact hp hc
  · rw [if_neg hc]
    exact hq hc

/-- The silent ones are those that add nothing. -/
theorem writes (h : Settled p) :
    Writes p fun _ new => (∀ c ∈ new, c.isPlain = true) ∧
      (new = [] ↔ Silent p) := by
  intro s b s' hrun
  rcases h with ⟨a, hsilent⟩ | hloud
  · obtain ⟨_, rfl⟩ := Prod.mk.inj ((hsilent s).symm.trans hrun)
    exact ⟨[], by simp, by simp, iff_of_true rfl ⟨a, hsilent⟩⟩
  · obtain ⟨new, hlines, hne, hplain⟩ := hloud hrun
    exact ⟨new, hlines, hplain, iff_of_false hne hloud.not_silent⟩

end Settled

end Rules

/-! The operations. -/

section Operations

variable {used : Bool} {α : Type} {line name value : String} {ty : ValueType}
  {mentions : List Mention}

/-- Lines that control flow does not see are plain. -/
theorem writes_of_steady {p : Write State α} {Q : α → Prop}
    (h : ∀ scope, (steady scope).Enters mentions p Q) :
    Writes p fun a new => Q a ∧ ∀ c ∈ new, c.isPlain = true := by
  intro s a s' hrun
  obtain ⟨hstep, ha⟩ := h ⟨s.inFunction, []⟩ s a s' hrun
  obtain ⟨new, hlines, hnew, _⟩ := (hstep rfl).lines
  refine ⟨new, ?_, ha, fun c hc => (hnew c hc).2⟩
  simp [State.commands, hlines, Function.comp_def]

theorem plain_of_steady {p : Write State α} {Q : α → Prop}
    (h : ∀ scope, (steady scope).Enters mentions p Q) : Plain p :=
  (writes_of_steady h).weaken fun _ _ => And.right

theorem emit_loud (h : command.isPlain = true) : Loud (emit command) :=
  emit_writes.weaken fun _ _ hnew => ⟨by simp [hnew], by simpa [hnew] using h⟩

theorem helper_plain : Plain helper := helper_writes.weaken
    fun _ _ hnew => by simp [hnew]

theorem isLocal_plain : Plain isLocal := isLocal_writes.weaken
    fun _ _ hnew => by simp [hnew]

theorem modify_plain (h : ∀ s, (change s).lines = s.lines) :
    Plain (modify change : Write State Unit) := Writes.modify h (by simp)

/-- A helper is made and filled by one line. -/
theorem helper_loud {result : String → α} (command : String → Bool → Command)
    (h : ∀ name isLocal, (command name isLocal).isPlain = true) :
    Loud (do
      let name ← helper
      emit (command name (← isLocal))
      return result name : Write State α) :=
  helper_plain.loud fun name => isLocal_plain.loud fun isLocal =>
    (emit_loud (h name isLocal)).bind fun _ => .pure

theorem store_loud : Loud (store value) :=
  helper_loud (fun name isLocal => .assign isLocal name value) fun _ _ => rfl

theorem variableFor_settled {fragment : String} :
    Settled (variableFor fragment) := by
  unfold variableFor
  cases plainName? fragment with
  | some name => exact .pure
  | none => exact .inr store_loud

theorem defineVariable_loud {value : Option String} :
    Loud (defineVariable name ty value) := by
  refine isLocal_plain.loud fun isLocal => .ite (fun _ => ?_)
    fun _ => emit_loud rfl
  cases value with
  | some source => exact emit_loud rfl
  | none => exact emit_loud rfl

theorem assignVariable_loud : Loud (assignVariable name ty value) :=
  .ite (fun _ => emit_loud rfl) fun _ => emit_loud rfl

theorem storeElement_loud {element : ValueType} {index : String} :
    Loud (storeElement name element index value) :=
  Plain.loud (modify_plain fun _ => rfl) fun _ => emit_loud rfl

theorem giveBack_loud {values : List (String × ValueType)} :
    Loud (giveBack values) :=
  (plain_of_steady fun _ => setResults_straight.enters).loud
    fun _ => emit_loud rfl

theorem unary_settled {op : UnaryOp} {operand : String} :
    Settled (unary op operand ty) := by
  unfold unary
  split
  · exact .pure
  · exact .pure
  · exact .throw

theorem binary_settled {op : BinaryOp} {left right : String} :
    Settled (binary op left right ty) := by
  unfold binary
  split
  · exact .pure
  · exact .pure
  · exact .throw

theorem compare_settled {op : CompareOp} {left right : String} :
    Settled (compare op left right ty) := by
  unfold compare
  split
  case h_6 => exact .throw
  all_goals exact .pure

theorem print_loud : Loud (print value ty) :=
  .ite (fun _ => .throw) fun _ => emit_loud rfl

theorem panic_loud {message : String} : Loud (panic message) :=
  (emit_loud rfl).bind fun _ => (emit_loud rfl).plain

theorem listLiteral_settled {values : List String} :
    Settled (listLiteral values used) :=
  .ite (fun _ => .pure) fun _ =>
    .inr (helper_loud (fun name isLocal => .fillList isLocal name values)
      fun _ _ => rfl)

theorem substring_settled {start : String} {stop : Option String} :
    Settled (substring value start stop used) :=
  .ite (fun _ => .pure) fun _ => variableFor_settled.bind fun _ => .pure

theorem stringLength_settled : Settled (stringLength value used) :=
  .ite (fun _ => .pure) fun _ => variableFor_settled.bind fun _ => .pure

theorem callFunction_loud {args : List (String × ValueType)}
    {returns : List ValueType} : Loud (callFunction name args returns used) :=
  (plain_of_steady fun _ => passLists_straight.enters).loud
    fun _ => (emit_loud rfl).bind fun _ =>
    .ite (fun _ => plain_of_steady fun _ => fetchResults_straight.enters)
      fun _ => .pure

theorem captureInto_loud {output errors : String} {code : Option String} :
    Loud (captureInto line output errors code) := by
  have hread : Plain (do
      emit (.assign false errors (catOf capturedErrors))
      return ([output, errors] ++ code.toList).map expand :
        Write State (List String)) :=
    (emit_loud rfl).plain.bind fun _ => .pure
  refine isLocal_plain.loud fun _ => .after_part (emit_loud rfl).plain ?_
  refine (emit_loud rfl).bind fun _ => ?_
  cases code with
  | some code => exact (emit_loud rfl).plain.bind fun _ => hread
  | none => exact hread

theorem captureAll_loud {wantsCode : Bool} :
    Loud (captureAll line wantsCode) := by
  refine Plain.loud (modify_plain fun _ => rfl)
    fun _ => helper_plain.loud fun output =>
    helper_plain.loud fun errors => .ite ?_ ?_
  · intro _
    rw [map_eq_pure_bind]
    exact (helper_plain.bind fun _ => .pure).loud fun code => captureInto_loud
  · exact fun _ => Plain.pure.loud fun code => captureInto_loud

theorem runProcess_loud {stages : List Invocation} {count : Nat} :
    Loud (runProcess stages count) := by
  unfold runProcess
  split
  · exact (emit_loud rfl).bind fun _ => .pure
  · exact helper_loud
      (fun name isLocal => .assign isLocal name
        (substitution (commandLine stages)))
      fun _ _ => rfl
  · exact captureAll_loud

theorem inputLine_loud {prompt : Option String} :
    Loud (inputLine prompt used) := by
  have hline : Loud (inputLine none used) := by
    refine .ite (fun _ => (emit_loud rfl).bind fun _ => .pure) fun _ => ?_
    exact helper_plain.loud fun _ => isLocal_plain.loud fun _ =>
      .after_part (emit_loud rfl).plain ((emit_loud rfl).bind fun _ => .pure)
  cases prompt with
  | some prompt => exact (emit_loud rfl).plain.loud fun _ => hline
  | none => exact hline

theorem copyList_settled {list : String} : Settled (copyList list used) :=
  .ite (fun _ => .pure) fun _ =>
    .inr (helper_loud (fun name isLocal => .copyList isLocal name list)
      fun _ _ => rfl)

theorem fileContent_loud {path : String} : Loud (fileContent path used) :=
  .ite (fun _ => (emit_loud rfl).bind fun _ => .pure) fun _ =>
    helper_loud (fun name isLocal => .assign isLocal name (catOf path))
      fun _ _ => rfl

theorem stringToInt_settled : Settled (stringToInt value used) :=
  .ite (fun _ => .pure) fun _ => .inr (store_loud.bind fun _ => .pure)

end Operations

end Bash

end Shellwright
