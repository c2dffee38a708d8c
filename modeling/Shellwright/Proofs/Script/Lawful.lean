/-
Lawful dialects.  A dialect is lawful for a course when each of its operations
keeps to the course where a well-typed program asks for it.  A course may
demand that writers succeed; a strict dialect then refuses a function that
calls itself, and nothing else.
-/
import Shellwright.Proofs.Fragment.Contract
import Shellwright.Proofs.Script.Events

namespace Shellwright

namespace Script

variable {strict : Bool}

/-- A construct that has been opened and not yet closed.  A loop has been
started, then comes its post statement, then the rest of it. -/
inductive OpenConstruct where
  | branch
  | alternative
  | started
  | post
  | loop
deriving DecidableEq, Repr

def OpenConstruct.isLoop : OpenConstruct → Bool
  | started | post | loop => true
  | _ => false

/-- How far the writing has come: the function being written, the open
constructs from the inside out, the functions known by now and the events so
far. -/
structure Progress where
  function : Option String
  constructs : List OpenConstruct
  known : List String
  seen : List Event

namespace Progress

def start : Progress := ⟨none, [], [], []⟩

def noted (here : Progress) (events : List Event) : Progress :=
  { here with seen := here.seen ++ events }

def opened (here : Progress) (construct : OpenConstruct) : Progress :=
  { here with constructs := construct :: here.constructs }

/-- Whether there is a loop to leave. -/
def InLoop (here : Progress) : Prop := ∃ construct ∈ here.constructs,
    construct.isLoop = true

@[simp] theorem noted_nil (here : Progress) : here.noted [] = here := by
  simp [noted]

theorem noted_append (here : Progress) (first second : List Event) :
    here.noted (first ++ second) = (here.noted first).noted second := by
  simp [noted]

theorem opened_noted (here : Progress) (construct : OpenConstruct)
    (events : List Event) :
    (here.opened construct).noted events =
      (here.noted events).opened construct := rfl

theorem InLoop.opened {here : Progress} (h : here.InLoop)
    (construct : OpenConstruct) : (here.opened construct).InLoop := by
  obtain ⟨outer, hmem, hloop⟩ := h
  exact ⟨outer, List.mem_cons_of_mem _ hmem, hloop⟩

theorem inLoop_opened_loop (here : Progress) : (here.opened .loop).InLoop :=
  ⟨.loop, List.mem_cons_self, rfl⟩

end Progress

/-- The first function a strict dialect refuses to call, because it is the one
being written. -/
def refusal (strict : Bool) (function : Option String) (events : List Event) :
    Option String :=
  events.findSome? fun
    | .call name => if strict && function == some name then some name else none
    | _ => none

theorem refusal_append (strict : Bool) (function : Option String)
    (first second : List Event) :
    refusal strict function (first ++ second) =
      (refusal strict function first).or (refusal strict function second) :=
  List.findSome?_append

/-- Nothing is refused outside of functions. -/
@[simp] theorem refusal_none (strict : Bool) (events : List Event) :
    refusal strict none events = none := by
  unfold refusal
  rw [List.findSome?_eq_none_iff]
  intro event _
  cases event <;> simp

@[simp] theorem refusal_lenient (function : Option String)
    (events : List Event) : refusal false function events = none := by
  unfold refusal
  rw [List.findSome?_eq_none_iff]
  intro event _
  cases event <;> simp

variable {σ α β : Type}

/-- The outcome of a writer: the refusal given by `verdict`, or a value with `Q`
in a state that has come as far as `after`. -/
def Meets (Inv : Progress → σ → Prop) (verdict : Option String)
    (p : Write σ α) (s : σ) (Q : α → Prop) (after : Progress) : Prop :=
  match verdict with
  | none => ∃ a s', exec p s = (.ok a, s') ∧ Q a ∧ Inv after s'
  | some name => ∃ s', exec p s = (.error (.recursion name .batch), s')

/-- A writer that succeeds and keeps the invariant. -/
def Keeps (Inv : Progress → σ → Prop) (p : Write σ α) (Q : α → Prop) : Prop :=
  ∀ here s, Inv here s → Meets Inv none p s Q here

/-- A writer that succeeds and comes from `before` to `after`. -/
def Moves (Inv : Progress → σ → Prop) (before after : Progress)
    (p : Write σ Unit) : Prop :=
  ∀ s, Inv before s → Meets Inv none p s (fun _ => True) after

/-! Courses. -/

/-- A contract whose states also come with how far the writing is.  Where the
course is `total`, writers must succeed, except that a strict one refuses a
function that calls itself. -/
structure Course (σ : Type) extends Contract σ where
  Inv : Progress → σ → Prop
  sound : ∀ {here s}, Inv here s → holds s
  strict : Bool
  total : Prop

/-- The value, or the refusal given by `verdict`. -/
def Ends (verdict : Option String) (result : Except ScriptError α) : Prop :=
  match verdict with
  | none => ∃ a, result = .ok a
  | some name => result = .error (.recursion name .batch)

namespace Course

/-- What the contract ensures, in a state that has come as far as `after`, and
where the course is total the end that `verdict` gives. -/
structure Meets (c : Course σ) (verdict : Option String) (p : Write σ α) (s : σ)
    (Q : α → σ → Prop) (after : Progress) : Prop where
  ensures : c.Ensures s p fun a s' => Q a s' ∧ c.Inv after s'
  ends : c.total → Ends verdict (exec p s).1

variable {c : Course σ} {verdict verdict' : Option String} {p : Write σ α}
  {f : α → Write σ β} {s : σ} {Q : α → σ → Prop} {Q' : β → σ → Prop}
  {here mid after : Progress}

namespace Meets

theorem bind (hp : c.Meets verdict p s Q mid)
    (hf : ∀ a s', c.grows s s' → Q a s' → c.Inv mid s' →
      c.Meets verdict' (f a) s' Q' after) :
    c.Meets (verdict.or verdict') (p >>= f) s Q' after where
  ensures := hp.ensures.bind fun a s' _ hgrows ha =>
    (hf a s' hgrows ha.1 ha.2).ensures
  ends htotal := by
    have hend := hp.ends htotal
    cases verdict with
    | none =>
        obtain ⟨a, ha⟩ := hend
        obtain ⟨hQ, hinv⟩ := hp.ensures.yields a ha
        rw [Option.none_or, exec_bind_ok (Prod.ext ha rfl)]
        exact (hf a _ hp.ensures.grows hQ hinv).ends htotal
    | some name =>
        rw [Option.some_or, exec_bind_error (Prod.ext hend rfl)]
        rfl

theorem weaken {Q' : α → σ → Prop} (h : c.Meets verdict p s Q after)
    (hQ : ∀ a s', Q a s' → Q' a s') : c.Meets verdict p s Q' after :=
  ⟨h.ensures.weaken fun a s' _ ha => ⟨hQ a s' ha.1, ha.2⟩, h.ends⟩

theorem pure {a : α} (ha : Q a s) (hinv : c.Inv after s) :
    c.Meets none (Pure.pure a) s Q after :=
  ⟨.pure (c.sound hinv) ⟨ha, hinv⟩, fun _ => ⟨a, rfl⟩⟩

theorem throw {error : ScriptError} (hpartial : ¬c.total)
    (hinv : c.Inv here s) :
    c.Meets verdict (MonadExcept.throw error) s Q after :=
  ⟨.throw (c.sound hinv), fun htotal => absurd htotal hpartial⟩

/-- A writer before one that always succeeds. -/
theorem andThen (hp : c.Meets verdict p s Q mid)
    (hf : ∀ a s', c.grows s s' → Q a s' → c.Inv mid s' →
      c.Meets none (f a) s' Q' after) :
    c.Meets verdict (p >>= f) s Q' after := by
  rw [← Option.or_none (o := verdict)]
  exact hp.bind hf

/-- A writer after one that always succeeds. -/
theorem first (hp : c.Meets none p s Q mid)
    (hf : ∀ a s', c.grows s s' → Q a s' → c.Inv mid s' →
      c.Meets verdict (f a) s' Q' after) :
    c.Meets verdict (p >>= f) s Q' after :=
  hp.bind hf

/-- One writer after the other, each with its events. -/
theorem seq {events events' : List Event}
    (hp : c.Meets (refusal c.strict here.function events) p s Q
      (here.noted events))
    (hf : ∀ a s', c.grows s s' → Q a s' → c.Inv (here.noted events) s' →
      c.Meets (refusal c.strict here.function events') (f a) s' Q'
        ((here.noted events).noted events')) :
    c.Meets (refusal c.strict here.function (events ++ events')) (p >>= f) s Q'
      (here.noted (events ++ events')) := by
  rw [refusal_append, Progress.noted_append]
  exact hp.bind hf

theorem forM {step : α → Write σ Unit} {items : List α} (hinv : c.Inv here s)
    (hstep : ∀ item ∈ items, ∀ s', c.grows s s' → c.Inv here s' →
      c.Meets none (step item) s' (fun _ _ => True) here) :
    c.Meets none (items.forM step) s (fun _ _ => True) here := by
  induction items generalizing s with
  | nil => exact .pure trivial hinv
  | cons item items ih =>
      obtain ⟨hitem, hitems⟩ := List.forall_mem_cons.mp hstep
      refine (hitem s (c.refl s) hinv).andThen
        fun _ mid hgrows _ hmid => ih hmid ?_
      exact fun item hitem s' hgrows' => hitems item hitem s'
        (c.trans hgrows hgrows')

end Meets

/-- A writer without a value that comes from `before` to `after`. -/
abbrev Moves (c : Course σ) (s : σ) (before after : Progress)
    (p : Write σ Unit) : Prop :=
  c.Inv before s → c.Meets none p s (fun _ _ => True) after

/-- A writer without a value. -/
abbrev Keeps (c : Course σ) (s : σ) (here : Progress)
    (p : Write σ Unit) : Prop :=
  c.Moves s here here p

/-- A writer that yields a fragment. -/
abbrev Gives (c : Course σ) (s : σ) (here : Progress) (isList : Bool)
    (p : Write σ String) : Prop :=
  c.Inv here s →
    c.Meets none p s (fun text s' => c.fragment s' isList text) here

/-- The course that demands success and an invariant. -/
def sure (strict : Bool) (Inv : Progress → σ → Prop) : Course σ where
  holds _ := True
  grows _ _ := True
  fragment _ _ _ := True
  refl _ := trivial
  trans _ _ := trivial
  mono _ := id
  Inv := Inv
  sound _ := trivial
  strict := strict
  total := True

theorem meets_sure {Inv : Progress → σ → Prop} {P : α → Prop}
    (h : Script.Meets Inv verdict p s P after) (hQ : ∀ a s', P a → Q a s') :
    (sure strict Inv).Meets verdict p s Q after := by
  cases verdict with
  | none =>
      obtain ⟨a, s', hrun, ha, hinv⟩ := h
      refine ⟨⟨trivial, trivial, ?_⟩, fun _ => ⟨a, by rw [hrun]⟩⟩
      rw [hrun]
      rintro _ ⟨⟩
      exact ⟨hQ a s' ha, hinv⟩
  | some name =>
      obtain ⟨s', hrun⟩ := h
      refine ⟨⟨trivial, trivial, ?_⟩, fun _ => by rw [hrun]; rfl⟩
      rw [hrun]
      rintro _ ⟨⟩

end Course

theorem Keeps.sure {Inv : Progress → σ → Prop} {p : Write σ α} {P : α → Prop}
    (h : Keeps Inv p P) {s : σ} {here : Progress} (hinv : Inv here s) :
    (Course.sure strict Inv).Meets none p s (fun _ _ => True) here :=
  Course.meets_sure (h here s hinv) fun _ _ _ => trivial

theorem Moves.sure {Inv : Progress → σ → Prop} {before after : Progress}
    {p : Write σ Unit} (h : Moves Inv before after p) {s : σ} :
    (Course.sure strict Inv).Moves s before after p :=
  fun hinv => Course.meets_sure (h s hinv) fun _ _ _ => trivial

/-- The course that demands a contract and nothing else. -/
def Contract.course (c : Contract σ) : Course σ where
  toContract := c
  Inv _ := c.holds
  sound := id
  strict := false
  total := False

theorem Contract.Ensures.course {c : Contract σ} {p : Write σ α} {s : σ}
    {Q : α → σ → Prop} {verdict : Option String} {after : Progress}
    (h : c.Ensures s p Q) : c.course.Meets verdict p s Q after :=
  ⟨⟨h.holds, h.grows, fun a ha => ⟨h.yields a ha, h.holds⟩⟩, False.elim⟩

/-- What the operations of a dialect do for a course when they get fragments of
the right kind and names that are words.  Of values nobody uses nothing is
demanded. -/
structure Lawful [Dialect σ] (c : Course σ) : Prop where
  fresh : c.Inv .start Dialect.fresh
  programStart : ∀ {s here}, c.Keeps s here Dialect.programStart
  boolLiteral : ∀ {s here value}, c.Gives s here false
    (Dialect.boolLiteral value)
  intLiteral : ∀ {s here value}, c.Gives s here false (Dialect.intLiteral value)
  stringLiteral : ∀ {s here value}, c.Inv here s →
    c.Meets none (Dialect.stringLiteral value) s
    (fun text s' => c.fragment s' false text) (here.noted [.literal value])
  defineVariable : ∀ {s here name ty} {value : Option String},
    isWord name.toList = true → (∀ text ∈ value, c.fragment s ty.isList text) →
    c.Keeps s here (Dialect.defineVariable name ty value)
  assignVariable : ∀ {s here name ty value}, isWord name.toList = true →
    c.fragment s ty.isList value →
      c.Keeps s here (Dialect.assignVariable name ty value)
  storeElement : ∀ {s here name element index value},
    isWord name.toList = true →
    c.fragment s false index → c.fragment s false value →
    c.Keeps s here (Dialect.storeElement name element index value)
  readVariable : ∀ {s here name ty}, isWord name.toList = true →
    c.Gives s here ty.isList (Dialect.readVariable name ty)
  readElement : ∀ {s here list element index}, c.fragment s true list →
    c.fragment s false index →
      c.Gives s here false (Dialect.readElement list element index)
  ifStart : ∀ {s here condition}, c.fragment s false condition →
    c.Moves s here (here.opened .branch) (Dialect.ifStart condition)
  elseIfStart : ∀ {s} {here : Progress} {condition},
    c.fragment s false condition →
    c.Keeps s (here.opened .branch) (Dialect.elseIfStart condition)
  elseStart : ∀ {s} {here : Progress},
    c.Moves s (here.opened .branch) (here.opened .alternative) Dialect.elseStart
  ifEnd : ∀ {s} {here : Progress} {construct}, construct = .branch ∨
    construct = .alternative →
    c.Moves s (here.opened construct) here Dialect.ifEnd
  loopStart : ∀ {s here}, c.Moves s here (here.opened .started)
    Dialect.loopStart
  postStart : ∀ {s} {here : Progress},
    c.Moves s (here.opened .started) (here.opened .post) Dialect.postStart
  postEnd : ∀ {s} {here : Progress},
    c.Moves s (here.opened .post) (here.opened .loop) Dialect.postEnd
  loopCondition : ∀ {s} {here : Progress} {condition},
    c.fragment s false condition →
    c.Keeps s (here.opened .loop) (Dialect.loopCondition condition)
  loopEnd : ∀ {s} {here : Progress}, c.Moves s (here.opened .loop) here
    Dialect.loopEnd
  leaveLoop : ∀ {s here}, here.InLoop → c.Keeps s here Dialect.leaveLoop
  nextRound : ∀ {s here}, here.InLoop → c.Keeps s here Dialect.nextRound
  functionStart : ∀ {s name returns known seen} {params : List Binding},
    isWord name.toList = true →
      (∀ param ∈ params, isWord param.name.toList = true) →
    name ∉ known → c.Moves s ⟨none, [], known, seen⟩
      ⟨some name, [], name :: known, seen⟩
      (Dialect.functionStart name params returns)
  functionEnd : ∀ {s name known seen},
    c.Moves s ⟨some name, [], known, seen⟩ ⟨none, [], known, seen⟩
      Dialect.functionEnd
  giveBack : ∀ {s here values}, c.Values s values →
    c.Keeps s here (Dialect.giveBack values)
  unary : ∀ {s here op operand}, c.fragment s false operand →
    c.Gives s here false (Dialect.unary op operand op.operand true)
  binary : ∀ {s here op left right ty}, op.DefinedOn ty →
    c.fragment s false left →
    c.fragment s false right →
      c.Gives s here false (Dialect.binary op left right ty true)
  compare : ∀ {s here op left right ty}, op.DefinedOn ty →
    c.fragment s false left →
    c.fragment s false right →
      c.Gives s here false (Dialect.compare op left right ty true)
  logical : ∀ {s here op left right}, c.fragment s false left →
    c.fragment s false right →
    c.Gives s here false (Dialect.logical op left right true)
  print : ∀ {s here value} {ty : ValueType}, ty.isScalar = true →
    c.fragment s false value → c.Keeps s here (Dialect.print value ty)
  panic : ∀ {s here message}, c.fragment s false message →
    c.Keeps s here (Dialect.panic message)
  listLiteral : ∀ {s here element values}, c.Scalars s values →
    c.Gives s here true (Dialect.listLiteral element values true)
  listLength : ∀ {s here list}, c.fragment s true list →
    c.Gives s here false (Dialect.listLength list true)
  substring : ∀ {s here value start} {stop : Option String},
    c.fragment s false value →
    c.fragment s false start → (∀ text ∈ stop, c.fragment s false text) →
    c.Gives s here false (Dialect.substring value start stop true)
  stringLength : ∀ {s here value}, c.fragment s false value →
    c.Gives s here false (Dialect.stringLength value true)
  group : ∀ {s here inner ty}, c.fragment s ty.isList inner →
    c.Gives s here ty.isList (Dialect.group inner ty)
  callFunction : ∀ {s name args returns used} {here : Progress},
    isWord name.toList = true →
    name ∈ here.known → c.Values s args → c.Inv here s →
    c.Meets (refusal c.strict here.function [.call name])
      (Dialect.callFunction name args returns used) s
      (fun results s' => c.Values s' (results.zip returns) ∧
        (c.total → used = true → results.length = returns.length)) (here.noted
          [.call name])
  runProcess : ∀ {s here stages count}, count ≤ 3 →
    (∀ stage ∈ stages, c.Scalars s stage.args) →
    c.Inv here s → c.Meets none (Dialect.runProcess stages count) s
      (fun results s' => c.Scalars s' results ∧
        (c.total → results.length = count))
      (here.noted [if count = 0 then .command else .capture])
  inputLine : ∀ {s here used} {prompt : Option String},
    (∀ text ∈ prompt, c.fragment s false text) → c.Inv here s →
    c.Meets none (Dialect.inputLine prompt used) s
      (fun text s' => used = true → c.fragment s' false text) here
  copyList : ∀ {s here list element}, c.fragment s true list →
    c.Gives s here true (Dialect.copyList list element true)
  fileExists : ∀ {s here path}, c.fragment s false path →
    c.Gives s here false (Dialect.fileExists path true)
  fileContent : ∀ {s here path}, c.fragment s false path →
    c.Gives s here false (Dialect.fileContent path true)
  writeFile : ∀ {s here path content append}, c.fragment s false path →
    c.fragment s false content →
      c.Keeps s here (Dialect.writeFile path content append)
  intToString : ∀ {s here value}, c.fragment s false value →
    c.Gives s here false (Dialect.intToString value true)
  stringToInt : ∀ {s here value}, c.fragment s false value →
    c.Gives s here false (Dialect.stringToInt value true)
  noOp : ∀ {s here}, c.Keeps s here Dialect.noOp
  /-- A pipeline that yields nothing stands for the empty text. -/
  nothing : ∀ {s}, c.fragment s false ""

end Script

end Shellwright
