/-
What the operations of the batch dialect may change.  All but those that open or
close a construct only add lines: they jump nowhere, and the subroutines they
call are among those the script will hold.
-/
import Shellwright.Batch.Dialect
import Shellwright.Proofs.Script.Run
import Shellwright.Proofs.Typing

namespace Shellwright

namespace Batch

variable {command : Command} {callable : String → Prop}

open Script (Steps exec)

namespace Needs

/-- The labels of the subroutines in a script. -/
def labels (needs : Needs) : List String :=
  (if needs.listLen then ["__sb_list_len"] else []) ++
    (if needs.listSet then ["__sb_list_set"] else []) ++
    (if needs.listCopy then ["__sb_list_copy"] else []) ++
    (if needs.strlen then ["__sb_strlen"] else []) ++
    (if needs.substr then ["__sb_substr"] else []) ++
    (if needs.fileContent then ["__sb_read_file"] else [])

/-- Whatever `needs` asks for, `more` asks for; files are not read without the
line feed variable, unless they were before. -/
structure Grows (needs more : Needs) : Prop where
  listLen : needs.listLen = true → more.listLen = true
  listSet : needs.listSet = true → more.listSet = true
  listCopy : needs.listCopy = true → more.listCopy = true
  strlen : needs.strlen = true → more.strlen = true
  substr : needs.substr = true → more.substr = true
  fileContent : needs.fileContent = true → more.fileContent = true
  newline : needs.newline = true → more.newline = true
  capture : needs.capture = true → more.capture = true
  sentinel : (needs.fileContent = true → needs.newline = true) →
    more.fileContent = true → more.newline = true

theorem Grows.refl (needs : Needs) : needs.Grows needs :=
  ⟨id, id, id, id, id, id, id, id, id⟩

theorem Grows.trans {first second third : Needs} (hfirst : first.Grows second)
    (hsecond : second.Grows third) : first.Grows third where
  listLen h := hsecond.listLen (hfirst.listLen h)
  listSet h := hsecond.listSet (hfirst.listSet h)
  listCopy h := hsecond.listCopy (hfirst.listCopy h)
  strlen h := hsecond.strlen (hfirst.strlen h)
  substr h := hsecond.substr (hfirst.substr h)
  fileContent h := hsecond.fileContent (hfirst.fileContent h)
  newline h := hsecond.newline (hfirst.newline h)
  capture h := hsecond.capture (hfirst.capture h)
  sentinel h := hsecond.sentinel (hfirst.sentinel h)

theorem Grows.labels {needs more : Needs} (h : needs.Grows more)
    {label : String} (hlabel : label ∈ needs.labels) : label ∈ more.labels := by
  simp only [Needs.labels, List.mem_append, List.mem_ite_nil_right,
    List.mem_singleton] at *
  rcases hlabel with ((((hlabel | hlabel) | hlabel) | hlabel) | hlabel) | hlabel
  · simp [h.listLen hlabel.1, hlabel.2]
  · simp [h.listSet hlabel.1, hlabel.2]
  · simp [h.listCopy hlabel.1, hlabel.2]
  · simp [h.strlen hlabel.1, hlabel.2]
  · simp [h.substr hlabel.1, hlabel.2]
  · simp [h.fileContent hlabel.1, hlabel.2]

end Needs

/-- What an operation may do besides writing lines that hand control to the next
one. -/
structure Permit where
  callable : String → Prop
  /-- Which lines it may write that leave the function or the script, or are the
  program's own. -/
  own : Command → Prop
  /-- Whether it may make a name the function's own. -/
  declares : Prop
  panics : Prop
  captures : Prop

/-- One more subroutine may be called. -/
def Permit.calling (permit : Permit) (label : String) : Permit :=
  { permit with callable := fun other => other = label ∨ permit.callable other }

/-- Whatever an operation does. -/
def Permit.all : Permit := ⟨fun _ => True, fun _ => True, True, True, True⟩

/-- All that hands control to the next line. -/
def straightOn : Permit where
  callable _ := True
  own _ := False
  declares := True
  panics := False
  captures := True

/-- The commands an operation may write.  It calls the subroutines of the script
and what it may call besides; the lines that remove captured output are not
written before the end. -/
def Command.Allowed (permit : Permit) (needs : Needs)
    (command : Command) : Prop :=
  match command with
  | .flow _ | .verbatim _ | .removeCaptured => False
  | .call label _ => label ∈ needs.labels ∨ permit.callable label
  | .comeBack | .run _ | .quit | .exit _ => permit.own command
  | _ => True

theorem Command.Allowed.mono {permit : Permit} {needs more : Needs}
    (hcallable : ∀ label, permit.callable label → label ∈ more.labels ∨
      callable label) (hneeds : needs.Grows more)
    (h : command.Allowed permit needs) :
    command.Allowed { permit with callable } more := by
  cases command with
  | call label args =>
      exact h.elim (fun hlabel => .inl (hneeds.labels hlabel)) (hcallable label)
  | flow _ | verbatim _ | removeCaptured | comeBack | run _ | quit
  | exit _ => exact h
  | _ => trivial

/-- A function and its number, whatever names are its own. -/
def FunctionFrame.key (frame : FunctionFrame) : Nat × String :=
  (frame.number, frame.name)

/-- Lines have been added, and nothing else has changed but counters, names of
the current function, what the script needs and where it panics. -/
structure State.Extends (permit : Permit) (s s' : State) : Prop where
  lines : ∃ added, s'.lines.toList = s.lines.toList ++ added ∧
    ∀ command ∈ added, command.Allowed permit s'.needs
  graph : s'.graph = s.graph
  functions : s'.functions = s.functions
  current : s'.current.map FunctionFrame.key = s.current.map FunctionFrame.key
  needs : s.needs.Grows s'.needs
  undeclared : ¬permit.declares → s'.current = s.current
  exits : ¬permit.panics → s'.panicExits = s.panicExits
  uncaptured : ¬permit.captures → s'.needs.capture = s.needs.capture

namespace State.Extends

variable {permit : Permit} {s mid s' : State}

/-- Nothing changes but counters and needs. -/
theorem of_needs (hlines : s'.lines = s.lines) (hgraph : s'.graph = s.graph)
    (hfunctions : s'.functions = s.functions)
    (hcurrent : s'.current = s.current)
    (hexits : s'.panicExits = s.panicExits) (hneeds : s.needs.Grows s'.needs)
    (hcapture : ¬permit.captures → s'.needs.capture = s.needs.capture) :
    s.Extends permit s' :=
  ⟨⟨[], by simp [hlines]⟩, hgraph, hfunctions, by
    rw [hcurrent], hneeds, fun _ => hcurrent, fun _ => hexits, hcapture⟩

theorem refl (s : State) : s.Extends permit s :=
  .of_needs rfl rfl rfl rfl rfl (.refl _) fun _ => rfl

theorem calls (h : s.Extends permit s')
    (hcallable : ∀ label, permit.callable label → label ∈ s'.needs.labels ∨
      callable label) : s.Extends { permit with callable } s' := by
  obtain ⟨added, hlines, hallowed⟩ := h.lines
  exact { h with lines := ⟨added, hlines, fun command hcommand =>
    (hallowed command hcommand).mono hcallable (.refl _)⟩ }

theorem trans (hfirst : s.Extends permit mid)
    (hsecond : mid.Extends permit s') : s.Extends permit s' where
  lines := by
    obtain ⟨first, hlines, hallowed⟩ := hfirst.lines
    obtain ⟨second, hlines', hallowed'⟩ := hsecond.lines
    refine ⟨first ++ second, by rw [hlines', hlines, List.append_assoc], ?_⟩
    intro command hcommand
    rcases List.mem_append.mp hcommand with hin | hin
    · exact (hallowed command hin).mono (fun _ => .inr) hsecond.needs
    · exact hallowed' command hin
  graph := hsecond.graph.trans hfirst.graph
  functions := hsecond.functions.trans hfirst.functions
  current := hsecond.current.trans hfirst.current
  needs := hfirst.needs.trans hsecond.needs
  undeclared h := (hsecond.undeclared h).trans (hfirst.undeclared h)
  exits h := (hsecond.exits h).trans (hfirst.exits h)
  uncaptured h := (hsecond.uncaptured h).trans (hfirst.uncaptured h)

end State.Extends

instance (permit : Permit) : Std.Refl (State.Extends permit) :=
  ⟨State.Extends.refl⟩

instance (permit : Permit) : IsTrans State (State.Extends permit) :=
  ⟨fun _ _ _ => State.Extends.trans⟩

section Operations

variable {permit : Permit} {able : Prop} {count place : Nat} {used : Bool}
  {fragment index left list name right value : String} {op : CompareOp}
  {ty : ValueType} {change : Needs → Needs} {returns : List ValueType}
  {stages : List Invocation} {values : List (String × ValueType)}

/-- An operation that only adds lines. -/
abbrev Adds {α : Type} (permit : Permit) (able : Prop) (p : Write State α)
    (Q : α → Prop) : Prop :=
  Steps (State.Extends permit) able p Q

theorem emit_adds (h : ∀ needs, command.Allowed permit needs) :
    Adds permit able (emit command) fun _ => True :=
  .modify (fun s => ⟨⟨[command], by simp, by simpa using h s.needs⟩, rfl, rfl,
    rfl, .refl _, fun _ => rfl, fun _ => rfl, fun _ => rfl⟩) fun _ => trivial

theorem helper_adds : Adds permit able helper fun _ => True where
  changes _ := .of_needs rfl rfl rfl rfl rfl (.refl _) fun _ => rfl
  yields _ _ := ⟨_, rfl, trivial⟩

theorem require_only_adds (hgrows : ∀ needs : Needs, needs.Grows (change needs))
    (hcapture : ¬permit.captures → ∀ needs, (change needs).capture =
      needs.capture) : Adds permit able (require change) fun _ => True :=
  .modify (fun s => .of_needs rfl rfl rfl rfl rfl (hgrows s.needs)
    fun h => hcapture h s.needs) fun _ => trivial

/-- A subroutine that has been asked for may be called from then on. -/
theorem require_adds {α : Type} {rest : Write State α} {Q : α → Prop}
    (label : String) (hgrows : ∀ needs : Needs, needs.Grows (change needs))
    (hcapture : ¬permit.captures → ∀ needs, (change needs).capture =
      needs.capture) (hlabel : ∀ needs : Needs, label ∈ (change needs).labels)
    (h : Adds (permit.calling label) able rest Q) :
    Adds permit able (require change >>= fun _ => rest) Q where
  changes s := by
    have hfirst : s.Extends permit { s with needs := change s.needs } :=
      .of_needs rfl rfl rfl rfl rfl (hgrows s.needs) fun h => hcapture h s.needs
    have hrest := h.changes { s with needs := change s.needs }
    have hneeds := hrest.needs.labels (hlabel s.needs)
    have hextends : State.Extends permit { s with needs := change s.needs }
        (exec rest { s with needs := change s.needs }).2 := by
      refine hrest.calls ?_
      rintro other (rfl | hother)
      · exact .inl hneeds
      · exact .inr hother
    exact hfirst.trans hextends
  yields hable s := h.yields hable { s with needs := change s.needs }

theorem declareLocal_adds (h : permit.declares) :
    Adds permit able (declareLocal name) fun _ => True :=
  .modify (fun s => ⟨⟨[], by simp⟩, rfl, rfl, by
    cases s.current <;> rfl, .refl _,
    fun hnever => absurd h hnever, fun _ => rfl, fun _ => rfl⟩) fun _ => trivial

theorem variableName_adds :
    Adds permit able (variableName name ty) fun _ => True :=
  .get fun _ => .pure fun _ => trivial

theorem store_adds : Adds permit able (store value) fun _ => True :=
  .bind helper_adds fun _ => .bind (emit_adds fun _ => trivial)
    fun _ => .pure fun _ => trivial

theorem variableFor_adds :
    Adds permit able (variableFor fragment) fun _ => True := by
  unfold variableFor
  split
  · exact .pure fun _ => trivial
  · exact store_adds

theorem commandWord_adds :
    Adds permit able (commandWord fragment) fun _ => True :=
  .ite (fun _ => .pure fun _ => trivial) fun _ =>
    .bind variableFor_adds fun _ => .pure fun _ => trivial

theorem copyListTo_adds {source target : String} :
    Adds permit able (copyListTo source target) fun _ => True :=
  require_adds "__sb_list_copy"
    (fun _ => ⟨id, id, fun _ => rfl, id, id, id, id, id, id⟩)
    (fun _ _ => rfl) (fun needs => by simp [Needs.labels])
    (emit_adds fun _ => .inr (.inl rfl))

theorem stringLiteral_adds :
    Adds permit able (stringLiteral value) fun _ => True := by
  have hstored : ∀ {able}, Adds permit able
      (do return read (← store (escape value)) : Write State String)
        fun _ => True :=
    .bind store_adds fun _ => .pure fun _ => trivial
  refine .ite (fun _ => .pure fun _ => trivial)
    fun _ => .ite ?_ fun _ => hstored
  exact fun _ => .bind
    (require_only_adds
      (fun _ => ⟨id, id, id, id, id, id, fun _ => rfl, id, fun _ _ => rfl⟩)
      fun _ _ => rfl) fun _ => hstored

theorem defineVariable_adds {value : Option String} (h : permit.declares) :
    Adds permit able (defineVariable name ty value) fun _ => True := by
  refine .bind (declareLocal_adds h) fun _ => .bind variableName_adds
    fun var => .ite ?_ ?_
  · intro _
    cases value with
    | some source => exact copyListTo_adds
    | none => exact emit_adds fun _ => trivial
  · exact fun _ => emit_adds fun _ => trivial

theorem assignVariable_adds :
    Adds permit able (assignVariable name ty value) fun _ => True :=
  .bind variableName_adds fun _ =>
    .ite (fun _ => copyListTo_adds) fun _ => emit_adds fun _ => trivial

theorem storeElement_adds {element : ValueType} :
    Adds permit able (storeElement name element index value) fun _ => True :=
  require_adds "__sb_list_set"
    (fun _ => ⟨id, fun _ => rfl, id, id, id, id, id, id, id⟩)
    (fun _ _ => rfl) (fun needs => by simp [Needs.labels])
    (.bind variableName_adds
      fun _ => .bind (emit_adds fun _ => trivial) fun _ =>
      .bind (emit_adds fun _ => trivial)
        fun _ => emit_adds fun _ => .inr (.inl rfl))

theorem readVariable_adds :
    Adds permit able (readVariable name ty) fun _ => True :=
  .bind variableName_adds fun _ => .pure fun _ => trivial

theorem readElement_adds :
    Adds permit able (readElement list index) fun _ => True :=
  .bind helper_adds fun _ => .bind (emit_adds fun _ => trivial)
    fun _ => .pure fun _ => trivial

theorem bindParameters_adds {params : List Binding} :
    Adds permit able (bindParameters place params) fun _ => True := by
  induction params generalizing place able with
  | nil => exact .pure fun _ => trivial
  | cons param params ih =>
      refine .bind variableName_adds fun var => .ite ?_ ?_
      · exact fun _ => .bind copyListTo_adds fun _ => ih
      · exact fun _ => .bind (emit_adds fun _ => trivial) fun _ => ih

theorem fillSlots_adds {slot : Nat → String} :
    Adds permit able (fillSlots slot place values) fun _ => True := by
  induction values generalizing place able with
  | nil => exact .pure fun _ => trivial
  | cons value values ih =>
      refine .ite ?_ ?_
      · exact fun _ => .bind copyListTo_adds fun _ => ih
      · exact fun _ => .bind (emit_adds fun _ => trivial) fun _ => ih

theorem giveBack_adds (hown : permit.own .comeBack) :
    Adds permit able (giveBack values) fun _ => True :=
  .bind fillSlots_adds fun _ => emit_adds fun _ => hown

theorem unary_adds {op : UnaryOp} {operand : String} :
    Adds permit (ty = op.operand) (unary op operand ty) fun _ => True := by
  refine .bind helper_adds fun name => ?_
  split
  · exact .bind (emit_adds fun _ => trivial) fun _ => .pure fun _ => trivial
  · exact .bind (emit_adds fun _ => trivial)
      fun _ => .bind (emit_adds fun _ => trivial) fun _ =>
      .pure fun _ => trivial
  · next hneg hnot =>
      refine .bind (Q := fun _ => True) (.throw ?_)
        fun _ => .pure fun _ => trivial
      rintro ⟨rfl, _⟩
      cases op with
      | neg => exact hneg rfl rfl
      | not => exact hnot rfl rfl

theorem binary_adds {op : BinaryOp} :
    Adds permit (op.DefinedOn ty) (binary op left right ty) fun _ => True := by
  unfold binary
  split
  · exact .bind helper_adds fun _ => .bind (emit_adds fun _ => trivial) fun _ =>
      .pure fun _ => trivial
  · exact .pure fun _ => trivial
  · next hint hstring =>
      refine .throw ?_
      rintro (rfl | ⟨rfl, rfl⟩)
      · exact hint rfl
      · exact hstring rfl rfl

theorem anyHolds_adds {tests : List String} :
    Adds permit able (anyHolds tests) fun _ => True :=
  .bind helper_adds fun _ => .bind (emit_adds fun _ => trivial) fun _ =>
    .bind (.forM fun _ => emit_adds fun _ => trivial)
      fun _ => .pure fun _ => trivial

theorem comparisonTest?_isSome (left right : String) (h : op.DefinedOn ty) :
    (comparisonTest? op left right ty).isSome = true := by
  obtain ⟨base, isList⟩ := ty
  obtain ⟨hscalar, hordering⟩ := h
  cases isList with
  | true => cases hscalar
  | false =>
      cases base with
      | int => simp [comparisonTest?]
      | unknown | void => cases hscalar
      | bool | string =>
          cases op with
          | eq | notEq => rfl
          | lt | le | gt | ge => cases hordering rfl

theorem compare_adds :
    Adds permit (op.DefinedOn ty) (compare op left right ty) fun _ => True := by
  unfold compare
  split
  · exact anyHolds_adds
  · next hnone =>
      refine .throw fun hdefined => ?_
      have hsome := comparisonTest?_isSome left right hdefined
      rw [hnone] at hsome
      cases hsome

theorem logical_adds {op : LogicalOp} :
    Adds permit able (logical op left right) fun _ => True := by
  cases op with
  | and => exact anyHolds_adds
  | or => exact anyHolds_adds

theorem print_adds :
    Adds permit (ty.isScalar = true) (print value ty) fun _ => True := by
  refine .ite ?_ fun _ => emit_adds fun _ => trivial
  intro hlist
  refine .throw fun hscalar => ?_
  simp [ValueType.isScalar, hlist] at hscalar

theorem panic_adds {message : String} (hpanics : permit.panics)
    (hquit : permit.own .quit) (hexit : permit.own (.exit 1)) :
    Adds permit able (panic message) fun _ => True := by
  refine .bind (emit_adds fun _ => trivial) fun _ =>
    .bind (Q := fun _ => True) (.modify ?_ fun _ => trivial) fun _ => ?_
  · exact fun s => ⟨⟨[], by simp⟩, rfl, rfl, rfl, .refl _, fun _ => rfl,
      fun hnever => absurd hpanics hnever, fun _ => rfl⟩
  · refine .get fun s => emit_adds fun _ => ?_
    split
    · exact hquit
    · exact hexit

theorem setElements_adds {values : List String} :
    Adds permit able (setElements name place values) fun _ => True := by
  induction values generalizing place able with
  | nil => exact .pure fun _ => trivial
  | cons value values ih => exact .bind (emit_adds fun _ => trivial) fun _ => ih

theorem listLiteral_adds {values : List String} :
    Adds permit able (listLiteral values used) fun _ => True :=
  .ite (fun _ => .pure fun _ => trivial) fun _ => .bind helper_adds fun _ =>
    .bind (emit_adds fun _ => trivial) fun _ => .bind setElements_adds fun _ =>
      .pure fun _ => trivial

theorem listLength_adds : Adds permit able (listLength list) fun _ => True :=
  require_adds "__sb_list_len"
    (fun _ => ⟨fun _ => rfl, id, id, id, id, id, id, id, id⟩)
    (fun _ _ => rfl) (fun needs => by simp [Needs.labels])
    (.bind helper_adds
      fun _ => .bind (emit_adds fun _ => .inr (.inl rfl)) fun _ =>
      .pure fun _ => trivial)

theorem substring_adds {start : String} {stop : Option String} :
    Adds permit able (substring value start stop used) fun _ => True := by
  have hcall : ∀ {able source stop},
      Adds (permit.calling "__sb_substr") able (do
        let name ← helper
        emit (.call "__sb_substr" [source, start, stop, name])
        return read name : Write State String) fun _ => True :=
    .bind helper_adds
      fun _ => .bind (emit_adds fun _ => .inr (.inl rfl)) fun _ =>
      .pure fun _ => trivial
  refine .ite (fun _ => .pure fun _ => trivial) fun _ =>
    require_adds "__sb_substr"
      (fun _ => ⟨id, id, id, id, fun _ => rfl, id, id, id, id⟩)
      (fun _ _ => rfl) (fun needs => by simp [Needs.labels])
      (.bind variableFor_adds fun source => ?_)
  cases stop with
  | some stop =>
      exact .bind (Q := fun _ => True) (.pure fun _ => trivial) fun _ => hcall
  | none =>
      exact .bind helper_adds
        fun _ => .bind (emit_adds fun _ => trivial) fun _ =>
        .bind (Q := fun _ => True) (.pure fun _ => trivial) fun _ => hcall

theorem stringLength_adds :
    Adds permit able (stringLength value used) fun _ => True :=
  .ite (fun _ => .pure fun _ => trivial) fun _ =>
    require_adds "__sb_strlen"
      (fun _ => ⟨id, id, id, fun _ => rfl, id, id, id, id, id⟩)
      (fun _ _ => rfl) (fun needs => by simp [Needs.labels])
      (.bind variableFor_adds fun _ => .bind helper_adds fun _ =>
        .bind (emit_adds fun _ => .inr (.inl rfl))
          fun _ => .pure fun _ => trivial)

theorem fetchResults_adds :
    Adds permit able (fetchResults place returns) fun results =>
      results.length = returns.length := by
  induction returns generalizing place able with
  | nil => exact .pure fun _ => rfl
  | cons ty returns ih =>
      refine .bind helper_adds fun name => .ite ?_ ?_
      · exact fun _ => .bind copyListTo_adds fun _ => .bind ih fun _ =>
          .pure fun hlength => by simpa using hlength.2
      · exact fun _ => .bind (emit_adds fun _ => trivial)
          fun _ => .bind ih fun _ =>
          .pure fun hlength => by simpa using hlength.2

/-- A call that is not refused. -/
def callAllowed (name : String) (args : List (String × ValueType))
    (returns : List ValueType) (used : Bool) : Write State (List String) := do
  fillSlots argumentSlot 0 args
  emit (.call (functionLabel name) [])
  if used then fetchResults 0 returns else return []

theorem exec_callFunction (name : String) (args : List (String × ValueType))
    (returns : List ValueType) (used : Bool) (s : State) :
    exec (callFunction name args returns used) s =
      if s.current.map FunctionFrame.name = some name then
        (.error (.recursion name .batch), s)
      else exec (callAllowed name args returns used) s := by
  unfold callFunction
  rw [Script.exec_get_bind]
  by_cases hname : s.current.map FunctionFrame.name = some name
  · have hany : (s.current.any fun frame => frame.name == name) = true := by
      obtain ⟨frame, hframe, hname⟩ := Option.map_eq_some_iff.mp hname
      simp [hframe, hname]
    rw [if_pos hany, if_pos hname]
    rfl
  · have hany : ¬(s.current.any fun frame => frame.name == name) = true := by
      simpa [Option.any_eq_true] using hname
    rw [if_neg hany, if_neg hname]
    rfl

theorem callAllowed_adds {args : List (String × ValueType)}
    (hcallable : permit.callable (functionLabel name)) :
    Adds permit able (callAllowed name args returns used) fun results =>
      used = true → results.length = returns.length := by
  refine .bind fillSlots_adds
    fun _ => .bind (emit_adds fun _ => .inr hcallable) fun _ => .ite ?_ ?_
  · exact fun _ => fetchResults_adds.weaken id fun _ _ hlength _ => hlength
  · exact fun hunused => .pure fun _ hused => absurd hused hunused

theorem stageWords_adds :
    Adds permit able (stageWords stages) fun _ => True := by
  induction stages generalizing able with
  | nil => exact .pure fun _ => trivial
  | cons stage stages ih =>
      exact .bind (.mapM fun _ => commandWord_adds) fun _ => .bind ih fun _ =>
        .pure fun _ => trivial

theorem readCaptured_adds {suffix : String} :
    Adds (permit.calling "__sb_read_file") able
      (readCaptured suffix) fun _ => True :=
  .bind helper_adds fun _ => .bind (emit_adds fun _ => .inr (.inl rfl)) fun _ =>
    .pure fun _ => trivial

/-- The captured output, the error output if it is wanted, and `code`. -/
def capturedResults (count : Nat) (code : List String) :
    Write State (List String) := do
  let output ← readCaptured ".out"
  let errors ← if count ≥ 2 then do pure [← readCaptured ".err"] else pure []
  return output :: errors ++ code

theorem capturedResults_adds {code : List String} (hcount : count ≠ 0) :
    Adds (permit.calling "__sb_read_file") able
      (capturedResults count code) fun results => results.length =
        min count 2 + code.length := by
  refine .bind readCaptured_adds fun output => .ite ?_ ?_
  · intro htwo
    refine .bind readCaptured_adds fun errors =>
      .bind (Q := fun found => found = [errors]) (.pure fun _ => rfl)
        fun found => .pure ?_
    rintro ⟨_, rfl⟩
    simp
    omega
  · intro htwo
    refine .bind (Q := fun found => found = []) (.pure fun _ => rfl)
      fun found => .pure ?_
    rintro ⟨_, rfl⟩
    simp
    omega

/-- A pipeline whose results are wanted, once the script is known to need
them. -/
def capturePipeline (line : String) (count : Nat) :
    Write State (List String) := do
  emit (.capture line (count ≥ 2))
  let code ←
    if count ≥ 3 then do
      let name ← helper
      emit (.set name "!errorlevel!")
      pure [read name]
    else
      pure []
  capturedResults count code

/-- A pipeline has three results to offer. -/
theorem capturePipeline_adds {line : String} (hcount : count ≠ 0) :
    Adds (permit.calling "__sb_read_file") able
      (capturePipeline line count) fun results => results.length =
        min count 3 := by
  refine .bind (emit_adds fun _ => trivial) fun _ => .ite ?_ ?_
  · intro hthree
    refine .bind helper_adds
      fun name => .bind (emit_adds fun _ => trivial) fun _ =>
      .bind (Q := fun code => code = [read name]) (.pure fun _ => rfl)
        fun code => (capturedResults_adds hcount).weaken id ?_
    rintro ⟨_, rfl⟩ results hlength
    rw [hlength, List.length_singleton]
    omega
  · intro hthree
    refine .bind (Q := fun code => code = []) (.pure fun _ => rfl) fun code =>
      (capturedResults_adds hcount).weaken id ?_
    rintro ⟨_, rfl⟩ results hlength
    rw [hlength, List.length_nil]
    omega

theorem runProcess_eq (stages : List Invocation) (count : Nat) :
    runProcess stages count = (do
      let words ← stageWords stages
      if count = 0 then
        emit (.run (String.intercalate " | " words))
        return []
      require ({ · with capture := true, fileContent := true, newline := true })
      capturePipeline (String.intercalate " | " words) count) :=
  rfl

theorem runProcess_adds (hown : count = 0 → ∀ line, permit.own (.run line))
    (hcaptures : count ≠ 0 → permit.captures) :
    Adds permit able (runProcess stages count) fun results =>
      results.length = min count 3 := by
  rw [runProcess_eq]
  refine .bind stageWords_adds fun words => .ite ?_
    fun hcount => require_adds "__sb_read_file"
    (fun _ => ⟨id, id, id, id, id, fun _ => rfl,
      fun _ => rfl, fun _ => rfl, fun _ _ => rfl⟩)
    (fun hnever => absurd (hcaptures hcount) hnever)
    (fun needs => by simp [Needs.labels])
    (capturePipeline_adds hcount)
  intro hcount
  exact .bind (emit_adds fun _ => hown hcount _) fun _ => .pure fun _ => by
    rw [hcount]
    rfl

theorem inputLine_adds {prompt : Option String} :
    Adds permit able (inputLine prompt used) fun _ => True :=
  .bind helper_adds fun _ => .bind (emit_adds fun _ => trivial) fun _ =>
    .bind (emit_adds fun _ => trivial) fun _ => .pure fun _ => trivial

theorem copyList_adds : Adds permit able (copyList list used) fun _ => True :=
  .ite (fun _ => .pure fun _ => trivial) fun _ => .bind helper_adds fun _ =>
    .bind copyListTo_adds fun _ => .pure fun _ => trivial

theorem fileContent_adds {path : String} :
    Adds permit able (fileContent path used) fun _ => True :=
  .ite (fun _ => .bind (emit_adds fun _ => trivial)
    fun _ => .pure fun _ => trivial) fun _ =>
    require_adds "__sb_read_file"
      (fun _ => ⟨id, id, id, id, id, fun _ => rfl,
        fun _ => rfl, id, fun _ _ => rfl⟩)
      (fun _ _ => rfl) (fun needs => by simp [Needs.labels])
      (.bind helper_adds
        fun _ => .bind (emit_adds fun _ => .inr (.inl rfl)) fun _ =>
        .pure fun _ => trivial)

theorem stringToInt_adds :
    Adds permit able (stringToInt value used) fun _ => True :=
  .ite (fun _ => .pure fun _ => trivial) fun _ => .bind helper_adds fun _ =>
    .bind (emit_adds fun _ => trivial) fun _ => .pure fun _ => trivial

end Operations

end Batch

end Shellwright
