/-
Statements without a block are well typed: definitions, assignments, stores,
builtin statements, calls, returns and loop exits.
-/
import Shellwright.Proofs.Parse.Tracking

namespace Shellwright

namespace Parse

variable {α : Type} {st st' : ParserState} {place : Place} {tables : Tables}
  {constant : Bool} {value : Expr} {s : Stmt} {u : Unit} {items : List α}
  {name : String} {names : Targets} {pos valuePos : Position} {var : Variable}
  {types : List ValueType} {step : α → Parse Unit} {declared : Option ValueType}
  {values : List (Expr × Position)}

/-- The statement is well typed where it was read, and the tables it leaves
describe the state behind it. -/
def Accepted (place : Place) (tables : Tables) (st : ParserState) (s : Stmt)
    (st' : ParserState) : Prop :=
  ∃ after, s.Checked place tables after ∧ after.Tracks st' ∧ st.Continues st'

/-- Every statement the parser yields is accepted, in whatever place. -/
def ReadsChecked (p : Parse Stmt) : Prop :=
  ∀ ⦃st s st' place tables⦄, p st = .ok (s, st') → tables.Tracks st →
    Accepted place tables st s st'

/-- A statement that declares nothing is accepted once it has been read. -/
theorem Accepted.of_reads (htracks : tables.Tracks st) (hreads : st.Reads st')
    (h : s.Checked place tables tables) : Accepted place tables st s st' :=
  ⟨tables, h, htracks.of_reads hreads, hreads.continues⟩

theorem Accepted.after {mid : ParserState} {s : Stmt} (hreads : st.Reads mid)
    (h : Accepted place tables mid s st') : Accepted place tables st s st' := by
  obtain ⟨after, hchecked, htracks, hcontinues⟩ := h
  exact ⟨after, hchecked, htracks, hreads.continues.trans hcontinues⟩

/-! Declaring and finding variables. -/

theorem enterVariable_ok :
    enterVariable name pos var st = .ok (u, st') ↔
      st.scope.lookupVariable? name = none ∧ st' = st.declared name var := by
  simp only [enterVariable, get_bind, Scope.declareVariable]
  cases hlookup : st.scope.lookupVariable? name with
  | none => simp [ParserState.declared, eq_comm]
  | some found => simp

theorem declare_ok (h : declare name pos var st = .ok (u, st')) :
    isHiddenName name = false ∧ st.scope.lookupVariable? name = none ∧
      st' = st.declared name var := by
  simp [declare, checkNewName, enterVariable_ok] at h
  exact ⟨h.1.1, h.2⟩

theorem assignable_ok :
    assignable name pos st = .ok (var, st') ↔
      st.scope.lookupVariable? name = some var ∧ var.constant = false ∧
        st' = st := by
  simp only [assignable, lookupVariable?_bind]
  cases hlookup : st.scope.lookupVariable? name with
  | none => simp
  | some found =>
      simp only [ite_ok, fail_ok, and_false, pure_ok, false_or,
        Option.some.injEq]
      constructor
      · rintro ⟨hconstant, rfl, hst⟩
        exact ⟨rfl, by simpa using hconstant, hst⟩
      · rintro ⟨rfl, hconstant, hst⟩
        exact ⟨by simpa using hconstant, rfl, hst⟩

/-- Declarations made one after the other.  `f` gives the variable a step
declares, if any. -/
theorem forM_declares {f : α → Option Binding}
    (hstep : ∀ item, ∀ ⦃st st' u⦄, step item st = .ok (u, st') → (f item = none
      ∧ st' = st) ∨ ∃ binding, f item = some binding ∧ isHiddenName
      binding.name = false ∧ st.scope.lookupVariable? binding.name = none ∧ st'
      = st.declared binding.name ⟨binding.ty, constant⟩)
    (htracks : tables.Tracks st) (h : items.forM step st = .ok (u, st')) :
    ∃ after, tables.Declares constant (items.filterMap f) after ∧
      after.Tracks st' ∧ st.Continues st' := by
  induction items generalizing st tables with
  | nil =>
      obtain ⟨-, rfl⟩ := pure_ok.mp h
      exact ⟨tables, .nil, htracks, .refl _⟩
  | cons item items ih =>
      obtain ⟨_, mid, hitem, hitems⟩ := bind_ok.mp h
      rcases hstep item hitem with ⟨hnone, rfl⟩
        | ⟨binding, hsome, hplain, hnew, rfl⟩
      · obtain ⟨after, hdeclares, hafter, hcontinues⟩ := ih htracks hitems
        rw [List.filterMap_cons_none hnone]
        exact ⟨after, hdeclares, hafter, hcontinues⟩
      · have hmid :
          (tables.withVariable binding.name ⟨binding.ty, constant⟩).Tracks
            (st.declared binding.name ⟨binding.ty, constant⟩) :=
          htracks.declared _ (by simp [hplain])
        obtain ⟨after, hdeclares, hafter, hcontinues⟩ := ih hmid hitems
        rw [List.filterMap_cons_some hsome]
        exact ⟨after, .cons (htracks.unknown hplain hnew) hdeclares, hafter,
          (st.continues_declared _ _).trans hcontinues⟩

/-- Each of the steps made one after the other has succeeded. -/
theorem forM_each (h : items.forM step st = .ok (u, st')) :
    ∀ item ∈ items, ∃ st st' u, step item st = .ok (u, st') := by
  induction items generalizing st with
  | nil => simp
  | cons item items ih =>
      obtain ⟨_, mid, hitem, hitems⟩ := bind_ok.mp h
      simpa using ⟨⟨st, mid, _, hitem⟩, ih hitems⟩

/-- Checks made one after the other leave the state alone. -/
theorem forM_checks {P : α → Prop}
    (hstep : ∀ item, ∀ ⦃mid u⦄, step item st = .ok (u, mid) → mid = st ∧ P item)
    (h : items.forM step st = .ok (u, st')) :
    st' = st ∧ ∀ item ∈ items, P item := by
  induction items with
  | nil => exact ⟨(pure_ok.mp h).2, by simp⟩
  | cons item items ih =>
      obtain ⟨_, mid, hitem, hitems⟩ := bind_ok.mp h
      obtain ⟨rfl, hP⟩ := hstep item hitem
      obtain ⟨hst, hrest⟩ := ih hitems
      exact ⟨hst, by simpa using ⟨hP, hrest⟩⟩

/-! Targets. -/

theorem targetNames_reads (h : targetNames st = .ok (names, st')) :
    st.Reads st' ∧ names ≠ [] := by
  simp only [targetNames, bind_ok, identifier_ok] at h
  obtain ⟨first, mid, ⟨_, _, rfl⟩, h⟩ := h
  apply iterate_ok (fun names mid => st.Reads mid ∧ names ≠ []) h
  · exact ⟨st.reads_advanced, by simp⟩
  · rintro names mid next mid' ⟨hreads, _⟩ hround
    simp at hround
    obtain ⟨_, _, ⟨_, rfl⟩, rfl⟩ := hround
    exact ⟨hreads.advance.advance, by simp⟩
  · rintro names mid result mid' ⟨hreads, hne⟩ hround
    simp at hround
    obtain ⟨⟨_, rfl⟩, rfl⟩ := hround
    exact ⟨hreads, hne⟩

theorem typesFor_ok {count : Nat} (h : typesFor value count pos = .ok types)
    (hcount : 0 < count) : value.Hands types ∧ types.length = count := by
  simp only [typesFor, except_ite_ok, reduceCtorEq, and_false, false_or,
    Except.ok.injEq, not_lt, not_not] at h
  obtain ⟨hempty, ⟨hprocess, hle, rfl⟩ | ⟨hplain, hlength, rfl⟩⟩ := h
  · have hlength : (value.types.take count).length = count := by simpa using hle
    refine ⟨⟨?_, ?_⟩, hlength⟩
    · exact List.ne_nil_of_length_pos (by omega)
    · rw [if_pos hprocess]
      exact List.take_prefix _ _
  · refine ⟨⟨by simpa using hempty, ?_⟩, hlength⟩
    rw [if_neg hplain]

theorem map_ty_bindings (hlength : types.length = names.length) :
    (bindings names types).map Binding.ty = types := by
  unfold bindings
  rw [List.map_map]
  exact List.map_snd_zip hlength.le

theorem filter_bindings (names : Targets) (types : List ValueType) :
    (names.zip types).filterMap (fun target =>
      if target.1.1 = "_" then none
      else some (⟨target.1.1, target.2⟩ : Binding)) =
      (bindings names types).filter (·.name != "_") := by
  unfold bindings
  induction names.zip types with
  | nil => rfl
  | cons target targets ih =>
      by_cases hname : target.1.1 = "_"
      · simp [hname, ih]
      · simp [hname, ih]

/-! Definitions and assignments. -/

theorem defineEmpty_accepted {ty : ValueType} (hnames : names ≠ [])
    (htracks : tables.Tracks st)
    (h : defineEmpty names ty constant st = .ok (s, st')) :
    Accepted place tables st s st' := by
  simp only [defineEmpty, bind_ok, pure_ok] at h
  obtain ⟨_, mid, hdeclare, rfl, rfl⟩ := h
  have hnamed : ∀ target ∈ names, target.1 ≠ "_" := by
    intro target htarget
    obtain ⟨_, _, _, hstep⟩ := forM_each hdeclare target htarget
    simp at hstep
    exact hstep.1
  obtain ⟨after, hdeclares, hafter, hcontinues⟩ := forM_declares
    (f := fun target => some ⟨target.1, ty⟩)
    (by
      intro target st st' u hstep
      simp at hstep
      exact .inr ⟨⟨target.1, ty⟩, rfl, declare_ok hstep.2⟩) htracks hdeclare
  rw [List.filterMap_eq_map'] at hdeclares
  refine ⟨after, .defineEmpty (by simpa using hnames) ?_ hdeclares, hafter,
    hcontinues⟩
  rintro _ hbinding
  obtain ⟨target, htarget, rfl⟩ := List.mem_map.mp hbinding
  exact hnamed target htarget

theorem defineFrom_accepted (hnames : names ≠ []) (htracks : tables.Tracks st)
    (hvalue : value.Typed tables)
    (h : defineFrom names declared value valuePos constant st = .ok (s, st')) :
    Accepted place tables st s st' := by
  simp only [defineFrom, bind_ok, lift_ok, pure_ok] at h
  obtain ⟨types, _, ⟨htypes, rfl⟩, _, mid, hdeclare, rfl, rfl⟩ := h
  obtain ⟨hhands, hlength⟩ :=
    typesFor_ok htypes (List.length_pos_iff.mpr hnames)
  rw [← map_ty_bindings hlength] at hhands
  obtain ⟨after, hdeclares, hafter, hcontinues⟩ := forM_declares
    (f := fun target => if target.1.1 = "_" then none
      else some ⟨target.1.1, target.2⟩)
    (by
      intro target st st' u hstep
      have hlast : (target.1.1 = "_" ∧ st' = st) ∨ (¬target.1.1 = "_" ∧
          declare target.1.1 target.1.2 ⟨target.2, constant⟩ st =
            .ok (u, st')) := by
        cases declared with
        | none =>
            simp at hstep
            exact hstep.2
        | some want =>
            simp at hstep
            exact hstep.2.2
      rcases hlast with ⟨hname, hst⟩ | ⟨hname, hdeclare⟩
      · exact .inl ⟨if_pos hname, hst⟩
      · exact .inr ⟨⟨target.1.1, target.2⟩, if_neg hname, declare_ok hdeclare⟩)
    htracks hdeclare
  rw [filter_bindings] at hdeclares
  exact ⟨after, .define hvalue hhands hdeclares, hafter, hcontinues⟩

theorem assignFrom_accepted (hnames : names ≠ []) (htracks : tables.Tracks st)
    (hvalue : value.Typed tables)
    (h : assignFrom names value valuePos st = .ok (s, st')) :
    Accepted place tables st s st' := by
  simp only [assignFrom, bind_ok, lift_ok, pure_ok] at h
  obtain ⟨types, _, ⟨htypes, rfl⟩, _, mid, hchecks, rfl, rfl⟩ := h
  obtain ⟨hhands, hlength⟩ :=
    typesFor_ok htypes (List.length_pos_iff.mpr hnames)
  rw [← map_ty_bindings hlength] at hhands
  obtain ⟨rfl, htargets⟩ := forM_checks
    (P := fun target => (Binding.mk target.1.1 target.2).Assignable tables)
    (by
      intro target mid u hstep
      simp [assignable_ok] at hstep
      rcases hstep with ⟨hname, rfl⟩ | ⟨_, var, ⟨hlookup, hconstant, rfl⟩, hty⟩
      · exact ⟨rfl, .inl hname⟩
      · refine ⟨rfl, .inr ?_⟩
        rw [htracks.known hlookup, ← hty, ← hconstant]) hchecks
  refine .of_reads htracks (.refl _) (.assign hvalue hhands ?_)
  rintro _ hbinding
  obtain ⟨target, htarget, rfl⟩ := List.mem_map.mp hbinding
  exact htargets target htarget

/-- A definition whose value stands ahead. -/
theorem defineNext_accepted {mid mid' : ParserState} (hnames : names ≠ [])
    (htracks : tables.Tracks st) (hreads : st.Reads mid)
    (hvalue : expression mid = .ok (value, mid'))
    (h : defineFrom names declared value valuePos constant mid' = .ok (s,
      st')) : Accepted place tables st s st' := by
  obtain ⟨hreads', htyped⟩ := expression_typed.after hreads hvalue
  exact .after hreads' (defineFrom_accepted hnames (htracks.of_reads hreads')
    (htracks.typed htyped) h)

theorem definition_accepted (constant : Bool) :
    ReadsChecked (definition constant) := by
  intro st s st' place tables h htracks
  simp only [definition, advance_bind, bind_ok] at h
  obtain ⟨names, mid, hnames, found, mid₁, hfound, h⟩ := h
  obtain ⟨hreads, hne⟩ := targetNames_reads hnames
  have hreads₁ := (st.reads_advanced.trans hreads).trans (atType_reads hfound)
  cases found with
  | true =>
      simp at h
      obtain ⟨ty, mid₂, hty, h⟩ := h
      have hreads₂ := hreads₁.trans (valueType_reads hty)
      rcases h with ⟨_, _, h⟩ | ⟨_, value, mid₃, hvalue, h⟩
      · exact .after hreads₂
          (defineEmpty_accepted hne (htracks.of_reads hreads₂) h)
      · exact defineNext_accepted hne htracks hreads₂.advance hvalue h
  | false =>
      simp at h
      obtain ⟨_, value, mid₃, hvalue, h⟩ := h
      exact defineNext_accepted hne htracks hreads₁.advance hvalue h

theorem targetStatement_accepted : ReadsChecked targetStatement := by
  intro st s st' place tables h htracks
  simp only [targetStatement, bind_ok] at h
  obtain ⟨names, mid, hnames, found, mid₁, hfound, h⟩ := h
  obtain ⟨hreads, hne⟩ := targetNames_reads hnames
  have hreads₁ := hreads.trans (accept_reads hfound)
  cases found with
  | true =>
      simp at h
      obtain ⟨value, mid₂, hvalue, h⟩ := h
      exact defineNext_accepted hne htracks hreads₁ hvalue h
  | false =>
      simp at h
      obtain ⟨_, value, mid₂, hvalue, h⟩ := h
      obtain ⟨hreads₂, htyped⟩ := expression_typed.after hreads₁.advance hvalue
      exact .after hreads₂ (assignFrom_accepted hne (htracks.of_reads hreads₂)
        (htracks.typed htyped) h)

theorem listStore_accepted (name : String) (pos : Position) :
    ReadsChecked (listStore name pos) := by
  intro st s st' place tables h htracks
  simp [listStore, assignable_ok, typed_ok] at h
  obtain ⟨var, ⟨hlookup, hconstant⟩, hlist, _, index, mid, ⟨hindex, hint⟩, _,
    _, value, ⟨hvalue, helement⟩, rfl⟩ := h
  obtain ⟨hreads, hindexTyped⟩ :=
    expression_typed.after st.reads_advanced.advance hindex
  obtain ⟨hreads', hvalueTyped⟩ :=
    expression_typed.after hreads.advance.advance hvalue
  have hknown := htracks.known hlookup
  obtain ⟨ty, constant⟩ := var
  cases hconstant
  exact .of_reads htracks hreads'
    (.store hknown hlist (htracks.typed hindexTyped) hint
    (htracks.typed hvalueTyped) helement)

theorem compoundAssignment_accepted (name : String) (pos : Position)
    (op : BinaryOp) : ReadsChecked (compoundAssignment name pos op) := by
  intro st s st' place tables h htracks
  simp [compoundAssignment, assignable_ok, single_ok] at h
  obtain ⟨var, ⟨hlookup, hconstant⟩, right, ⟨hright, hyields⟩, value, hvalue,
    rfl⟩ := h
  obtain ⟨hreads, htyped⟩ :=
    expression_typed.after st.reads_advanced.advance hright
  have hknown := htracks.known hlookup
  obtain ⟨ty, hty, hright, hop, rfl⟩ := BinaryOp.apply_ok hvalue
  obtain rfl : var.ty = ty := hty.ty_eq
  obtain ⟨ty, constant⟩ := var
  cases hconstant
  refine .of_reads htracks hreads (.assign ?_ ?_ ?_)
  · exact .binary (.var hknown) (htracks.typed htyped) hty hright hop
  · exact ⟨by simp, rfl⟩
  · simpa using .inr hknown

theorem countStatement_accepted (name : String) (pos : Position)
    (op : BinaryOp) : ReadsChecked (countStatement name pos op) := by
  intro st s st' place tables h htracks
  simp [countStatement, assignable_ok] at h
  obtain ⟨⟨ty, constant⟩, ⟨hlookup, rfl⟩, rfl, rfl, rfl⟩ := h
  have hknown := htracks.known hlookup
  refine .of_reads htracks st.reads_advanced.advance (.assign ?_ ?_ ?_)
  · exact .binary (.var hknown) .int (.inl rfl) (.inl rfl) (.inl rfl)
  · exact ⟨by simp, rfl⟩
  · simpa using .inr hknown

/-! Builtin statements and expressions run for what they do. -/

theorem panicStatement_accepted : ReadsChecked panicStatement := by
  intro st s st' place tables h htracks
  simp [panicStatement, typed_ok] at h
  obtain ⟨_, message, mid, ⟨hmessage, hyields⟩, ⟨_, rfl⟩, rfl⟩ := h
  obtain ⟨hreads, htyped⟩ :=
    expression_typed.after st.reads_advanced.advance hmessage
  exact .of_reads htracks hreads.advance (.panic (htracks.typed htyped) hyields)

theorem writeStatement_accepted : ReadsChecked writeStatement := by
  intro st s st' place tables h htracks
  simp [writeStatement, typed_ok] at h
  obtain ⟨_, path, mid, ⟨hpath, hpathYields⟩, _, content, mid₁,
    ⟨hcontent, hcontentYields⟩, h⟩ := h
  obtain ⟨hreads, hpathTyped⟩ :=
    expression_typed.after st.reads_advanced.advance hpath
  obtain ⟨hreads', hcontentTyped⟩ :=
    expression_typed.after hreads.advance hcontent
  have hchecked : ∀ append, Stmt.Checked place tables
    (.writeFile path content append)
      tables := fun append =>
    .writeFile (htracks.typed hpathTyped) hpathYields
      (htracks.typed hcontentTyped) hcontentYields
  rcases h with ⟨_, ⟨_, rfl⟩, rfl⟩ | ⟨_, h⟩
  · exact .of_reads htracks hreads'.advance (hchecked false)
  · cases hkind : mid₁.advanced.next.kind with
    | bool append =>
        simp [hkind] at h
        obtain ⟨⟨_, rfl⟩, rfl⟩ := h
        exact .of_reads htracks hreads'.advance.advance.advance
          (hchecked append)
    | _ => simp [hkind] at h

theorem actionStatement_accepted : ReadsChecked actionStatement := by
  intro st s st' place tables h htracks
  simp [actionStatement] at h
  obtain ⟨value, hvalue, haction, rfl⟩ := h
  obtain ⟨hreads, htyped⟩ := expression_typed hvalue
  exact .of_reads htracks hreads (.action (htracks.typed htyped) haction)

theorem printStatement_accepted : ReadsChecked printStatement := by
  intro st s st' place tables h htracks
  simp [printStatement, single_ok] at h
  obtain ⟨_, ⟨_, value, mid, ⟨hvalue, hyields⟩, hscalar, ⟨_, rfl⟩, rfl⟩
    | ⟨⟨_, rfl⟩, rfl⟩⟩ := h
  · obtain ⟨hreads, htyped⟩ :=
      expression_typed.after st.reads_advanced.advance hvalue
    exact .of_reads htracks hreads.advance
      (.print (htracks.typed htyped) hyields hscalar)
  · exact .of_reads htracks st.reads_advanced.advance.advance
      (.print .string (.inl rfl) rfl)

/-- The statements that start with a name. -/
theorem namedStatement_accepted (name : String) (pos : Position) :
    ReadsChecked (namedStatement name pos) := by
  intro st s st' place tables h htracks
  simp only [namedStatement, peekAfter_bind] at h
  cases hkind : st.ahead[1]?.map Token.kind with
  | none => simp [hkind] at h
  | some kind =>
      cases kind with
      | lparen =>
          rw [hkind] at h
          rcases hbuiltin : Builtin.ofName? name with _ | builtin
          · rw [hbuiltin] at h
            exact actionStatement_accepted h htracks
          · rw [hbuiltin] at h
            cases builtin with
            | panic => exact panicStatement_accepted h htracks
            | write => exact writeStatement_accepted h htracks
            | _ => exact actionStatement_accepted h htracks
      | shortDeclare | comma | assign =>
          rw [hkind] at h
          exact targetStatement_accepted h htracks
      | compoundAssign op =>
          rw [hkind] at h
          exact compoundAssignment_accepted name pos op h htracks
      | increment | decrement =>
          rw [hkind] at h
          exact countStatement_accepted name pos _ h htracks
      | lbracket =>
          rw [hkind] at h
          exact listStore_accepted name pos h htracks
      | _ => simp [hkind] at h

theorem simpleStatement_accepted : ReadsChecked simpleStatement := by
  intro st s st' place tables h htracks
  simp only [simpleStatement, peek_bind] at h
  cases hkind : st.next.kind with
  | ident name =>
      rw [hkind] at h
      exact namedStatement_accepted name _ h htracks
  | keyword word =>
      cases word with
      | varWord =>
          rw [hkind] at h
          exact definition_accepted false h htracks
      | _ => simp [hkind] at h
  | _ => simp [hkind] at h

/-! Returning and leaving loops. -/

theorem canContinue_of_canBreak {scope : Scope} (h : scope.canBreak = true) :
    scope.canContinue = true := by
  unfold Scope.canBreak at h
  have hloop := List.mem_of_find?_eq_some (eq_of_beq h)
  unfold Scope.canContinue
  simpa using hloop

theorem loopExit_accepted {exit : LoopExit}
    (h : loopExit exit st = .ok (s, st')) (hfits : place.Fits st.scope)
    (htracks : tables.Tracks st) : Accepted place tables st s st' := by
  cases exit with
  | leave =>
      cases hbreak : st.scope.canBreak with
      | false => simp [loopExit, hbreak] at h
      | true =>
          simp [loopExit, hbreak] at h
          obtain ⟨rfl, rfl⟩ := h
          exact .of_reads htracks st.reads_advanced
            (.leaveLoop (hfits.loops (canContinue_of_canBreak hbreak)))
  | next =>
      cases hcontinue : st.scope.canContinue with
      | false => simp [loopExit, hcontinue] at h
      | true =>
          simp [loopExit, hcontinue] at h
          obtain ⟨rfl, rfl⟩ := h
          exact .of_reads htracks st.reads_advanced
            (.nextRound (hfits.loops hcontinue))

theorem returnValues_typed {first : ParserState} (hfirst : st.Reads first)
    (h : returnValues first = .ok (values, st')) :
    st.Reads st' ∧ ∀ value ∈ values, value.1.Typed st.scope.tables := by
  have hvalues : ∀ {mid}, st.Reads mid → iterate (fun values => do
        let pos ← position
        let values := values ++ [(← expression, pos)]
        if ← accept .comma then
          return .again values
        else
          return .done values) [] mid = .ok (values, st') →
      st.Reads st' ∧ ∀ value ∈ values, value.1.Typed st.scope.tables := by
    intro mid hmid h
    apply iterate_ok
      (fun values mid => st.Reads mid ∧ ∀ value ∈ values,
        value.1.Typed st.scope.tables) h
    · exact ⟨hmid, by simp⟩
    · rintro values mid next mid' ⟨hreads, hvalues⟩ hround
      simp at hround
      obtain ⟨value, mid₁, hvalue, ⟨_, rfl⟩, rfl⟩ := hround
      obtain ⟨hreads', htyped⟩ := expression_typed.after hreads hvalue
      exact ⟨hreads'.advance, List.forall_mem_append.mpr
        ⟨hvalues, by simpa using htyped⟩⟩
    · rintro values mid result mid' ⟨hreads, hvalues⟩ hround
      simp at hround
      obtain ⟨value, hvalue, _, rfl⟩ := hround
      obtain ⟨hreads', htyped⟩ := expression_typed.after hreads hvalue
      exact ⟨hreads', List.forall_mem_append.mpr
        ⟨hvalues, by simpa using htyped⟩⟩
  simp only [returnValues, peekKind_bind] at h
  cases hkind : first.next.kind with
  | newline | semicolon | rbrace | eof =>
      simp [hkind] at h
      obtain ⟨rfl, rfl⟩ := h
      exact ⟨hfirst, by simp⟩
  | _ =>
      rw [hkind] at h
      exact hvalues hfirst h

theorem mapM_singleType_ok
    (h : values.mapM (fun (value, pos) => value.singleType pos) = .ok types) :
    List.Forall₂ Expr.Yields (values.map Prod.fst) types := by
  induction values generalizing types with
  | nil =>
      rw [List.mapM_nil, except_pure_ok] at h
      rw [← h]
      exact .nil
  | cons value values ih =>
      rw [List.mapM_cons] at h
      simp only [except_bind_ok, except_pure_ok, Expr.singleType_ok] at h
      obtain ⟨ty, hty, types, htypes, rfl⟩ := h
      exact .cons hty (ih htypes)

theorem returnedTypes_ok (h : returnedTypes values = .ok types) :
    Returned (values.map Prod.fst) types := by
  unfold returnedTypes at h
  split at h
  · next value pos =>
      simp only [except_ite_ok, except_bind_ok, except_pure_ok,
        Expr.singleType_ok] at h
      rcases h with ⟨hseveral, htypes⟩ | ⟨_, ty, hty, rfl⟩
      · simp at hseveral htypes
        exact .inl ⟨value, rfl, hseveral.2, hseveral.1, htypes⟩
      · exact .inr (.cons hty .nil)
  · exact .inr (mapM_singleType_ok h)

theorem checkReturns_ok {number : Nat} {positions : List Position}
    {got required : List ValueType} (hlength : got.length = required.length)
    (h : checkReturns pos number positions got required = .ok ()) :
    got = required := by
  induction got generalizing number positions required with
  | nil => exact (List.length_eq_zero_iff.mp hlength.symm).symm
  | cons ty got ih =>
      cases required with
      | nil => cases hlength
      | cons want required =>
          simp only [checkReturns, except_ite_ok, reduceCtorEq, and_false,
            or_false] at h
          rw [h.1, ih (by simpa using hlength) h.2]

theorem returnStatement_accepted (h : returnStatement st = .ok (s, st'))
    (hfits : place.Fits st.scope) (htracks : tables.Tracks st) :
    Accepted place tables st s st' := by
  simp only [returnStatement, advance_bind, get_bind] at h
  cases hreturns : st.scope.returns with
  | none => simp [hreturns] at h
  | some required =>
      simp [hreturns] at h
      obtain ⟨values, hvalues, types, htypes, hlength, ⟨_, hchecks⟩, rfl⟩ := h
      obtain ⟨hreads, htyped⟩ := returnValues_typed st.reads_advanced hvalues
      have hreturned := returnedTypes_ok htypes
      rw [checkReturns_ok hlength hchecks] at hreturned
      refine .of_reads htracks hreads
        (.giveBack (hfits.returns ▸ hreturns) ?_ hreturned)
      intro value hvalue
      obtain ⟨found, hfound, rfl⟩ := List.mem_map.mp hvalue
      exact htracks.typed (htyped found hfound)

end Parse

end Shellwright
