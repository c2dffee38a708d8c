/-
Functions and switches are well typed, and with them every statement and every
program.  The recursion over nested statements is closed here, once.
-/
import Shellwright.Proofs.Parse.Rules

namespace Shellwright

namespace Parse

variable {st st' : ParserState} {place : Place} {tables : Tables}

section Rules

variable {statement : Parse (List Stmt)} {u : Unit} {name : String}
  {pos : Position} {body : List Stmt} {tag : Option Expr}
  {returns : List ValueType} {params : List (Binding × Position)}

/-! Functions. -/

theorem parameters_reads
    (h : commaSeparated .rparen parameter st = .ok (params, st')) :
    st.Reads st' :=
  (commaSeparated_keeps (Q := fun _ => True)
    (fun _ _ => parameter_keeps (fun _ => True) fun _ _ => trivial)
    (.refl st) h).2

theorem resultTypes_reads {types : List ValueType}
    (h : resultTypes st = .ok (types, st')) : st.Reads st' :=
  (resultTypes_keeps (.refl st) h).2

theorem checkNewName_ok (h : checkNewName name pos st = .ok (u, st')) :
    isHiddenName name = false ∧ st.scope.lookupFunction? name = none ∧
      st' = st := by
  simp [checkNewName] at h
  exact ⟨h.1, h.2.2.2.1, h.2.2.2.2⟩

theorem functionBody_fits {scope : Scope} (hblocks : scope.blocks = [.program])
    (returns : List ValueType) :
    (Place.functionBody returns).Fits (scope.enterFunction returns) where
  returns := rfl
  loops hloop := by simp [Scope.canContinue, Scope.enterFunction, Scope.push,
    hblocks] at hloop
  top htop := by cases htop
  inside _ := by simp [Scope.current, Scope.enterFunction, Scope.push]

/-- Leaving a function brings back the variables around it. -/
theorem exitFunction_eq {outer scope : Scope}
    (hblocks : scope.blocks = (outer.enterFunction returns).blocks)
    (hsaved : scope.saved = (outer.enterFunction returns).saved)
    (houter : outer.blocks = [.program]) :
    scope.exitFunction = { outer with functions := scope.functions, returns :=
      none } := by
  have hpop : scope.pop = { scope with blocks := outer.blocks } := by
    unfold Scope.pop
    rw [hblocks]
    simp [Scope.enterFunction, Scope.push, houter]
  unfold Scope.exitFunction
  simp only [hpop]
  rw [hsaved]
  rfl

/-- A new function keeps tables and scope in step. -/
theorem withFunction_tracks {signature : Signature} (htracks : tables.Tracks st)
    (hvars : st'.scope.vars = st.scope.vars)
    (hfunctions : st'.scope.functions = (name, signature) :: st.scope.functions)
    (hhidden : st.hidden ≤ st'.hidden) :
    (tables.withFunction name signature).Tracks st' where
  known h :=
    htracks.known (by unfold Scope.lookupVariable? at *; rwa [hvars] at h)
  visible h := by
    unfold Scope.lookupVariable?
    rw [hvars]
    exact htracks.visible h
  old h hname := (htracks.old h hname).mono hhidden
  functions := by
    rw [hfunctions, ← htracks.functions]
    rfl

/-- The body of a function, from its parameters to the closing brace. -/
theorem functionBody_accepted (hstatement : ReadsBlock statement)
    {mid mid' : ParserState}
    (hfits : (Place.functionBody returns).Fits st.scope)
    (htracks : tables.Tracks st)
    (hparams : params.forM (fun param => declare param.1.name param.2
      ⟨param.1.ty, false⟩) st = .ok (u, mid))
    (hbody : blockBody statement mid.advanced = .ok (body, mid')) :
    ∃ inside bodyEnd, tables.Declares false (params.map Prod.fst) inside ∧
      Block.Checked (.functionBody returns) inside body bodyEnd ∧
        bodyEnd.Tracks mid' ∧
      st.Continues mid' := by
  obtain ⟨inside, hdeclares, hinside, hcontinues⟩ := forM_declares
    (f := fun param => some param.1)
    (fun param st st' u hstep => .inr ⟨param.1, rfl, declare_ok hstep⟩)
      htracks hparams
  rw [List.filterMap_eq_map'] at hdeclares
  have hopened := hcontinues.trans mid.reads_advanced.continues
  obtain ⟨bodyEnd, hchecked, hend, hcontinues'⟩ :=
    statementsUntil_accepted hstatement _ _ hbody
    (hfits.of_continues hopened) (hinside.of_reads mid.reads_advanced)
  exact ⟨inside, bodyEnd, hdeclares, hchecked, hend, hopened.trans hcontinues'⟩

/-- A function whose header has been read: it is entered into the scope, its
body is read, and the variables around it come back. -/
theorem function_accepted (hstatement : ReadsBlock statement)
    {first mid mid' : ParserState} {outer : Scope} (hreads : first.Reads st)
    (hident : .ident name ∈ first.kinds) (htop : place.topLevel = true)
    (hfits : place.Fits st.scope) (htracks : tables.Tracks st)
    (hfunction : st.scope.lookupFunction? name = none)
    (hvariable : tables.lookupVariable? name = none)
    (houter : outer = { st.scope with functions := (name, ⟨(params.map
      Prod.fst).map Binding.ty, returns⟩) :: st.scope.functions })
    (hparams : params.forM (fun param => declare param.1.name param.2
      ⟨param.1.ty, false⟩) { st with scope := outer.enterFunction returns } =
      .ok (u, mid))
    (hbody : blockBody statement mid.advanced = .ok (body, mid'))
    (hreturn : returns ≠ [] → body.getLast?.any Stmt.isReturn = true) :
    Accepted place tables first (.function name (params.map Prod.fst)
      returns body)
      { mid'.advanced with scope := mid'.scope.exitFunction } := by
  obtain ⟨hblocks, hnone⟩ := hfits.top htop
  have hblocks' : outer.blocks = [.program] := by rw [houter, hblocks]
  have hentered :
    (tables.withFunction name ⟨(params.map Prod.fst).map Binding.ty,
      returns⟩).Tracks { st with scope := outer.enterFunction returns } :=
    withFunction_tracks htracks (by rw [houter]; rfl)
      (by rw [houter]; rfl) le_rfl
  obtain ⟨inside, bodyEnd, hdeclares, hchecked, hend, hcontinues⟩ :=
    functionBody_accepted hstatement (functionBody_fits hblocks' returns)
      hentered hparams hbody
  have hfunctions : mid'.scope.functions = outer.functions := by
    rw [← hend.functions, hchecked.leaves.functions rfl, hdeclares.functions,
      hentered.functions]
    rfl
  rw [exitFunction_eq hcontinues.blocks hcontinues.saved hblocks',
    hfunctions, houter]
  refine ⟨_, .function htop ?_ hvariable hdeclares hchecked hreturn, ?_, ?_⟩
  · unfold Tables.lookupFunction?
    rw [htracks.functions]
    exact hfunction
  · exact withFunction_tracks htracks rfl rfl hcontinues.hidden
  · refine ⟨?_, hcontinues.last.trans hreads.last, ?_, ?_, ?_, ?_, ?_⟩
    · exact (List.tail_suffix _).trans (hcontinues.ahead.trans hreads.ahead)
    · exact hreads.hidden ▸ hcontinues.hidden
    · simp [hreads.scope]
    · simp [hreads.scope]
    · rw [← hreads.scope, hnone]
    · intro entry hentry
      rcases List.mem_cons.mp hentry with rfl | hold
      · exact .inr hident
      · exact .inl (hreads.scope ▸ hold)

theorem functionStatement_accepted (hstatement : ReadsBlock statement)
    {s : Stmt} (h : functionStatement statement st = .ok (s, st'))
    (hfits : place.Fits st.scope) (htracks : tables.Tracks st) :
    Accepted place tables st s st' := by
  simp only [functionStatement, advance_bind, get_bind, ite_ok, bind_ok,
    fail_ok, false_and, exists_false, and_false, false_or, identifier_ok,
    lookupVariable?_bind, expect_ok, not_not, ne_eq] at h
  obtain ⟨hprogram, ⟨name, pos⟩, _, ⟨hkind, _, rfl⟩, _, mid, hcheck, hunseen, _,
    _, ⟨_, rfl⟩, params, mid₁, hparams, _, _, ⟨_, rfl⟩, returns, mid₂,
    hreturns, h⟩ := h
  obtain ⟨hplain, hnew, rfl⟩ := checkNewName_ok hcheck
  have hreads₁ := st.reads_advanced.advance.advance.trans
    (parameters_reads hparams)
  have hreads := hreads₁.advance.trans (resultTypes_reads hreturns)
  have hnew₂ : mid₂.scope.lookupFunction? name = none := by
    rw [hreads.scope]
    exact hnew
  have hunseen : st.scope.lookupVariable? name = none := by simpa using hunseen
  -- a function stands in the program itself
  have htop : place.topLevel = true := by
    cases htop : place.topLevel with
    | true => rfl
    | false => exact absurd hprogram (hfits.inside htop)
  simp only [Scope.declareFunction, hnew₂] at h
  simp at h
  obtain ⟨_, mid₃, hdeclares, _, body, mid₄, hbody, hreturn, _, rfl, rfl⟩ := h
  refine function_accepted hstatement hreads ?_ htop
    (hfits.of_continues hreads.continues)
    (htracks.of_reads hreads) hnew₂
    (htracks.unknown hplain hunseen) ?_ hdeclares hbody hreturn
  · have hmem := st.advanced.next_kind_mem_kinds
    rw [hkind] at hmem
    exact st.reads_advanced.kinds_subset hmem
  · simp

/-! Switches. -/

theorem yields_hands {e : Expr} {ty : ValueType} (h : e.Yields ty) :
    e.Hands [ty] := by
  refine ⟨by simp, ?_⟩
  rcases h with htypes | ⟨hprocess, hhead⟩
  · rw [htypes]
    simp
  · rw [if_pos hprocess]
    cases htypes : e.types with
    | nil => simp [htypes] at hhead
    | cons first rest =>
        simp [htypes] at hhead
        simp [hhead]

/-- What a switch looks at is known, by a name of its own if need be. -/
theorem switchTag_accepted {found : SwitchTag}
    (h : switchTag st = .ok (found, st')) (htracks : tables.Tracks st) :
    ∃ after, Block.Checked place tables found.prologue after ∧
      after.Tracks st' ∧
      st.Continues st' ∧ (∀ tag ∈ found.tag, tag.Typed after) ∧
      ∀ name ∈ found.hidden, isHiddenName name = true := by
  simp [switchTag, single_ok, enterVariable_ok] at h
  rcases h with ⟨_, rfl, rfl⟩ | ⟨_, value, mid, ⟨hvalue, hyields⟩, _, h⟩
  · exact ⟨tables, .nil, htracks, .refl _, by simp, by simp⟩
  · obtain ⟨hreads, htyped⟩ := expression_typed hvalue
    have hvalueTyped := htracks.typed htyped
    have hmid := htracks.of_reads hreads
    rcases h with ⟨_, rfl, rfl⟩ | ⟨_, ⟨_, rfl⟩, rfl⟩
    · exact ⟨tables, .nil, hmid, hreads.continues, by
        simpa using hvalueTyped, by simp⟩
    · have hstem : "sw" = "idx" ∨ "sw" = "sw" := .inr rfl
      have hnew := hmid.fresh hstem
      have hhidden := isHiddenName_hiddenNameAt "sw" mid.hidden
      have hname : hiddenNameAt "sw" mid.hidden ≠ "_" :=
        ne_discard_of_isHiddenName hhidden
      have hcounted : tables.Tracks { mid with hidden := mid.hidden + 1 } :=
        hmid.of_same rfl rfl (Nat.le_succ _)
      refine ⟨_, .singleton (.define hvalueTyped (yields_hands hyields) ?_),
        hcounted.declared _ fun _ => hiddenBefore_succ hstem _, ?_, ?_, ?_⟩
      · simpa [hname] using Tables.Declares.cons hnew .nil
      · exact (hreads.continues.trans mid.continues_counted).trans
          (ParserState.continues_declared _ _ _)
      · rintro _ ⟨⟩
        have hlookup : (tables.withVariable (hiddenNameAt "sw" mid.hidden)
            ⟨value.ty, true⟩).lookupVariable? (hiddenNameAt "sw" mid.hidden) =
              some ⟨value.ty, true⟩ := by simp
        exact .var hlookup
      · simpa using hhidden

theorem caseTest_typed {test : Expr} (h : caseTest tag pos st = .ok (test, st'))
    (htracks : tables.Tracks st) (htag : ∀ e ∈ tag, e.Typed tables) :
    st.Reads st' ∧ test.Typed tables ∧ test.Yields .bool := by
  cases tag with
  | none =>
      simp [caseTest, typed_ok] at h
      obtain ⟨hreads, htyped⟩ := expression_typed h.1
      exact ⟨hreads, htracks.typed htyped, h.2⟩
  | some tag =>
      simp [caseTest, single_ok] at h
      obtain ⟨value, ⟨hvalue, _⟩, happly⟩ := h
      obtain ⟨hreads, htyped⟩ := expression_typed hvalue
      obtain ⟨ty, hleft, hright, hop, rfl⟩ := CompareOp.apply_ok happly
      exact ⟨hreads, .compare (htag tag rfl) (htracks.typed htyped) hleft hright
        hop, .inl rfl⟩

theorem caseCondition_typed {condition : Expr}
    (h : caseCondition tag st = .ok (condition, st'))
    (htracks : tables.Tracks st) (htag : ∀ e ∈ tag, e.Typed tables) :
    st.Reads st' ∧ condition.Typed tables ∧ condition.Yields .bool := by
  simp only [caseCondition, position_bind, bind_ok] at h
  obtain ⟨first, mid, hfirst, h⟩ := h
  apply iterate_ok (fun condition mid =>
    st.Reads mid ∧ condition.Typed tables ∧ condition.Yields .bool) h
  · exact caseTest_typed hfirst htracks htag
  · rintro condition mid next mid' ⟨hreads, htyped, hyields⟩ hround
    simp at hround
    obtain ⟨_, test, htest, happly⟩ := hround
    have htracks' := htracks.of_reads hreads.advance
    obtain ⟨hreads', htestTyped, _⟩ := caseTest_typed htest htracks' htag
    obtain ⟨hleft, hright, rfl⟩ := LogicalOp.apply_ok happly
    exact ⟨hreads.advance.trans hreads',
      .logical htyped htestTyped hleft hright, .inl rfl⟩
  · intro condition mid result mid' hinv hround
    simp at hround
    obtain ⟨⟨_, rfl⟩, rfl⟩ := hround
    exact hinv

/-- The cases of a switch, with the default body wherever it stands. -/
theorem switchCases_accepted (hstatement : ReadsBlock statement)
    {cases : List (Expr × List Stmt) × Option (List Stmt)}
    (h : switchCases statement tag st = .ok (cases, st'))
    (hfits : place.Fits st.scope) (htracks : tables.Tracks st)
    (htag : ∀ e ∈ tag, e.Typed tables) :
    AcceptedChain place tables st cases.1 cases.2 st' := by
  apply iterate_ok
    (fun cases mid => AcceptedChain place tables st cases.1 cases.2 mid) h
  · exact ⟨tables, .nil, htracks, .refl st⟩
  · rintro ⟨branches, default?⟩ mid next mid' hchain hround
    simp only [bind_ok, peekKind_bind] at hround
    obtain ⟨_, mid₁, hskip, hround⟩ := hround
    have hchain := hchain.reads (skipSeparators_reads hskip)
    cases hkind : mid₁.next.kind with
    | keyword word =>
        cases word with
        | caseWord =>
            simp [hkind, caseBody] at hround
            obtain ⟨condition, mid₂, hcondition, _, body, hbody, rfl⟩ := hround
            refine (hchain.reads mid₁.reads_advanced).branch ?_
            intro after hwithin hafter hcontinues
            obtain ⟨hreads, htyped, hyields⟩ :=
              caseCondition_typed hcondition hafter
              fun e he => (htag e he).mono hwithin
            have hmid := hcontinues.trans hreads.advance.continues
            refine ⟨htyped, hyields, .after hreads.advance ?_⟩
            exact statementsUntil_accepted hstatement _ _ hbody
              (hfits.of_continues hmid) (hafter.of_reads hreads.advance)
        | defaultWord =>
            simp [hkind, caseBody] at hround
            obtain ⟨rfl, _, body, hbody, rfl⟩ := hround
            refine (hchain.reads mid₁.reads_advanced.advance).close ?_
            intro after hafter hcontinues
            exact statementsUntil_accepted hstatement _ _ hbody
              (hfits.of_continues hcontinues) hafter
        | _ => simp [hkind] at hround
    | _ => simp [hkind] at hround
  · rintro ⟨branches, default?⟩ mid result mid' hchain hround
    simp only [bind_ok, peekKind_bind] at hround
    obtain ⟨_, mid₁, hskip, hround⟩ := hround
    cases hkind : mid₁.next.kind with
    | rbrace =>
        simp [hkind] at hround
        obtain ⟨rfl, rfl⟩ := hround
        exact hchain.reads (skipSeparators_reads hskip)
    | keyword word => cases word <;> simp [hkind] at hround
    | _ => simp [hkind] at hround

theorem switchStatement_accepted (hstatement : ReadsBlock statement) :
    ReadsBlock (switchStatement statement) := by
  intro st body st' place tables h hfits htracks
  simp only [switchStatement, advance_bind, bind_ok] at h
  obtain ⟨found, mid, hfound, h⟩ := h
  simp [removeVariables_eq] at h
  obtain ⟨_, branches, default?, mid₁, hcases, _, h⟩ := h
  obtain ⟨known, hprologue, hknown, hcontinues, htag, hhidden⟩ :
      ∃ known, Block.Checked place tables found.prologue known ∧
        known.Tracks mid ∧
        st.advanced.Continues mid ∧ (∀ tag ∈ found.tag, tag.Typed known) ∧
        ∀ name ∈ found.hidden, isHiddenName name = true :=
    switchTag_accepted hfound (htracks.of_reads st.reads_advanced)
  have hopened : known.Tracks mid.advanced := hknown.of_reads mid.reads_advanced
  have hstart := st.reads_advanced.continues.trans
    (hcontinues.trans mid.reads_advanced.continues)
  have hmid := hfits.of_continues hstart
  obtain ⟨after, hchain, hafter, hcontinues₁⟩ :=
    switchCases_accepted hstatement hcases
    (hmid.push_inner (.inr rfl)) (pushed_tracks hopened .switch) htag
  have hpopped : mid.advanced.Continues { mid₁ with scope := mid₁.scope.pop } :=
    hcontinues₁.popped hmid.blocks_ne_nil
  have hclosed : ∀ {inner}, Block.Checked place known inner after →
      AcceptedBlock place tables st (found.prologue ++ inner)
        (ParserState.without
          (ParserState.advanced { mid₁ with scope := mid₁.scope.pop })
          found.hidden) := by
    intro inner hinner
    refine ⟨after, hprologue.append hinner, ?_, ?_⟩
    · exact ((popped_tracks hafter).of_reads
        (ParserState.reads_advanced _)).without_hidden hhidden
    · exact (hstart.trans hpopped).trans
        ((ParserState.reads_advanced _).continues.trans
        (ParserState.continues_without _ _))
  rcases h with ⟨rfl, rfl, rfl⟩ | ⟨hne, rfl, rfl⟩
  · exact hclosed hchain.alternative.of_inner
  · exact hclosed (.singleton (.choose hne hchain))

/-! The recursion. -/

/-- A statement with the token that ends it. -/
theorem ended_accepted {p : Parse Stmt} {body : List Stmt}
    (hp : ∀ ⦃s mid⦄, p st = .ok (s, mid) → Accepted place tables st s mid)
    (h : (do
      let statements ← List.singleton <$> p
      endStatement
      return statements : Parse (List Stmt)) st = .ok (body, st')) :
    AcceptedBlock place tables st body st' := by
  simp only [bind_ok, map_ok, pure_ok] at h
  obtain ⟨_, mid, ⟨s, hs, rfl⟩, _, mid', hend, rfl, rfl⟩ := h
  exact (hp hs).block.reads (endStatement_reads hend)

theorem statementRule_accepted (hstatement : ReadsBlock statement) :
    ReadsBlock (statementRule statement) := by
  intro st body st' place tables h hfits htracks
  simp only [statementRule, peekKind_bind] at h
  cases hkind : st.next.kind with
  | keyword word =>
      rw [hkind] at h
      cases word with
      | switchWord =>
          simp only [bind_ok, pure_ok] at h
          obtain ⟨_, mid, hswitch, _, mid', hend, rfl, rfl⟩ := h
          exact (switchStatement_accepted hstatement hswitch hfits
            htracks).reads (endStatement_reads hend)
      | varWord =>
          exact ended_accepted
            (fun _ _ hs => definition_accepted false hs htracks) h
      | constWord =>
          exact ended_accepted
            (fun _ _ hs => definition_accepted true hs htracks) h
      | funcWord =>
          exact ended_accepted
            (fun _ _ hs => functionStatement_accepted hstatement hs hfits
              htracks) h
      | returnWord =>
          exact ended_accepted
            (fun _ _ hs => returnStatement_accepted hs hfits htracks) h
      | ifWord =>
          exact ended_accepted
            (fun _ _ hs => ifStatement_accepted hstatement hs hfits htracks) h
      | forWord =>
          exact ended_accepted
            (fun _ _ hs => forStatement_accepted hstatement hs hfits htracks) h
      | breakWord | continueWord =>
          exact ended_accepted
            (fun _ _ hs => loopExit_accepted hs hfits htracks) h
      | printWord =>
          exact ended_accepted
            (fun _ _ hs => printStatement_accepted hs htracks) h
      | inputWord =>
          exact ended_accepted
            (fun _ _ hs => actionStatement_accepted hs htracks) h
      | _ => simp at h
  | ident name =>
      rw [hkind] at h
      exact ended_accepted (fun _ _ hs => simpleStatement_accepted hs htracks) h
  | atSign =>
      rw [hkind] at h
      exact ended_accepted (fun _ _ hs => actionStatement_accepted hs htracks) h
  | _ => simp [hkind] at h

end Rules

theorem statement_accepted : ReadsBlock statement := by
  intro st body st' place tables h
  rw [statement, nested, get_bind] at h
  refine nestedAt_sound (P := ReadsBlock) ?_
    (fun _ => statementRule_accepted) _ h
  intro st body st' place tables h
  simp at h

/-- A program is accepted from an empty scope. -/
theorem program_accepted {program : Program}
    (h : Parse.program st = .ok (program, st')) (hscope : st.scope = .initial) :
    AcceptedBlock .program .empty st program.statements st' := by
  simp only [Parse.program, bind_ok, pure_ok] at h
  obtain ⟨body, mid, hbody, rfl, rfl⟩ := h
  have hfits : Place.program.Fits st.scope := by
    rw [hscope]
    exact ⟨rfl, by decide, fun _ => ⟨rfl, rfl⟩, by decide⟩
  exact statementsUntil_accepted statement_accepted _ _ hbody hfits
    (Tables.empty_tracks hscope)

end Parse

end Shellwright
