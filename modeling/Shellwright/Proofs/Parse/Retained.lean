/-
Every statement keeps the frame of the scope it starts in, whatever else has to
hold on the way.  Behind a function the variables are exactly those before it,
and behind a loop the names of its header are unknown again.
-/
import Shellwright.Proofs.Parse.Frames
import Shellwright.Proofs.Parse.Rules

namespace Shellwright

namespace Parse

variable {α : Type} {P : ParserState → Prop} {start : Scope} {s : Stmt}
  {β : Type} {scope : Scope} {word : Keyword} {p : Parse α} {pos : Position}
  {kind : BlockKind} {body : List Stmt} {names : List String}
  {reader : Parse (List Stmt)}

/-- The parser keeps the condition, leaves the scope sound, and everything known
at the start known. -/
abbrev Retaining (P : ParserState → Prop) (start : Scope)
    (p : Parse α) : Prop :=
  Keeps (start.Frames P) p fun _ => True

/-- So does a parser that starts with such a token. -/
abbrev RetainingAt (P : ParserState → Prop) (start : Scope) (kind : TokenKind)
    (p : Parse α) : Prop :=
  Ensures (At kind (start.Frames P)) p fun _ st => True ∧ start.Frames P st

variable [Steady P]

/-! Steps. -/

theorem retaining_of_reads
    (h : ∀ {st a st'}, p st = .ok (a, st') → ParserState.Reads st st') :
    Retaining P start p :=
  fun _ _ _ hst hp => ⟨trivial, hst.read (h hp)⟩

instance : Reading (start.Frames P) :=
  ⟨fun hst _ => hst.read (ParserState.reads_advanced _)⟩

theorem expression_retains : Retaining P start expression :=
  retaining_of_reads fun h => (expression_typed h).1

omit [Steady P] in
theorem lift_retains {x : Except SyntaxError α} : Retaining P start (liftM x) :=
  Keeps.lift fun _ _ => trivial

theorem declare_retains {name : String} {var : Variable} :
    Retaining P start (declare name pos var) := by
  intro st _ st' hst h
  have hkept := Steady.declared hst.kept h
  obtain ⟨_, hnew, rfl⟩ := declare_ok h
  exact ⟨trivial, hst.declared rfl hnew hkept⟩

/-- Simple statements read tokens and declare variables, and no more is asked of
them. -/
def frameRules (P : ParserState → Prop) [Steady P] (start : Scope) :
    Rules (start.Frames P) where
  spelled _ := True
  bound _ := True
  assigned _ := True
  value _ := True
  made _ := True
  ident _ _ := trivial
  declare _ _ _ := declare_retains
  assignable _ _ :=
    (retaining_of_reads fun h => (assignable_ok.mp h).2.2 ▸ .refl _).mono
    fun _ _ => ⟨trivial, fun _ => trivial⟩
  discard := ⟨trivial, trivial⟩
  expression := expression_retains
  literal := ⟨trivial, trivial⟩
  var _ _ := trivial
  binary _ _ := trivial
  define _ _ := trivial
  assign _ _ := trivial
  store _ _ _ := trivial
  giveBack _ := trivial
  writeFile _ _ := trivial
  run _ := ⟨trivial, trivial, trivial⟩
  exit := ⟨trivial, trivial⟩

/-! Blocks. -/

omit [Steady P] in
/-- Something between the opening and the closing of a block, and the rest. -/
theorem inBlock_retains {f : α → Parse β} {post : β → ParserState → Prop}
    (hkind : Opens P kind) (hp : ∀ start, Retaining P start p)
    (hf : ∀ a, Ensures (start.Frames P) (f a) post) :
    Ensures (start.Frames P) (do
      modifyScope (·.push kind)
      let a ← p
      modifyScope Scope.pop
      f a) post := by
  intro st b st' hst h
  obtain ⟨_, opened, hopen, h⟩ := bind_ok.mp h
  cases hopen
  obtain ⟨a, inside, hinside, h⟩ := bind_ok.mp h
  obtain ⟨_, closed, hclose, h⟩ := bind_ok.mp h
  cases hclose
  have hopened : Ready P { st with scope := st.scope.push kind } :=
    ⟨hst.sound.push hkind.inner, hkind.opened hst.kept⟩
  have hbody := (hp _ hopened.frames hinside).2
  exact hf a (hst.trans (hbody.popped hkind hst.sound)) h

/-- Names that were unknown at the start are dropped again. -/
theorem removeVariables_retains
    (hnames : ∀ name ∈ names, start.lookupVariable? name = none) :
    Retaining P start (removeVariables names) := by
  intro st _ st' hst h
  rw [removeVariables_eq] at h
  cases h
  exact ⟨trivial, hst.without hnames⟩

section Rules

variable {statement : Parse (List Stmt)}
  (hstatement : ∀ start, Retaining P start statement)

include hstatement

theorem statementsUntil_retains {stop : TokenKind → Bool} {wanted : Wanted} :
    Retaining P start (statementsUntil statement stop wanted) := by
  refine iterate_keeps (fun _ => True) (fun body _ => ?_) trivial
  refine skipSeparators_keeps.step fun _ _ => peekKind_keeps.step fun kind _ =>
    .ite (fun _ => .pure fun _ hst => ⟨trivial, hst⟩)
      fun _ => .demand fun _ => ?_
  exact (hstatement start).step fun next _ => .pure fun _ hst => ⟨trivial, hst⟩

theorem block_frames (hkind : Opens P kind) :
    Retaining P start (block statement kind) :=
  .expect rfl (inBlock_retains hkind
    (fun _ => statementsUntil_retains hstatement) fun _ =>
    .expect rfl (.done trivial))

/-! Functions. -/

/-- The body of a function, from its parameters to its closing brace. -/
theorem functionBody_retains {name : String} {signature : Signature}
    {params : List (Binding × Position)} {returns : List ValueType}
    (hscope : scope.Sound) (htop : scope.current = .program)
    (hnew : scope.lookupFunction? name = none) :
    Ensures ((scope.inFunction name signature).Frames P) (do
        params.forM fun (param, paramPos) =>
          declare param.name paramPos ⟨param.ty, false⟩
        expect .lbrace
        let body ← blockBody statement
        if !returns.isEmpty && !(body.getLast?.any Stmt.isReturn) then
          fail (.missingReturn name) (← position)
        expect .rbrace
        modifyScope Scope.exitFunction
        return Stmt.function name (params.map Prod.fst) returns body)
      fun _ st => scope.Frames P st ∧ st.scope.vars = scope.vars := by
  refine Keeps.step (Keeps.forM (fun _ => True) fun _ _ => declare_retains)
    fun _ _ => .expect rfl ?_
  refine (statementsUntil_retains hstatement).step fun body _ => ?_
  refine .ite (fun _ => position_keeps.step fun _ _ => .abort .fail) fun _ => ?_
  refine .expect rfl ?_
  rintro st s st' hst ⟨⟩
  exact hst.exited hscope htop hnew

/-- Behind a function definition the variables are exactly those before it. -/
theorem functionStatement_retains {st st' : ParserState} (hst : Ready P st)
    (h : functionStatement statement st = .ok (s, st')) :
    st.scope.Frames P st' ∧ st'.scope.vars = st.scope.vars := by
  simp only [functionStatement, advance_bind, get_bind, ite_ok, bind_ok,
    fail_ok, false_and, exists_false, and_false, false_or, identifier_ok,
    checkNewName_iff, lookupVariable?_bind, expect_ok, not_not, ne_eq,
    Bool.not_eq_true, Option.isSome_eq_false_iff,
    Option.isNone_iff_eq_none] at h
  obtain ⟨htop, ⟨name, pos⟩, _, ⟨_, _, rfl⟩, _, _, ⟨hfree, rfl⟩, hvariable, _,
    _, ⟨_, rfl⟩, params, mid₁, hparams, _, _, ⟨_, rfl⟩, returns, mid₂,
    hreturns, h⟩ := h
  -- up to the opening of the function only tokens are read
  have hreads := (st.reads_advanced.advance.advance.trans
    (parameters_reads hparams)).advance.trans (resultTypes_reads hreturns)
  have hready := hst.read hreads
  obtain ⟨ahead, last, scope, hidden⟩ := mid₂
  obtain rfl : scope = st.scope := hreads.scope
  have hnew : st.scope.lookupFunction? name = none := hfree.unused
  simp only [Scope.declareFunction, hnew, Option.isSome_none,
    Bool.false_eq_true, if_false] at h
  have hentered : Ready P ⟨ahead, last, st.scope.inFunction name
      ⟨params.map (·.1.ty), returns⟩, hidden⟩ :=
    ⟨hst.sound.inFunction hfree.builtin _,
      Steady.entered hready.kept htop
        ((@checkNewName_iff _ _ name pos ()).mpr ⟨hfree, rfl⟩) hvariable⟩
  exact functionBody_retains hstatement hst.sound htop hnew hentered.frames h

/-! Branches. -/

theorem guarded_retains : Retaining P start (guarded statement) :=
  (typed_keeps expression_retains).step fun _ _ =>
    (block_frames hstatement (Steady.opens (by decide) (by decide))).step
      fun _ _ => .done trivial

theorem ifStatement_retains :
    RetainingAt P start (.keyword word) (ifStatement statement) := by
  refine .pass rfl ((guarded_retains hstatement).step fun first _ =>
    iterate_keeps (fun _ => True) (fun branches _ => ?_) trivial)
  refine .accept rfl (.accept rfl ?_ ?_) (.pure fun _ hst => ⟨trivial, hst⟩)
  · exact (guarded_retains hstatement).step
      fun _ _ => .pure fun _ hst => ⟨trivial, hst⟩
  · exact (block_frames hstatement (Steady.opens (by decide) (by decide))).step
      fun _ _ => .pure fun _ hst => ⟨trivial, hst⟩

end Rules

/-! Loops. -/

/-- A loop header that has been read: the names that end with the loop, and the
loop around a body. -/
structure ForHeader where
  names : List String
  loop : List Stmt → Stmt

/-- The header of a counted or conditional loop. -/
def countedHeader : Parse ForHeader := do
  let before := (← get).scope.variableNames
  let (init, condition, post) ← loopHeader
  let names := (← get).scope.variableNames.filter
    fun name => !before.contains name
  return ⟨names, .loop init condition post⟩

/-- The header of a loop over a range. -/
def rangeHeader : Parse ForHeader := do
  let (indexName, indexPos) ← identifier .indexVariable
  let valueName ← rangeValueName
  expect .shortDeclare
  expect (.keyword .rangeWord)
  let sourcePos ← position
  let source ← single expression
  if !source.ty.isList && source.ty != .string then
    fail (.rangeOver source.ty) sourcePos
  let index ← rangeIndex indexName indexPos
  let (names, prologue) ← rangeElement source index valueName
  return ⟨names, fun body => .loop
    (some (.define [⟨index, .int⟩] (some (.int 0 [.int])) false))
    (some (.compare .lt (.var index [.int]) (lengthAsInt source) [.bool]))
    (some (.assign [⟨index, .int⟩]
      (.binary .add (.var index [.int]) (.int 1 [.int]) [.int])))
    (prologue ++ body)⟩

/-- A loop from its first word to the brace of its body. -/
def forHeader : Parse ForHeader := do
  let _ ← advance
  if ← atRangeHeader then rangeHeader else countedHeader

theorem forStatement_eq (statement : Parse (List Stmt)) :
    forStatement statement = do
    let header ← forHeader
    let body ← block statement .loop
    removeVariables header.names
    return header.loop body := by
  have hrange : rangeLoop statement = do
      let header ← rangeHeader
      let body ← block statement .loop
      removeVariables header.names
      return header.loop body := by
    rw [rangeLoop_eq]
    unfold rangeHeader
    simp only [bind_assoc, ite_bind, pure_bind]
  have hcounted : countedLoop statement = do
      let header ← countedHeader
      let body ← block statement .loop
      removeVariables header.names
      return header.loop body := by
    unfold countedLoop countedHeader
    simp only [bind_assoc, pure_bind]
  unfold forStatement forHeader
  rw [hrange, hcounted]
  simp only [bind_assoc, ite_bind]

/-- The names a header lists are new, and all it has introduced are listed. -/
structure ForHeader.Introduces (header : ForHeader) (before after : Scope) :
    Prop where
  fresh : ∀ name ∈ header.names, before.lookupVariable? name = none
  listed : ∀ {name}, before.lookupVariable? name = none →
    after.lookupVariable? name ≠ none → name ∈ header.names

variable {st st' : ParserState} {header : ForHeader}

theorem mem_variableNames {name : String}
    (h : scope.lookupVariable? name ≠ none) : name ∈ scope.variableNames := by
  by_contra hname
  exact h (lookupVariable?_of_not_mem hname)

theorem not_mem_keys {table : List (String × β)} {name : String}
    (h : table.lookup name = none) : name ∉ table.map Prod.fst := by
  intro hname
  obtain ⟨entry, hentry, rfl⟩ := List.mem_map.mp hname
  exact absurd (List.lookup_eq_none_iff.mp h entry hentry) (by simp)

theorem countedHeader_introduces (hst : Ready P st)
    (h : countedHeader st = .ok (header, st')) :
    st.scope.Frames P st' ∧ header.Introduces st.scope st'.scope := by
  simp only [countedHeader, get_bind, bind_ok, pure_ok] at h
  obtain ⟨parts, mid, hparts, rfl, rfl⟩ := h
  refine ⟨((frameRules P _).loopHeader_keeps hst.frames hparts).2,
    fun name hname => ?_, fun hbefore hafter => ?_⟩
  · apply lookupVariable?_of_not_mem
    simpa using (List.mem_filter.mp hname).2
  · refine List.mem_filter.mpr ⟨mem_variableNames hafter, ?_⟩
    have hname : _ ∉ st.scope.variableNames := not_mem_keys hbefore
    simpa using hname

/-- The index is the one name that becomes known. -/
theorem rangeIndex_introduces {name index : String} (hst : Ready P st)
    (h : rangeIndex name pos st = .ok (index, st')) :
    st.scope.Frames P st' ∧ st.scope.lookupVariable? index = none ∧
      st'.scope.lookupVariable? index ≠ none ∧ ∀ {other}, other ≠ index →
        st'.scope.lookupVariable? other = st.scope.lookupVariable? other := by
  have hentered : ∀ mid : ParserState, mid.scope = st.scope → P st' →
      mid.scope.lookupVariable? index = none →
        st' = mid.declared index ⟨.int, false⟩ →
      st.scope.Frames P st' ∧ st.scope.lookupVariable? index = none ∧
        st'.scope.lookupVariable? index ≠ none ∧ ∀ {other}, other ≠ index →
          st'.scope.lookupVariable? other = st.scope.lookupVariable? other := by
    rintro mid hmid hkept hnew rfl
    refine ⟨hst.frames.declared hmid hnew hkept, hmid ▸ hnew, ?_,
      fun hother => ?_⟩
    · simp [Tables.lookupVariable?_declared]
    · rw [Tables.lookupVariable?_declared, if_neg hother, hmid]
  simp only [rangeIndex, ite_ok, hiddenName_bind, bind_ok, pure_ok] at h
  rcases h with ⟨_, _, _, henter, rfl, rfl⟩ | ⟨_, _, _, hdeclare, rfl, rfl⟩
  · obtain ⟨hnew, hdeclared⟩ := enterVariable_ok.mp henter
    exact hentered { st with hidden := st.hidden + 1 } rfl
      (Steady.hidden hst.kept (.inl rfl) henter) hnew hdeclared
  · obtain ⟨_, hnew, hdeclared⟩ := declare_ok hdeclare
    exact hentered st rfl (Steady.declared hst.kept hdeclare) hnew hdeclared

theorem rangeElement_introduces {source : Expr} {index : String}
    {valueName : Option (String × Position)} {prologue : List Stmt}
    (hst : Ready P st)
    (h : rangeElement source index valueName st = .ok ((names, prologue),
      st')) :
    st.scope.Frames P st' ∧ index ∈ names ∧
      (∀ name ∈ names, name = index ∨ st.scope.lookupVariable? name = none) ∧
      ∀ {other}, other ∉ names →
        st'.scope.lookupVariable? other = st.scope.lookupVariable? other := by
  have hnone : st.scope.Frames P st ∧ index ∈ [index] ∧
      (∀ name ∈ [index], name = index ∨ st.scope.lookupVariable? name = none) ∧
      ∀ {other}, other ∉ [index] →
        st.scope.lookupVariable? other = st.scope.lookupVariable? other :=
    ⟨hst.frames, List.mem_cons_self,
      fun _ hname => .inl (List.mem_singleton.mp hname), fun _ => rfl⟩
  cases valueName with
  | none =>
      obtain ⟨⟨⟩, rfl⟩ := pure_ok.mp h
      exact hnone
  | some found =>
      obtain ⟨name, pos⟩ := found
      simp only [rangeElement, ite_ok, bind_ok, pure_ok, Prod.mk.injEq] at h
      rcases h with ⟨_, ⟨rfl, rfl⟩, rfl⟩
        | ⟨_, _, mid, hdeclare, ⟨rfl, rfl⟩, rfl⟩
      · exact hnone
      · have hkept := Steady.declared hst.kept hdeclare
        obtain ⟨_, hnew, rfl⟩ := declare_ok hdeclare
        refine ⟨hst.frames.declared rfl hnew hkept, List.mem_cons_self,
          fun other hother => ?_, fun hother => ?_⟩
        · rcases List.mem_pair.mp hother with rfl | rfl
          · exact .inl rfl
          · exact .inr hnew
        · rw [Tables.lookupVariable?_declared, if_neg ?_]
          rintro rfl
          exact hother (List.mem_pair.mpr (.inr rfl))

theorem rangeHeader_introduces (hst : Ready P st)
    (h : rangeHeader st = .ok (header, st')) :
    st.scope.Frames P st' ∧ header.Introduces st.scope st'.scope := by
  simp only [rangeHeader, bind_ok, identifier_ok, expect_ok, position_bind,
    single_ok, ite_ok, fail_ok, false_and, exists_false, and_false, false_or,
    pure_ok] at h
  obtain ⟨⟨name, pos⟩, _, ⟨_, _, rfl⟩, valueName, mid₁, hvalueName, _, _,
    ⟨_, rfl⟩, _, _, ⟨_, rfl⟩, source, mid₂, ⟨hsource, _⟩, _, index, mid₃,
    hindex, ⟨names, prologue⟩, mid₄, helement, rfl, rfl⟩ := h
  have hreads := (expression_typed.after
    (st.reads_advanced.trans (rangeValueName_reads hvalueName)).advance.advance
      hsource).1
  rw [← hreads.scope]
  obtain ⟨hframes, hfresh, hknown, hothers⟩ :=
    rangeIndex_introduces (hst.read hreads) hindex
  obtain ⟨hframes', hindexed, hlisted, hrest⟩ :=
    rangeElement_introduces hframes.toReady helement
  refine ⟨hframes.trans hframes', fun other hother => ?_,
    fun {other} hbefore hafter => ?_⟩
  · rcases hlisted other hother with rfl | hnone
    · exact hfresh
    · rw [← hothers (fun heq => hknown (heq ▸ hnone))]
      exact hnone
  · by_contra hother
    rw [hrest hother, hothers fun heq => hother (heq ▸ hindexed)] at hafter
    exact hafter hbefore

theorem forHeader_introduces (hst : Ready P st)
    (h : forHeader st = .ok (header, st')) :
    st.scope.Frames P st' ∧ header.Introduces st.scope st'.scope := by
  simp only [forHeader, advance_bind, bind_ok, ite_ok] at h
  obtain ⟨found, mid, hfound, h⟩ := h
  have hreads := st.reads_advanced.trans (atRangeHeader_reads hfound)
  rw [← hreads.scope]
  rcases h with ⟨_, h⟩ | ⟨_, h⟩
  · exact rangeHeader_introduces (hst.read hreads) h
  · exact countedHeader_introduces (hst.read hreads) h

section Rules

variable {statement : Parse (List Stmt)}
  (hstatement : ∀ start, Retaining P start statement) {tag : Option Expr}

include hstatement

/-- Behind a loop the names its header has introduced are unknown again. -/
theorem forStatement_retains (hst : Ready P st)
    (h : forStatement statement st = .ok (s, st')) :
    st.scope.Frames P st' ∧ ∃ header mid, forHeader st = .ok (header, mid) ∧
      ∀ name, st.scope.lookupVariable? name = none →
        mid.scope.lookupVariable? name ≠ none →
        st'.scope.lookupVariable? name = none := by
  rw [forStatement_eq] at h
  simp only [bind_ok, removeVariables_eq, pure_ok, Except.ok.injEq,
    Prod.mk.injEq] at h
  obtain ⟨header, mid, hheader, body, inside, hbody, _, _, ⟨_, rfl⟩, rfl,
    rfl⟩ := h
  obtain ⟨hframes, hintroduces⟩ := forHeader_introduces hst hheader
  have hinside :=
    (block_frames hstatement (Steady.opens (by decide) (by decide))
      hframes hbody).2
  refine ⟨hinside.without hintroduces.fresh, header, mid, hheader,
    fun name hbefore hafter => ?_⟩
  rw [Tables.lookupVariable?_without,
    if_pos (hintroduces.listed hbefore hafter)]

/-! Switches. -/

omit hstatement in
theorem switchTag_retains :
    Keeps (start.Frames P) switchTag fun tag =>
      ∀ name ∈ tag.hidden, start.lookupVariable? name = none := by
  refine peekKind_keeps.step fun _ _ => .ite (fun _ => .done nofun) fun _ => ?_
  refine position_keeps.step fun pos _ => (single_keeps expression_retains).step
    fun tag _ => .guard fun _ => .ite (fun _ => .done nofun) fun _ => ?_
  intro st found st' hst h
  rw [hiddenName_bind, bind_ok] at h
  obtain ⟨_, mid, henter, h⟩ := h
  have hkept := Steady.hidden hst.kept (.inr rfl) henter
  obtain ⟨hnew, rfl⟩ := enterVariable_ok.mp henter
  obtain ⟨rfl, rfl⟩ := pure_ok.mp h
  refine ⟨List.forall_mem_singleton.mpr (hst.retains.unknown hnew),
    hst.declared ?_ hnew hkept⟩
  rfl

omit hstatement in
theorem caseCondition_retains : Retaining P start (caseCondition tag) := by
  refine caseCondition_keeps (fun pos => ?_) fun _ _ => trivial
  cases tag with
  | none => exact typed_keeps expression_retains
  | some tag =>
      exact (single_keeps expression_retains).step fun _ _ => lift_retains

theorem switchCases_retains :
    Retaining P start (switchCases statement tag) := by
  refine iterate_keeps (fun _ => True) ?_ trivial
  rintro ⟨branches, default?⟩ _
  refine skipSeparators_keeps.step fun _ _ => peekKind_ensures.bind
    fun kind => ?_
  cases kind with
  | keyword word =>
      cases word with
      | caseWord =>
          refine .pass rfl (caseCondition_retains.step
            fun _ _ => .expect rfl ?_)
          exact (statementsUntil_retains hstatement).step fun _ _ =>
            .pure fun _ hst => ⟨trivial, hst⟩
      | defaultWord =>
          refine .take rfl fun _ => .guard fun _ => .expect rfl ?_
          exact (statementsUntil_retains hstatement).step fun _ _ =>
            .pure fun _ hst => ⟨trivial, hst⟩
      | _ => exact .expected
  | rbrace => exact .pure fun _ hst => ⟨trivial, hst.1⟩
  | _ => exact .expected

theorem switchStatement_retains :
    RetainingAt P start (.keyword word) (switchStatement statement) := by
  refine .pass rfl (switchTag_retains.step
    fun tag htag => .expect rfl (inBlock_retains
    (Steady.opens (by decide) (by decide))
    (fun _ => switchCases_retains hstatement) fun _ => ?_))
  exact .expect rfl ((removeVariables_retains htag).step fun _ _ =>
    .ite (fun _ => .done trivial) fun _ => .done trivial)

end Rules

/-! All statements. -/

/-- What a statement leaves: the scope around it, behind a function the
variables before it, and behind a loop no name of its header. -/
structure Leaves (P : ParserState → Prop) (st st' : ParserState) : Prop where
  frames : st.scope.Frames P st'
  function : st.next.kind = .keyword .funcWord → st'.scope.vars = st.scope.vars
  loop : st.next.kind = .keyword .forWord →
    ∃ header mid, forHeader st = .ok (header, mid) ∧
    ∀ name, st.scope.lookupVariable? name = none →
      mid.scope.lookupVariable? name ≠ none →
      st'.scope.lookupVariable? name = none

omit [Steady P] in
theorem Leaves.of_retaining {a : α} {kind : TokenKind} (hst : Ready P st)
    (hkind : st.next.kind = kind) (hp : RetainingAt P st.scope kind p)
    (hplain : kind ≠ .keyword .funcWord ∧ kind ≠ .keyword .forWord)
    (h : p st = .ok (a, st')) : Leaves P st st' :=
  ⟨(hp ⟨hst.frames, hkind⟩ h).2,
    fun hfunc => absurd (hkind.symm.trans hfunc) hplain.1,
    fun hfor => absurd (hkind.symm.trans hfor) hplain.2⟩

theorem Leaves.read {mid : ParserState} (h : Leaves P st mid)
    (hreads : mid.Reads st') : Leaves P st st' :=
  ⟨h.frames.read hreads, hreads.scope ▸ h.function, hreads.scope ▸ h.loop⟩

theorem statementRule_leaves {statement : Parse (List Stmt)}
    (hstatement : ∀ start, Retaining P start statement) (hst : Ready P st)
    (h : statementRule statement st = .ok (body, st')) : Leaves P st st' := by
  simp only [statementRule, peekKind_bind] at h
  -- the end of a statement only reads a token
  have hended : ∀ {p : Parse (List Stmt)}, (do
      let statements ← p
      endStatement
      return statements) st = .ok (body, st') →
      (∀ {a mid}, p st = .ok (a, mid) → Leaves P st mid) → Leaves P st st' := by
    intro p h hp
    simp only [bind_ok, pure_ok] at h
    obtain ⟨statements, mid, hmid, _, _, hend, _, rfl⟩ := h
    exact (hp hmid).read (endStatement_reads hend)
  have hone : ∀ {p : Parse Stmt}, (∀ {s mid}, p st = .ok (s, mid) →
    Leaves P st mid) →
      ∀ {statements mid}, (List.singleton <$> p) st = .ok (statements, mid) →
        Leaves P st mid := by
    intro p hp statements mid h
    obtain ⟨s, hs, rfl⟩ := map_ok.mp h
    exact hp hs
  let rules := frameRules P st.scope
  have hsimple : ∀ {p : Parse Stmt} {kind : TokenKind}, st.next.kind = kind →
      RetainingAt P st.scope kind p →
        kind ≠ .keyword .funcWord ∧ kind ≠ .keyword .forWord →
      (do
        let statements ← List.singleton <$> p
        endStatement
        return statements) st = .ok (body, st') → Leaves P st st' :=
    fun hkind hp hplain h => hended h (hone (.of_retaining hst hkind hp hplain))
  have haction (kind : TokenKind) :
      RetainingAt P st.scope kind actionStatement :=
    rules.actionStatement_makes.weaken fun _ => And.left
  cases hkind : st.next.kind with
  | keyword word =>
      rw [hkind] at h
      cases word with
      | funcWord =>
          refine hended h (hone fun hs => ?_)
          obtain ⟨hframes, hvars⟩ := functionStatement_retains hstatement hst hs
          exact ⟨hframes, fun _ => hvars, fun hloop => by
            cases hkind.symm.trans hloop⟩
      | forWord =>
          refine hended h (hone fun hs => ?_)
          obtain ⟨hframes, hnames⟩ := forStatement_retains hstatement hst hs
          exact ⟨hframes, fun hfunction =>
            (by cases hkind.symm.trans hfunction), fun _ => hnames⟩
      | switchWord =>
          exact hended h (.of_retaining hst hkind
            (switchStatement_retains hstatement) (by simp))
      | ifWord =>
          exact hsimple hkind (ifStatement_retains hstatement) (by simp) h
      | varWord | constWord =>
          exact hsimple hkind rules.definition_makes (by simp) h
      | returnWord =>
          exact hsimple hkind rules.returnStatement_makes (by simp) h
      | breakWord | continueWord =>
          exact hsimple hkind rules.loopExit_makes (by simp) h
      | printWord => exact hsimple hkind rules.printStatement_makes (by simp) h
      | inputWord => exact hsimple hkind (haction _) (by simp) h
      | _ => exact hended h fun hfail => absurd hfail expected_ok
  | ident name =>
      rw [hkind] at h
      exact hsimple hkind (rules.simpleStatement_makes.weaken fun _ => And.left)
        (by simp) h
  | atSign =>
      rw [hkind] at h
      exact hsimple hkind (haction _) (by simp) h
  | _ =>
      rw [hkind] at h
      exact hended h fun hfail => absurd hfail expected_ok

/-- The parsers of one statement: the one for a whole program, and those for the
statements inside others. -/
inductive IsStatement : Parse (List Stmt) → Prop where
  | whole : IsStatement statement
  | inner (depth : Nat) : IsStatement (nestedAt statementRule depth)

/-- At whatever depth, a statement leaves the scope as it should. -/
theorem IsStatement.leaves_of_ready (hreader : IsStatement reader)
    (hst : Ready P st) (h : reader st = .ok (body, st')) : Leaves P st st' := by
  have hdeep : ∀ depth, ∀ {st body st'}, Ready P st →
      nestedAt statementRule depth st = .ok (body, st') → Leaves P st st' := by
    refine nestedAt_sound (P := fun p => ∀ {st body st'}, Ready P st →
      p st = .ok (body, st') → Leaves P st st') ?_ ?_
    · intro st body st' _ h
      simp only [position_bind] at h
      exact absurd h fail_ok
    · intro p hp st body st' hst h
      refine statementRule_leaves (fun start => ?_) hst h
      exact fun _ _ _ hst h => ⟨trivial, hst.trans (hp hst.toReady h).frames⟩
  cases hreader with
  | whole =>
      rw [statement, nested, get_bind] at h
      exact hdeep _ hst h
  | inner depth => exact hdeep depth hst h

theorem IsStatement.retaining (hreader : IsStatement reader) (start : Scope) :
    Retaining P start reader :=
  fun _ _ _ hst h =>
    ⟨trivial, hst.trans (hreader.leaves_of_ready hst.toReady h).frames⟩

/-! Without a condition besides, soundness is enough. -/

theorem IsStatement.leaves (hreader : IsStatement reader) (hst : st.scope.Sound)
    (h : reader st = .ok (body, st')) : Leaves (fun _ => True) st st' :=
  hreader.leaves_of_ready ⟨hst, trivial⟩ h

theorem block_retains
    (hreader : ∀ start, Retaining (fun _ => True) start reader)
    (hkind : kind ≠ .program) :
    Retaining (fun _ => True) start (block reader kind) :=
  block_frames hreader ⟨hkind, fun _ => trivial, fun _ _ => trivial⟩

end Parse

end Shellwright
