/-
Hidden names in blocks.  Each range loop without a named index and each switch
over a composed value makes one hidden variable, enters it for its own body, and
takes it out of scope again.
-/
import Shellwright.Proofs.Hidden.Simple

namespace Shellwright

variable {spelled : String → Prop} {frame : Frame} {count : Nat}
  {st : ParserState} {vars : VariableTable}

/-! Functions work on a copy of the variables. -/

/-- The frame of a function body, where `vars` have been set aside. -/
def Frame.inFunction (frame : Frame) (vars : VariableTable) : Frame :=
  ⟨.function :: frame.blocks, vars :: frame.saved, .none⟩

namespace Frame.Holds

theorem plain_of_none (h : frame.Holds spelled count st)
    (hreach : frame.reach = .none) {name : String} {var : Variable}
    (hlookup : st.scope.lookupVariable? name = some var) :
    isHiddenName name = false := by
  refine Bool.eq_false_iff.mpr fun hhidden => ?_
  have hvars := h.vars hlookup hhidden
  rw [hreach] at hvars
  rcases hvars with ⟨hin, _⟩ | ⟨hin, _⟩ <;> cases hin

theorem entered {name : String} (h : frame.Holds spelled count st)
    (hreach : frame.reach = .none) (hname : isHiddenName name = false)
    (signature : Signature) :
    (frame.inFunction st.scope.vars).Holds spelled count
      { st with
        scope := Scope.enterFunction signature.returns
          { st.scope with functions :=
            (name, signature) :: st.scope.functions } } where
  ahead := h.ahead
  last := h.last
  blocks := congrArg (BlockKind.function :: ·) h.blocks
  saved := congrArg (st.scope.vars :: ·) h.saved
  hidden := h.hidden
  vars hlookup hhidden := by
    rw [h.plain_of_none hreach hlookup] at hhidden
    cases hhidden
  functions {other found} hlookup := by
    simp only [Scope.lookupFunction?, Scope.enterFunction, Scope.push,
      List.lookup_cons] at hlookup
    split at hlookup
    · next heq => exact beq_iff_eq.mp heq ▸ hname
    · exact h.functions hlookup

/-- Behind a function its variables are gone and the old ones are back. -/
theorem exited (h : (frame.inFunction vars).Holds spelled count st)
    (hne : frame.blocks ≠ [])
    (hvars : ∀ {name var}, vars.lookup name = some var → isHiddenName name =
      false) :
    frame.Holds spelled count { st with scope := st.scope.exitFunction } := by
  obtain ⟨outer, rest, houter⟩ := List.exists_cons_of_ne_nil hne
  have hexit : st.scope.exitFunction =
      ⟨frame.blocks, vars, frame.saved, st.scope.functions, none⟩ := by
    have hblocks : st.scope.blocks = .function :: outer :: rest :=
      houter ▸ h.blocks
    have hsaved : st.scope.saved = vars :: frame.saved := h.saved
    unfold Scope.exitFunction Scope.pop
    rw [hblocks]
    dsimp only
    rw [hsaved, houter]
  rw [hexit]
  refine { h with blocks := rfl, saved := rfl, vars :=
    fun hlookup hhidden => ?_ }
  rw [hvars hlookup] at hhidden
  cases hhidden

end Frame.Holds

namespace Parse

variable {kind : BlockKind}

/-- The parser reads statements in every frame. -/
abbrev MakesBlock (spelled : String → Prop)
    (statement : Parse (List Stmt)) : Prop :=
  ∀ frame count, frame.Sound →
    Makes spelled frame count statement
      (Block.Desugared spelled frame.reach count)

theorem pushed_ensures :
    Ensures (frame.Holds spelled count) (modifyScope (·.push kind)) fun _ =>
      (frame.push kind).Holds spelled count := by
  rintro st _ _ hst ⟨⟩
  exact hst.pushed

theorem popped_ensures (hne : frame.blocks ≠ []) :
    Ensures ((frame.push kind).Holds spelled count)
      (modifyScope Scope.pop) fun _ => frame.Holds spelled count := by
  rintro st _ _ hst ⟨⟩
  exact hst.popped hne

theorem removeVariables_keeps {names : List String} :
    Keeps (frame.Holds spelled count) (removeVariables names)
      fun _ => True := by
  intro st _ st' hst h
  rw [removeVariables_eq] at h
  cases h
  exact ⟨trivial, hst.without⟩

section Rules

variable {statement : Parse (List Stmt)}
  (hstatement : MakesBlock spelled statement) {first : Nat} {source : Expr}
  {reach : Reach} {index : String} {word : Keyword} {pos : Position}

include hstatement

theorem statementsUntil_makes {stop : TokenKind → Bool} {wanted : Wanted}
    (hframe : frame.Sound) :
    Makes spelled frame count (statementsUntil statement stop wanted)
      (Block.Desugared spelled frame.reach count) := by
  refine (iterate_ensures (fun body st => ∃ middle,
    Block.Desugared spelled frame.reach count body middle ∧
      frame.Holds spelled middle st)
    (fun body => ?_) []).weaken fun _ hst => ⟨count, .nil, hst⟩
  rintro st outcome st' ⟨middle, hbody, hst⟩ h
  refine Ensures.bind (p := skipSeparators) skipSeparators_keeps
    (fun _ => .weaken ?_ fun _ h => h.2) hst h
  refine peekKind_keeps.step fun kind _ => .ite (fun _ => ?_)
    fun _ => .demand fun _ => ?_
  · exact .pure fun _ hst => ⟨middle, hbody, hst⟩
  · refine (hstatement frame middle hframe).step fun next count' hnext => ?_
    exact .pure fun _ hst => ⟨count', hbody.append hnext, hst⟩

/-- A block opens a frame of its own, in which hidden variables may be in
reach. -/
theorem block_makes (hne : frame.blocks ≠ []) (hkind : kind ≠ .program) :
    Makes spelled frame count (block statement kind)
      (Block.Desugared spelled frame.reach count) := by
  refine .expect rfl (pushed_ensures.bind fun _ => ?_)
  refine (statementsUntil_makes hstatement (Frame.sound_push hkind)).step
    fun body count' hbody => ?_
  refine (popped_ensures hne).bind fun _ => .expect rfl ?_
  exact .pure fun _ hst => ⟨count', hbody, hst⟩

/-- The body of a function, from its parameters to its closing brace. -/
theorem functionBody_makes {name : String} {params : List (Binding × Position)}
    {returns : List ValueType} (hframe : frame.Sound)
    (hname : PlainName spelled name)
    (hparams : ∀ param ∈ params, spelled param.1.name)
    (hvars : ∀ {name var}, vars.lookup name = some var → isHiddenName name =
      false) :
    Ensures ((frame.inFunction vars).Holds spelled count) (do
        params.forM fun (param, paramPos) =>
          declare param.name paramPos ⟨param.ty, false⟩
        expect .lbrace
        let body ← blockBody statement
        if !returns.isEmpty && !(body.getLast?.any Stmt.isReturn) then
          fail (.missingReturn name) (← position)
        expect .rbrace
        modifyScope Scope.exitFunction
        return Stmt.function name (params.map Prod.fst) returns body)
      (Made spelled frame (Stmt.Desugared spelled frame.reach count)) := by
  have hinside : (frame.inFunction vars).Sound :=
    ⟨List.cons_ne_nil _ _, fun _ => rfl⟩
  refine Keeps.step
    (Keeps.forM (fun param => isHiddenName param.1.name = false) ?_)
    fun _ hplain => .expect rfl ?_
  · rintro ⟨param, pos⟩ _
    exact declare_keeps
  refine (statementsUntil_makes hstatement hinside).step
    fun body count' hbody => ?_
  have hfunction : Stmt.Desugared spelled frame.reach count
      (.function name (params.map Prod.fst) returns body) count' := by
    refine .function hname (fun param hparam => ?_) hbody
    obtain ⟨entry, hentry, rfl⟩ := List.mem_map.mp hparam
    exact ⟨hparams entry hentry, hplain entry hentry⟩
  refine .ite (fun _ => position_keeps.step fun _ _ => .abort .fail) fun _ => ?_
  refine .expect rfl ?_
  rintro st s st' hst ⟨⟩
  exact ⟨count', hfunction, hst.exited hframe.nonempty hvars⟩

theorem functionStatement_makes (hframe : frame.Sound) :
    Ensures (At (.keyword word) (frame.Holds spelled count))
      (functionStatement statement)
      (Made spelled frame (Stmt.Desugared spelled frame.reach count)) := by
  refine .take rfl fun token => .get fun now hnow => .weaken ?_
    fun _ hst => hst.1
  refine .guard fun htop => ?_
  have hreach : frame.reach = .none := by
    refine hframe.top ?_
    rw [← hnow.blocks]
    exact not_not.mp htop
  refine identifier_spelled.step fun found hspelled => ?_
  obtain ⟨name, pos⟩ := found
  refine checkNewName_keeps.step fun _ hplain =>
    lookupVariable?_ensures.bind fun _ => .weaken ?_ fun _ hst => hst.1
  refine .guard fun _ => .expect rfl ?_
  refine Keeps.step (commaSeparated_keeps fun _ _ =>
    parameter_keeps spelled Frame.Holds.spelled_ident) fun params hparams => ?_
  refine .expect rfl (resultTypes_keeps.step fun returns _ => ?_)
  refine .get fun now hnow => ?_
  dsimp only
  unfold Scope.declareFunction
  split
  · next scope hscope =>
      split at hscope
      · cases hscope
      · cases hscope
        rintro st s st' ⟨hst, rfl⟩ h
        exact functionBody_makes hstatement hframe ⟨hspelled, hplain⟩ hparams
          (hst.plain_of_none hreach) (hst.entered hreach hplain ⟨_, returns⟩) h
  · exact .abort .fail

/-! Branches and loops. -/

theorem guarded_makes (hne : frame.blocks ≠ []) :
    Makes spelled frame count (guarded statement) fun branch count' =>
      branch.1.Within spelled frame.reach ∧
        Block.Desugared spelled frame.reach count branch.2 count' := by
  refine (typed_keeps expression_reaches).step fun condition hcondition => ?_
  refine (block_makes hstatement hne (by decide)).step
    fun body count' hbody => ?_
  exact .pure fun _ hst => ⟨count', ⟨hcondition, hbody⟩, hst⟩

theorem ifStatement_makes (hne : frame.blocks ≠ []) :
    Ensures (At (.keyword word) (frame.Holds spelled count))
      (ifStatement statement)
      (Made spelled frame (Stmt.Desugared spelled frame.reach count)) := by
  refine .pass rfl ((guarded_makes hstatement hne).step
    fun first middle hfirst => ?_)
  refine (iterate_ensures (fun branches st => ∃ middle, Chain.Desugared spelled
      (Expr.Within spelled frame.reach) frame.reach count branches none middle ∧
      frame.Holds spelled middle st) (fun branches => ?_) [first]).weaken
    fun _ hst => ⟨middle, .branch hfirst.1 hfirst.2 .nil, hst⟩
  rintro st outcome st' ⟨middle, hchain, hst⟩ h
  refine Ensures.accept rfl (.accept rfl ?_ ?_) ?_ hst h
  · refine (guarded_makes hstatement hne).step fun next count' hnext => ?_
    exact .pure fun _ hst => ⟨count', hchain.concat hnext.1 hnext.2, hst⟩
  · refine (block_makes hstatement hne (by decide)).step
      fun body count' hbody => ?_
    exact .pure fun _ hst => ⟨count', .choose (hchain.closed hbody), hst⟩
  · exact .pure fun _ hst => ⟨middle, .choose hchain, hst⟩

theorem countedLoop_makes (hne : frame.blocks ≠ []) :
    Makes spelled frame count (countedLoop statement)
      (Stmt.Desugared spelled frame.reach count) := by
  refine .get fun _ _ => .weaken ?_ fun _ hst => hst.1
  refine (desugaring ..).loopHeader_keeps.step
    fun header hheader => .get fun _ _ => .weaken ?_ fun _ hst => hst.1
  obtain ⟨init, condition, post⟩ := header
  refine (block_makes hstatement hne (by decide)).step
    fun body count' hbody => ?_
  refine removeVariables_keeps.step fun _ _ => .pure
    fun _ hst => ⟨count', ?_, hst⟩
  exact .loop hheader.1 hheader.2.1 hheader.2.2 hbody

omit hstatement in
theorem rangeValueName_keeps :
    Keeps (frame.Holds spelled count) rangeValueName fun name =>
      ∀ found ∈ name, spelled found.1 := by
  refine .accept rfl ?_ (.done nofun)
  refine identifier_spelled.step fun found hfound => .done ?_
  rintro _ ⟨⟩
  exact hfound

omit hstatement in
/-- The element variable is an ordinary one, and the index is among the names
that leave the scope behind the loop. -/
theorem rangeElement_keeps {name : Option (String × Position)}
    (hname : ∀ found ∈ name, spelled found.1) :
    Keeps (frame.Holds spelled count) (rangeElement source index name)
      fun header =>
      index ∈ header.1 ∧ RangePrologue spelled source index header.2 := by
  cases name with
  | none => exact .done ⟨List.mem_cons_self, .inl rfl⟩
  | some found =>
      obtain ⟨name, pos⟩ := found
      refine .ite (fun _ => .done ⟨List.mem_cons_self, .inl rfl⟩) fun _ => ?_
      refine declare_keeps.step fun _ hplain =>
        .done ⟨List.mem_cons_self, .inr ⟨name, ?_, rfl⟩⟩
      exact ⟨hname _ rfl, hplain⟩

omit hstatement in
theorem elementAt_within {index : Expr} (hsource : source.Within spelled reach)
    (hindex : index.Within spelled reach) :
    (elementAt source index).Within spelled reach := by
  unfold elementAt
  split
  · exact Expr.within_append.mpr ⟨hsource, hindex⟩
  · exact Expr.within_substring hsource hindex nofun

omit hstatement in
theorem lengthAsInt_within (hsource : source.Within spelled reach) :
    (lengthAsInt source).Within spelled reach := by
  unfold lengthAsInt
  split <;> exact hsource

omit hstatement in
/-- A range loop with an index of the program is an ordinary loop. -/
theorem rangeLoopWith_plain {count' : Nat} {prologue body : List Stmt}
    (hindex : PlainName spelled index) (hsource : source.Within spelled reach)
    (hprologue : RangePrologue spelled source index prologue)
    (hbody : Block.Desugared spelled reach count body count') :
    Stmt.Desugared spelled reach count
      (rangeLoopWith source index (prologue ++ body)) count' := by
  have hvar : (Expr.var index [.int]).Within spelled reach :=
    Expr.within_var hindex.spelled fun hhidden => by
      simp [hindex.plain] at hhidden
  have hplain : isHiddenName index = true → index ∈ reach.indices :=
    fun hhidden => by simp [hindex.plain] at hhidden
  have hlocal : Block.Desugared spelled reach count prologue count := by
    rcases hprologue with rfl | ⟨name, hname, rfl⟩
    · exact .nil
    · refine .cons (.define (List.forall_mem_singleton.mpr hname) ?_) .nil
      rintro _ ⟨⟩
      exact elementAt_within hsource hvar
  refine .loop ?_ ?_ ?_ (hlocal.append hbody)
  · rintro _ ⟨⟩
    refine .define (List.forall_mem_singleton.mpr hindex) ?_
    rintro _ ⟨⟩
    exact Expr.within_literal rfl
  · rintro _ ⟨⟩
    exact Expr.within_append.mpr ⟨hvar, lengthAsInt_within hsource⟩
  · rintro _ ⟨⟩
    refine .assign (List.forall_mem_singleton.mpr ⟨hindex.spelled, hplain⟩) ?_
    exact Expr.within_append.mpr ⟨hvar, Expr.within_literal rfl⟩

omit hstatement in
theorem hiddenIndex_ensures :
    Ensures (frame.Holds spelled count) (do
        let hidden ← hiddenName "idx"
        enterVariable hidden pos ⟨.int, false⟩
        return hidden) fun index st => index = hiddenNameAt "idx" count ∧
      (frame.withIndex (hiddenNameAt "idx" count)).Holds spelled
        (count + 1) st := by
  intro st index st' hst h
  rw [hiddenName_bind, bind_ok] at h
  obtain ⟨_, mid, henter, h⟩ := h
  obtain ⟨_, rfl⟩ := enterVariable_ok.mp henter
  obtain ⟨rfl, rfl⟩ := pure_ok.mp h
  have hcount := hst.hidden
  subst hcount
  exact ⟨rfl, hst.declared_index "idx"⟩

/-- What follows the index of a range loop.  `inner` is the frame of its body,
which is left for `frame` when the index goes out of scope. -/
theorem rangeBody_makes (inner : Frame) {valueName : Option (String × Position)}
    (hne : inner.blocks ≠ []) (hvalue : ∀ found ∈ valueName, spelled found.1)
    (hleave : ∀ {count st names}, inner.Holds spelled count st → index ∈ names
      → frame.Holds spelled count (st.without names))
    (hloop : ∀ {prologue body count'}, RangePrologue spelled source index
      prologue → Block.Desugared spelled inner.reach count body count' →
      Stmt.Desugared spelled frame.reach first (rangeLoopWith source index
      (prologue ++ body)) count') :
    Ensures (inner.Holds spelled count) (do
        let (header, prologue) ← rangeElement source index valueName
        let body ← block statement .loop
        removeVariables header
        return rangeLoopWith source index (prologue ++ body))
      (Made spelled frame (Stmt.Desugared spelled frame.reach first)) := by
  refine (rangeElement_keeps hvalue).step fun header hheader => ?_
  refine (block_makes hstatement hne (by decide)).step
    fun body count' hbody => ?_
  intro st s st' hst h
  obtain ⟨_, mid, hremove, h⟩ := bind_ok.mp h
  rw [removeVariables_eq] at hremove
  cases hremove
  obtain ⟨rfl, rfl⟩ := pure_ok.mp h
  exact ⟨count', hloop hheader.2 hbody, hleave hst hheader.1⟩

theorem rangeLoop_makes (hne : frame.blocks ≠ []) :
    Makes spelled frame count (rangeLoop statement)
      (Stmt.Desugared spelled frame.reach count) := by
  rw [rangeLoop_eq]
  refine identifier_spelled.step fun found hspelled => ?_
  obtain ⟨name, pos⟩ := found
  refine rangeValueName_keeps.step fun valueName hvalue =>
    .expect rfl (.expect rfl (position_keeps.step fun _ _ => ?_))
  refine (single_keeps expression_reaches).step
    fun source hsource => .guard fun _ => ?_
  by_cases hname : name = "_"
  · have hindex : Ensures (frame.Holds spelled count) (rangeIndex name pos)
        fun index st =>
        index = hiddenNameAt "idx" count ∧
          (frame.withIndex (hiddenNameAt "idx" count)).Holds spelled
            (count + 1) st := by
      rw [rangeIndex, if_pos hname]
      exact hiddenIndex_ensures
    refine hindex.bind fun index => ?_
    rintro st s st' ⟨rfl, hst⟩ h
    refine rangeBody_makes hstatement (frame.withIndex _) hne hvalue
      (fun hst => hst.without_index) ?_ hst h
    exact fun hprologue hbody => .rangeLoop hsource hprologue hbody
  · have hindex : Keeps (frame.Holds spelled count) (rangeIndex name pos)
        fun index => PlainName spelled index := by
      rw [rangeIndex, if_neg hname]
      exact declare_keeps.step fun _ hplain => .done ⟨hspelled, hplain⟩
    refine hindex.step fun index hplain => ?_
    refine rangeBody_makes hstatement frame hne hvalue
      (fun hst _ => hst.without) ?_
    exact fun hprologue hbody => rangeLoopWith_plain hplain hsource
      hprologue hbody

omit hstatement in
theorem atRangeHeader_keeps : Keeps (frame.Holds spelled count) atRangeHeader
    fun _ => True :=
  peekAfter_keeps.step fun _ _ => peekAfter_keeps.step
    fun _ _ => peekAfter_keeps.step fun _ _ =>
    peekAfter_keeps.step fun _ _ => peekAfter_keeps.step
      fun _ _ => .done trivial

theorem forStatement_makes (hne : frame.blocks ≠ []) :
    Ensures (At (.keyword word) (frame.Holds spelled count))
      (forStatement statement)
      (Made spelled frame (Stmt.Desugared spelled frame.reach count)) :=
  .pass rfl (atRangeHeader_keeps.step fun _ _ =>
    .ite (fun _ => rangeLoop_makes hstatement hne)
      fun _ => countedLoop_makes hstatement hne)

/-! Switches. -/

omit hstatement in
theorem hiddenTag_ensures {tag : Expr} :
    Ensures (frame.Holds spelled count) (do
        let name ← hiddenName "sw"
        enterVariable name pos ⟨tag.ty, true⟩
        return SwitchTag.mk (some (.var name [tag.ty]))
          [.define [⟨name, tag.ty⟩] (some tag) true] [name]) fun found st =>
      found = ⟨some (.var (hiddenNameAt "sw" count) [tag.ty]),
        [.define [⟨hiddenNameAt "sw" count, tag.ty⟩] (some tag) true],
        [hiddenNameAt "sw" count]⟩ ∧
      (frame.withTag (hiddenNameAt "sw" count)).Holds spelled
        (count + 1) st := by
  intro st index st' hst h
  rw [hiddenName_bind, bind_ok] at h
  obtain ⟨_, mid, henter, h⟩ := h
  obtain ⟨_, rfl⟩ := enterVariable_ok.mp henter
  obtain ⟨rfl, rfl⟩ := pure_ok.mp h
  have hcount := hst.hidden
  subst hcount
  exact ⟨rfl, hst.declared_tag "sw" tag.ty⟩

/-- What a switch looks at: nothing or a plain expression, or a value that has
been put into a hidden constant. -/
inductive TagDesugared (spelled : String → Prop) (frame : Frame) (count : Nat) :
    SwitchTag → ParserState → Prop where
  | plain {tag st} : (∀ e ∈ tag, Expr.Within spelled frame.reach e) →
      frame.Holds spelled count st →
        TagDesugared spelled frame count ⟨tag, [], []⟩ st
  | hidden {value st} : value.Within spelled frame.reach →
      (frame.withTag (hiddenNameAt "sw" count)).Holds spelled (count + 1) st →
      TagDesugared spelled frame count
        ⟨some (.var (hiddenNameAt "sw" count) [value.ty]),
          [.define [⟨hiddenNameAt "sw" count, value.ty⟩] (some value) true],
          [hiddenNameAt "sw" count]⟩ st

omit hstatement in
theorem switchTag_ensures :
    Ensures (frame.Holds spelled count) switchTag
      (TagDesugared spelled frame count) := by
  refine peekKind_keeps.step fun _ _ =>
    .ite (fun _ => .pure fun _ hst => .plain nofun hst) fun _ => ?_
  refine position_keeps.step fun pos _ =>
    (single_keeps expression_reaches).step fun tag htag => ?_
  refine .guard fun _ => .ite (fun _ => .pure fun _ hst => .plain ?_ hst)
    fun _ => ?_
  · rintro _ ⟨⟩
    exact htag
  · refine hiddenTag_ensures.conclude ?_
    rintro _ st ⟨rfl, hst⟩
    exact .hidden htag hst

theorem switchCases_makes {tag : Option Expr} {test : Expr → Prop}
    (hframe : frame.Sound)
    (htest : ∀ count, Keeps (frame.Holds spelled count)
      (caseCondition tag) test) :
    Makes spelled frame count (switchCases statement tag) fun cases =>
      Chain.Desugared spelled test frame.reach count cases.1 cases.2 := by
  refine (iterate_ensures
    (fun cases st => ∃ middle, Chain.Desugared spelled test frame.reach
    count cases.1 cases.2 middle ∧ frame.Holds spelled middle st) ?_ ([],
    none)).weaken
    fun _ hst => ⟨count, .nil, hst⟩
  rintro ⟨branches, default?⟩ st outcome st' ⟨middle, hchain, hst⟩ h
  refine Keeps.step (p := skipSeparators) skipSeparators_keeps
    (fun _ _ => peekKind_ensures.bind fun kind => ?_) hst h
  cases kind with
  | keyword word =>
      cases word with
      | caseWord =>
          refine .pass rfl ((htest middle).step fun condition hcondition => ?_)
          refine .expect rfl ?_
          refine (statementsUntil_makes hstatement hframe).step
            fun body count' hbody => ?_
          exact .pure fun _ hst => ⟨count', hchain.concat hcondition hbody, hst⟩
      | defaultWord =>
          refine .take rfl fun token => .guard fun hfirst => ?_
          refine .expect rfl ?_
          refine (statementsUntil_makes hstatement hframe).step
            fun body count' hbody => ?_
          have hnone : default? = none := by simpa using hfirst
          subst hnone
          exact .pure fun _ hst => ⟨count', hchain.closed hbody, hst⟩
      | _ => exact .expected
  | rbrace => exact .pure fun _ hst => ⟨middle, hchain, hst.1⟩
  | _ => exact .expected

/-- The cases in their braces, and the statements made from them.  As with a
range loop, `inner` is left for `frame` when the tag goes out of scope. -/
theorem switchBody_makes (inner : Frame) (tag : SwitchTag) (test : Expr → Prop)
    (hne : inner.blocks ≠ [])
    (htest : ∀ count, Keeps ((inner.push .switch).Holds spelled count)
      (caseCondition tag.tag) test)
    (hleave : ∀ {count st}, inner.Holds spelled count st → frame.Holds spelled
      count (st.without tag.hidden))
    (hswitch : ∀ {branches default? count'}, Chain.Desugared spelled test
      inner.reach count branches default? count' → Block.Desugared spelled
      frame.reach first (tag.prologue ++ if branches.isEmpty then
      default?.getD [] else [.choose branches default?]) count') :
    Ensures (inner.Holds spelled count) (do
        expect .lbrace
        modifyScope (·.push .switch)
        let (branches, default?) ← switchCases statement tag.tag
        modifyScope Scope.pop
        expect .rbrace
        removeVariables tag.hidden
        if branches.isEmpty then
          return tag.prologue ++ default?.getD []
        else
          return tag.prologue ++ [.choose branches default?])
      (Made spelled frame (Block.Desugared spelled frame.reach first)) := by
  refine .expect rfl (pushed_ensures.bind fun _ => ?_)
  refine (switchCases_makes hstatement (Frame.sound_push (by decide))
    htest).step fun cases count' hchain => ?_
  obtain ⟨branches, default?⟩ := cases
  refine (popped_ensures hne).bind fun _ => .expect rfl ?_
  intro st body st' hst h
  obtain ⟨_, mid, hremove, h⟩ := bind_ok.mp h
  rw [removeVariables_eq] at hremove
  cases hremove
  have hmade := hswitch hchain
  rcases ite_ok.mp h with ⟨hempty, h⟩ | ⟨hcases, h⟩
  · obtain ⟨rfl, rfl⟩ := pure_ok.mp h
    rw [if_pos hempty] at hmade
    exact ⟨count', hmade, hleave hst⟩
  · obtain ⟨rfl, rfl⟩ := pure_ok.mp h
    rw [if_neg hcases] at hmade
    exact ⟨count', hmade, hleave hst⟩

theorem switchStatement_makes (hne : frame.blocks ≠ []) :
    Ensures (At (.keyword word) (frame.Holds spelled count))
      (switchStatement statement)
      (Made spelled frame (Block.Desugared spelled frame.reach count)) := by
  refine .pass rfl (switchTag_ensures.bind fun tag => ?_)
  intro st body st' htag h
  cases htag with
  | @plain tag _ hwithin hst =>
      refine switchBody_makes hstatement frame ⟨tag, [], []⟩
        (Expr.Within spelled frame.reach) hne
        (fun count => ?_) (fun hst => hst.without)
        (fun {branches default? count'} hchain => ?_) hst h
      · refine caseCondition_keeps (fun pos => ?_) fun hleft hright =>
          Expr.within_append.mpr ⟨hleft, hright⟩
        cases tag with
        | none => exact typed_keeps expression_reaches
        | some tag =>
            exact (single_keeps expression_reaches).step fun e he =>
              Keeps.lift fun _ h => CompareOp.apply_within h
                (hwithin tag rfl) he
      · cases branches with
        | nil => exact hchain.alternative
        | cons first rest => exact .cons (.choose hchain) .nil
  | @hidden value _ hwithin hst =>
      refine switchBody_makes hstatement
        (frame.withTag (hiddenNameAt "sw" count))
        ⟨some (.var (hiddenNameAt "sw" count) [value.ty]),
          [.define [⟨hiddenNameAt "sw" count, value.ty⟩] (some value) true],
          [hiddenNameAt "sw" count]⟩
        (CaseTest spelled (frame.reach.withTag (hiddenNameAt "sw" count))
          (.var (hiddenNameAt "sw" count) [value.ty]))
        hne (fun middle => ?_) (fun hst => hst.without_tag List.mem_cons_self)
        (fun {branches default? count'} hchain => ?_) hst h
      · refine caseCondition_keeps (fun pos => ?_) .or
        refine (single_keeps expression_reaches).step
          fun e he => Keeps.lift fun _ h => ?_
        obtain ⟨_, _, _, _, rfl⟩ := CompareOp.apply_ok h
        exact .value he
      · cases branches with
        | nil =>
            have hlone : Block.Desugared spelled frame.reach count
                (.define [⟨hiddenNameAt "sw" count, value.ty⟩]
                  (some value) true ::
                  (default?.getD [] ++ [])) count' :=
              .lone hwithin hchain.alternative .nil
            rwa [List.append_nil] at hlone
        | cons first rest => exact .switch hwithin hchain .nil

theorem statementRule_makes : MakesBlock spelled (statementRule statement) := by
  intro frame count hframe
  let rules := desugaring spelled frame count
  have hended : ∀ {pre : ParserState → Prop} {p : Parse (List Stmt)},
      Ensures pre p (Made spelled frame
        (Block.Desugared spelled frame.reach count)) →
      Ensures pre (do
        let statements ← p
        endStatement
        return statements) (Made spelled frame
          (Block.Desugared spelled frame.reach count)) := by
    intro pre p hp
    refine hp.bind fun body => ?_
    rintro st found st' ⟨count', hbody, hst⟩ h
    have hend : Ensures (frame.Holds spelled count') (do
        endStatement
        return body) fun found st => found = body ∧
          frame.Holds spelled count' st :=
      endStatement_keeps.step fun _ _ => .done rfl
    obtain ⟨rfl, hst'⟩ := hend hst h
    exact ⟨count', hbody, hst'⟩
  have hone : ∀ {pre : ParserState → Prop} {p : Parse Stmt},
      Ensures pre p (Made spelled frame
        (Stmt.Desugared spelled frame.reach count)) →
      Ensures pre (List.singleton <$> p)
        (Made spelled frame (Block.Desugared spelled frame.reach count)) := by
    intro pre p hp
    refine Ensures.map (hp.conclude ?_)
    rintro s st ⟨count', hs, hst⟩
    exact ⟨count', .cons hs .nil, hst⟩
  have hsimple : ∀ {kind : TokenKind} {p : Parse Stmt}, rules.MakesAt kind p →
      Ensures (At kind (frame.Holds spelled count)) (List.singleton <$> p)
        (Made spelled frame (Block.Desugared spelled frame.reach count)) :=
    fun hp => hone (hp.conclude fun _ _ h => ⟨count, h⟩)
  refine peekKind_ensures.bind fun kind => ?_
  cases kind with
  | keyword word =>
      cases word with
      | switchWord =>
          exact hended (switchStatement_makes hstatement hframe.nonempty)
      | varWord | constWord => exact hended (hsimple rules.definition_makes)
      | funcWord =>
          exact hended (hone (functionStatement_makes hstatement hframe))
      | returnWord => exact hended (hsimple rules.returnStatement_makes)
      | ifWord =>
          exact hended (hone (ifStatement_makes hstatement hframe.nonempty))
      | forWord =>
          exact hended (hone (forStatement_makes hstatement hframe.nonempty))
      | breakWord | continueWord => exact hended (hsimple rules.loopExit_makes)
      | printWord => exact hended (hsimple rules.printStatement_makes)
      | inputWord =>
          exact hended
            (hsimple (rules.actionStatement_makes.weaken fun _ => And.left))
      | _ => exact hended .expected
  | ident name =>
      exact hended
        (hsimple (rules.simpleStatement_makes.weaken fun _ => And.left))
  | atSign =>
      exact hended
        (hsimple (rules.actionStatement_makes.weaken fun _ => And.left))
  | _ => exact hended .expected

end Rules

theorem statement_makes : MakesBlock spelled statement := by
  intro frame count hframe
  refine nested_ensures
    (fun i : { frame : Frame // frame.Sound } × Nat => i.1.1.Holds spelled i.2)
    (fun i body st => ∃ count', Block.Desugared spelled i.1.1.reach i.2
      body count' ∧ i.1.1.Holds spelled count' st) ?_ (⟨frame, hframe⟩, count)
  intro p hp i
  exact statementRule_makes
    (fun frame count hframe => hp (⟨frame, hframe⟩, count)) i.1.1 i.2 i.1.2

theorem program_makes (hframe : frame.Sound) :
    Makes spelled frame count program fun found count' =>
      Block.Desugared spelled frame.reach count found.statements count' := by
  refine (statementsUntil_makes statement_makes hframe).step
    fun body count' hbody => ?_
  exact .pure fun _ hst => ⟨count', hbody, hst⟩

end Parse

end Shellwright
