/-
Loops are well typed, with a header of three parts or over a range.  The names
of a header end with the loop.
-/
import Shellwright.Proofs.Parse.Block

namespace Shellwright

namespace Parse

variable {st st' : ParserState} {place : Place} {tables : Tables}
  {statement : Parse (List Stmt)} {found : Bool} {source : Expr} {s : Stmt}
  {index name : String} {stop : TokenKind}
  {valueName : Option (String × Position)}
  {header : Option Stmt × Option Expr × Option Stmt}

/-! The header. -/


/-- The parts of a loop header are well typed in the order they are read, and
leave the tables `stepped` to the body. -/
def AcceptedHeader (place : Place) (tables : Tables) (st : ParserState)
    (header : Option Stmt × Option Expr × Option Stmt) (stepped : Tables)
    (st' : ParserState) : Prop :=
  ∃ started, Part.Checked place tables header.1 started ∧
    (∀ test ∈ header.2.1, test.Typed started ∧ test.Yields .bool) ∧
    Part.Checked place started header.2.2 stepped ∧ stepped.Tracks st' ∧
      st.Continues st'

/-- A part that is left out when `stop` stands in its place. -/
def unlessAt {α : Type} (stop : TokenKind) (part : Parse α) :
    Parse (Option α) := do
  if (← peekKind) = stop then
    return none
  else
    return some (← part)

theorem ite_bind {α β : Type} {c : Prop} [Decidable c] (p q : Parse α)
    (rest : α → Parse β) :
    (if c then p else q) >>= rest = if c then p >>= rest else q >>= rest := by
  by_cases hc : c <;> simp [hc]

theorem loopHeader_eq : loopHeader = do
    if (← peekKind) = .lbrace then
      return (none, none, none)
    else if (← peekKind) = .semicolon || (← atSimpleStatement) then
      let init ← unlessAt .semicolon simpleStatement
      expect .semicolon
      let condition ← unlessAt .semicolon
        (typed expression .bool .loopCondition)
      expect .semicolon
      let post ← unlessAt .lbrace simpleStatement
      return (init, condition, post)
    else
      return (none, some (← typed expression .bool .loopCondition), none) := by
  unfold loopHeader unlessAt
  simp only [bind_assoc, ite_bind, pure_bind, map_eq_pure_bind]

theorem optionalStatement_accepted {part : Option Stmt}
    (h : unlessAt stop simpleStatement st = .ok (part, st'))
    (htracks : tables.Tracks st) :
    ∃ after, Part.Checked place tables part after ∧ after.Tracks st' ∧
      st.Continues st' := by
  simp [unlessAt] at h
  rcases h with ⟨_, rfl, rfl⟩ | ⟨_, s, hs, rfl⟩
  · exact ⟨tables, .none, htracks, .refl _⟩
  · obtain ⟨after, hchecked, hafter, hcontinues⟩ :=
      simpleStatement_accepted hs htracks
    exact ⟨after, .some hchecked, hafter, hcontinues⟩

theorem optionalCondition_typed {role : Role} {condition : Option Expr}
    (h : unlessAt stop (typed expression .bool role) st = .ok (condition, st'))
    (htracks : tables.Tracks st) :
    st.Reads st' ∧ ∀ test ∈ condition, test.Typed tables ∧
      test.Yields .bool := by
  simp [unlessAt, typed_ok] at h
  rcases h with ⟨_, rfl, rfl⟩ | ⟨_, test, ⟨htest, hyields⟩, rfl⟩
  · exact ⟨.refl _, by simp⟩
  · obtain ⟨hreads, htyped⟩ := expression_typed htest
    exact ⟨hreads, by simpa using ⟨htracks.typed htyped, hyields⟩⟩

theorem atSimpleStatement_reads (h : atSimpleStatement st = .ok (found, st')) :
    st.Reads st' := by
  simp only [atSimpleStatement, peekKind_bind] at h
  cases hkind : st.next.kind with
  | keyword word =>
      cases word <;> simp [hkind] at h
      all_goals exact h.2 ▸ .refl st
  | ident name =>
      simp only [hkind, peekAfter_bind] at h
      cases hafter : st.ahead[1]?.map Token.kind with
      | none =>
          simp [hafter] at h
          exact h.2 ▸ .refl st
      | some kind =>
          cases kind <;> simp [hafter] at h
          all_goals exact h.2 ▸ .refl st
  | _ =>
      simp [hkind] at h
      exact h.2 ▸ .refl st

theorem loopHeader_accepted (h : loopHeader st = .ok (header, st'))
    (htracks : tables.Tracks st) :
    ∃ stepped, AcceptedHeader place tables st header stepped st' := by
  rw [loopHeader_eq] at h
  simp only [peekKind_bind, ite_ok, bind_ok, pure_ok, expect_ok, typed_ok] at h
  rcases h with ⟨_, rfl, rfl⟩ | ⟨_, found, mid, hfound, h⟩
  · exact ⟨tables, tables, .none, by simp, .none, htracks, .refl _⟩
  · have hreads := atSimpleStatement_reads hfound
    have hmid := htracks.of_reads hreads
    rcases h with ⟨_, init, mid₁, hinit, _, mid₂, ⟨_, rfl⟩, condition, mid₃,
      hcondition, _, mid₄, ⟨_, rfl⟩, post, mid₅, hpost, rfl, rfl⟩ | ⟨_, test,
      mid₁, ⟨htest, hyields⟩, rfl, rfl⟩
    · obtain ⟨started, hinit, hstarted, hcontinues⟩ :=
        optionalStatement_accepted hinit hmid
      have htracks₂ := hstarted.of_reads mid₁.reads_advanced
      obtain ⟨hreads₃, htest⟩ := optionalCondition_typed hcondition htracks₂
      have htracks₄ := htracks₂.of_reads hreads₃.advance
      obtain ⟨stepped, hpost, hstepped, hcontinues'⟩ :=
        optionalStatement_accepted hpost htracks₄
      have hbetween : mid₁.Continues mid₃.advanced :=
        (mid₁.reads_advanced.trans hreads₃.advance).continues
      exact ⟨stepped, started, hinit, htest, hpost, hstepped,
        (hreads.continues.trans hcontinues).trans (hbetween.trans hcontinues')⟩
    · obtain ⟨hreads', htyped⟩ := expression_typed.after hreads htest
      exact ⟨tables, tables, .none, by
        simpa using ⟨htracks.typed htyped, hyields⟩, .none,
        htracks.of_reads hreads', hreads'.continues⟩

theorem removeVariables_eq (names : List String) :
    removeVariables names st = .ok ((), st.without names) := by
  have hfold : ∀ scope : Scope,
      names.foldl (fun scope name => scope.removeVariable name) scope =
        { scope with
          vars := scope.vars.filter fun entry => !names.contains entry.1 } := by
    induction names with
    | nil => intro scope; simp
    | cons name names ih =>
        intro scope
        rw [List.foldl_cons, ih]
        simp only [Scope.removeVariable, List.filter_filter]
        congr 2
        funext entry
        by_cases hname : entry.1 = name <;> simp [hname]
  rw [removeVariables, modifyScope_eq, hfold]
  rfl

theorem lookupVariable?_of_not_mem {scope : Scope}
    (h : name ∉ scope.variableNames) : scope.lookupVariable? name = none := by
  unfold Scope.variableNames at h
  unfold Scope.lookupVariable?
  rw [List.lookup_eq_none_iff]
  intro entry hentry
  rw [bne_iff_ne]
  rintro rfl
  exact h (List.mem_map_of_mem hentry)

/-- A loop around a header and a body that have been accepted. -/
theorem loop_accepted {names : List String} {body : List Stmt}
    {mid mid' : ParserState} {stepped : Tables} (htracks : tables.Tracks st)
    (hheader : AcceptedHeader place.inner tables st header stepped mid)
    (hbody : AcceptedBlock place.loopBody stepped mid body mid')
    (hnames : ∀ name ∈ names, st.scope.lookupVariable? name = none) :
    Accepted place tables st (.loop header.1 header.2.1 header.2.2 body)
      (mid'.without names) := by
  obtain ⟨started, hinit, htest, hpost, hstepped, hcontinues⟩ := hheader
  obtain ⟨inside, hchecked, hinside, hcontinues'⟩ := hbody
  have hwithin : tables.Within inside :=
    (hinit.leaves.within.trans hpost.leaves.within).trans hchecked.leaves.within
  exact ⟨inside.leaving tables names,
    .loop hinit htest hpost hchecked (Tables.forgets_leaving hwithin names),
    htracks.leaving hinside hnames,
    (hcontinues.trans hcontinues').trans (mid'.continues_without names)⟩

theorem countedLoop_accepted (hstatement : ReadsBlock statement)
    (h : countedLoop statement st = .ok (s, st')) (hfits : place.Fits st.scope)
    (htracks : tables.Tracks st) : Accepted place tables st s st' := by
  simp [countedLoop, removeVariables_eq] at h
  obtain ⟨init, condition, post, mid, hheader, body, mid', hbody, rfl, rfl⟩ := h
  obtain ⟨stepped, haccepted⟩ : ∃ stepped, AcceptedHeader place.inner tables st
      (init, condition, post) stepped mid := loopHeader_accepted hheader htracks
  have ⟨_, _, _, _, hstepped, hcontinues⟩ := haccepted
  refine loop_accepted htracks haccepted ?_ ?_
  · have hmid := hfits.of_continues hcontinues
    exact block_accepted hstatement hbody hmid.blocks_ne_nil
      hmid.push_loop hstepped
  · intro name hname
    apply lookupVariable?_of_not_mem
    simpa using (List.mem_filter.mp hname).2

/-- The name after the comma of a range header. -/
def rangeValueName : Parse (Option (String × Position)) := do
  if ← accept .comma then return some (← identifier .valueVariable)
  else return none

/-- Declares the variable that counts the rounds. -/
def rangeIndex (name : String) (pos : Position) : Parse String := do
  if name = "_" then
    let hidden ← hiddenName "idx"
    enterVariable hidden pos ⟨.int, false⟩
    return hidden
  else
    declare name pos ⟨.int, false⟩
    return name

/-- Declares the variable for the elements and gives the names of the header
with the statement that sets it. -/
def rangeElement (source : Expr) (index : String) :
    Option (String × Position) → Parse (List String × List Stmt)
  | some (name, pos) => do
      if name = "_" then
        return ([index], [])
      else
        declare name pos ⟨source.ty.element, false⟩
        return ([index, name], [.define [⟨name, source.ty.element⟩]
          (some (elementAt source (.var index [.int]))) false])
  | none => return ([index], [])

theorem rangeElement_bind {β : Type} (source : Expr) (index : String)
    (valueName : Option (String × Position))
    (rest : List String × List Stmt → Parse β) :
    rangeElement source index valueName >>= rest =
      match valueName with
      | some (name, pos) =>
          if name = "_" then rest ([index], [])
          else declare name pos ⟨source.ty.element, false⟩ >>= fun _ =>
            rest ([index, name], [.define [⟨name, source.ty.element⟩]
              (some (elementAt source (.var index [.int]))) false])
      | none => rest ([index], []) := by
  cases valueName with
  | none => rfl
  | some found => simp [rangeElement, ite_bind]

theorem rangeLoop_eq (statement : Parse (List Stmt)) : rangeLoop statement = do
    let (indexName, indexPos) ← identifier .indexVariable
    let valueName ← rangeValueName
    expect .shortDeclare
    expect (.keyword .rangeWord)
    let sourcePos ← position
    let source ← single expression
    if !source.ty.isList && source.ty != .string then
      fail (.rangeOver source.ty) sourcePos
    let index ← rangeIndex indexName indexPos
    let (header, prologue) ← rangeElement source index valueName
    let body ← block statement .loop
    removeVariables header
    return .loop
      (some (.define [⟨index, .int⟩] (some (.int 0 [.int])) false))
      (some (.compare .lt (.var index [.int]) (lengthAsInt source) [.bool]))
      (some (.assign [⟨index, .int⟩]
        (.binary .add (.var index [.int]) (.int 1 [.int]) [.int])))
      (prologue ++ body) := by
  unfold rangeLoop rangeValueName rangeIndex
  simp only [bind_assoc, ite_bind, pure_bind, rangeElement_bind,
    map_eq_pure_bind]

theorem lengthAsInt_typed (htyped : source.Typed tables)
    (hyields : source.Yields source.ty)
    (hty : source.ty.isList = true ∨ source.ty = .string) :
    (lengthAsInt source).Typed tables ∧ (lengthAsInt source).Yields .int := by
  unfold lengthAsInt
  split
  · next hlist => exact ⟨.listLength htyped hyields hlist, .inl rfl⟩
  · next hlist =>
      rcases hty with hlist' | hstring
      · exact absurd hlist' hlist
      · exact ⟨.stringLength htyped (hstring ▸ hyields), .inl rfl⟩

theorem elementAt_typed {index : Expr} (htyped : source.Typed tables)
    (hyields : source.Yields source.ty)
    (hty : source.ty.isList = true ∨ source.ty = .string)
    (hindex : index.Typed tables) (hint : index.Yields .int) :
    (elementAt source index).Typed tables ∧
      (elementAt source index).Hands [source.ty.element] := by
  unfold elementAt
  split
  · next hlist =>
      exact ⟨.listElement htyped hindex hyields hlist hint, by simp, rfl⟩
  · next hlist =>
      rcases hty with hlist' | hstring
      · exact absurd hlist' hlist
      · rw [hstring] at hyields ⊢
        exact ⟨.substring htyped hindex (by simp) hyields hint (by simp), by
          simp, rfl⟩

theorem rangeIndex_ok {pos : Position}
    (h : rangeIndex name pos st = .ok (index, st'))
    (htracks : tables.Tracks st) :
    index ≠ "_" ∧ tables.lookupVariable? index = none ∧
      st.scope.lookupVariable? index = none ∧
      (tables.withVariable index ⟨.int, false⟩).Tracks st' ∧
        st.Continues st' := by
  simp [rangeIndex, enterVariable_ok] at h
  rcases h with ⟨_, ⟨hnew, rfl⟩, rfl⟩ | ⟨hname, ⟨_, hdeclare⟩, rfl⟩
  · have hnext : tables.Tracks { st with hidden := st.hidden + 1 } :=
      htracks.of_same rfl rfl (Nat.le_succ _)
    have hstem : "idx" = "idx" ∨ "idx" = "sw" := .inl rfl
    have hhidden := isHiddenName_hiddenNameAt "idx" st.hidden
    refine ⟨?_, htracks.fresh hstem, hnew, hnext.declared _
      fun _ => hiddenBefore_succ hstem _, ?_⟩
    · exact ne_discard_of_isHiddenName hhidden
    · exact (ParserState.continues_counted st).trans
        (ParserState.continues_declared _ _ _)
  · obtain ⟨hplain, hnew, rfl⟩ := declare_ok hdeclare
    exact ⟨hname, htracks.unknown hplain hnew, hnew,
      htracks.declared _ (by simp [hplain]), st.continues_declared _ _⟩

theorem rangeValueName_reads (h : rangeValueName st = .ok (valueName, st')) :
    st.Reads st' := by
  simp [rangeValueName] at h
  rcases h with ⟨⟨_, rfl⟩, rfl⟩ | ⟨_, _, ⟨_, rfl⟩, rfl⟩
  · exact .refl _
  · exact st.reads_advanced.advance

/-- The element variable is set in front of the body. -/
theorem rangeElement_accepted {header : List String} {prologue : List Stmt}
    (h : rangeElement source index valueName st = .ok ((header, prologue), st'))
    (htracks : tables.Tracks st) (hsource : source.Typed tables)
    (hyields : source.Yields source.ty)
    (hty : source.ty.isList = true ∨ source.ty = .string)
    (hindex : tables.lookupVariable? index = some ⟨.int, false⟩) :
    AcceptedBlock place tables st prologue st' ∧
      ∀ name ∈ header, name = index ∨ tables.lookupVariable? name = none := by
  have hnone : AcceptedBlock place tables st [] st :=
    ⟨tables, .nil, htracks, .refl st⟩
  cases valueName with
  | none =>
      simp [rangeElement] at h
      obtain ⟨⟨rfl, rfl⟩, rfl⟩ := h
      exact ⟨hnone, by simp⟩
  | some found =>
      obtain ⟨name, pos⟩ := found
      simp [rangeElement] at h
      rcases h with ⟨_, ⟨rfl, rfl⟩, rfl⟩ | ⟨hname, ⟨_, hdeclare⟩, rfl, rfl⟩
      · exact ⟨hnone, by simp⟩
      · obtain ⟨hplain, hnew, rfl⟩ := declare_ok hdeclare
        have hunknown := htracks.unknown hplain hnew
        obtain ⟨htyped, hhands⟩ :=
          elementAt_typed hsource hyields hty (.var hindex) (.inl rfl)
        refine ⟨⟨_, .singleton (.define htyped hhands ?_),
          htracks.declared _ (by simp [hplain]), st.continues_declared _ _⟩, by
            simp [hunknown]⟩
        simpa [hname] using Tables.Declares.cons hunknown .nil

/-- The header a range loop stands for. -/
theorem rangeHeader_accepted {mid : ParserState} (hname : index ≠ "_")
    (hnew : tables.lookupVariable? index = none) (hsource : source.Typed tables)
    (hyields : source.Yields source.ty)
    (hty : source.ty.isList = true ∨ source.ty = .string)
    (htracks : (tables.withVariable index ⟨.int, false⟩).Tracks mid)
    (hcontinues : st.Continues mid) :
    AcceptedHeader place tables st
      (some (.define [⟨index, .int⟩] (some (.int 0 [.int])) false),
        some (.compare .lt (.var index [.int]) (lengthAsInt source) [.bool]),
        some (.assign [⟨index, .int⟩]
          (.binary .add (.var index [.int]) (.int 1 [.int]) [.int])))
      (tables.withVariable index ⟨.int, false⟩) mid := by
  have hwithin := Tables.within_withVariable ⟨.int, false⟩ hnew
  have hindex :
    (tables.withVariable index ⟨.int, false⟩).lookupVariable? index =
      some ⟨.int, false⟩ := by simp
  obtain ⟨hlength, hint⟩ := lengthAsInt_typed (hsource.mono hwithin) hyields hty
  refine ⟨_, .some (.define .int ⟨by simp, rfl⟩ ?_), ?_,
    .some (.assign ?_ ?_ ?_), htracks, hcontinues⟩
  · simpa [hname] using Tables.Declares.cons hnew .nil
  · rintro _ ⟨⟩
    exact ⟨.compare (.var hindex) hlength (.inl rfl) hint ⟨rfl, fun _ => rfl⟩,
      .inl rfl⟩
  · exact .binary (.var hindex) .int (.inl rfl) (.inl rfl) (.inl rfl)
  · exact ⟨by simp, rfl⟩
  · simpa using .inr hindex

theorem rangeLoop_accepted (hstatement : ReadsBlock statement)
    (h : rangeLoop statement st = .ok (s, st')) (hfits : place.Fits st.scope)
    (htracks : tables.Tracks st) : Accepted place tables st s st' := by
  rw [rangeLoop_eq] at h
  simp only [bind_ok, identifier_ok, expect_ok, position_bind, single_ok,
    ite_ok, fail_ok, false_and, exists_false, and_false, false_or,
    removeVariables_eq, pure_ok, Except.ok.injEq, Prod.mk.injEq] at h
  obtain ⟨⟨name, pos⟩, _, ⟨_, _, rfl⟩, valueName, mid₁, hvalueName, _, _,
    ⟨_, rfl⟩, _, _, ⟨_, rfl⟩, source, mid₂, ⟨hsource, hyields⟩, hty, index,
    mid₃, hindex, ⟨header, prologue⟩, mid₄, helement, body, mid₅, hbody, _, _,
    ⟨_, rfl⟩, rfl, rfl⟩ := h
  have hty : source.ty.isList = true ∨ source.ty = .string := by
    by_contra hboth
    simp_all
  obtain ⟨hreads, htyped⟩ := expression_typed.after
    (st.reads_advanced.trans (rangeValueName_reads hvalueName)).advance.advance
      hsource
  have hsource := htracks.typed htyped
  have htracks₂ := htracks.of_reads hreads
  obtain ⟨hname, hnew, hunseen, htracks₃, hcontinues⟩ :=
    rangeIndex_ok hindex htracks₂
  have hwithin := Tables.within_withVariable ⟨.int, false⟩ hnew
  obtain ⟨hprologue, hheader⟩ := rangeElement_accepted helement
    htracks₃ (hsource.mono hwithin) hyields hty (by simp)
  refine .after hreads (loop_accepted htracks₂
    (rangeHeader_accepted hname hnew hsource hyields hty htracks₃ hcontinues)
      ?_ ?_)
  · obtain ⟨after, hprologue, htracks₄, hcontinues₄⟩ := hprologue
    have hmid :=
      hfits.of_continues ((hreads.continues.trans hcontinues).trans hcontinues₄)
    obtain ⟨inside, hbody, htracks₅, hcontinues₅⟩ :=
      block_accepted hstatement hbody hmid.blocks_ne_nil hmid.push_loop htracks₄
    exact ⟨inside, hprologue.append hbody, htracks₅,
      hcontinues₄.trans hcontinues₅⟩
  · intro other hother
    rcases hheader other hother with rfl | hunknown
    · exact hunseen
    · cases hlookup : mid₂.scope.lookupVariable? other with
      | none => rfl
      | some var =>
          rw [hwithin.vars (htracks₂.known hlookup)] at hunknown
          cases hunknown

theorem atRangeHeader_reads (h : atRangeHeader st = .ok (found, st')) :
    st.Reads st' := by
  simp only [atRangeHeader, peekAfter_bind, pure_ok] at h
  exact h.2 ▸ .refl st

/-- A loop, with either kind of header. -/
theorem forStatement_accepted (hstatement : ReadsBlock statement)
    (h : forStatement statement st = .ok (s, st')) (hfits : place.Fits st.scope)
    (htracks : tables.Tracks st) : Accepted place tables st s st' := by
  simp only [forStatement, advance_bind, bind_ok, ite_ok] at h
  obtain ⟨found, mid, hfound, h⟩ := h
  have hreads := st.reads_advanced.trans (atRangeHeader_reads hfound)
  have hmid := hfits.of_continues hreads.continues
  rcases h with ⟨_, h⟩ | ⟨_, h⟩
  · exact .after hreads (rangeLoop_accepted hstatement h hmid
      (htracks.of_reads hreads))
  · exact .after hreads (countedLoop_accepted hstatement h hmid
      (htracks.of_reads hreads))

end Parse

end Shellwright
