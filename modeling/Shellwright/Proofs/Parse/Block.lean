/-
Blocks and if chains are well typed.  Each rule is proved for an arbitrary
reader of the statements inside it.
-/
import Shellwright.Proofs.Parse.Simple

namespace Shellwright

namespace Parse

variable {st st' : ParserState} {place : Place} {tables : Tables} {s : Stmt}
  {body : List Stmt} {mid : ParserState}

/-- The statements are well typed where they were read, and the tables they
leave describe the state behind them. -/
def AcceptedBlock (place : Place) (tables : Tables) (st : ParserState)
    (body : List Stmt) (st' : ParserState) : Prop :=
  ∃ after, Block.Checked place tables body after ∧ after.Tracks st' ∧
    st.Continues st'

/-- Every list of statements the parser yields is accepted where it stands. -/
def ReadsBlock (p : Parse (List Stmt)) : Prop :=
  ∀ ⦃st body st' place tables⦄, p st = .ok (body, st') → place.Fits st.scope →
    tables.Tracks st → AcceptedBlock place tables st body st'

theorem Accepted.block (h : Accepted place tables st s st') :
    AcceptedBlock place tables st [s] st' := by
  obtain ⟨after, hchecked, htracks, hcontinues⟩ := h
  exact ⟨after, .singleton hchecked, htracks, hcontinues⟩

theorem AcceptedBlock.after {mid : ParserState} {body : List Stmt}
    (hreads : st.Reads mid) (h : AcceptedBlock place tables mid body st') :
    AcceptedBlock place tables st body st' := by
  obtain ⟨after, hchecked, htracks, hcontinues⟩ := h
  exact ⟨after, hchecked, htracks, hreads.continues.trans hcontinues⟩

theorem AcceptedBlock.reads (h : AcceptedBlock place tables st body mid)
    (hreads : mid.Reads st') : AcceptedBlock place tables st body st' := by
  obtain ⟨after, hchecked, htracks, hcontinues⟩ := h
  exact ⟨after, hchecked, htracks.of_reads hreads,
    hcontinues.trans hreads.continues⟩

section Blocks

variable {statement : Parse (List Stmt)} {condition : Expr} {mid₁ : ParserState}
  {otherwise : Option (List Stmt)} {branches : List (Expr × List Stmt)}

/-- Statements up to a token are accepted one after the other. -/
theorem statementsUntil_accepted (hstatement : ReadsBlock statement)
    (stop : TokenKind → Bool) (wanted : Wanted) :
    ReadsBlock (statementsUntil statement stop wanted) := by
  intro st body st' place tables h hfits htracks
  apply iterate_ok (fun body mid => AcceptedBlock place tables st body mid) h
  · exact ⟨tables, .nil, htracks, .refl st⟩
  · intro body mid next mid' hbody hround
    simp only [bind_ok, peekKind_bind] at hround
    obtain ⟨_, mid₁, hskip, hround⟩ := hround
    simp at hround
    obtain ⟨_, _, more, hmore, rfl⟩ := hround
    obtain ⟨after, hchecked, htracks, hcontinues⟩ :=
      hbody.reads (skipSeparators_reads hskip)
    obtain ⟨after', hchecked', htracks', hcontinues'⟩ :=
      hstatement hmore (hfits.of_continues hcontinues) htracks
    exact ⟨after', hchecked.append hchecked', htracks',
      hcontinues.trans hcontinues'⟩
  · intro body mid result mid' hbody hround
    simp only [bind_ok, peekKind_bind] at hround
    obtain ⟨_, mid₁, hskip, hround⟩ := hround
    simp at hround
    obtain ⟨_, rfl, rfl⟩ := hround
    exact hbody.reads (skipSeparators_reads hskip)

theorem pushed_tracks (htracks : tables.Tracks st) (kind : BlockKind) :
    tables.Tracks { st with scope := st.scope.push kind } :=
  htracks.of_same rfl rfl le_rfl

theorem popped_tracks (htracks : tables.Tracks st) :
    tables.Tracks { st with scope := st.scope.pop } :=
  htracks.of_same (Scope.vars_pop _) (Scope.functions_pop _) le_rfl

/-- A block in braces is accepted in the place its kind opens. -/
theorem block_accepted (hstatement : ReadsBlock statement) {kind : BlockKind}
    {inside : Place} (h : block statement kind st = .ok (body, st'))
    (hne : st.scope.blocks ≠ []) (hfits : inside.Fits (st.scope.push kind))
    (htracks : tables.Tracks st) : AcceptedBlock inside tables st body st' := by
  simp [block, blockBody] at h
  obtain ⟨_, mid, hbody, _, rfl⟩ := h
  have hopened : tables.Tracks st.advanced := htracks.of_reads st.reads_advanced
  obtain ⟨after, hchecked, hclosed, hcontinues⟩ :=
    statementsUntil_accepted hstatement _ _ hbody hfits
      (pushed_tracks hopened kind)
  have hpopped : st.advanced.Continues { mid with scope := mid.scope.pop } :=
    hcontinues.popped hne
  refine .after st.reads_advanced (.reads ?_ (ParserState.reads_advanced _))
  exact ⟨after, hchecked, popped_tracks hclosed, hpopped⟩

/-! If chains. -/

/-- The branches read so far are well typed, and so is the state behind them. -/
def AcceptedChain (place : Place) (tables : Tables) (st : ParserState)
    (branches : List (Expr × List Stmt)) (otherwise : Option (List Stmt))
    (st' : ParserState) : Prop :=
  ∃ after, Chain.Checked place tables branches otherwise after ∧
    after.Tracks st' ∧ st.Continues st'

theorem guarded_accepted (hstatement : ReadsBlock statement)
    (h : guarded statement st = .ok ((condition, body), st'))
    (hfits : place.Fits st.scope) (htracks : tables.Tracks st) :
    condition.Typed tables ∧ condition.Yields .bool ∧
      AcceptedBlock place.inner tables st body st' := by
  simp [guarded, typed_ok] at h
  obtain ⟨mid, ⟨hcondition, hyields⟩, hbody⟩ := h
  obtain ⟨hreads, htyped⟩ := expression_typed hcondition
  have hmid := hfits.of_continues hreads.continues
  refine ⟨htracks.typed htyped, hyields, .after hreads ?_⟩
  exact block_accepted hstatement hbody hmid.blocks_ne_nil
    (hmid.push_inner (.inl rfl)) (htracks.of_reads hreads)

theorem AcceptedChain.branch
    (h : AcceptedChain place tables st branches otherwise mid)
    (hbranch : ∀ ⦃after : Tables⦄, tables.Within after → after.Tracks mid →
      st.Continues mid → condition.Typed after ∧ condition.Yields .bool ∧
      AcceptedBlock place after mid body mid₁) :
    AcceptedChain place tables st (branches ++ [(condition, body)]) otherwise
      mid₁ := by
  obtain ⟨after, hchecked, htracks, hcontinues⟩ := h
  obtain ⟨htyped, hyields, after', hbody, htracks', hcontinues'⟩ :=
    hbranch hchecked.leaves.within htracks hcontinues
  exact ⟨after', hchecked.concat htyped hyields hbody, htracks',
    hcontinues.trans hcontinues'⟩

theorem AcceptedChain.close
    (h : AcceptedChain place tables st branches none mid)
    (hbody : ∀ ⦃after : Tables⦄, after.Tracks mid → st.Continues mid →
      AcceptedBlock place after mid body mid₁) :
    AcceptedChain place tables st branches (some body) mid₁ := by
  obtain ⟨after, hchecked, htracks, hcontinues⟩ := h
  obtain ⟨after', hbody', htracks', hcontinues'⟩ := hbody htracks hcontinues
  exact ⟨after', hchecked.close hbody', htracks', hcontinues.trans hcontinues'⟩

theorem AcceptedChain.reads
    (h : AcceptedChain place tables st branches otherwise mid)
    (hreads : mid.Reads st') :
    AcceptedChain place tables st branches otherwise st' := by
  obtain ⟨after, hchecked, htracks, hcontinues⟩ := h
  exact ⟨after, hchecked, htracks.of_reads hreads,
    hcontinues.trans hreads.continues⟩

theorem AcceptedChain.choose (hne : branches ≠ [])
    (h : AcceptedChain place.inner tables st branches otherwise st') :
    Accepted place tables st (.choose branches otherwise) st' := by
  obtain ⟨after, hchecked, htracks, hcontinues⟩ := h
  exact ⟨after, .choose hne hchecked, htracks, hcontinues⟩

theorem ifStatement_accepted (hstatement : ReadsBlock statement)
    (h : ifStatement statement st = .ok (s, st')) (hfits : place.Fits st.scope)
    (htracks : tables.Tracks st) : Accepted place tables st s st' := by
  simp only [ifStatement, advance_bind, bind_ok] at h
  obtain ⟨⟨condition, body⟩, mid, hfirst, h⟩ := h
  have hguarded : ∀ {branches mid condition body mid₁},
      AcceptedChain place.inner tables st branches none mid →
      guarded statement mid = .ok ((condition, body), mid₁) →
      AcceptedChain place.inner tables st (branches ++ [(condition, body)]) none
        mid₁ := by
    intro branches mid condition body mid₁ hchain hguarded
    exact hchain.branch fun after _ hafter hcontinues =>
      guarded_accepted hstatement hguarded
        (hfits.of_continues hcontinues) hafter
  have hstart : AcceptedChain place.inner tables st [] none st :=
    ⟨tables, .nil, htracks, .refl st⟩
  apply iterate_ok (fun branches mid =>
    branches ≠ [] ∧ AcceptedChain place.inner tables st branches none mid) h
  · exact ⟨by simp, hguarded (hstart.reads st.reads_advanced) hfirst⟩
  · rintro branches mid next mid' ⟨_, hchain⟩ hround
    simp at hround
    obtain ⟨_, _, condition, body, hbranch, rfl⟩ := hround
    exact ⟨by simp, hguarded (hchain.reads mid.reads_advanced.advance) hbranch⟩
  · rintro branches mid result mid' ⟨hne, hchain⟩ hround
    simp at hround
    rcases hround with ⟨⟨_, rfl⟩, rfl⟩ | ⟨_, _, body, hbody, rfl⟩
    · exact hchain.choose hne
    · refine ((hchain.reads mid.reads_advanced).close ?_).choose hne
      intro after hafter hcontinues
      have hmid := hfits.of_continues hcontinues
      exact block_accepted hstatement hbody hmid.blocks_ne_nil
        (hmid.push_inner (.inl rfl)) hafter

end Blocks

end Parse

end Shellwright
