/-
How the parser's scope is related to the tables of the typing judgement.  The
two know the same functions; the tables may still hold hidden names the parser
has dropped, and all hidden names are older than the next one to be made.
-/
import Shellwright.Proofs.Parse.Expr
import Mathlib

namespace Shellwright

variable {stem : String} {kind : BlockKind}

/-- A name the compiler has made before its counter reached `count`. -/
def HiddenBefore (count : Nat) (name : String) : Prop :=
  ∃ stem number, (stem = "idx" ∨ stem = "sw") ∧ number < count ∧
    name = hiddenNameAt stem number

theorem HiddenBefore.mono {count larger : Nat} {name : String}
    (hle : count ≤ larger) (h : HiddenBefore count name) :
    HiddenBefore larger name := by
  obtain ⟨stem, number, hstem, hlt, hname⟩ := h
  exact ⟨stem, number, hstem, Nat.lt_of_lt_of_le hlt hle, hname⟩

/-- The name made next has not been made before. -/
theorem not_hiddenBefore {count : Nat} (hstem : stem = "idx" ∨ stem = "sw") :
    ¬HiddenBefore count (hiddenNameAt stem count) := by
  rintro ⟨other, number, hother, hlt, hname⟩
  have hchars := congrArg String.toList hname
  unfold hiddenNameAt at hchars
  have hnumber : toString count = toString number := by
    apply String.toList_inj.mp
    rcases hstem with rfl | rfl <;> rcases hother with rfl | rfl <;>
      simp at hchars
    all_goals simpa using hchars
  exact absurd (Nat.repr_inj.mp hnumber) (Nat.ne_of_gt hlt)

theorem hiddenBefore_succ (hstem : stem = "idx" ∨ stem = "sw") (count : Nat) :
    HiddenBefore (count + 1) (hiddenNameAt stem count) :=
  ⟨stem, count, hstem, Nat.lt_succ_self count, rfl⟩

theorem isHiddenName_hiddenNameAt (stem : String) (count : Nat) :
    isHiddenName (hiddenNameAt stem count) = true := by
  simp [isHiddenName, hiddenNameAt]

theorem ne_discard_of_isHiddenName {name : String}
    (h : isHiddenName name = true) : name ≠ "_" := by
  rintro rfl
  exact absurd h (by decide)

/-- The tables describe the names of the parser's state. -/
structure Tables.Tracks (tables : Tables) (st : ParserState) : Prop where
  known : ∀ {name var}, st.scope.lookupVariable? name = some var →
    tables.lookupVariable? name = some var
  visible : ∀ {name var}, tables.lookupVariable? name = some var →
    st.scope.lookupVariable? name = some var ∨ isHiddenName name = true
  old : ∀ {name var}, tables.lookupVariable? name = some var →
    isHiddenName name = true → HiddenBefore st.hidden name
  functions : tables.functions = st.scope.functions

/-- The place of a statement as the scope shows it. -/
structure Place.Fits (place : Place) (scope : Scope) : Prop where
  returns : scope.returns = place.returns
  loops : scope.canContinue = true → place.inLoop = true
  top : place.topLevel = true → scope.blocks = [.program] ∧ scope.returns = none
  inside : place.topLevel = false → scope.current ≠ .program

/-- What every statement leaves as it was: the open blocks and what belongs to
them.  New functions are named by tokens that were still to be read. -/
structure ParserState.Continues (st st' : ParserState) : Prop where
  ahead : st'.ahead <:+ st.ahead
  last : st'.last = st.last
  hidden : st.hidden ≤ st'.hidden
  blocks : st'.scope.blocks = st.scope.blocks
  saved : st'.scope.saved = st.scope.saved
  returns : st'.scope.returns = st.scope.returns
  functions : ∀ entry ∈ st'.scope.functions,
    entry ∈ st.scope.functions ∨ .ident entry.1 ∈ st.kinds

namespace ParserState

variable {st mid st' : ParserState}

theorem Reads.continues (hreads : st.Reads st') : st.Continues st' where
  ahead := hreads.ahead
  last := hreads.last
  hidden := hreads.hidden.ge
  blocks := by rw [hreads.scope]
  saved := by rw [hreads.scope]
  returns := by rw [hreads.scope]
  functions entry hentry := .inl (hreads.scope ▸ hentry)

theorem Continues.refl (st : ParserState) : st.Continues st :=
  (Reads.refl st).continues

theorem Continues.kinds_subset (h : st.Continues st') :
    st'.kinds ⊆ st.kinds := by
  unfold kinds
  rw [h.last]
  exact List.map_subset _ (List.cons_subset_cons _ h.ahead.subset)

theorem Continues.trans (hfirst : st.Continues mid)
    (hsecond : mid.Continues st') : st.Continues st' where
  ahead := hsecond.ahead.trans hfirst.ahead
  last := hsecond.last.trans hfirst.last
  hidden := hfirst.hidden.trans hsecond.hidden
  blocks := hsecond.blocks.trans hfirst.blocks
  saved := hsecond.saved.trans hfirst.saved
  returns := hsecond.returns.trans hfirst.returns
  functions entry hentry := by
    rcases hsecond.functions entry hentry with hold | hnew
    · exact hfirst.functions entry hold
    · exact .inr (hfirst.kinds_subset hnew)

/-- The state with one variable more. -/
def declared (st : ParserState) (name : String) (var : Variable) :
    ParserState :=
  { st with scope := { st.scope with vars := (name, var) :: st.scope.vars } }

theorem continues_declared (st : ParserState) (name : String) (var : Variable) :
    st.Continues (st.declared name var) :=
  ⟨List.suffix_refl _, rfl, le_rfl, rfl, rfl, rfl, fun _ hentry => .inl hentry⟩

/-- A hidden name has been made. -/
theorem continues_counted (st : ParserState) :
    st.Continues { st with hidden := st.hidden + 1 } :=
  ⟨List.suffix_refl _, rfl, Nat.le_succ _, rfl, rfl, rfl,
    fun _ hentry => .inl hentry⟩

/-- The state without the variables of the given names. -/
def without (st : ParserState) (names : List String) : ParserState :=
  { st with scope :=
    { st.scope with
      vars := st.scope.vars.filter fun entry => !names.contains entry.1 } }

theorem continues_without (st : ParserState) (names : List String) :
    st.Continues (st.without names) :=
  ⟨List.suffix_refl _, rfl, le_rfl, rfl, rfl, rfl, fun _ hentry => .inl hentry⟩

/-- A block that is opened, read and closed again. -/
theorem Continues.popped (hne : st.scope.blocks ≠ [])
    (h : ParserState.Continues { st with scope := st.scope.push kind } mid) :
    st.Continues { mid with scope := mid.scope.pop } := by
  obtain ⟨outer, rest, houter⟩ := List.exists_cons_of_ne_nil hne
  have hpop : mid.scope.pop = { mid.scope with blocks := st.scope.blocks } := by
    have hblocks : mid.scope.blocks = kind :: outer :: rest := by
      rw [← houter]
      exact h.blocks
    unfold Scope.pop
    rw [hblocks, houter]
  refine ⟨h.ahead, h.last, h.hidden, ?_, ?_, ?_, ?_⟩
  all_goals rw [hpop]
  · exact h.saved
  · exact h.returns
  · exact h.functions

theorem tables_declared (st : ParserState) (name : String) (var : Variable) :
    (st.declared name var).scope.tables =
      st.scope.tables.withVariable name var := rfl

end ParserState

theorem Scope.vars_pop (scope : Scope) : scope.pop.vars = scope.vars := by
  unfold Scope.pop
  split <;> rfl

theorem Scope.functions_pop (scope : Scope) :
    scope.pop.functions = scope.functions := by
  unfold Scope.pop
  split <;> rfl

namespace Place

variable {place : Place} {scope : Scope}

theorem Fits.blocks_ne_nil (hfits : place.Fits scope) : scope.blocks ≠ [] := by
  intro hnil
  cases htop : place.topLevel with
  | true => simp [hfits.top htop] at hnil
  | false => exact hfits.inside htop (by simp [Scope.current, hnil])

theorem Fits.push_inner (hfits : place.Fits scope)
    (hkind : kind = .branch ∨ kind = .switch) :
    place.inner.Fits (scope.push kind) where
  returns := hfits.returns
  loops hloop := by
    apply hfits.loops
    unfold Scope.canContinue Scope.push at *
    rcases hkind with rfl | rfl <;> simpa using hloop
  top htop := by cases htop
  inside _ := by rcases hkind with rfl | rfl <;> simp [Scope.current,
    Scope.push]

theorem Fits.push_loop (hfits : place.Fits scope) :
    place.loopBody.Fits (scope.push .loop) where
  returns := hfits.returns
  loops _ := rfl
  top htop := by cases htop
  inside _ := by simp [Scope.current, Scope.push]

end Place

theorem Place.Fits.of_continues {place : Place} {st st' : ParserState}
    (hfits : place.Fits st.scope) (h : st.Continues st') :
    place.Fits st'.scope where
  returns := h.returns.trans hfits.returns
  loops hloop :=
    hfits.loops (by unfold Scope.canContinue at *; rwa [← h.blocks])
  top htop := by rw [h.blocks, h.returns]; exact hfits.top htop
  inside hinside := by
    unfold Scope.current; rw [h.blocks]; exact hfits.inside hinside

namespace Tables

variable {tables : Tables} {st st' : ParserState}

theorem Tracks.within (htracks : tables.Tracks st) :
    st.scope.tables.Within tables where
  vars h := htracks.known (by simpa using h)
  functions h := by
    unfold lookupFunction?
    rw [htracks.functions]
    exact h

/-- A typed expression of the parser's scope is typed for the tables. -/
theorem Tracks.typed (htracks : tables.Tracks st) {e : Expr}
    (h : e.Typed st.scope.tables) : e.Typed tables := h.mono htracks.within

/-- The tables do not depend on the open blocks. -/
theorem Tracks.of_same (htracks : tables.Tracks st)
    (hvars : st'.scope.vars = st.scope.vars)
    (hfunctions : st'.scope.functions = st.scope.functions)
    (hhidden : st.hidden ≤ st'.hidden) : tables.Tracks st' where
  known h :=
    htracks.known (by unfold Scope.lookupVariable? at *; rwa [hvars] at h)
  visible h := by
    unfold Scope.lookupVariable?
    rw [hvars]
    exact htracks.visible h
  old h hname := (htracks.old h hname).mono hhidden
  functions := htracks.functions.trans hfunctions.symm

theorem Tracks.of_reads (htracks : tables.Tracks st) (hreads : st.Reads st') :
    tables.Tracks st' :=
  htracks.of_same (by rw [hreads.scope]) (by rw [hreads.scope]) hreads.hidden.ge

theorem empty_tracks (hscope : st.scope = .initial) : empty.Tracks st where
  known h := by rw [hscope] at h; cases h
  visible h := by cases h
  old h := by cases h
  functions := by rw [hscope]; rfl

theorem lookupVariable?_declared (st : ParserState) (name other : String)
    (var : Variable) :
    (st.declared name var).scope.lookupVariable? other =
      if other = name then some var else st.scope.lookupVariable? other := by
  have h := lookupVariable?_withVariable st.scope.tables name other var
  simpa [← ParserState.tables_declared] using h

/-- A new variable keeps tables and scope in step. -/
theorem Tracks.declared (htracks : tables.Tracks st) {name : String}
    (var : Variable) (hold : isHiddenName name = true →
      HiddenBefore st.hidden name) :
    (tables.withVariable name var).Tracks (st.declared name var) where
  known {other found} h := by
    rw [lookupVariable?_declared] at h
    rw [lookupVariable?_withVariable]
    split at h
    · simp_all
    · next hne => simpa [hne] using htracks.known h
  visible {other found} h := by
    rw [lookupVariable?_withVariable] at h
    rw [lookupVariable?_declared]
    split at h
    · simp_all
    · next hne => simpa [hne] using htracks.visible h
  old {other found} h hhidden := by
    rw [lookupVariable?_withVariable] at h
    split at h
    · next heq => exact heq ▸ hold (heq ▸ hhidden)
    · exact htracks.old h hhidden
  functions := htracks.functions

/-- A name that is neither hidden nor in scope is new to the tables. -/
theorem Tracks.unknown (htracks : tables.Tracks st) {name : String}
    (hplain : isHiddenName name = false)
    (hnew : st.scope.lookupVariable? name = none) :
    tables.lookupVariable? name = none := by
  cases hlookup : tables.lookupVariable? name with
  | none => rfl
  | some var =>
      rcases htracks.visible hlookup with hvisible | hhidden
      · rw [hnew] at hvisible
        cases hvisible
      · rw [hplain] at hhidden
        cases hhidden

/-- The next hidden name is new to the tables. -/
theorem Tracks.fresh (htracks : tables.Tracks st)
    (hstem : stem = "idx" ∨ stem = "sw") :
    tables.lookupVariable? (hiddenNameAt stem st.hidden) = none := by
  cases hlookup : tables.lookupVariable? (hiddenNameAt stem st.hidden) with
  | none => rfl
  | some var =>
      have hold :=
        htracks.old hlookup (isHiddenName_hiddenNameAt stem st.hidden)
      exact absurd hold (not_hiddenBefore hstem)

/-! Names that are dropped. -/

theorem lookup_filter_names {β : Type} (keep : String → Bool)
    (entries : List (String × β)) (name : String) :
    (entries.filter fun entry => keep entry.1).lookup name =
      if keep name then entries.lookup name else none := by
  induction entries with
  | nil => simp
  | cons entry entries ih =>
      obtain ⟨other, value⟩ := entry
      by_cases hname : name = other
      · subst hname
        cases hkeep : keep name with
        | false => simpa [hkeep] using ih
        | true => simp [hkeep]
      · have hbeq : (name == other) = false := beq_eq_false_iff_ne.mpr hname
        cases hkeep : keep other with
        | false => simpa [hkeep, List.lookup_cons, hbeq] using ih
        | true => simpa [hkeep, List.lookup_cons, hbeq] using ih

theorem lookupVariable?_without (st : ParserState) (names : List String)
    (name : String) :
    (st.without names).scope.lookupVariable? name =
      if name ∈ names then none else st.scope.lookupVariable? name := by
  have h := lookup_filter_names (fun name => !names.contains name)
    st.scope.vars name
  by_cases hname : name ∈ names
  · simpa [hname, ParserState.without, Scope.lookupVariable?] using h
  · simpa [hname, ParserState.without, Scope.lookupVariable?] using h

/-- Hidden names may stay in the tables. -/
theorem Tracks.without_hidden (htracks : tables.Tracks st) {names : List String}
    (hhidden : ∀ name ∈ names, isHiddenName name = true) :
    tables.Tracks (st.without names) where
  known {name var} h := by
    rw [lookupVariable?_without] at h
    split at h
    · cases h
    · exact htracks.known h
  visible {name var} h := by
    rw [lookupVariable?_without]
    split
    · next hmem => exact .inr (hhidden name hmem)
    · exact htracks.visible h
  old h hname := htracks.old h hname
  functions := htracks.functions

/-- The tables behind a loop: without the names of its header, unless they were
known before it. -/
def leaving (inside before : Tables) (header : List String) : Tables :=
  { inside with vars := inside.vars.filter fun entry =>
      !header.contains entry.1 || (before.lookupVariable? entry.1).isSome }

theorem lookupVariable?_leaving (inside before : Tables) (header : List String)
    (name : String) : (inside.leaving before header).lookupVariable? name =
      if name ∈ header ∧ before.lookupVariable? name = none then none
      else inside.lookupVariable? name := by
  refine (lookup_filter_names (fun name =>
    !header.contains name ||
      (before.lookupVariable? name).isSome) inside.vars name).trans ?_
  cases hlookup : before.lookupVariable? name with
  | none => by_cases hname : name ∈ header <;> simp [hname, lookupVariable?]
  | some var => simp [lookupVariable?]

variable {before inside : Tables} {mid : ParserState} {header : List String}

theorem forgets_leaving (hwithin : before.Within inside)
    (header : List String) :
    Forgets before inside (inside.leaving before header) where
  kept {name var} h := by
    rw [lookupVariable?_leaving, if_neg (by simp [h])]
    exact hwithin.vars h
  old {name var} h := by
    rw [lookupVariable?_leaving] at h
    split at h
    · cases h
    · exact h
  functions := rfl

/-- A loop drops the names of its header, which were not in scope before it. -/
theorem Tracks.leaving (hbefore : before.Tracks st)
    (hinside : inside.Tracks mid)
    (hheader : ∀ name ∈ header, st.scope.lookupVariable? name = none) :
    (inside.leaving before header).Tracks (mid.without header) where
  known {name var} h := by
    rw [lookupVariable?_without] at h
    split at h
    · cases h
    · next hname =>
        rw [lookupVariable?_leaving, if_neg (fun hboth => hname hboth.1)]
        exact hinside.known h
  visible {name var} h := by
    rw [lookupVariable?_leaving] at h
    split at h
    · cases h
    · next hkept =>
        rw [lookupVariable?_without]
        split
        · -- a name of the header stays only if it was known, so it is hidden
          next hname =>
            cases hlookup : before.lookupVariable? name with
            | none => exact absurd ⟨hname, hlookup⟩ hkept
            | some found =>
                rcases hbefore.visible hlookup with hvisible | hhidden
                · rw [hheader name hname] at hvisible
                  cases hvisible
                · exact .inr hhidden
        · exact hinside.visible h
  old {name var} h hname := by
    rw [lookupVariable?_leaving] at h
    split at h
    · cases h
    · exact hinside.old h hname
  functions := hinside.functions

end Tables

end Shellwright
