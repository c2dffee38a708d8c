/-
Hidden names in simple statements.  A program binds ordinary names only, and of
the hidden ones it may assign to an index.
-/
import Shellwright.Proofs.Hidden.Expr
import Shellwright.Proofs.Parse.Loop

namespace Shellwright

variable {spelled : String → Prop} {frame : Frame} {count : Nat}
  {st : ParserState} {name : String} {var : Variable} {kind : BlockKind}
  {names : List String}

/-! How the frame follows the scope. -/

/-- The hidden variable is one of those in reach. -/
def Reach.Admits (reach : Reach) (name : String) (var : Variable) : Prop :=
  name ∈ reach.indices ∧ var = ⟨.int, false⟩ ∨
    name ∈ reach.tags ∧ var.constant = true

/-- The hidden variables in scope are in reach. -/
def Reach.Covers (reach : Reach) (st : ParserState) : Prop :=
  ∀ name var, st.scope.lookupVariable? name = some var →
    isHiddenName name = true → reach.Admits name var

namespace Reach.Covers

variable {reach reach' : Reach}

theorem declared (h : reach.Covers st)
    (hmore : ∀ other found, reach.Admits other found → reach'.Admits other
      found) (hnew : isHiddenName name = true → reach'.Admits name var) :
    reach'.Covers (st.declared name var) := by
  intro other found hlookup hhidden
  rw [Tables.lookupVariable?_declared] at hlookup
  split at hlookup
  · next heq =>
      cases hlookup
      exact heq ▸ hnew (heq ▸ hhidden)
  · exact hmore _ _ (h _ _ hlookup hhidden)

/-- A hidden variable that has left the scope is out of reach. -/
theorem without (h : reach.Covers st)
    (hless : ∀ other found, other ∉ names → reach.Admits other found →
      reach'.Admits other found) : reach'.Covers (st.without names) := by
  intro other found hlookup hhidden
  rw [Tables.lookupVariable?_without] at hlookup
  split at hlookup
  · cases hlookup
  · next hother => exact hless _ _ hother (h _ _ hlookup hhidden)

end Reach.Covers

namespace Frame.Holds

theorem covers (h : frame.Holds spelled count st) : frame.reach.Covers st :=
  fun _ _ => h.vars

/-- Where nothing but the scope changes. -/
theorem declared_plain (h : frame.Holds spelled count st)
    (hname : isHiddenName name = false) :
    frame.Holds spelled count (st.declared name var) := by
  have hvars : frame.reach.Covers (st.declared name var) :=
    h.covers.declared (fun _ _ => id) (by simp [hname])
  exact { h with vars := hvars _ _ }

theorem declared_index (h : frame.Holds spelled count st) (stem : String) :
    (frame.withIndex (hiddenNameAt stem count)).Holds spelled (count + 1)
      (ParserState.declared { st with hidden := st.hidden + 1 }
        (hiddenNameAt stem count) ⟨.int, false⟩) := by
  have hvars : (frame.reach.withIndex (hiddenNameAt stem count)).Covers
      (st.declared (hiddenNameAt stem count) ⟨.int, false⟩) :=
    h.covers.declared
      (fun _ _ => .imp_left (.imp_left (List.mem_cons_of_mem _)))
      fun _ => .inl ⟨List.mem_cons_self, rfl⟩
  exact { h with hidden := congrArg (· + 1) h.hidden, vars := hvars _ _ }

theorem declared_tag (h : frame.Holds spelled count st) (stem : String)
    (ty : ValueType) :
    (frame.withTag (hiddenNameAt stem count)).Holds spelled (count + 1)
      (ParserState.declared { st with hidden := st.hidden + 1 }
        (hiddenNameAt stem count) ⟨ty, true⟩) := by
  have hvars : (frame.reach.withTag (hiddenNameAt stem count)).Covers
      (st.declared (hiddenNameAt stem count) ⟨ty, true⟩) :=
    h.covers.declared
      (fun _ _ => .imp_right (.imp_left (List.mem_cons_of_mem _)))
      fun _ => .inr ⟨List.mem_cons_self, rfl⟩
  exact { h with hidden := congrArg (· + 1) h.hidden, vars := hvars _ _ }

theorem without (h : frame.Holds spelled count st) :
    frame.Holds spelled count (st.without names) := by
  have hvars : frame.reach.Covers (st.without names) :=
    h.covers.without fun _ _ _ => id
  exact { h with vars := hvars _ _ }

theorem without_index (h : (frame.withIndex name).Holds spelled count st)
    (hname : name ∈ names) : frame.Holds spelled count (st.without names) := by
  have hvars : frame.reach.Covers (st.without names) :=
    h.covers.without fun other _ hother =>
    .imp_left
      (.imp_left
        (List.mem_of_ne_of_mem (ne_of_mem_of_not_mem hname hother).symm))
  exact { h with vars := hvars _ _ }

theorem without_tag (h : (frame.withTag name).Holds spelled count st)
    (hname : name ∈ names) : frame.Holds spelled count (st.without names) := by
  have hvars : frame.reach.Covers (st.without names) :=
    h.covers.without fun other _ hother =>
    .imp_right
      (.imp_left
        (List.mem_of_ne_of_mem (ne_of_mem_of_not_mem hname hother).symm))
  exact { h with vars := hvars _ _ }

theorem pushed (h : frame.Holds spelled count st) :
    (frame.push kind).Holds spelled count
    { st with scope := st.scope.push kind } :=
  { h with blocks := congrArg (kind :: ·) h.blocks }

theorem popped (h : (frame.push kind).Holds spelled count st)
    (hne : frame.blocks ≠ []) :
    frame.Holds spelled count { st with scope := st.scope.pop } := by
  obtain ⟨outer, rest, houter⟩ := List.exists_cons_of_ne_nil hne
  have hpop : st.scope.pop = { st.scope with blocks := frame.blocks } := by
    have hblocks : st.scope.blocks = kind :: outer :: rest := houter ▸ h.blocks
    unfold Scope.pop
    rw [hblocks, houter]
  rw [hpop]
  exact { h with blocks := rfl }

end Frame.Holds

namespace Parse

variable {pos : Position}

/-- Something has been made in the frame, and hidden names up to a new count. -/
abbrev Made {α : Type} (spelled : String → Prop) (frame : Frame)
    (made : α → Nat → Prop) (a : α) (st : ParserState) : Prop :=
  ∃ count', made a count' ∧ frame.Holds spelled count' st

abbrev Makes {α : Type} (spelled : String → Prop) (frame : Frame) (count : Nat)
    (p : Parse α) (made : α → Nat → Prop) : Prop :=
  Ensures (frame.Holds spelled count) p (Made spelled frame made)

theorem Makes.step {α β : Type} {p : Parse α} {f : α → Parse β}
    {made : α → Nat → Prop} {post : β → ParserState → Prop}
    (hp : Makes spelled frame count p made)
    (hf : ∀ a count', made a count' →
      Ensures (frame.Holds spelled count') (f a) post) :
    Ensures (frame.Holds spelled count) (p >>= f) post := by
  refine hp.bind fun a => ?_
  rintro st b st' ⟨count', hmade, hst⟩ h
  exact hf a count' hmade hst h

/-! Names. -/

theorem checkNewName_keeps :
    Keeps (frame.Holds spelled count) (checkNewName name pos) fun _ =>
      isHiddenName name = false := by
  unfold checkNewName
  refine .guard fun hplain => .guard fun _ => .guard fun _ => ?_
  refine lookupFunction?_ensures.bind fun _ => .ite (fun _ => .fail) fun _ => ?_
  exact .pure fun _ hst => ⟨by simpa using hplain, hst.1⟩

theorem declare_keeps :
    Keeps (frame.Holds spelled count) (declare name pos var) fun _ =>
      isHiddenName name = false := by
  intro st _ st' hst h
  obtain ⟨hplain, _, rfl⟩ := declare_ok h
  exact ⟨hplain, hst.declared_plain hplain⟩

/-- Of the hidden variables only an index may be assigned to. -/
theorem assignable_keeps :
    Keeps (frame.Holds spelled count) (assignable name pos) fun var =>
      (isHiddenName name = true → name ∈ frame.reach.indices) ∧
        (var.ty.isList = true → isHiddenName name = false) := by
  intro st var st' hst h
  obtain ⟨hlookup, hchange, rfl⟩ := assignable_ok.mp h
  have hindex : isHiddenName name = true →
      name ∈ frame.reach.indices ∧ var.ty = .int := by
    intro hhidden
    rcases hst.vars hlookup hhidden with ⟨hindex, rfl⟩ | ⟨_, hconstant⟩
    · exact ⟨hindex, rfl⟩
    · rw [hchange] at hconstant
      cases hconstant
  refine ⟨⟨fun hhidden => (hindex hhidden).1, fun hlist => ?_⟩, hst⟩
  refine Bool.eq_false_iff.mpr fun hhidden => ?_
  rw [(hindex hhidden).2] at hlist
  cases hlist

/-- Simple statements make no hidden names. -/
def desugaring (spelled : String → Prop) (frame : Frame) (count : Nat) :
    Rules (frame.Holds spelled count) where
  spelled := spelled
  bound name := isHiddenName name = false
  assigned name := isHiddenName name = true → name ∈ frame.reach.indices
  value := Expr.Within spelled frame.reach
  made s := s.Desugared spelled frame.reach count count
  ident := Frame.Holds.spelled_ident
  declare _ _ _ := declare_keeps
  assignable _ _ := assignable_keeps
  discard := ⟨by decide, fun h => absurd rfl (ne_discard_of_isHiddenName h)⟩
  expression := expression_reaches
  literal := ⟨Expr.within_literal rfl, Expr.within_literal rfl⟩
  var hname hassigned := Expr.within_var hname
    fun hhidden => .inl (hassigned hhidden)
  binary hleft hright := Expr.within_append.mpr ⟨hleft, hright⟩
  define htargets := .define fun target htarget =>
    ⟨(htargets target htarget).1, (htargets target htarget).2⟩
  assign := .assign
  store htarget := .store ⟨htarget.1, htarget.2⟩
  giveBack := .giveBack
  writeFile := .writeFile
  run h := ⟨.print h, .panic h, .action h⟩
  exit := ⟨.leaveLoop, .nextRound⟩

end Parse

end Shellwright
