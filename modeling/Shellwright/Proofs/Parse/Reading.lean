/-
Steps that read tokens, while a condition on the state is kept.
-/
import Shellwright.Proofs.Parse.Ensures

namespace Shellwright

/-- The token is the sign of a pipeline. -/
def TokenKind.isSign : TokenKind → Bool
  | .atSign => true
  | _ => false

namespace Parse

variable {kind : TokenKind}

/-- A condition on the state that lasts while tokens are read, up to the sign of
a pipeline. -/
class Reading (inv : ParserState → Prop) : Prop where
  advanced : ∀ {st}, inv st → st.next.kind ≠ .atSign → inv st.advanced

theorem ne_atSign (h : kind.isSign = false) : kind ≠ .atSign := by
  rintro rfl
  cases h

section Tokens

variable {α : Type} {inv : ParserState → Prop} [Reading inv] {rest : Parse α}
  {post : α → ParserState → Prop}

theorem advance_ensures (hkind : kind ≠ .atSign) :
    Ensures (At kind inv) advance fun _ => inv := by
  rintro st _ _ ⟨hst, rfl⟩ ⟨⟩
  exact Reading.advanced hst hkind

theorem Ensures.take {rest : Token → Parse α} (hkind : kind.isSign = false)
    (h : ∀ token, Ensures inv (rest token) post) :
    Ensures (At kind inv) (advance >>= rest) post :=
  (advance_ensures (ne_atSign hkind)).bind h

/-- The token that is read is not looked at. -/
theorem Ensures.pass (hkind : kind.isSign = false) (h : Ensures inv rest post) :
    Ensures (At kind inv) (advance >>= fun _ => rest) post :=
  .take hkind fun _ => h

theorem Ensures.expect (hkind : kind.isSign = false)
    (h : Ensures inv rest post) :
    Ensures inv (Parse.expect kind >>= fun _ => rest) post := by
  intro st a st' hst hrun
  obtain ⟨_, mid, hexpect, hrest⟩ := bind_ok.mp hrun
  obtain ⟨hnext, rfl⟩ := expect_ok.mp hexpect
  exact h (Reading.advanced hst (hnext ▸ ne_atSign hkind)) hrest

theorem Ensures.accept {p q : Bool → Parse α} (hkind : kind.isSign = false)
    (hp : Ensures inv (p true) post) (hq : Ensures inv (q false) post) :
    Ensures inv (Parse.accept kind >>= fun found => if found = true then p found
      else q found) post := by
  intro st a st' hst hrun
  obtain ⟨found, mid, haccept, hrest⟩ := bind_ok.mp hrun
  rcases accept_ok.mp haccept with ⟨hnext, rfl, rfl⟩ | ⟨_, rfl, rfl⟩
  · exact hp (Reading.advanced hst (hnext ▸ ne_atSign hkind)) hrest
  · exact hq hst hrest

theorem identifier_keeps {wanted : Wanted} {spelled : String → Prop}
    (h : ∀ {st name}, inv st → st.next.kind = .ident name → spelled name) :
    Keeps inv (identifier wanted) fun found => spelled found.1 := by
  intro st found st' hst hrun
  obtain ⟨hnext, _, rfl⟩ := identifier_ok.mp hrun
  exact ⟨h hst hnext, Reading.advanced hst (by simp [hnext])⟩

theorem skipWhile_keeps {skipped : TokenKind → Bool}
    (hat : skipped .atSign = false) :
    Keeps inv (skipWhile skipped) fun _ => True := by
  rintro ⟨ahead, last, scope, hidden⟩ _ _ hst ⟨⟩
  refine ⟨trivial, ?_⟩
  dsimp only
  induction ahead with
  | nil => exact hst
  | cons token rest ih =>
      rw [List.dropWhile_cons]
      split
      · next hskip =>
          refine ih (Reading.advanced hst fun heq => ?_)
          rw [show token.kind = .atSign from heq, hat] at hskip
          cases hskip
      · exact hst

theorem skipLineBreaks_keeps : Keeps inv skipLineBreaks fun _ => True :=
  skipWhile_keeps rfl

theorem skipSeparators_keeps : Keeps inv skipSeparators fun _ => True :=
  skipWhile_keeps rfl

theorem endStatement_keeps : Keeps inv endStatement fun _ => True := by
  refine peekKind_ensures.bind fun kind => ?_
  have hdone : Ensures (At kind inv) (pure () : Parse Unit)
      fun _ st => True ∧ inv st :=
    .pure fun _ h => ⟨trivial, h.1⟩
  cases kind with
  | newline | semicolon => exact .pass rfl (.done trivial)
  | rbrace | eof => exact hdone
  | keyword word =>
      cases word with
      | caseWord | defaultWord => exact hdone
      | _ => exact .expected
  | _ => exact .expected

theorem baseType_keeps {isList : Bool} :
    Keeps inv (baseType isList) fun ty => ty.element.isScalar = true := by
  refine peekKind_ensures.bind fun kind => ?_
  cases kind with
  | ident name =>
      dsimp only
      cases hname : BaseType.ofName? name with
      | some base => exact .pass rfl (.done (isScalar_of_ofName? hname))
      | none => exact .expected
  | _ => exact .expected

/-- A type that a program can spell is a scalar or a list of scalars. -/
theorem valueType_keeps : Keeps inv valueType
    fun ty => ty.element.isScalar = true := by
  unfold valueType
  exact .accept rfl (.expect rfl baseType_keeps) baseType_keeps

omit [Reading inv] in
theorem atType_keeps : Keeps inv atType fun _ => True := by
  refine peekKind_keeps.step fun kind _ => ?_
  cases kind with
  | lbracket => exact peekAfter_keeps.step fun _ _ => .done trivial
  | _ => exact .done trivial

theorem commaSeparated_keeps {close : TokenKind} {item : List α → Parse α}
    {Q : α → Prop} (hitem : ∀ before, (∀ a ∈ before, Q a) →
      Keeps inv (item before) Q) :
    Keeps inv (commaSeparated close item) fun items => ∀ a ∈ items, Q a := by
  refine skipLineBreaks_keeps.step fun _ _ => iterate_keeps
    (fun items => ∀ a ∈ items, Q a) ?_ (by simp)
  intro items hitems
  refine peekKind_keeps.step fun _ _ => .ite
    (fun _ => .pure fun _ hst => ⟨hitems, hst⟩) fun _ => ?_
  refine (hitem items hitems).step fun next hnext => ?_
  have hmore : ∀ a ∈ items ++ [next], Q a :=
    List.forall_mem_append.mpr ⟨hitems, by simpa using hnext⟩
  refine skipLineBreaks_keeps.step fun _ _ =>
    .accept rfl (skipLineBreaks_keeps.step fun _ _ => ?_) ?_
  · exact .pure fun _ hst => ⟨hmore, hst⟩
  · exact .pure fun _ hst => ⟨hmore, hst⟩

end Tokens

instance {start : ParserState} : Reading start.Reads := ⟨fun h _ => h.advance⟩

section Reads

variable {st st' : ParserState}

theorem endStatement_reads {u : Unit} (h : endStatement st = .ok (u, st')) :
    st.Reads st' :=
  (endStatement_keeps (.refl st) h).2

theorem valueType_reads {ty : ValueType} (h : valueType st = .ok (ty, st')) :
    st.Reads st' :=
  (valueType_keeps (.refl st) h).2

theorem atType_reads {found : Bool} (h : atType st = .ok (found, st')) :
    st.Reads st' :=
  (atType_keeps (.refl st) h).2

end Reads

end Parse

end Shellwright
