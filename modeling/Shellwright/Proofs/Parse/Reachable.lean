/-
The states a parse passes through.  Wherever the parser sets out to read a
statement or a block its scope is sound, so that the names around it are the
same behind it.
-/
import Shellwright.Proofs.Parse.Namespaces

namespace Shellwright

open Parse (IsStatement)

/-- The states a parse of any tokens passes through.  In each of them the parser
may set out to read an expression, a statement or a block. -/
def Reachable (st : ParserState) : Prop := ∃ tokens made, Passes tokens st made

theorem Reachable.initial (tokens : List Token) : Reachable (.initial tokens) :=
  ⟨tokens, [], .refl⟩

theorem Reachable.sound {st : ParserState} (h : Reachable st) :
    st.scope.Sound := by
  obtain ⟨tokens, made, hpasses⟩ := h
  exact hpasses.orderly.sound

/-- A statement or a block leaves the open blocks, the tables set aside and the
enclosing function's results as they were, and what was known before it stays
known.  A function definition leaves the variables exactly as they were, and no
name that the header of a loop has introduced is visible behind the loop. -/
theorem statements_frame_scope {st st' : ParserState}
    {reader : Parse (List Stmt)} (hst : Reachable st)
    (hreader : IsStatement reader) :
    (∀ body, reader st = .ok (body, st') →
      st.scope.Retains st'.scope ∧
      (st.next.kind = .keyword .funcWord → st'.scope.vars = st.scope.vars) ∧
      (st.next.kind = .keyword .forWord →
        ∃ header mid, Parse.forHeader st = .ok (header, mid) ∧
          ∀ name, st.scope.lookupVariable? name = none →
            mid.scope.lookupVariable? name ≠ none →
            st'.scope.lookupVariable? name = none)) ∧
    ∀ kind body, kind ≠ .program →
      Parse.block reader kind st = .ok (body, st') →
      st.scope.Retains st'.scope := by
  have hsound := hst.sound
  refine ⟨fun body h => ?_, fun kind body hkind h => ?_⟩
  · have hleaves := hreader.leaves hsound h
    exact ⟨hleaves.frames.retains, hleaves.function, hleaves.loop⟩
  · exact (Parse.block_retains hreader.retaining hkind hsound.frames
      h).2.retains

/-- The counter of a loop is gone behind it. -/
theorem statements_frame_scope_loop :
    ∃ st st' mid body header, Reachable st ∧
      Parse.statement st = .ok (body, st') ∧
      Parse.forHeader st = .ok (header, mid) ∧
      mid.scope.lookupVariable? "i" = some ⟨.int, false⟩ ∧
      st.scope.Retains st'.scope ∧ st'.scope.lookupVariable? "i" = none := by
  obtain ⟨st, st', mid, body, header, hst, hkind, hread, hheader, hnew,
    hcounter⟩ :
      ∃ st st' mid body header, Reachable st ∧
        st.next.kind = .keyword .forWord ∧
        Parse.statement st = .ok (body, st') ∧
          Parse.forHeader st = .ok (header, mid) ∧
        st.scope.lookupVariable? "i" = none ∧
        mid.scope.lookupVariable? "i" = some ⟨.int, false⟩ := by
    refine ⟨.initial
      ([.keyword .forWord, .ident "i", .shortDeclare, .number 0, .semicolon,
      .semicolon, .lbrace, .rbrace].map (⟨·, "", .start⟩)), _, _, _, _,
      .initial _, by cbv, by cbv, by cbv, by cbv, by cbv⟩
  obtain ⟨hretains, _, hloop⟩ :=
    (statements_frame_scope hst .whole).1 body hread
  obtain ⟨_, _, hheader', hnames⟩ := hloop hkind
  obtain ⟨rfl, rfl⟩ := Prod.mk.inj (Except.ok.inj (hheader'.symm.trans hheader))
  exact ⟨st, st', _, body, _, hst, hread, hheader, hcounter, hretains,
    hnames "i" hnew (by simp [hcounter])⟩

end Shellwright
