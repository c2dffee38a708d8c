/-
The layout of a source text has no meaning.  Blanks and comments decide where
tokens stand, and nothing else: texts with the same tokens are read as the same
program, or refused for the same reason at the same token.
-/
import Shellwright.Parse
import Shellwright.Proofs.Progress.Stmt
import Shellwright.Proofs.Token.Tiling

namespace Shellwright

variable {tokens : List Token}

/-- The tokens a parse looks at. -/
def codeTokens (tokens : List Token) : List Token :=
  tokens.filter (·.kind != .comment)

theorem codeTokens_lex {source : String} (h : lex source = .ok tokens) :
    ∃ front last, codeTokens tokens = front ++ [last] ∧ last.kind = .eof := by
  obtain ⟨front, last, rfl, hlast⟩ := (lex_tiles h).eq_concat
  refine ⟨codeTokens front, last, ?_, hlast⟩
  simp [codeTokens, hlast]

theorem initial_eq {front : List Token} {last : Token}
    (h : codeTokens tokens = front ++ [last]) (hlast : last.kind = .eof) :
    ParserState.initial tokens = ⟨front, last, .initial, 0⟩ := by
  unfold codeTokens at h
  unfold ParserState.initial
  simp [h, hlast]

/-! Two texts with the same tokens. -/

/-- Both tokens stand at one index. -/
def SameToken (left right : List Token) (token token' : Token) : Prop :=
  ∃ k : Nat, left[k]? = some token ∧ right[k]? = some token'

theorem alike_of_kinds {left right : List Token}
    (h : left.map Token.kind = right.map Token.kind) :
    List.Forall₂ (Token.Alike (SameToken left right)) left right := by
  rw [List.forall₂_iff_get]
  refine ⟨by simpa using congrArg List.length h,
    fun k hk hk' => ⟨?_, k, ?_, ?_⟩⟩
  · simpa [hk, hk'] using congrArg (·[k]?) h
  · exact List.getElem?_eq_getElem hk
  · exact List.getElem?_eq_getElem hk'

/-- The closing tokens are alike like all others. -/
theorem initial_alike {like : Token → Token → Prop} {left right : String}
    {tokens' : List Token} (hleft : lex left = .ok tokens)
    (hright : lex right = .ok tokens')
    (h : List.Forall₂ (Token.Alike like) (codeTokens tokens) (codeTokens
      tokens')) :
    (ParserState.initial tokens).last.kind = .eof ∧
      (ParserState.initial tokens).Alike like (.initial tokens') := by
  obtain ⟨front, last, hcode, hlast⟩ := codeTokens_lex hleft
  obtain ⟨front', last', hcode', hlast'⟩ := codeTokens_lex hright
  rw [hcode, hcode', ← List.forall₂_reverse_iff, List.reverse_concat,
    List.reverse_concat] at h
  rw [initial_eq hcode hlast, initial_eq hcode' hlast']
  cases h with
  | cons hend hfront => exact ⟨hlast, List.forall₂_reverse_iff.mp hfront, hend,
      rfl, rfl⟩

/-- Texts whose tokens have the same kinds, comments aside, are read as the same
program, or refused with the same fault (so with the same message and the same
hint) at the same token. -/
theorem layout_moves_faults_only {left right : String}
    {tokens tokens' : List Token} (hleft : lex left = .ok tokens)
    (hright : lex right = .ok tokens')
    (hkinds : (codeTokens tokens).map Token.kind =
      (codeTokens tokens').map Token.kind) :
    (∃ program, parseSource left = .ok program ∧
      parseSource right = .ok program) ∨
      ∃ (fault : SyntaxFault) (k : Nat) (token token' : Token),
        (codeTokens tokens)[k]? = some token ∧
          (codeTokens tokens')[k]? = some token' ∧
          parseSource left = .error ⟨fault, token.pos⟩ ∧
          parseSource right = .error ⟨fault, token'.pos⟩ := by
  have hparse : ∀ {source tokens}, lex source = .ok tokens →
      parseSource source = (Parse.program (.initial tokens)).map Prod.fst := by
    intro source tokens hlex
    rw [parseSource, hlex]
    rfl
  obtain ⟨hend, halike⟩ := initial_alike hleft hright (alike_of_kinds hkinds)
  have htrail : Trail false fun _ _ => True := fun _ _ _ _ _ _ => trivial
  have hstart : (ParserState.initial tokens).Within (fun _ _ => True) 0 _ :=
    ⟨trivial, hend, Nat.lt_succ_self _⟩
  have hrun := Parse.program_holds htrail halike hstart
  rw [hparse hleft, hparse hright]
  generalize Parse.program (.initial tokens) = result at hrun ⊢
  generalize Parse.program (.initial tokens') = result' at hrun ⊢
  cases hrun with
  | @ok a b hsame => exact .inl ⟨a.1, rfl, by rw [hsame.1]; rfl⟩
  | error hplace =>
      obtain ⟨token, token', ⟨k, htoken, htoken'⟩, rfl, rfl⟩ := hplace
      exact .inr ⟨_, k, token, token', htoken, htoken', rfl, rfl⟩

/-- A comment and blanks in another place. -/
theorem layout_moves_faults_only_comment :
    ∃ tokens tokens', lex "x := 1 // one\nprint(total)\n" = .ok tokens ∧
      lex "x:=1\n print( total )\n" = .ok tokens' ∧
      (codeTokens tokens).map Token.kind = (codeTokens tokens').map Token.kind ∧
      parseSource "x := 1 // one\nprint(total)\n" =
        .error ⟨.undeclaredVariable "total" none, ⟨2, 7⟩⟩ ∧
      ∃ pos, parseSource "x:=1\n print( total )\n" =
        .error ⟨.undeclaredVariable "total" none, pos⟩ := by
  have hleft : lex "x := 1 // one\nprint(total)\n" = .ok
      [⟨.ident "x", "x", ⟨1, 1⟩⟩, ⟨.shortDeclare, ":=", ⟨1, 3⟩⟩,
        ⟨.number 1, "1", ⟨1, 6⟩⟩, ⟨.comment, "// one", ⟨1, 8⟩⟩,
        ⟨.newline, "\\n", ⟨1, 14⟩⟩, ⟨.keyword .printWord, "print", ⟨2, 1⟩⟩,
        ⟨.lparen, "(", ⟨2, 6⟩⟩, ⟨.ident "total", "total", ⟨2, 7⟩⟩,
        ⟨.rparen, ")", ⟨2, 12⟩⟩, ⟨.newline, "\\n", ⟨2, 13⟩⟩,
        ⟨.eof, "", ⟨3, 1⟩⟩] := by
    cbv
  have hright : lex "x:=1\n print( total )\n" = .ok
      [⟨.ident "x", "x", ⟨1, 1⟩⟩, ⟨.shortDeclare, ":=", ⟨1, 2⟩⟩,
        ⟨.number 1, "1", ⟨1, 4⟩⟩, ⟨.newline, "\\n", ⟨1, 5⟩⟩,
        ⟨.keyword .printWord, "print", ⟨2, 2⟩⟩, ⟨.lparen, "(", ⟨2, 7⟩⟩,
        ⟨.ident "total", "total", ⟨2, 9⟩⟩, ⟨.rparen, ")", ⟨2, 15⟩⟩,
        ⟨.newline, "\\n", ⟨2, 16⟩⟩, ⟨.eof, "", ⟨3, 1⟩⟩] := by
    cbv
  have hfault : parseSource "x := 1 // one\nprint(total)\n" =
      .error ⟨.undeclaredVariable "total" none, ⟨2, 7⟩⟩ := by
    cbv
  refine ⟨_, _, hleft, hright, rfl, hfault, ?_⟩
  rcases layout_moves_faults_only hleft hright rfl with
    ⟨program, hok, _⟩ | ⟨fault, _, token, token', _, _, herror, herror'⟩
  · rw [hfault] at hok
    cases hok
  · obtain ⟨rfl, _⟩ : .undeclaredVariable "total" none = fault ∧
        ⟨2, 7⟩ = token.pos := by
      simpa [hfault] using herror
    exact ⟨token'.pos, herror'⟩

end Shellwright
