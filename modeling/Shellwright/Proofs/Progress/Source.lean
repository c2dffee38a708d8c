/-
Every parse ends.  Whatever the tokens are, a parse gives a program or a fault
of the program, never the fault of a bound that was met; a statement or an
expression is never empty; and the first end token stops them all.
-/
import Shellwright.Proofs.Layout.Source
import Shellwright.Proofs.Progress.Stmt

namespace Shellwright

variable {least : Nat} {st st' : ParserState}

/-- The parser has come from `st` to `st'` over at least `least` tokens, none of
which ends the input. -/
def ParserState.Passed (least : Nat) (st st' : ParserState) : Prop :=
  ∃ read, st.input = read ++ st'.input ∧ least ≤ read.length ∧
    ∀ token ∈ read, token.kind ≠ .eof

theorem ParserState.passed_trail (st : ParserState) :
    Trail false fun _ tokens =>
      ∃ read, st.input = read ++ tokens ∧ ∀ token ∈ read, token.kind ≠
        .eof := by
  rintro depth depth' token rest ⟨read, hinput, hread⟩ hdepth
  refine ⟨read ++ [token], by
    rw [hinput, List.append_assoc]; rfl, fun other hother => ?_⟩
  rcases List.mem_append.mp hother with hold | hnew
  · exact hread other hold
  · rw [List.mem_singleton.mp hnew]
    intro heof
    rw [heof] at hdepth
    cases hdepth

theorem ParserState.Passed.last (h : st.Passed least st') :
    st'.last = st.last := by
  obtain ⟨read, hinput, _⟩ := h
  have hlast := congrArg List.getLast? hinput
  simpa [ParserState.input] using hlast.symm

/-- The position never leaves the tokens. -/
theorem ParserState.Passed.next (h : st.Passed least st') :
    ∃ k, least ≤ k ∧ st.input[k]? = some st'.next ∧
      ∀ token ∈ st.input.take k, token.kind ≠ .eof := by
  obtain ⟨read, hinput, hleast, hread⟩ := h
  refine ⟨read.length, hleast, ?_, ?_⟩
  · rw [hinput, List.getElem?_append_right le_rfl, Nat.sub_self]
    unfold ParserState.input ParserState.next
    cases st'.ahead <;> rfl
  · rwa [hinput, List.take_left]

theorem ParserState.Within.passed {depth bound : Nat}
    (h : st'.Within (fun _ tokens => ∃ read, st.input = read ++ tokens ∧ ∀
      token ∈ read, token.kind ≠ .eof) depth bound)
    (hleast : bound + least ≤ st.ahead.length + 1) : st.Passed least st' := by
  obtain ⟨read, hinput, hread⟩ := h.trail
  refine ⟨read, hinput, ?_, hread⟩
  have hlength := congrArg List.length hinput
  have hshort := h.short
  simp only [ParserState.input, List.length_append, List.length_singleton]
    at hlength
  omega

/-- Where all is known of the tokens that reading them tells. -/
theorem ParserState.within_self (h : st.last.kind = .eof) :
    st.Within (fun _ tokens => ∃ read, st.input = read ++ tokens ∧
      ∀ token ∈ read, token.kind ≠ .eof) 0 (st.ahead.length + 1) :=
  ⟨⟨[], rfl, fun _ hmem => absurd hmem List.not_mem_nil⟩, h, Nat.lt_succ_self _⟩

namespace Parse

variable {α : Type}

theorem passes_tokens {p : Parse α} (hst : st.last.kind = .eof)
    (h : ∀ inv n, Trail false inv → Holds Eq inv 0 n Eq p p) :
    Settled (fun _ => st.Passed 0) (p st) :=
  (h _ _ st.passed_trail (.refl st) (ParserState.within_self hst)).settled
    fun _ _ _ hpast => hpast.2.2.passed le_rfl

theorem passes_token {p : Parse α} (hst : st.last.kind = .eof)
    (h : ∀ inv n, Trail false inv → Advances Eq inv 0 n Eq p p) :
    Settled (fun _ => st.Passed 1) (p st) :=
  (h _ _ st.passed_trail (.refl st) (ParserState.within_self hst)).settled
    fun _ _ _ hpast => hpast.2.2.passed le_rfl

theorem statement_eq (hst : st.last.kind = .eof) :
    statement st = statementRule statement st :=
  nested_eq (fun h => statementRule_advances st.passed_trail h)
    (ParserState.within_self hst)

theorem expression_eq (hst : st.last.kind = .eof) :
    expression st = expressionRule expression st :=
  nested_eq (fun h => expressionRule_advances st.passed_trail h)
    (ParserState.within_self hst)

end Parse

/-- A parse reads the tokens of its input and, unless one is there, an end
token. -/
theorem ParserState.input_initial (tokens : List Token) :
    (ParserState.initial tokens).last.kind = .eof ∧
      ∃ ending, (ParserState.initial tokens).input =
        codeTokens tokens ++ ending ∧ ∀ token ∈ ending, token.kind = .eof := by
  unfold ParserState.initial ParserState.input codeTokens
  dsimp only
  split
  · next hnone =>
      rw [List.getLast?_eq_none_iff.mp hnone]
      exact ⟨rfl, _, rfl, by simp⟩
  · next last hsome =>
      split
      · next heof =>
          refine ⟨heof, [], ?_, by simp⟩
          rw [List.append_nil]
          exact List.dropLast_append_getLast? last hsome
      · exact ⟨rfl, _, rfl, by simp⟩

/-- A parse gives a program or a fault of the program, for it never meets the
bounds on its recursion and its repetitions.  A statement, a block or an
expression that is read takes at least one token, and the parser always stands
at a token of the input, behind no end token. -/
theorem parse_ends_before_end_token (tokens : List Token) :
    (∃ ending, (ParserState.initial tokens).input =
      codeTokens tokens ++ ending ∧ ∀ token ∈ ending, token.kind = .eof) ∧
    (∀ error, parseTokens tokens = .error error → error.fault ≠ .tooDeep) ∧
    Settled (fun _ => (ParserState.initial tokens).Passed 0)
      (Parse.program (.initial tokens)) ∧
    (ParserState.initial tokens).last.kind = .eof ∧
    ∀ st : ParserState, st.last.kind = .eof →
      Settled (fun _ => st.Passed 1) (Parse.statement st) ∧
      Settled (fun _ => st.Passed 1) (Parse.expression st) ∧
      (∀ kind, Settled (fun _ => st.Passed 1)
        (Parse.block Parse.statement kind st)) ∧
      Parse.statement st = Parse.statementRule Parse.statement st ∧
      Parse.expression st = Parse.expressionRule Parse.expression st ∧
      ∀ least st', st.Passed least st' → st'.last.kind = .eof ∧
        ∃ k, least ≤ k ∧ st.input[k]? = some st'.next ∧
          ∀ token ∈ st.input.take k, token.kind ≠ .eof := by
  obtain ⟨hend, hinput⟩ := ParserState.input_initial tokens
  have hprogram := Parse.passes_tokens hend fun _ _ => Parse.program_holds
  refine ⟨hinput, fun error herror => ?_, hprogram, hend, fun st hst => ?_⟩
  · cases hrun : Parse.program (.initial tokens) with
    | ok result =>
        rw [parseTokens, StateT.run, hrun] at herror
        cases herror
    | error fault =>
        rw [parseTokens, StateT.run, hrun] at herror
        rw [hrun] at hprogram
        cases herror
        exact hprogram
  refine ⟨Parse.passes_token hst fun _ _ => Parse.statement_advances,
    Parse.passes_token hst fun _ _ htrail => Parse.expression_advances htrail,
    fun kind => ?_, Parse.statement_eq hst, Parse.expression_eq hst,
    fun least st' hpassed => ⟨?_, hpassed.next⟩⟩
  · exact Parse.passes_token hst fun _ _ htrail => Parse.block_advances htrail
      (fun _ _ _ => Parse.statement_advances htrail) le_rfl
  · rw [hpassed.last]
    exact hst

/-- What stands behind the first end token is left alone. -/
theorem parse_ends_before_end_token_inside :
    ∃ st body after, st.last.kind = .eof ∧
      Parse.statement st = .ok (body, after) ∧
      st.Passed 1 after ∧ after.next.kind = .eof ∧ after.input.length = 3 := by
  obtain ⟨st, body, after, hst, hread, hnext, hlength⟩ :
      ∃ st body after, st =
        .initial ([.keyword .printWord, .lparen, .rparen, .eof, .rparen].map
          (⟨·, "", .start⟩)) ∧ Parse.statement st = .ok (body, after) ∧
        after.next.kind = .eof ∧ after.input.length = 3 :=
    ⟨_, _, _, rfl, by cbv, by cbv, by cbv⟩
  obtain ⟨_, _, _, hend, hall⟩ := parse_ends_before_end_token
    ([.keyword .printWord, .lparen, .rparen, .eof, .rparen].map
      (⟨·, "", .start⟩))
  rw [← hst] at hend
  have hpassed := (hall st hend).1
  rw [hread] at hpassed
  exact ⟨st, body, after, hend, hread, hpassed, hnext, hlength⟩

end Shellwright
