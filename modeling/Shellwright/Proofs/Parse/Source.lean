/-
Soundness of the one-pass type checker: every source text that is read gives a
well-typed program.  Functions are named by words.
-/
import Shellwright.Parse
import Shellwright.Proofs.Parse.Stmt
import Shellwright.Proofs.Token.Tiling

namespace Shellwright

variable {tokens : List Token}

theorem ParserState.initial_scope (tokens : List Token) :
    (ParserState.initial tokens).scope = .initial := by
  unfold ParserState.initial
  dsimp only
  split
  · rfl
  · split <;> rfl

/-- A parse sees the tokens it is given and an end. -/
theorem ParserState.kinds_initial {kind : TokenKind}
    (h : kind ∈ (ParserState.initial tokens).kinds) :
    kind = .eof ∨ ∃ token ∈ tokens, token.kind = kind := by
  have hfilter : ∀ token ∈ tokens.filter (·.kind != .comment), token ∈ tokens :=
    fun token htoken => (List.mem_filter.mp htoken).1
  unfold ParserState.initial at h
  dsimp only at h
  split at h
  · exact .inl (by simpa [ParserState.kinds] using h)
  · next last hlast =>
      split at h
      · next heof =>
          obtain ⟨token, htoken, rfl⟩ := List.mem_map.mp h
          rcases List.mem_cons.mp htoken with rfl | htoken
          · exact .inl heof
          · exact .inr
              ⟨token, hfilter token (List.dropLast_subset _ htoken), rfl⟩
      · obtain ⟨token, htoken, rfl⟩ := List.mem_map.mp h
        rcases List.mem_cons.mp htoken with rfl | htoken
        · exact .inl rfl
        · exact .inr ⟨token, hfilter token htoken, rfl⟩

/-- A program that is read comes from a run of the parser. -/
theorem parseTokens_ok {program : Program}
    (h : parseTokens tokens = .ok program) :
    ∃ st, Parse.program (.initial tokens) = .ok (program, st) := by
  unfold parseTokens at h
  cases hrun : Parse.program.run (.initial tokens) with
  | error error => simp [hrun, Except.map] at h
  | ok result =>
      obtain ⟨found, st⟩ := result
      simp only [hrun, Except.map, Except.ok.injEq] at h
      exact ⟨st, h ▸ hrun⟩

/-- The tables behind a program that has been read. -/
theorem parseSource_checked {source : String} {program : Program}
    (h : parseSource source = .ok program) :
    ∃ tables, Block.Checked .program .empty program.statements tables ∧
      ∀ entry ∈ tables.functions, isWord entry.1.toList = true := by
  unfold parseSource at h
  obtain ⟨tokens, htokens, h⟩ := except_bind_ok.mp h
  obtain ⟨st', hrun⟩ := parseTokens_ok h
  have hscope := ParserState.initial_scope tokens
  obtain ⟨after, hchecked, htracks, hcontinues⟩ :=
    Parse.program_accepted hrun hscope
  refine ⟨after, hchecked, fun entry hentry => ?_⟩
  rw [htracks.functions] at hentry
  rcases hcontinues.functions entry hentry with hold | hnew
  · rw [hscope] at hold
    cases hold
  · rcases ParserState.kinds_initial hnew with heof | ⟨token, htoken, hkind⟩
    · cases heof
    · exact (lex_tiles htokens).isWord htoken hkind

/-- Every program that is read from a source text is well typed. -/
theorem parseSource_wellTyped {source : String} {program : Program}
    (h : parseSource source = .ok program) : program.WellTyped := by
  obtain ⟨tables, hchecked, _⟩ := parseSource_checked h
  exact ⟨tables, hchecked⟩

theorem parseSource_wellTyped_function :
    Program.WellTyped ⟨[.function "f" [⟨"n", .int⟩] [.int]
        [.giveBack [.binary .add (.var "n" [.int]) (.int 1 [.int]) [.int]]],
      .define [⟨"x", .int⟩] (some (.call "f" [.int 2 [.int]] [.int]))
        false]⟩ := by
  have h : parseSource "func f(n int) int \x7b\nreturn n + 1\n\x7d\nx := f(2)\n" =
      .ok ⟨[.function "f" [⟨"n", .int⟩] [.int]
          [.giveBack [.binary .add (.var "n" [.int]) (.int 1 [.int]) [.int]]],
        .define [⟨"x", .int⟩] (some (.call "f" [.int 2 [.int]] [.int]))
          false]⟩ := by
    cbv
  exact parseSource_wellTyped h

/-- Two programs whose names are not all in the table of their tree: a value may
be assigned to `_`, and the default body of a switch, which comes last in the
tree, may declare what a later case uses. -/
theorem parseSource_names_beyond_tree_order :
    (parseSource "_ = 1\n" = .ok ⟨[.assign [⟨"_", .int⟩] (.int 1 [.int])]⟩ ∧
      Tables.empty.lookupVariable? "_" = none) ∧
    parseSource
      "x := 1\nswitch x \x7b\ndefault:\ny := 2\ncase 1:\nprint(y)\n\x7d\n" =
      .ok ⟨[.define [⟨"x", .int⟩] (some (.int 1 [.int])) false,
        .choose [(.compare .eq (.var "x" [.int]) (.int 1 [.int]) [.bool],
            [.print (.var "y" [.int])])]
          (some [.define [⟨"y", .int⟩] (some (.int 2 [.int])) false])]⟩ ∧
      ∀ after, ¬Block.Checked Place.program.inner
        (Tables.empty.withVariable "x" ⟨.int, false⟩) [.print (.var "y" [.int])]
          after := by
  refine ⟨⟨by cbv, rfl⟩, by cbv, ?_⟩
  intro after hchecked
  cases hchecked with
  | cons hprint _ =>
      cases hprint with
      | print htyped _ _ =>
          generalize [ValueType.int] = types at htyped
          cases htyped with
          | var hlookup =>
              rw [Tables.lookupVariable?_withVariable, if_neg (by decide)]
                at hlookup
              cases hlookup

end Shellwright
