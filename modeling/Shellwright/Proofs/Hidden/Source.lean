/-
Hidden names of whole programs.  The compiler does not keep its own names from
the program it reads: inside a range loop or a switch the program may spell the
variable made for it. What it cannot do is reach such a variable from anywhere
else, define one, or store into one.
-/
import Shellwright.Proofs.Hidden.Stmt
import Shellwright.Proofs.Parse.Source

namespace Shellwright

/-- The names a source spells.  Comments are no part of it. -/
def sourceNames (tokens : List Token) : List String :=
  spelledNames ((tokens.filter (·.kind != .comment)).map Token.kind)

theorem spelledNames_append (first second : List TokenKind) :
    spelledNames first ⊆ spelledNames (first ++ second) := by
  fun_induction spelledNames first with
  | case1 name rest ih => exact ih
  | case2 name rest ih => exact List.cons_subset_cons name ih
  | case3 kind rest hprogram hident ih =>
      by_cases hkind : kind = .atSign
      · subst hkind
        cases rest with
        | nil => exact List.nil_subset _
        | cons next rest =>
            cases next with
            | ident name => exact absurd rfl (hprogram name rest rfl)
            | _ => exact ih
      · exact List.Subset.trans ih (spelledNames_cons hkind _)
  | case4 => exact List.nil_subset _

/-- The parse of a source starts outside all blocks. -/
def Frame.program : Frame := ⟨[.program], [], .none⟩

theorem Frame.program_sound : Frame.program.Sound :=
  ⟨List.cons_ne_nil _ _, fun _ => rfl⟩

theorem ParserState.initial_holds (tokens : List Token) :
    Frame.program.Holds (· ∈ sourceNames tokens) 0
      (ParserState.initial tokens) := by
  have hstart : ∀ st : ParserState, st.scope = .initial → st.hidden = 0 →
    st.last.kind = .eof →
      spelledNames (st.ahead.map Token.kind) ⊆ sourceNames tokens →
      Frame.program.Holds (· ∈ sourceNames tokens) 0 st := by
    intro st hscope hhidden hlast hahead
    refine ⟨fun name hname => hahead hname, hlast, by rw [hscope]; rfl, by
      rw [hscope]; rfl, hhidden, fun hlookup => ?_, fun hlookup => ?_⟩
    · rw [hscope] at hlookup
      cases hlookup
    · rw [hscope] at hlookup
      cases hlookup
  unfold ParserState.initial
  dsimp only
  split
  · exact hstart _ rfl rfl rfl (List.nil_subset _)
  · next last hlast =>
      split
      · next heof =>
          refine hstart _ rfl rfl heof ?_
          unfold sourceNames
          nth_rewrite 2 [← List.dropLast_append_getLast? last hlast]
          rw [List.map_append]
          exact spelledNames_append _ _
      · exact hstart _ rfl rfl rfl (List.Subset.refl _)

theorem parseTokens_desugared {tokens : List Token} {program : Program}
    (h : parseTokens tokens = .ok program) :
    ∃ count, Block.Desugared (· ∈ sourceNames tokens) .none 0 program.statements
      count := by
  obtain ⟨st, hrun⟩ := parseTokens_ok h
  obtain ⟨count, hdesugared, _⟩ :=
    Parse.program_makes Frame.program_sound (ParserState.initial_holds tokens)
      hrun
  exact ⟨count, hdesugared⟩

/-- In the tree of an accepted source every name has been spelled, except the
hidden variables of range loops and switches at the places made for them.
Hidden names are numbered in the order they are made.  A program that spells one
can only read it, or assign to it when it is an index, and only inside the loop
or switch it belongs to. -/
theorem parseSource_hidden_names_in_reach {source : String} {program : Program}
    (h : parseSource source = .ok program) :
    ∃ tokens count, lex source = .ok tokens ∧
      Block.Desugared (· ∈ sourceNames tokens) .none 0 program.statements
        count := by
  unfold parseSource at h
  obtain ⟨tokens, htokens, h⟩ := except_bind_ok.mp h
  obtain ⟨count, hdesugared⟩ := parseTokens_desugared h
  exact ⟨tokens, count, htokens, hdesugared⟩

/-- A switch over a sum inside a range loop without a named index: two hidden
names, the second one within the reach of the first. -/
theorem parseSource_hidden_names_in_reach_nested :
    ∃ tokens count,
      lex "for _, v := range \"ab\" \x7b\nswitch len(v) + 1 \x7b\ncase 2:\nprint(v)\n\x7d\n\x7d\n" =
        .ok tokens ∧
      Block.Desugared (· ∈ sourceNames tokens) .none 0
        [rangeLoopWith (.string "ab" [.string]) "__idx0"
          [.define [⟨"v", .string⟩]
              (some (.substring (.string "ab" [.string])
                (.var "__idx0" [.int]) none [.string])) false,
            .define [⟨"__sw1", .int⟩] (some (.binary .add
              (.stringLength (.var "v" [.string]) [.int]) (.int 1 [.int])
                [.int])) true,
            .choose [(.compare .eq (.var "__sw1" [.int])
              (.int 2 [.int]) [.bool],
              [.print (.var "v" [.string])])] none]] count :=
  @parseSource_hidden_names_in_reach _ ⟨_⟩ (by cbv)

/-- A program may read the index that the compiler has made for its loop. -/
theorem parseSource_spells_hidden_index :
    parseSource "for _ := range \"ab\" \x7b\nprint(__idx0)\n\x7d\n" =
        .ok ⟨[rangeLoopWith (.string "ab" [.string]) "__idx0"
          [.print (.var "__idx0" [.int])]]⟩ ∧
      isHiddenName "__idx0" = true ∧
      (lex "for _ := range \"ab\" \x7b\nprint(__idx0)\n\x7d\n").map
        sourceNames = .ok ["_", "__idx0"] :=
  ⟨by cbv, by decide, by decide +kernel⟩

end Shellwright
