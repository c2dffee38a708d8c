/-
Tokens tile their source.  The lexemes follow one another with nothing but
blanks between them, every position is the row and column of the token's first
character, and the line a diagnostic shows has that character in that column.
-/
import Shellwright.Diagnostic
import Shellwright.Proofs.Token.Lexemes

namespace Shellwright

namespace Position

/-- The position behind a text that starts at `pos`. -/
def after (pos : Position) (text : List Char) : Position := text.foldl step pos

/-- Row and column of the character behind a text: line feeds are counted, and
the characters since the last one. -/
def behind (text : List Char) : Position :=
  ⟨1 + text.count '\n', 1 + (text.reverse.takeWhile (· != '\n')).length⟩

/-- Counting step by step gives rows and columns. -/
theorem after_start (text : List Char) : start.after text = behind text := by
  induction text using List.reverseRecOn with
  | nil => rfl
  | append_singleton text c ih =>
      unfold after at ih ⊢
      rw [List.foldl_append, ih]
      by_cases hc : c = '\n'
      · simp [behind, step, hc]
        omega
      · simp [behind, step, hc]
        omega

end Position

/-- A text from position `pos` on, taken apart into blanks and the lexemes of
its tokens. -/
inductive Tiles : Position → List Char → List Token → Prop where
  | finish {pos : Position} : Tiles pos [] [⟨.eof, "", pos⟩]
  | blank {pos : Position} {c : Char} {rest : List Char} {tokens : List Token} :
      Lexeme.isSeparator c = true → Tiles (pos.step c) rest tokens →
        Tiles pos (c :: rest) tokens
  | token {pos : Position} {kind : TokenKind} {text : String}
      {lexeme rest : List Char}
      {tokens : List Token} : lexeme ≠ [] → kind ≠ .eof → kind.ReadFrom lexeme →
      Tiles (pos.after lexeme) rest tokens →
        Tiles pos (lexeme ++ rest) (⟨kind, text, pos⟩ :: tokens)

/-- The lexer takes its text apart, after the characters it passes over. -/
theorem lexFrom_tiles {skip : Nat} {pos : Position} {chars : List Char}
    {tokens : List Token} (hskip : skip ≤ chars.length)
    (h : lexFrom skip pos chars = .ok tokens) :
    Tiles (pos.after (chars.take skip)) (chars.drop skip) tokens := by
  induction chars generalizing skip pos tokens with
  | nil =>
      cases h
      rw [List.take_nil, List.drop_nil]
      exact .finish
  | cons c rest ih =>
      cases skip with
      | succ skip => exact ih (by simpa using hskip) h
      | zero =>
          by_cases hblank : Lexeme.isSeparator c = true
          · rw [lexFrom, if_pos hblank] at h
            exact .blank hblank (ih (Nat.zero_le _) h)
          · obtain ⟨lexeme, found, hscan, hrest, rfl⟩ := lexFrom_cons_ok hblank h
            have hfits := Lexeme.scan_fits hscan
            have hmore := ih hfits.within hrest
            have htext : c :: rest =
                lexeme.chars c rest ++ rest.drop lexeme.extra := by
              simp [Lexeme.chars]
            rw [List.drop_zero, htext]
            exact .token (by simp [Lexeme.chars]) hfits.notEnd hfits.reads hmore

theorem lex_tiles {source : String} {tokens : List Token}
    (h : lex source = .ok tokens) : Tiles .start source.toList tokens :=
  lexFrom_tiles (Nat.zero_le _) h

/-- Names in a source text are words. -/
theorem Tiles.isWord {pos : Position} {chars : List Char} {tokens : List Token}
    (h : Tiles pos chars tokens) {token : Token} {name : String}
    (htoken : token ∈ tokens) (hkind : token.kind = .ident name) :
    Shellwright.isWord name.toList = true := by
  induction h with
  | finish =>
      obtain rfl := List.mem_singleton.mp htoken
      cases hkind
  | blank _ _ ih => exact ih htoken
  | token _ _ hreads _ ih =>
      rcases List.mem_cons.mp htoken with rfl | hmore
      · obtain rfl := hkind
        rw [hreads.2, String.toList_ofList]
        exact hreads.1
      · exact ih hmore

/-- The end of a text is a token of its own. -/
theorem Tiles.eq_concat {pos : Position} {chars : List Char}
    {tokens : List Token} (h : Tiles pos chars tokens) :
    ∃ front last, tokens = front ++ [last] ∧ last.kind = .eof := by
  induction h with
  | finish => exact ⟨[], _, rfl, rfl⟩
  | blank _ _ ih => exact ih
  | token _ _ _ _ ih =>
      obtain ⟨front, last, rfl, hlast⟩ := ih
      exact ⟨_ :: front, last, rfl, hlast⟩

/-! Places in a text. -/

/-- The characters from number `start` up to number `stop`, counted from
zero. -/
structure Span where
  start : Nat
  stop : Nat
deriving DecidableEq, Repr

namespace Span

def text (span : Span) (source : List Char) : List Char :=
  (source.drop span.start).take (span.stop - span.start)

def Covers (span : Span) (place : Nat) : Prop := span.start ≤ place ∧
    place < span.stop

end Span

/-- The token is spelled by the characters of the span, and its position is that
of the first of them. -/
structure Token.StandsAt (source : List Char) (token : Token) (span : Span) :
    Prop where
  ordered : span.start ≤ span.stop
  within : span.stop ≤ source.length
  position : token.pos = .behind (source.take span.start)
  reads : token.kind.ReadFrom (span.text source)

/-- The tokens of a source from the character `offset` on and the spans of their
lexemes.  Spans come in order and do not meet, what they leave out is blank, and
the last token is the only one that marks the end. -/
structure Tiling (source : List Char) (offset : Nat) (tokens : List Token)
    (spans : List Span) : Prop where
  stands : List.Forall₂ (Token.StandsAt source) tokens spans
  ordered : spans.Pairwise fun first second =>
    first.start < second.start ∧ first.stop ≤ second.start
  ahead : ∀ span ∈ spans, offset ≤ span.start
  blanks : ∀ place c, offset ≤ place → source[place]? = some c →
    (∀ span ∈ spans, ¬span.Covers place) → c = ' ' ∨ c = '\t' ∨ c = '\r'
  ending : ∃ front last, tokens = front ++ [last] ∧ last.kind = .eof ∧
    (∀ token ∈ front, token.kind ≠ .eof) ∧
    spans.getLast? = some ⟨source.length, source.length⟩

theorem Lexeme.blank_of_isSeparator {c : Char}
    (h : Lexeme.isSeparator c = true) : c = ' ' ∨ c = '\t' ∨ c = '\r' := by
  simpa [Lexeme.isSeparator, or_assoc] using h

namespace Tiling

variable {before rest : List Char} {tokens : List Token} {spans : List Span}

theorem finish (source : List Char) (text : String) :
    Tiling source source.length [⟨.eof, text, .behind source⟩]
      [⟨source.length, source.length⟩] where
  stands := by
    refine .cons ⟨Nat.le_refl _, Nat.le_refl _, ?_, ?_⟩ .nil
    · rw [List.take_length]
    · simp [TokenKind.ReadFrom, Span.text]
  ordered := List.pairwise_singleton _ _
  ahead := by simp
  blanks place c hplace hc := by
    rw [List.getElem?_eq_none hplace] at hc
    cases hc
  ending := ⟨[], _, rfl, rfl, by simp, rfl⟩

theorem blank {c : Char} (hc : Lexeme.isSeparator c = true)
    (h : Tiling (before ++ c :: rest) (before.length + 1) tokens spans) :
    Tiling (before ++ c :: rest) before.length tokens spans where
  stands := h.stands
  ordered := h.ordered
  ahead span hspan := Nat.le_of_succ_le (h.ahead span hspan)
  blanks place found hplace hfound hfree := by
    rcases Nat.eq_or_lt_of_le hplace with rfl | hlater
    · obtain rfl : c = found := by simpa using hfound
      exact Lexeme.blank_of_isSeparator hc
    · exact h.blanks place found hlater hfound hfree
  ending := h.ending

theorem token {kind : TokenKind} {text : String} {lexeme : List Char}
    (hlexeme : lexeme ≠ []) (hkind : kind ≠ .eof)
    (hreads : kind.ReadFrom lexeme)
    (h : Tiling (before ++ (lexeme ++ rest)) (before.length + lexeme.length)
      tokens spans) :
    Tiling (before ++ (lexeme ++ rest)) before.length
      (⟨kind, text, .behind before⟩ :: tokens)
      (⟨before.length, before.length + lexeme.length⟩ :: spans) where
  stands := by
    refine .cons ⟨Nat.le_add_right _ _, by simp, by simp, ?_⟩ h.stands
    simpa [Span.text] using hreads
  ordered := by
    refine List.pairwise_cons.mpr ⟨fun span hspan => ?_, h.ordered⟩
    have hlater := h.ahead span hspan
    have hlength := List.length_pos_iff.mpr hlexeme
    exact ⟨by dsimp only; omega, hlater⟩
  ahead := by
    refine List.forall_mem_cons.mpr ⟨Nat.le_refl _, fun span hspan => ?_⟩
    exact Nat.le_trans (Nat.le_add_right _ _) (h.ahead span hspan)
  blanks place c hplace hc hfree := by
    obtain ⟨hfirst, hothers⟩ := List.forall_mem_cons.mp hfree
    refine h.blanks place c ?_ hc hothers
    by_contra hinside
    exact hfirst ⟨hplace, by dsimp only; omega⟩
  ending := by
    obtain ⟨front, last, rfl, hlast, hfront, hspans⟩ := h.ending
    refine ⟨_ :: front, last, rfl, hlast,
      List.forall_mem_cons.mpr ⟨hkind, hfront⟩, ?_⟩
    rw [List.getLast?_cons, hspans]
    rfl

end Tiling

/-- A text that is taken apart behind `before` is tiled there. -/
theorem Tiles.tiling {pos : Position} {before rest : List Char}
    {tokens : List Token} (h : Tiles pos rest tokens)
    (hpos : pos = .behind before) :
    ∃ spans, Tiling (before ++ rest) before.length tokens spans := by
  induction h generalizing before with
  | finish =>
      subst hpos
      rw [List.append_nil]
      exact ⟨_, .finish before ""⟩
  | @blank pos c rest tokens hc _ ih =>
      obtain ⟨spans, hspans⟩ := @ih (before ++ [c]) (by
        rw [hpos, ← Position.after_start, ← Position.after_start]
        simp [Position.after])
      refine ⟨spans, .blank hc ?_⟩
      simpa using hspans
  | @token pos kind text lexeme rest tokens hlexeme hkind hreads _ ih =>
      obtain ⟨spans, hspans⟩ := @ih (before ++ lexeme) (by
        rw [hpos, ← Position.after_start, ← Position.after_start]
        simp [Position.after])
      subst hpos
      have hbehind : Tiling (before ++ (lexeme ++ rest))
        (before.length + lexeme.length) tokens
          spans := by simpa using hspans
      exact ⟨_, .token hlexeme hkind hreads hbehind⟩

/-! The line a position points into. -/

/-- The first part goes up to the first separator. -/
theorem splitParts_eq_cons (separator : Char) (text : List Char) :
    ∃ parts, splitParts separator text = text.takeWhile (· != separator) ::
      parts := by
  induction text with
  | nil => exact ⟨[], rfl⟩
  | cons c rest ih =>
      obtain ⟨parts, hparts⟩ := ih
      by_cases hc : c = separator
      · exact ⟨splitParts separator rest, by simp [splitParts, hc]⟩
      · exact ⟨parts, by simp [splitParts, hc, hparts]⟩

/-- The part that goes across the end of `before`: the characters of `before`
since its last separator, and those of `rest` up to its first. -/
theorem splitParts_getElem? (separator : Char) (before rest : List Char) :
    (splitParts separator (before ++ rest))[before.count separator]? =
      some ((before.reverse.takeWhile (· != separator)).reverse ++
        rest.takeWhile (· != separator)) := by
  induction before with
  | nil =>
      obtain ⟨parts, hparts⟩ := splitParts_eq_cons separator rest
      simp [hparts]
  | cons c before ih =>
      by_cases hc : c = separator
      · subst hc
        have hstops : (before.reverse ++ [c]).takeWhile (· != c) =
            before.reverse.takeWhile (· != c) := by
          rw [List.takeWhile_append]
          split
          · next hall => simp [(List.takeWhile_prefix _).eq_of_length hall]
          · rfl
        simpa [splitParts, hstops] using ih
      · obtain ⟨parts, hparts⟩ := splitParts_eq_cons separator (before ++ rest)
        have hcount : (c :: before).count separator =
            before.count separator := by
          simp [hc]
        rw [hcount, List.cons_append, splitParts, if_neg hc, hparts]
        rw [hparts] at ih
        dsimp only
        by_cases hmem : separator ∈ before
        · -- the part lies behind the first one
          obtain ⟨count, hsucc⟩ := Nat.exists_eq_succ_of_ne_zero
            (Nat.pos_iff_ne_zero.mp (List.count_pos_iff.mpr hmem))
          have hstops : (before.reverse ++ [c]).takeWhile (· != separator) =
              before.reverse.takeWhile (· != separator) := by
            rw [List.takeWhile_append, if_neg]
            intro hall
            have hwhole :=
              (List.takeWhile_prefix (· != separator)).eq_of_length hall
            have hin := List.mem_takeWhile_imp
              (hwhole ▸ List.mem_reverse.mpr hmem)
            simp at hin
          rw [List.reverse_cons, hstops, ← ih, hsucc]
          rfl
        · have hall : ∀ tail : List Char, (∀ a ∈ tail, a ≠ separator) →
              tail.takeWhile (· != separator) = tail := fun tail htail =>
            List.takeWhile_eq_self_iff.mpr fun a ha => by simpa using htail a ha
          have hbefore : ∀ a ∈ before, a ≠ separator :=
            fun a ha heq => hmem (heq ▸ ha)
          have hline : ∀ a ∈ c :: before, a ≠ separator :=
            List.forall_mem_cons.mpr ⟨hc, hbefore⟩
          rw [List.count_eq_zero_of_not_mem hmem] at ih ⊢
          rw [hall before.reverse
            fun a ha => hbefore a (List.mem_reverse.mp ha)] at ih
          rw [hall (c :: before).reverse
            fun a ha => hline a (List.mem_reverse.mp ha)]
          simpa using ih

theorem dropTrailing_getElem? {α : Type} {drop : α → Bool} {items : List α}
    {place : Nat} {a : α} (h : items[place]? = some a) (ha : drop a = false) :
    (dropTrailing drop items)[place]? = some a := by
  have hsplit : dropTrailing drop items ++ items.rtakeWhile drop = items :=
    List.rdropWhile_append_rtakeWhile
  rw [← hsplit] at h
  by_cases hplace : place < (dropTrailing drop items).length
  · rwa [List.getElem?_append_left hplace] at h
  · rw [List.getElem?_append_right (by omega)] at h
    have hdropped := List.mem_rtakeWhile_imp (List.mem_of_getElem? h)
    rw [ha] at hdropped
    cases hdropped

/-- Whatever is no line feed starts with a character that a line shows. -/
theorem TokenKind.ReadFrom.exists_cons {kind : TokenKind} {lexeme : List Char}
    (h : kind.ReadFrom lexeme) (hline : kind ≠ .newline) (hend : kind ≠ .eof) :
    ∃ c rest, lexeme = c :: rest ∧ c ≠ '\n' ∧ c ≠ '\r' := by
  have hsymbol : ∀ text : String,
    text.toList.head?.any (fun c => c != '\n' && c != '\r') = true →
      some text = some (String.ofList lexeme) →
        ∃ c rest, lexeme = c :: rest ∧ c ≠ '\n' ∧ c ≠ '\r' := by
    rintro text hhead ⟨⟩
    rw [String.toList_ofList] at hhead
    cases lexeme with
    | nil => cases hhead
    | cons c rest => exact ⟨c, rest, rfl, by simpa using hhead⟩
  cases kind with
  | eof => exact absurd rfl hend
  | newline => exact absurd rfl hline
  | comment =>
      obtain ⟨line, rfl, _⟩ := h
      exact ⟨'/', _, rfl, by decide⟩
  | string value =>
      obtain ⟨inner, rfl, _⟩ := h
      exact ⟨'"', _, rfl, by decide⟩
  | number value =>
      obtain ⟨hne, hdigits, _⟩ := h
      obtain ⟨c, rest, rfl⟩ := List.exists_cons_of_ne_nil hne
      rw [List.all_cons, Bool.and_eq_true] at hdigits
      exact ⟨c, rest, rfl, fun heq => absurd (heq ▸ hdigits.1) (by decide),
        fun heq => absurd (heq ▸ hdigits.1) (by decide)⟩
  | ident name =>
      obtain ⟨hword, _⟩ := h
      cases lexeme with
      | nil => cases hword
      | cons c rest =>
          rw [isWord, Bool.and_eq_true] at hword
          exact ⟨c, rest, rfl, fun heq => absurd (heq ▸ hword.1) (by decide),
            fun heq => absurd (heq ▸ hword.1) (by decide)⟩
  | compoundAssign op | binary op | compare op | logical op =>
      cases op <;> exact hsymbol _ rfl h
  | bool value => cases value <;> exact hsymbol _ rfl h
  | keyword word => cases word <;> exact hsymbol _ rfl h
  | _ => exact hsymbol _ rfl h

/-- A character that a line shows stands in the line and column of its
position. -/
theorem sourceLine_getElem? {source : String} {offset : Nat} {c : Char}
    (h : source.toList[offset]? = some c) (hline : c ≠ '\n')
    (hreturn : c ≠ '\r') :
    (sourceLine source
      (Position.behind (source.toList.take offset)).row).toList[
      (Position.behind (source.toList.take offset)).column - 1]? = some c := by
  obtain ⟨hoffset, hc⟩ := List.getElem?_eq_some_iff.mp h
  generalize hbefore : source.toList.take offset = before
  have hsource : source.toList = before ++ c ::
      source.toList.drop (offset + 1) := by
    rw [← hbefore, ← hc, ← List.drop_eq_getElem_cons hoffset,
      List.take_append_drop]
  have hpart := splitParts_getElem? '\n' before
    (c :: source.toList.drop (offset + 1))
  rw [← hsource] at hpart
  unfold Position.behind
  rw [Nat.add_comm 1, sourceLine, hpart, Nat.add_sub_cancel_left]
  dsimp only
  rw [String.toList_ofList]
  refine dropTrailing_getElem? ?_ (by simpa using hreturn)
  rw [List.getElem?_append_right (by simp)]
  simp [hline]

/-- The rendered diagnostic shows `line` and below it, on a line of its own, a
caret with `place` blanks in front of it.  Only a hint may follow. -/
def Diagnostic.ShowsCaret (d : Diagnostic) (base : Option String)
    (line : String) (place : Nat) : Prop :=
  ∃ head tail, d.render base = head ++ "\n" ++ line ++ "\n" ++
      String.ofList (List.replicate place ' ') ++ "^" ++ tail ∧
    (tail = "" ∨ ∃ help, tail = "\nhelp: " ++ help)

theorem Diagnostic.showsCaret {d : Diagnostic} {path source : String}
    (base : Option String) (hfile : d.file = some ⟨path, source⟩) :
    d.ShowsCaret base (sourceLine source d.pos.row) (d.pos.column - 1) := by
  unfold ShowsCaret render
  rw [hfile]
  refine ⟨SourcePath.display path base ++
    s!":{d.pos.row}:{d.pos.column}: {d.message}", ?_⟩
  cases d.help with
  | none => exact ⟨"", by simp only [caret, String.append_assoc]; rfl, .inl rfl⟩
  | some help =>
      exact ⟨"\nhelp: " ++ help, by
        simp only [caret, String.append_assoc]; rfl, .inr ⟨help, rfl⟩⟩

/-- The first character of a lexeme is found again in the line of its token. -/
theorem Token.StandsAt.shown {source : String} {token : Token} {span : Span}
    (h : token.StandsAt source.toList span) (hline : token.kind ≠ .newline)
    (hend : token.kind ≠ .eof) :
    ∃ c, (span.text source.toList).head? = some c ∧
      (sourceLine source token.pos.row).toList[token.pos.column - 1]? =
        some c := by
  obtain ⟨c, rest, hlexeme, hfeed, hreturn⟩ := h.reads.exists_cons hline hend
  have hplace : source.toList[span.start]? = some c := by
    have hfirst := congrArg List.head? hlexeme
    unfold Span.text at hfirst
    rw [List.head?_take, List.head?_drop] at hfirst
    split at hfirst
    · cases hfirst
    · exact hfirst
  refine ⟨c, by rw [hlexeme]; rfl, ?_⟩
  rw [h.position]
  exact sourceLine_getElem? hplace hfeed hreturn

/-- Tokens tile their source and their positions are exact, so that the caret of
a diagnostic points at the token it is about. -/
theorem lex_tiles_source {source : String} {tokens : List Token}
    (h : lex source = .ok tokens) :
    ∃ spans, Tiling source.toList 0 tokens spans ∧
      ∀ place ∈ tokens.zip spans, place.1.kind ≠ .newline →
        place.1.kind ≠ .eof →
        (∃ c, (place.2.text source.toList).head? = some c ∧
          (sourceLine source place.1.pos.row).toList[place.1.pos.column - 1]? =
            some c) ∧
        ∀ (d : Diagnostic) (base : Option String) (path : String),
          d.pos = place.1.pos → d.file = some ⟨path, source⟩ →
          d.ShowsCaret base (sourceLine source place.1.pos.row)
            (place.1.pos.column - 1) := by
  have htiles : Tiles .start source.toList tokens :=
    lexFrom_tiles (Nat.zero_le _) h
  obtain ⟨spans, htiling⟩ : ∃ spans, Tiling ([] ++ source.toList)
    ([] : List Char).length tokens
      spans := htiles.tiling rfl
  refine ⟨spans, htiling, fun place hplace hline hend =>
    ⟨?_, fun d base path hpos hfile => ?_⟩⟩
  · exact (List.forall₂_iff_zip.mp htiling.stands).2 hplace |>.shown hline hend
  · rw [← hpos]
    exact d.showsCaret base hfile

/-- Tabs count as one character, and so do characters of several bytes. -/
theorem lex_tiles_source_second_row :
    lex "\"é\" // ✓\r\n\tx" = .ok
        [⟨.string "é", "\"é\"", ⟨1, 1⟩⟩, ⟨.comment, "// ✓\r", ⟨1, 5⟩⟩,
          ⟨.newline, "\\n", ⟨1, 10⟩⟩, ⟨.ident "x", "x", ⟨2, 2⟩⟩,
          ⟨.eof, "", ⟨2, 3⟩⟩] ∧
      ∃ spans, Tiling "\"é\" // ✓\r\n\tx".toList 0
        [⟨.string "é", "\"é\"", ⟨1, 1⟩⟩, ⟨.comment, "// ✓\r", ⟨1, 5⟩⟩,
          ⟨.newline, "\\n", ⟨1, 10⟩⟩, ⟨.ident "x", "x", ⟨2, 2⟩⟩,
          ⟨.eof, "", ⟨2, 3⟩⟩] spans := by
  have hlex : lex "\"é\" // ✓\r\n\tx" = .ok
      [⟨.string "é", "\"é\"", ⟨1, 1⟩⟩, ⟨.comment, "// ✓\r", ⟨1, 5⟩⟩,
        ⟨.newline, "\\n", ⟨1, 10⟩⟩, ⟨.ident "x", "x", ⟨2, 2⟩⟩,
        ⟨.eof, "", ⟨2, 3⟩⟩] := by
    decide +kernel
  obtain ⟨spans, htiling, _⟩ := lex_tiles_source hlex
  exact ⟨hlex, spans, htiling⟩

end Shellwright
