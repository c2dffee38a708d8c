/-
Line feeds and newline tokens.  Every line feed of a source is a token of its
own or stands in a string behind a backslash, which takes it along.  At any
other place in a string it is reported: there the string should have ended on
its line.
-/
import Shellwright.Proofs.Token.Spelling

namespace Shellwright

variable {c : Char} {pos : Position} {chars inner rest source value : List Char}
  {spans : List Span} {tokens : List Token}

/-! Counting line feeds. -/

/-- A character that only stands inside of the spans is counted span by span. -/
theorem count_eq_sum_spans {offset : Nat}
    (hahead : ∀ span ∈ spans, offset ≤ span.start ∧ span.start ≤ span.stop)
    (hordered : spans.Pairwise fun first second => first.stop ≤ second.start)
    (hcovered : ∀ place, offset ≤ place → source[place]? = some c → ∃ span ∈
      spans, span.Covers place) :
    (source.drop offset).count c =
      (spans.map fun span => (span.text source).count c).sum := by
  induction spans generalizing offset with
  | nil =>
      refine List.count_eq_zero_of_not_mem fun hmem => ?_
      obtain ⟨place, hplace⟩ := List.getElem?_of_mem hmem
      rw [List.getElem?_drop] at hplace
      obtain ⟨span, hspan, _⟩ :=
        hcovered (offset + place) (Nat.le_add_right _ _) hplace
      cases hspan
  | cons span spans ih =>
      obtain ⟨⟨hstart, hstop⟩, hspans⟩ := List.forall_mem_cons.mp hahead
      obtain ⟨hlater, hordered⟩ := List.pairwise_cons.mp hordered
      have hgap : ((source.drop offset).take (span.start - offset)).count c =
          0 := by
        refine List.count_eq_zero_of_not_mem fun hmem => ?_
        obtain ⟨place, hplace⟩ := List.getElem?_of_mem hmem
        obtain ⟨hshort, hplace⟩ : place < span.start - offset ∧
            source[offset + place]? = some c := by
          simpa [List.getElem?_take, List.getElem?_drop] using hplace
        obtain ⟨other, hother, hcovers⟩ :=
          hcovered _ (Nat.le_add_right _ _) hplace
        have hbehind : span.start ≤ other.start := by
          rcases List.mem_cons.mp hother with rfl | hother
          · exact Nat.le_refl _
          · exact Nat.le_trans hstop (hlater other hother)
        have := hcovers.1
        omega
      have hrest : (source.drop span.stop).count c =
          (spans.map fun span => (span.text source).count c).sum := by
        refine ih
          (fun other hother => ⟨hlater other hother, (hspans other hother).2⟩)
            hordered
          fun place hplace hc => ?_
        obtain ⟨other, hother, hcovers⟩ := hcovered place (by omega) hc
        rcases List.mem_cons.mp hother with rfl | hother
        · exact absurd hcovers.2 (by omega)
        · exact ⟨other, hother, hcovers⟩
      have hsplit : source.drop offset =
        (source.drop offset).take (span.start - offset) ++
          (span.text source ++ source.drop span.stop) := by
        have hstop' : source.drop span.stop =
            (source.drop span.start).drop (span.stop - span.start) := by
          rw [List.drop_drop, Nat.add_sub_of_le hstop]
        have hstart' : source.drop span.start =
            (source.drop offset).drop (span.start - offset) := by
          rw [List.drop_drop, Nat.add_sub_of_le hstart]
        rw [Span.text, hstop', List.take_append_drop, hstart',
          List.take_append_drop]
      rw [hsplit, List.count_append, List.count_append, hgap, hrest,
        Nat.zero_add]
      rfl

def TokenKind.isString : TokenKind → Bool
  | .string _ => true
  | _ => false

def newlines (tokens : List Token) : Nat :=
  tokens.countP fun token => token.kind = .newline

/-- The line feeds inside of strings. -/
def feedsInStrings (source : List Char) (tokens : List Token)
    (spans : List Span) : Nat :=
  (tokens.zipWith (fun token span =>
    if token.kind.isString then (span.text source).count '\n' else 0) spans).sum

/-- Outside of strings only a newline token has a line feed. -/
theorem TokenKind.ReadFrom.count_feeds {kind : TokenKind} {lexeme : List Char}
    (h : kind.ReadFrom lexeme) (hstring : kind.isString = false) :
    lexeme.count '\n' = if kind = .newline then 1 else 0 := by
  have hsymbol : ∀ text : String, text.toList.contains '\n' = false →
      some text = some (String.ofList lexeme) → lexeme.count '\n' = 0 := by
    rintro text hfree ⟨⟩
    rw [String.toList_ofList] at hfree
    exact List.count_eq_zero_of_not_mem (by simpa using hfree)
  cases kind with
  | eof => simp [show lexeme = [] from h]
  | newline => simp [show lexeme = ['\n'] from h]
  | string value => cases hstring
  | comment =>
      obtain ⟨line, rfl, hline⟩ := h
      simpa using List.count_eq_zero_of_not_mem hline
  | number value =>
      refine List.count_eq_zero_of_not_mem fun hmem => ?_
      exact absurd (List.all_eq_true.mp h.2.1 _ hmem) (by decide)
  | ident name =>
      obtain ⟨hword, _⟩ := h
      refine List.count_eq_zero_of_not_mem fun hmem => ?_
      cases lexeme with
      | nil => cases hword
      | cons c rest =>
          rw [isWord, Bool.and_eq_true] at hword
          rcases List.mem_cons.mp hmem with rfl | hmem
          · exact absurd hword.1 (by decide)
          · exact absurd (List.all_eq_true.mp hword.2 _ hmem) (by decide)
  | compoundAssign op | binary op | compare op | logical op =>
      cases op <;> exact hsymbol _ rfl h
  | bool value => cases value <;> exact hsymbol _ rfl h
  | keyword word => cases word <;> exact hsymbol _ rfl h
  | _ => exact hsymbol _ rfl h

theorem sum_count_feeds
    (h : List.Forall₂ (Token.StandsAt source) tokens spans) :
    (spans.map fun span => (span.text source).count '\n').sum =
      newlines tokens + feedsInStrings source tokens spans := by
  induction h with
  | nil => rfl
  | @cons token span tokens spans hfirst _ ih =>
      have hcount : (span.text source).count '\n' =
        (if token.kind = .newline then 1 else 0) +
          if token.kind.isString then (span.text source).count '\n' else 0 := by
        cases hstring : token.kind.isString with
        | false => simpa using hfirst.reads.count_feeds hstring
        | true =>
            have hkind : token.kind ≠ .newline := by
              intro heq
              rw [heq] at hstring
              cases hstring
            simp [hkind]
      have hnewlines : newlines (token :: tokens) =
          newlines tokens + if token.kind = .newline then 1 else 0 := by
        simp [newlines, List.countP_cons]
      rw [List.map_cons, List.sum_cons, ih, hcount, hnewlines, feedsInStrings,
        feedsInStrings, List.zipWith_cons_cons, List.sum_cons]
      omega

/-- All line feeds of a source are newline tokens or stand in strings. -/
theorem Tiling.count_feeds (h : Tiling source 0 tokens spans) :
    newlines tokens + feedsInStrings source tokens spans =
      source.count '\n' := by
  have hspans : ∀ span ∈ spans, 0 ≤ span.start ∧ span.start ≤ span.stop := by
    intro span hspan
    obtain ⟨place, hplace, rfl⟩ := List.mem_iff_getElem.mp hspan
    exact ⟨Nat.zero_le _,
      (h.stands.get (h.stands.length_eq ▸ hplace) hplace).ordered⟩
  have hcovered : ∀ place, 0 ≤ place → source[place]? = some '\n' →
      ∃ span ∈ spans, span.Covers place := by
    intro place hoffset hplace
    by_contra hfree
    have hblank := h.blanks place '\n' hoffset hplace fun span hspan hcovers =>
      hfree ⟨span, hspan, hcovers⟩
    exact absurd hblank (by decide)
  rw [← sum_count_feeds h.stands, ← count_eq_sum_spans hspans
    (h.ordered.imp And.right) hcovered, List.drop_zero]

/-! Line feeds in strings. -/

/-- A line feed in a string stands behind a backslash that is not itself taken
along by another one. -/
theorem LiteralBody.backslash_before {front back : List Char}
    (h : LiteralBody inner value) (heq : inner = front ++ '\n' :: back) :
    ∃ body text, front = body ++ ['\\'] ∧ LiteralBody body text := by
  induction h generalizing front with
  | nil => simp at heq
  | @escape inner value c _ ih =>
      rcases front with _ | ⟨first, _ | ⟨second, front⟩⟩
      · simp at heq
      · obtain ⟨rfl, _⟩ : '\\' = first ∧ c = '\n' ∧ inner = back := by
          simpa using heq
        exact ⟨[], [], rfl, .nil⟩
      · obtain ⟨rfl, rfl, hinner⟩ : '\\' = first ∧ c = second ∧
            inner = front ++ '\n' :: back := by
          simpa using heq
        obtain ⟨body, text, rfl, hbody⟩ := ih hinner
        exact ⟨'\\' :: c :: body, _, rfl, .escape c hbody⟩
  | @plain inner value c hquote hbackslash hfeed _ ih =>
      rcases front with _ | ⟨first, front⟩
      · exact absurd (List.cons.inj heq).1 hfeed
      · obtain ⟨rfl, hinner⟩ : c = first ∧ inner = front ++ '\n' :: back := by
          simpa using heq
        obtain ⟨body, text, rfl, hbody⟩ := ih hinner
        exact ⟨c :: body, c :: text, rfl, .plain hquote hbackslash hfeed hbody⟩

theorem Token.StandsAt.backslash_before {front back : List Char} {token : Token}
    {span : Span} (h : token.StandsAt source span)
    (hstring : token.kind.isString = true)
    (heq : span.text source = front ++ '\n' :: back) :
    ∃ body text, front = '"' :: (body ++ ['\\']) ∧ LiteralBody body text := by
  have hreads := h.reads
  rw [heq] at hreads
  cases hkind : token.kind with
  | string value =>
      rw [hkind] at hreads
      obtain ⟨inner, hinner, hbody⟩ := hreads
      cases front with
      | nil => simp at hinner
      | cons first front =>
          obtain ⟨rfl, htail⟩ : first = '"' ∧
              front ++ '\n' :: back = inner ++ ['"'] := by
            simpa using hinner
          -- the line feed is not the closing quote
          rcases List.eq_nil_or_concat back with rfl | ⟨back, last, rfl⟩
          · have hlast := congrArg List.getLast? htail
            simp at hlast
          · rw [List.concat_eq_append, ← List.cons_append, ← List.append_assoc]
              at htail
            obtain ⟨rfl, _⟩ := List.append_inj' htail rfl
            obtain ⟨body, text, rfl, hbody'⟩ := hbody.backslash_before rfl
            exact ⟨body, text, rfl, hbody'⟩
  | _ =>
      rw [hkind] at hstring
      cases hstring

/-! Strings that do not end on their line. -/

namespace Lexeme

variable {c : Char} {rest more : List Char} {lexeme : Lexeme}

theorem scanString_append {result : List Char × Nat}
    (h : scanString rest = some result) :
    scanString (rest ++ more) = some result := by
  fun_induction scanString rest generalizing result with
  | case1 => cases h
  | case2 => exact h
  | case3 => cases h
  | case4 => cases h
  | case5 c rest ih =>
      obtain ⟨found, hfound, rfl⟩ := Option.map_eq_some_iff.mp h
      simp [scanString, ih hfound]
  | case6 c rest hquote hline hlast hescape ih =>
      obtain ⟨found, hfound, rfl⟩ := Option.map_eq_some_iff.mp h
      have hbackslash : c ≠ '\\' := by
        rintro rfl
        cases rest with
        | nil => exact hlast rfl rfl
        | cons next rest => exact hescape next rest rfl rfl
      rw [List.cons_append, scanString, ih hfound]
      · rfl
      all_goals simp_all

/-- A line feed where a string could end. -/
theorem scanString_feed (h : LiteralBody inner value) :
    scanString (inner ++ '\n' :: rest) = none := by
  induction h with
  | nil => rfl
  | escape c _ ih => simp [scanString, ih]
  | plain hquote hbackslash hfeed _ ih =>
      rw [List.cons_append, scanString, ih]
      · rfl
      all_goals simp_all

theorem takeWhile_stop {keep : Char → Bool} {stop : Char}
    (hstop : keep stop = false) :
    (rest ++ stop :: more).takeWhile keep = rest.takeWhile keep := by
  induction rest with
  | nil => simp [hstop]
  | cons d rest ih => simp [List.takeWhile_cons, ih]

theorem append_quote_ne_cons {first : Char} (hfirst : first ≠ '"')
    (h : ∀ tail, rest = first :: tail → False) (tail : List Char) :
    rest ++ '"' :: more = first :: tail → False := by
  cases rest with
  | nil => simpa using fun heq => absurd heq.symm hfirst
  | cons d rest =>
      rintro heq
      obtain ⟨rfl, _⟩ := List.cons.inj heq
      exact h rest rfl

/-- A quote behind a token is not part of it, unless the token is a comment that
has not come to its end. -/
theorem scan_append_quote (h : scan c rest = .ok lexeme)
    (hcomment : lexeme.kind = .comment → lexeme.extra < rest.length) :
    scan c (rest ++ '"' :: more) = .ok lexeme := by
  unfold scan at h
  split at h
  -- fixed spellings that no other one starts with
  all_goals try
    cases h
    rfl
  all_goals try
    rw [scan, h]
    all_goals exact append_quote_ne_cons (by decide) (by assumption)
  · next tail =>
      cases h
      have hends : (('/' :: tail).takeWhile (· != '\n')).length <
          ('/' :: tail).length :=
        hcomment rfl
      rw [List.cons_append, scan, ← List.cons_append, List.takeWhile_append,
        if_neg (Nat.ne_of_lt hends)]
  · cases hstring : scanString rest with
    | none => simp [hstring] at h
    | some result =>
        rw [hstring] at h
        rw [scan, scanString_append hstring]
        exact h
  · split at h
    · next hdigit =>
        rw [scan_of_isDigit hdigit, ← h, scanNumber, takeWhile_stop (by decide)]
        rfl
    · split at h
      · next hstart =>
          rw [scan_of_isWordStart hstart, ← h, scanWord,
            takeWhile_stop (by decide)]
          rfl
      · cases h

end Lexeme

theorem Tiles.tokens_ne_nil (h : Tiles pos chars tokens) : tokens ≠ [] := by
  obtain ⟨front, last, rfl, _⟩ := h.eq_concat
  simp

/-- Something is left behind a comment that is not the last token. -/
theorem lexFrom_extra_lt {extra : Nat} {first : Token}
    (hextra : extra ≤ rest.length) (h : lexFrom extra pos rest = .ok tokens)
    (hlast : ∀ token ∈ (first :: tokens).dropLast.getLast?, token.kind ≠
      .comment) (hfirst : first.kind = .comment) : extra < rest.length := by
  refine Nat.lt_of_le_of_ne hextra fun heq => ?_
  subst heq
  have hend := lexFrom_length_append rest [] pos
  rw [List.append_nil, h] at hend
  cases hend
  exact hlast first rfl hfirst

/-- The tokens of a text are found as well if a quote follows, but for a
comment, which would go on. -/
theorem lexFrom_append_quote {skip : Nat} {more : List Char}
    (hskip : skip ≤ chars.length) (h : lexFrom skip pos chars = .ok tokens)
    (hlast : ∀ token ∈ tokens.dropLast.getLast?, token.kind ≠ .comment) :
    lexFrom skip pos (chars ++ '"' :: more) =
      (lexFrom 0 (pos.after chars) ('"' :: more)).map
        (tokens.dropLast ++ ·) := by
  induction chars generalizing skip pos tokens with
  | nil =>
      cases h
      obtain rfl := Nat.le_zero.mp hskip
      cases hmore : lexFrom 0 pos ('"' :: more) <;>
        simp [Position.after, hmore, Except.map]
  | cons c rest ih =>
      cases skip with
      | succ skip => exact ih (Nat.le_of_succ_le_succ hskip) h hlast
      | zero =>
          by_cases hblank : Lexeme.isSeparator c = true
          · rw [lexFrom, if_pos hblank] at h
            rw [List.cons_append, lexFrom, if_pos hblank]
            exact ih (Nat.zero_le _) h hlast
          · obtain ⟨lexeme, found, hscan, hrest, rfl⟩ := lexFrom_cons_ok hblank h
            have hwithin := (Lexeme.scan_fits hscan).within
            have hfound := (lexFrom_tiles hwithin hrest).tokens_ne_nil
            have hends := lexFrom_extra_lt hwithin hrest hlast
            rw [List.dropLast_cons_of_ne_nil hfound] at hlast ⊢
            have hlater : ∀ token ∈ found.dropLast.getLast?, token.kind ≠
                .comment := by
              intro token htoken
              refine hlast token ?_
              rw [List.getLast?_cons, Option.mem_def.mp htoken]
              rfl
            rw [List.cons_append, lexFrom, if_neg hblank,
              Lexeme.scan_append_quote hscan hends]
            dsimp only
            rw [ih hwithin hrest hlater, show pos.after (c :: rest) =
              (pos.step c).after rest from rfl]
            cases lexFrom 0 ((pos.step c).after rest) ('"' :: more) <;> rfl

/-- A line feed where a string could end is reported at the quote that opens the
string. -/
theorem lex_feed_in_string {source before : String}
    (hsource : source.toList = before.toList ++ '"' :: (inner ++ '\n' :: rest))
    (h : lex before = .ok tokens)
    (hlast : ∀ token ∈ tokens.dropLast.getLast?, token.kind ≠ .comment)
    (hbody : LiteralBody inner value) :
    lex source = .error ⟨.unterminatedString, .behind before.toList⟩ := by
  have hscan : Lexeme.scan '"' (inner ++ '\n' :: rest) =
      .error .unterminatedString := by
    rw [Lexeme.scan, Lexeme.scanString_feed hbody]
  rw [lex, hsource, lexFrom_append_quote (Nat.zero_le _) h hlast, lexFrom,
    if_neg (by decide), hscan, Position.after_start]
  rfl

/-- Newline tokens and line feeds.  In a source that has tokens every line feed
is a newline token or stands in a string, so there are as many of both exactly
if no string goes over the end of a line.  In a string a line feed stands behind
a backslash that is not itself escaped; at every other place before the closing
quote it is reported. -/
theorem line_feeds_are_newlines_or_escaped (source : String) :
    (∀ tokens, lex source = .ok tokens →
      ∃ spans, Tiling source.toList 0 tokens spans ∧
      newlines tokens + feedsInStrings source.toList tokens spans =
        source.toList.count '\n' ∧
      (newlines tokens = source.toList.count '\n' ↔
        ∀ place ∈ tokens.zip spans, place.1.kind.isString = true →
          '\n' ∉ place.2.text source.toList) ∧
      ∀ place ∈ tokens.zip spans, place.1.kind.isString = true → ∀ front back,
        place.2.text source.toList = front ++ '\n' :: back →
          ∃ body text, front = '"' :: (body ++ ['\\']) ∧
            LiteralBody body text) ∧
    ∀ (before : String) (tokens : List Token) (inner value rest : List Char),
      source.toList = before.toList ++ '"' :: (inner ++ '\n' :: rest) →
      lex before = .ok tokens →
        (∀ token ∈ tokens.dropLast.getLast?, token.kind ≠ .comment) →
      LiteralBody inner value →
      lex source = .error ⟨.unterminatedString, .behind before.toList⟩ := by
  refine ⟨fun tokens h => ?_,
    fun before tokens inner value rest hsource h hlast hbody =>
    lex_feed_in_string hsource h hlast hbody⟩
  have htiles : Tiles .start source.toList tokens :=
    lexFrom_tiles (Nat.zero_le _) h
  obtain ⟨spans, htiling⟩ : ∃ spans, Tiling source.toList 0 tokens spans :=
    @Tiles.tiling _ [] _ _ htiles rfl
  have hcount := htiling.count_feeds
  refine ⟨spans, htiling, hcount, ?_,
    fun place hplace hstring front back heq => ?_⟩
  · have hiff : newlines tokens = source.toList.count '\n' ↔
        feedsInStrings source.toList tokens spans = 0 := by omega
    rw [hiff, feedsInStrings, ← List.map_uncurry_zip_eq_zipWith,
      List.sum_eq_zero_iff, List.forall_mem_map]
    refine forall₂_congr fun place _ => ?_
    simp [Function.uncurry, List.count_eq_zero]
  · exact (List.forall₂_zip htiling.stands hplace).backslash_before hstring heq

/-- A string over two lines, and one that ends in a backslash before its line
does. -/
theorem line_feeds_are_newlines_or_escaped_backslash :
    (∃ tokens spans, lex "\"a\\\nb\"\n" = .ok tokens ∧
      Tiling "\"a\\\nb\"\n".toList 0 tokens spans ∧
      newlines tokens + feedsInStrings "\"a\\\nb\"\n".toList tokens spans = 2) ∧
    lex "print(\"a\\\\\n" = .error ⟨.unterminatedString, ⟨1, 7⟩⟩ := by
  have hlines : lex "\"a\\\nb\"\n" = .ok
      [⟨.string "a\\\nb", "\"a\\\\\\nb\"", ⟨1, 1⟩⟩, ⟨.newline, "\\n", ⟨2, 3⟩⟩,
        ⟨.eof, "", ⟨3, 1⟩⟩] := by decide +kernel
  have hfeeds : "\"a\\\nb\"\n".toList.count '\n' = 2 := by decide +kernel
  obtain ⟨spans, htiling, hcount, _⟩ :=
    (line_feeds_are_newlines_or_escaped _).1 _ hlines
  have hbefore : lex "print(" = .ok
      [⟨.keyword .printWord, "print", ⟨1, 1⟩⟩, ⟨.lparen, "(", ⟨1, 6⟩⟩,
        ⟨.eof, "", ⟨1, 7⟩⟩] := by
    decide +kernel
  have hsource : "print(\"a\\\\\n".toList =
      "print(".toList ++ '"' :: (['a', '\\', '\\'] ++ ['\n']) := by
    decide +kernel
  have hbody : LiteralBody ['a', '\\', '\\'] ['a', '\\'] :=
    .plain (by decide) (by decide) (by decide) (.escape '\\' .nil)
  have hplace : Position.behind "print(".toList = ⟨1, 7⟩ := by decide
  have herror := (line_feeds_are_newlines_or_escaped _).2 "print(" _ _ _ []
    hsource hbefore (by simp) hbody
  rw [hplace] at herror
  exact ⟨⟨_, spans, hlines, htiling, hcount.trans hfeeds⟩, herror⟩

/-- The backslash takes the line feed into the string, and no newline token
tells of it. -/
theorem escaped_feed_is_no_newline :
    ∃ tokens, lex "\"a\\\nb\"" = .ok tokens ∧ newlines tokens = 0 ∧
      "\"a\\\nb\"".toList.count '\n' = 1 := by
  refine ⟨[⟨.string "a\\\nb", "\"a\\\\\\nb\"", ⟨1, 1⟩⟩, ⟨.eof, "", ⟨2, 3⟩⟩], ?_⟩
  decide +kernel

end Shellwright
