/-
Spelling tokens.  Tokens that are written out one by one, with a blank between
any two, are read back as they were.
-/
import Shellwright.Proofs.Token.Tiling

namespace Shellwright

variable {kind : TokenKind}

/-- One character of a text, as it is written between quotes. -/
def spelledChar (c : Char) : List Char :=
  if c = '"' then ['\\', '"']
  else if c = '\\' then ['\\', '\\']
  else if c = '\n' then ['\\', 'n']
  else if c = '\t' then ['\\', 't']
  else if c = '\r' then ['\\', 'r']
  else [c]

/-- How a program writes the token. -/
def TokenKind.spelling : TokenKind → String
  | .newline => "\n"
  | .number value => toString value
  | .string value =>
      String.ofList ('"' :: (value.toList.flatMap spelledChar ++ ['"']))
  | .ident name => name
  | kind => kind.symbol?.getD ""

/-- Tokens that can be written out: no comments and no end, numbers within the
range of a literal, and names that are not reserved. -/
def TokenKind.Spellable : TokenKind → Prop
  | .comment | .eof => False
  | .number value => value < 2 ^ 63
  | .ident name => isWord name.toList = true ∧ name ≠ "true" ∧ name ≠ "false" ∧
      ∀ keyword : Keyword, keyword.text ≠ name
  | _ => True

def spell (kinds : List TokenKind) : String :=
  String.intercalate " " (kinds.map TokenKind.spelling)

theorem Keyword.ofText?_text (keyword : Keyword) :
    Keyword.ofText? keyword.text = some keyword := by
  cases keyword <;> decide

theorem Keyword.isWord_text (keyword : Keyword) :
    isWord keyword.text.toList = true := by
  cases keyword <;> decide

theorem Keyword.text_ne_truth (keyword : Keyword) (value : Bool) :
    keyword.text ≠ TokenKind.truthText value := by
  cases keyword <;> cases value <;> decide

namespace Lexeme

variable {keep : Char → Bool}

/-- What may follow a written token: a blank, or nothing. -/
def Boundary (rest : List Char) : Prop := rest = [] ∨ ∃ more, rest = ' ' :: more

variable {c : Char} {tail rest : List Char}

theorem Boundary.head (hrest : Boundary rest) (hblank : keep ' ' = false) :
    ∀ next ∈ rest.head?, keep next = false := by
  rcases hrest with rfl | ⟨more, rfl⟩
  · simp
  · simpa using hblank

theorem takeWhile_boundary (htail : tail.all keep = true)
    (hrest : ∀ next ∈ rest.head?, keep next = false) :
    (tail ++ rest).takeWhile keep = tail := by
  rw [List.takeWhile_append_of_pos (List.all_eq_true.mp htail)]
  cases rest with
  | nil => simp
  | cons next rest => simp [hrest next rfl]

theorem scan_of_isWordStart (h : isWordStart c = true) :
    scan c rest = .ok (scanWord c rest) := by
  have hdigit : c.isDigit = false := by
    have hclass : c.isAlpha = true ∨ c = '_' := by simpa [isWordStart] using h
    rcases hclass with halpha | rfl
    · grind [Char.isAlpha, Char.isUpper, Char.isLower, Char.isDigit]
    · decide
  unfold scan
  split
  all_goals try exact absurd h (by decide)
  rw [if_neg (by simp [hdigit]), if_pos h]

theorem scan_of_isDigit (h : c.isDigit = true) :
    scan c rest = scanNumber c rest := by
  unfold scan
  split
  all_goals try exact absurd h (by decide)
  rw [if_pos h]

theorem isSeparator_of_keeps (hspace : keep ' ' = false)
    (htab : keep '\t' = false) (hreturn : keep '\r' = false)
    (h : keep c = true) : isSeparator c = false := by
  refine Bool.eq_false_iff.mpr fun hblank => ?_
  rcases blank_of_isSeparator hblank with rfl | rfl | rfl
  all_goals simp_all

/-- The written token `word` is read back as `kind`, whatever stands behind
it. -/
def ReadsBack (word : String) (kind : TokenKind) : Prop :=
  ∀ rest, Boundary rest → ∃ c tail text, word.toList = c :: tail ∧
    isSeparator c = false ∧
    scan c (tail ++ rest) = .ok ⟨kind, text, tail.length⟩

/-- The kind of a word depends on the whole word. -/
def wordKind (word : String) : TokenKind :=
  if word = "true" then .bool true
  else if word = "false" then .bool false
  else
    match Keyword.ofText? word with
    | some keyword => .keyword keyword
    | none => .ident word

theorem readsBack_word {word : String} (hword : isWord word.toList = true)
    (hkind : wordKind word = kind) : ReadsBack word kind := by
  subst hkind
  intro rest hrest
  cases hchars : word.toList with
  | nil => simp [hchars, isWord] at hword
  | cons c tail =>
      rw [hchars, isWord, Bool.and_eq_true] at hword
      obtain rfl : word = String.ofList (c :: tail) := by
        rw [← hchars, String.ofList_toList]
      refine ⟨c, tail, String.ofList (c :: tail), rfl,
        isSeparator_of_keeps rfl rfl rfl hword.1, ?_⟩
      rw [scan_of_isWordStart hword.1, scanWord, takeWhile_boundary hword.2
        (hrest.head (by decide))]
      rfl

/-- The digits of a number in front of something else are one lexeme, unless the
number is too large. -/
theorem scan_toString (value : Nat)
    (hrest : ∀ next ∈ rest.head?, next.isDigit = false) :
    ∃ c tail, (toString value).toList = c :: tail ∧ c.isDigit = true ∧
      scan c (tail ++ rest) =
        if value ≤ largestNumber then .ok ⟨.number value, toString value,
          tail.length⟩
        else .error (.numberOutOfRange (toString value)) := by
  have hdigits : (toString value).toList = Nat.toDigits 10 value := by
    rw [Nat.toString_eq_repr, Nat.toList_repr]
  cases hchars : (toString value).toList with
  | nil => exact absurd (hdigits.symm.trans hchars) Nat.toDigits_ne_nil
  | cons c tail =>
      have hall : ∀ d ∈ c :: tail, d.isDigit = true := by
        rw [← hchars, hdigits]
        exact fun d hd => Nat.isDigit_of_mem_toDigits (by decide) (by decide) hd
      have hc : c.isDigit = true := hall c (by simp)
      have hdecimal : decimalValue (c :: tail) = value := by
        rw [← hchars, hdigits]
        exact Nat.ofDigitChars_ten_toDigits
      have htail : tail.all Char.isDigit = true :=
        List.all_eq_true.mpr fun d hd => hall d (List.mem_cons_of_mem c hd)
      have htext : String.ofList (c :: tail) = toString value := by
        rw [← hchars, String.ofList_toList]
      refine ⟨c, tail, rfl, hc, ?_⟩
      rw [scan_of_isDigit hc, scanNumber, takeWhile_boundary htail hrest,
        hdecimal, htext]

theorem readsBack_number {value : Nat} (hvalue : value < 2 ^ 63) :
    ReadsBack (toString value) (.number value) := by
  intro rest hrest
  obtain ⟨c, tail, hchars, hc, hscan⟩ :=
    scan_toString value (hrest.head (by decide))
  refine ⟨c, tail, toString value, hchars,
    isSeparator_of_keeps rfl rfl rfl hc, ?_⟩
  rw [hscan]
  exact if_pos (Nat.le_of_lt_succ hvalue)

theorem scanString_spelled (value rest : List Char) :
    scanString (value.flatMap spelledChar ++ '"' :: rest) =
      some (value, (value.flatMap spelledChar).length + 1) := by
  induction value with
  | nil => rfl
  | cons c value ih =>
      rw [List.flatMap_cons, List.append_assoc]
      by_cases hquote : c = '"'
      · subst hquote
        simp [spelledChar, scanString, ih, unescape]
      by_cases hbackslash : c = '\\'
      · subst hbackslash
        simp [spelledChar, scanString, ih, unescape]
      by_cases hline : c = '\n'
      · subst hline
        simp [spelledChar, scanString, ih, unescape]
      by_cases htab : c = '\t'
      · subst htab
        simp [spelledChar, scanString, ih, unescape]
      by_cases hreturn : c = '\r'
      · subst hreturn
        simp [spelledChar, scanString, ih, unescape]
      simp [spelledChar, hquote, hbackslash, hline, htab, hreturn,
        scanString, ih]

theorem readsBack_string (value : String) :
    ReadsBack (TokenKind.string value).spelling (.string value) := by
  intro rest _
  refine ⟨'"', value.toList.flatMap spelledChar ++ ['"'], quoted value,
    String.toList_ofList, rfl, ?_⟩
  have hbody := scanString_spelled value.toList rest
  simp only [scan, List.append_assoc, List.singleton_append, hbody,
    String.ofList_toList, List.length_append, List.length_singleton]

/-- Every written token is read back. -/
theorem readsBack_spelling (h : kind.Spellable) :
    ReadsBack kind.spelling kind := by
  cases kind with
  | comment => exact h.elim
  | eof => exact h.elim
  | number value => exact readsBack_number h
  | string value => exact readsBack_string value
  | ident name =>
      obtain ⟨hword, htrue, hfalse, hkeyword⟩ := h
      have hnone : Keyword.ofText? name = none := by
        refine Option.eq_none_iff_forall_ne_some.mpr fun keyword hsome => ?_
        exact hkeyword keyword (Keyword.text_of_ofText? hsome)
      have hkind : wordKind name = .ident name := by
        simp [wordKind, htrue, hfalse, hnone]
      exact readsBack_word hword hkind
  | keyword word =>
      have hkind : wordKind word.text = .keyword word := by
        simp [wordKind, Keyword.ofText?_text, show word.text ≠
          "true" from word.text_ne_truth true,
          show word.text ≠ "false" from word.text_ne_truth false]
      exact readsBack_word word.isWord_text hkind
  | bool value =>
      cases value with
      | false => exact readsBack_word (by decide) (by decide)
      | true => exact readsBack_word (by decide) (by decide)
  | compoundAssign op | binary op | compare op | logical op =>
      -- a longer token would go on with a character that is no blank
      intro rest hrest
      rcases hrest with rfl | ⟨more, rfl⟩ <;> cases op <;>
        exact ⟨_, _, _, rfl, rfl, rfl⟩
  | _ =>
      intro rest hrest
      rcases hrest with rfl | ⟨more, rfl⟩ <;> exact ⟨_, _, _, rfl, rfl, rfl⟩

end Lexeme

theorem lexFrom_length_append (tail rest : List Char) (pos : Position) :
    lexFrom tail.length pos (tail ++ rest) =
      lexFrom 0 (pos.after tail) rest := by
  induction tail generalizing pos with
  | nil => rfl
  | cons c tail ih => exact ih (pos.step c)

/-- The lexer goes on behind the token it has found. -/
theorem lexFrom_scan {c : Char} {tail rest : List Char} {text : String}
    (hseparator : Lexeme.isSeparator c = false)
    (hscan : Lexeme.scan c (tail ++ rest) = .ok ⟨kind, text, tail.length⟩)
    (pos : Position) :
    lexFrom 0 pos (c :: tail ++ rest) =
      (lexFrom 0 (pos.after (c :: tail)) rest).map
        (⟨kind, text, pos⟩ :: ·) := by
  rw [List.cons_append, lexFrom]
  simp only [hseparator, Bool.false_eq_true, if_false, hscan]
  rw [lexFrom_length_append]
  rfl

/-- The written token is the first one found. -/
theorem lexFrom_spelling {rest : List Char} (h : kind.Spellable)
    (hrest : Lexeme.Boundary rest) (pos : Position) :
    ∃ text, lexFrom 0 pos (kind.spelling.toList ++ rest) =
      (lexFrom 0 (pos.after kind.spelling.toList) rest).map
        (⟨kind, text, pos⟩ :: ·) := by
  obtain ⟨c, tail, text, hchars, hseparator, hscan⟩ :=
    Lexeme.readsBack_spelling h rest hrest
  rw [hchars]
  exact ⟨text, lexFrom_scan hseparator hscan pos⟩

/-- The first of several tokens has a blank behind it, the last one nothing. -/
theorem spell_cons (kind : TokenKind) (kinds : List TokenKind) :
    ∃ rest, (spell (kind :: kinds)).toList = kind.spelling.toList ++ rest ∧
      (kinds = [] ∧ rest = [] ∨ rest = ' ' :: (spell kinds).toList) := by
  cases kinds with
  | nil => exact ⟨[], by
      simp [spell, String.intercalate_singleton], .inl ⟨rfl, rfl⟩⟩
  | cons next kinds =>
      refine ⟨_, ?_, .inr rfl⟩
      simp [spell, String.intercalate_cons_cons]

theorem lexFrom_spell (kinds : List TokenKind)
    (h : ∀ kind ∈ kinds, kind.Spellable) (pos : Position) :
    ∃ tokens, lexFrom 0 pos (spell kinds).toList = .ok tokens ∧
      tokens.map Token.kind = kinds ++ [.eof] := by
  induction kinds generalizing pos with
  | nil => exact ⟨[⟨.eof, "", pos⟩], rfl, rfl⟩
  | cons kind kinds ih =>
      obtain ⟨hkind, hkinds⟩ := List.forall_mem_cons.mp h
      obtain ⟨rest, hspell, hrest⟩ := spell_cons kind kinds
      have hboundary : Lexeme.Boundary rest := by
        rcases hrest with ⟨_, hnil⟩ | hblank
        · exact .inl hnil
        · exact .inr ⟨_, hblank⟩
      obtain ⟨text, hfirst⟩ := lexFrom_spelling hkind hboundary pos
      have hmore : ∃ tokens, lexFrom 0 (pos.after kind.spelling.toList) rest =
        .ok tokens ∧
          tokens.map Token.kind = kinds ++ [.eof] := by
        rcases hrest with ⟨rfl, rfl⟩ | rfl
        · exact ih hkinds _
        · exact ih hkinds (Position.step _ ' ')
      obtain ⟨tokens, htokens, hkinds'⟩ := hmore
      refine ⟨⟨kind, text, pos⟩ :: tokens, ?_, ?_⟩
      · rw [hspell, hfirst, htokens]
        rfl
      · simp [hkinds']

/-- Lexing undoes spelling: tokens written out with single blanks between them
are found again, in their order, with the end behind them and nothing else. -/
theorem lex_spell (kinds : List TokenKind)
    (h : ∀ kind ∈ kinds, kind.Spellable) :
    ∃ tokens, lex (spell kinds) = .ok tokens ∧
      tokens.map Token.kind = kinds ++ [.eof] :=
  lexFrom_spell kinds h .start

/-- Longest matches, a name that starts like a keyword, the largest number and a
text with quotes and a backslash. -/
theorem lex_spell_longest_matches :
    ∃ tokens, lex "+ ++ += | || iffy if 9223372036854775807 \"a\\\"\\\\\" \n" =
      .ok tokens ∧
      tokens.map Token.kind = [.binary .add, .increment,
        .compoundAssign .add, .pipe, .logical .or, .ident "iffy",
        .keyword .ifWord, .number 9223372036854775807, .string "a\"\\",
        .newline, .eof] :=
  lex_spell [.binary .add, .increment, .compoundAssign .add, .pipe,
    .logical .or, .ident "iffy", .keyword .ifWord, .number 9223372036854775807,
    .string "a\"\\", .newline] (by
      simp only [List.forall_mem_cons, TokenKind.Spellable, List.not_mem_nil,
        false_implies, implies_true, and_true, true_and]
      refine ⟨⟨by decide, by decide, by decide, fun keyword => ?_⟩, by decide⟩
      cases keyword <;> decide)

end Shellwright
