/-
What the lexer recognises.  Every token stands for a run of characters, its
lexeme: a fixed spelling, a word, a run of digits, a quoted text or a comment.
-/
import Shellwright.Token.Scan
import Mathlib

namespace Shellwright

/-- The characters between the quotes of a string and the text they stand for.
A backslash takes the next character with it, whatever it is. -/
inductive LiteralBody : List Char → List Char → Prop where
  | nil : LiteralBody [] []
  | escape {inner value : List Char} (c : Char) :
      LiteralBody inner value →
        LiteralBody ('\\' :: c :: inner) (Lexeme.unescape c ++ value)
  | plain {inner value : List Char} {c : Char} : c ≠ '"' → c ≠ '\\' → c ≠ '\n' →
      LiteralBody inner value → LiteralBody (c :: inner) (c :: value)

/-- The characters a token of this kind is read from. -/
def TokenKind.ReadFrom (lexeme : List Char) : TokenKind → Prop
  | .eof => lexeme = []
  | .newline => lexeme = ['\n']
  | .comment => ∃ line, lexeme = '/' :: '/' :: line ∧ '\n' ∉ line
  | .string value =>
      ∃ inner, lexeme = '"' :: (inner ++ ['"']) ∧ LiteralBody inner value.toList
  | .number value =>
      lexeme ≠ [] ∧ lexeme.all Char.isDigit = true ∧
        Lexeme.decimalValue lexeme = value
  | .ident name => isWord lexeme = true ∧ name = String.ofList lexeme
  | kind => kind.symbol? = some (String.ofList lexeme)

theorem Keyword.text_of_ofText? {word : String} {keyword : Keyword}
    (h : Keyword.ofText? word = some keyword) : keyword.text = word := by
  unfold Keyword.ofText? at h
  simpa using List.find?_some h

namespace Lexeme

/-- The lexeme at the front of a text: its first character and as many more as
it says. -/
def chars (lexeme : Lexeme) (c : Char) (rest : List Char) : List Char :=
  c :: rest.take lexeme.extra

/-- The lexeme lies within the text and spells its kind. -/
structure Fits (lexeme : Lexeme) (c : Char) (rest : List Char) : Prop where
  within : lexeme.extra ≤ rest.length
  reads : lexeme.kind.ReadFrom (lexeme.chars c rest)
  notEnd : lexeme.kind ≠ .eof

theorem scanString_body {rest value : List Char} {length : Nat}
    (h : scanString rest = some (value, length)) :
    ∃ inner tail, rest = inner ++ '"' :: tail ∧ length = inner.length + 1 ∧
      LiteralBody inner value := by
  fun_induction scanString rest generalizing value length with
  | case1 => cases h
  | case2 tail =>
      cases h
      exact ⟨[], tail, rfl, rfl, .nil⟩
  | case3 => cases h
  | case4 => cases h
  | case5 c rest ih =>
      obtain ⟨⟨found, count⟩, hrest, hfound⟩ := Option.map_eq_some_iff.mp h
      obtain ⟨rfl, rfl⟩ := Prod.mk.inj hfound
      obtain ⟨inner, tail, rfl, rfl, hbody⟩ := ih hrest
      exact ⟨'\\' :: c :: inner, tail, rfl, rfl, .escape c hbody⟩
  | case6 c rest hquote hline hlast hescape ih =>
      obtain ⟨⟨found, count⟩, hrest, hfound⟩ := Option.map_eq_some_iff.mp h
      obtain ⟨rfl, rfl⟩ := Prod.mk.inj hfound
      obtain ⟨inner, tail, rfl, rfl, hbody⟩ := ih hrest
      refine ⟨c :: inner, tail, rfl, rfl, .plain hquote ?_ hline hbody⟩
      rintro rfl
      cases inner with
      | nil => exact hescape '"' tail rfl rfl
      | cons next inner => exact hescape next _ rfl rfl

variable {c : Char} {rest : List Char} {lexeme : Lexeme}

/-- A lexeme that goes on while `keep` holds. -/
theorem chars_takeWhile (keep : Char → Bool) (kind : TokenKind)
    (text : String) :
    (⟨kind, text, (rest.takeWhile keep).length⟩ : Lexeme).chars c rest =
      c :: rest.takeWhile keep :=
  congrArg (c :: ·) (List.prefix_iff_eq_take.mp
    (List.takeWhile_prefix keep)).symm

theorem length_takeWhile_le (keep : Char → Bool) :
    (rest.takeWhile keep).length ≤ rest.length :=
  (List.takeWhile_prefix keep).length_le

theorem scanWord_fits (hstart : isWordStart c = true) :
    (scanWord c rest).Fits c rest := by
  have hword : isWord (c :: rest.takeWhile isWordChar) = true := by
    rw [isWord, hstart, Bool.true_and]
    exact List.all_takeWhile
  unfold scanWord
  dsimp only
  -- the kind depends on the word only
  split
  · next htrue =>
      refine ⟨length_takeWhile_le _, ?_, by simp⟩
      rw [chars_takeWhile]
      exact congrArg some htrue.symm
  · split
    · next hfalse =>
        refine ⟨length_takeWhile_le _, ?_, by simp⟩
        rw [chars_takeWhile]
        exact congrArg some hfalse.symm
    · split
      · next keyword hkeyword =>
          refine ⟨length_takeWhile_le _, ?_, by simp⟩
          rw [chars_takeWhile]
          exact congrArg some (Keyword.text_of_ofText? hkeyword)
      · refine ⟨length_takeWhile_le _, ?_, by simp⟩
        rw [chars_takeWhile]
        exact ⟨hword, rfl⟩

theorem scanNumber_fits (hdigit : c.isDigit = true)
    (h : scanNumber c rest = .ok lexeme) : lexeme.Fits c rest := by
  unfold scanNumber at h
  dsimp only at h
  split at h
  · cases h
    refine ⟨length_takeWhile_le _, ?_, by simp⟩
    rw [chars_takeWhile]
    refine ⟨by simp, ?_, rfl⟩
    rw [List.all_cons, hdigit, Bool.true_and]
    exact List.all_takeWhile
  · cases h

theorem comment_fits {more : List Char} (hrest : rest = '/' :: more) :
    (⟨.comment, String.ofList ('/' :: rest.takeWhile (· != '\n')),
      (rest.takeWhile (· != '\n')).length⟩ : Lexeme).Fits '/' rest := by
  refine ⟨length_takeWhile_le _, ?_, by simp⟩
  rw [chars_takeWhile, hrest]
  refine ⟨more.takeWhile (· != '\n'), by simp, fun hmem => ?_⟩
  simpa using List.mem_takeWhile_imp hmem

theorem string_fits {value : List Char} {length : Nat}
    (h : scanString rest = some (value, length)) :
    (⟨.string (String.ofList value), quoted (String.ofList value), length⟩ :
      Lexeme).Fits '"' rest := by
  obtain ⟨inner, tail, rfl, rfl, hbody⟩ := scanString_body h
  refine ⟨by simp, ⟨inner, ?_, by simpa using hbody⟩, by simp⟩
  simp [chars, List.take_append]

/-- What a scan finds lies within the text and spells its kind. -/
theorem scan_fits (h : scan c rest = .ok lexeme) : lexeme.Fits c rest := by
  unfold scan at h
  split at h
  -- fixed spellings of one character and of two
  all_goals try
    cases h
    exact ⟨Nat.zero_le _, rfl, nofun⟩
  all_goals try
    cases h
    exact ⟨Nat.le_add_left _ _, rfl, nofun⟩
  · cases h
  · cases h
    exact comment_fits rfl
  · split at h
    · next hbody =>
        cases h
        exact string_fits hbody
    · cases h
  · split at h
    · next hdigit => exact scanNumber_fits hdigit h
    · split at h
      · next hstart =>
          cases h
          exact scanWord_fits hstart
      · cases h

end Lexeme

/-- The first token and those behind it. -/
theorem lexFrom_cons_ok {pos : Position} {c : Char} {rest : List Char}
    {tokens : List Token} (hblank : ¬Lexeme.isSeparator c = true)
    (h : lexFrom 0 pos (c :: rest) = .ok tokens) :
    ∃ lexeme found, Lexeme.scan c rest = .ok lexeme ∧
      lexFrom lexeme.extra (pos.step c) rest = .ok found ∧
      tokens = ⟨lexeme.kind, lexeme.text, pos⟩ :: found := by
  rw [lexFrom, if_neg hblank] at h
  cases hscan : Lexeme.scan c rest with
  | error fault => simp [hscan] at h
  | ok lexeme =>
      simp only [hscan] at h
      cases hrest : lexFrom lexeme.extra (pos.step c) rest with
      | error error => simp [hrest, Except.map] at h
      | ok found =>
          simp only [hrest, Except.map, Except.ok.injEq] at h
          exact ⟨lexeme, found, rfl, hrest, h.symm⟩

end Shellwright
