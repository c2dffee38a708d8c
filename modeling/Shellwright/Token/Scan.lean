/-
From text to tokens.  The lexer walks the characters one by one and keeps the
position of each.  Where a token starts it looks ahead, reports the token, and
passes over the rest of its characters.
-/
import Shellwright.SyntaxError
import Shellwright.Text.Word

namespace Shellwright

/-- A token found at the front of a text: its kind, its text and how many
characters it has after the first. -/
structure Lexeme where
  kind : TokenKind
  text : String
  extra : Nat
deriving DecidableEq, Repr

namespace Lexeme

/-- A token with a fixed spelling. -/
def symbol (kind : TokenKind) (extra : Nat) : Lexeme :=
  ⟨kind, kind.symbol?.getD "", extra⟩

/-- Blanks separate tokens; a line feed is a token itself. -/
def isSeparator (c : Char) : Bool := c == ' ' || c == '\t' || c == '\r'

/-- The number a run of decimal digits stands for. -/
def decimalValue (digits : List Char) : Nat :=
  digits.foldl (fun n d => 10 * n + (d.toNat - '0'.toNat)) 0

/-- The largest number a program can write. -/
def largestNumber : Nat := 9223372036854775807

/-- What a backslash and `c` stand for inside a string. -/
def unescape (c : Char) : List Char :=
  if c = 'n' then ['\n']
  else if c = 't' then ['\t']
  else if c = 'r' then ['\r']
  else if c = '"' then ['"']
  else if c = '\\' then ['\\']
  else ['\\', c]

/-- The value of a string whose opening quote has been read, and the number of
characters up to and including the closing quote.  A string ends on its line,
but a line feed after a backslash belongs to it. -/
def scanString : List Char → Option (List Char × Nat)
  | [] => none
  | '"' :: _ => some ([], 1)
  | '\n' :: _ => none
  | ['\\'] => none
  | '\\' :: c :: rest =>
      (scanString rest).map fun (value, length) =>
        (unescape c ++ value, length + 2)
  | c :: rest =>
      (scanString rest).map fun (value, length) => (c :: value, length + 1)

def scanWord (c : Char) (rest : List Char) : Lexeme :=
  let tail := rest.takeWhile isWordChar
  let word := String.ofList (c :: tail)
  let kind :=
    if word = "true" then .bool true
    else if word = "false" then .bool false
    else
      match Keyword.ofText? word with
      | some keyword => .keyword keyword
      | none => .ident word
  ⟨kind, word, tail.length⟩

def scanNumber (c : Char) (rest : List Char) : Except SyntaxFault Lexeme :=
  let tail := rest.takeWhile Char.isDigit
  let digits := c :: tail
  let value := decimalValue digits
  if value ≤ largestNumber then
    .ok ⟨.number value, String.ofList digits, tail.length⟩
  else .error (.numberOutOfRange (String.ofList digits))

/-- The token at the front of `c :: rest`, where `c` is no separator. -/
def scan (c : Char) (rest : List Char) : Except SyntaxFault Lexeme :=
  match c, rest with
  | '\n', _ => .ok ⟨.newline, "\\n", 0⟩
  | '(', _ => .ok (symbol .lparen 0)
  | ')', _ => .ok (symbol .rparen 0)
  | '[', _ => .ok (symbol .lbracket 0)
  | ']', _ => .ok (symbol .rbracket 0)
  | '\x7b', _ => .ok (symbol .lbrace 0)
  | '\x7d', _ => .ok (symbol .rbrace 0)
  | ',', _ => .ok (symbol .comma 0)
  | ';', _ => .ok (symbol .semicolon 0)
  | '@', _ => .ok (symbol .atSign 0)
  | ':', '=' :: _ => .ok (symbol .shortDeclare 1)
  | ':', _ => .ok (symbol .colon 0)
  | '=', '=' :: _ => .ok (symbol (.compare .eq) 1)
  | '=', _ => .ok (symbol .assign 0)
  | '!', '=' :: _ => .ok (symbol (.compare .notEq) 1)
  | '!', _ => .ok (symbol .not 0)
  | '<', '=' :: _ => .ok (symbol (.compare .le) 1)
  | '<', _ => .ok (symbol (.compare .lt) 0)
  | '>', '=' :: _ => .ok (symbol (.compare .ge) 1)
  | '>', _ => .ok (symbol (.compare .gt) 0)
  | '&', '&' :: _ => .ok (symbol (.logical .and) 1)
  | '&', _ => .error .loneAmpersand
  | '|', '|' :: _ => .ok (symbol (.logical .or) 1)
  | '|', _ => .ok (symbol .pipe 0)
  | '+', '+' :: _ => .ok (symbol .increment 1)
  | '+', '=' :: _ => .ok (symbol (.compoundAssign .add) 1)
  | '+', _ => .ok (symbol (.binary .add) 0)
  | '-', '-' :: _ => .ok (symbol .decrement 1)
  | '-', '=' :: _ => .ok (symbol (.compoundAssign .sub) 1)
  | '-', _ => .ok (symbol (.binary .sub) 0)
  | '*', '=' :: _ => .ok (symbol (.compoundAssign .mul) 1)
  | '*', _ => .ok (symbol (.binary .mul) 0)
  | '%', '=' :: _ => .ok (symbol (.compoundAssign .mod) 1)
  | '%', _ => .ok (symbol (.binary .mod) 0)
  | '/', '/' :: _ =>
      let tail := rest.takeWhile (· != '\n')
      .ok ⟨.comment, String.ofList ('/' :: tail), tail.length⟩
  | '/', '=' :: _ => .ok (symbol (.compoundAssign .div) 1)
  | '/', _ => .ok (symbol (.binary .div) 0)
  | '"', _ =>
      match scanString rest with
      | some (value, length) =>
          let text := String.ofList value
          .ok ⟨.string text, quoted text, length⟩
      | none => .error .unterminatedString
  | _, _ =>
      if c.isDigit then scanNumber c rest
      else if isWordStart c then .ok (scanWord c rest)
      else .error (.unexpectedCharacter c)

end Lexeme

/-- The tokens of a text from position `pos` on, after passing over `skip`
characters.  The list ends with the end-of-file token. -/
def lexFrom (skip : Nat) (pos : Position) : List Char →
    Except SyntaxError (List Token)
  | [] => .ok [⟨.eof, "", pos⟩]
  | c :: rest =>
      match skip with
      | skip + 1 => lexFrom skip (pos.step c) rest
      | 0 =>
          if Lexeme.isSeparator c then lexFrom 0 (pos.step c) rest
          else
            match Lexeme.scan c rest with
            | .error fault => .error ⟨fault, pos⟩
            | .ok lexeme =>
                (lexFrom lexeme.extra (pos.step c) rest).map
                  (⟨lexeme.kind, lexeme.text, pos⟩ :: ·)

/-- All tokens of a source text, comments included. -/
def lex (source : String) : Except SyntaxError (List Token) :=
  lexFrom 0 .start source.toList

end Shellwright
