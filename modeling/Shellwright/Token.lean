/-
Tokens: what the lexer hands to the parser, and the names diagnostics give
them.
-/
import Shellwright.Listing
import Shellwright.Operator
import Shellwright.Position
import Shellwright.Text.Quoted

namespace Shellwright

/-- Reserved words.  The two truth values are words as well, but they are
literals and not listed here. -/
inductive Keyword where
  | varWord
  | constWord
  | funcWord
  | returnWord
  | ifWord
  | elseWord
  | forWord
  | rangeWord
  | lenWord
  | breakWord
  | continueWord
  | printWord
  | inputWord
  | switchWord
  | caseWord
  | defaultWord
deriving DecidableEq, Repr

namespace Keyword

def all : List Keyword :=
  [varWord, constWord, funcWord, returnWord, ifWord, elseWord, forWord,
    rangeWord, lenWord, breakWord, continueWord, printWord, inputWord,
    switchWord, caseWord, defaultWord]

def text : Keyword → String
  | varWord => "var"
  | constWord => "const"
  | funcWord => "func"
  | returnWord => "return"
  | ifWord => "if"
  | elseWord => "else"
  | forWord => "for"
  | rangeWord => "range"
  | lenWord => "len"
  | breakWord => "break"
  | continueWord => "continue"
  | printWord => "print"
  | inputWord => "input"
  | switchWord => "switch"
  | caseWord => "case"
  | defaultWord => "default"

/-- The keyword in a listing. -/
def title : Keyword → String
  | varWord => "Var"
  | constWord => "Const"
  | funcWord => "Func"
  | returnWord => "Return"
  | ifWord => "If"
  | elseWord => "Else"
  | forWord => "For"
  | rangeWord => "Range"
  | lenWord => "Len"
  | breakWord => "Break"
  | continueWord => "Continue"
  | printWord => "Print"
  | inputWord => "Input"
  | switchWord => "Switch"
  | caseWord => "Case"
  | defaultWord => "Default"

/-- The keyword spelled `word`. -/
def ofText? (word : String) : Option Keyword :=
  all.find? (fun keyword => keyword.text == word)

end Keyword

inductive TokenKind where
  | comment
  | lparen
  | rparen
  | lbracket
  | rbracket
  | lbrace
  | rbrace
  | assign
  | shortDeclare
  | compoundAssign (op : BinaryOp)
  | increment
  | decrement
  | binary (op : BinaryOp)
  | compare (op : CompareOp)
  | logical (op : LogicalOp)
  | not
  | bool (value : Bool)
  | number (value : Nat)
  | string (value : String)
  | keyword (word : Keyword)
  | comma
  | semicolon
  | colon
  | newline
  | ident (name : String)
  | pipe
  | atSign
  | eof
deriving DecidableEq, Repr

/-- A token with the text it was read from and the place where it starts. -/
structure Token where
  kind : TokenKind
  text : String
  pos : Position
deriving DecidableEq, Repr

/-- How a listing names an operator. -/
def BinaryOp.title : BinaryOp → String
  | add => "Add"
  | sub => "Sub"
  | mul => "Mul"
  | div => "Div"
  | mod => "Mod"

def CompareOp.title : CompareOp → String
  | eq => "Eq"
  | notEq => "NotEq"
  | lt => "Lt"
  | le => "Le"
  | gt => "Gt"
  | ge => "Ge"

def LogicalOp.title : LogicalOp → String
  | and => "And"
  | or => "Or"

def UnaryOp.title : UnaryOp → String
  | neg => "Neg"
  | not => "Not"

namespace TokenKind

def truthText (value : Bool) : String := if value then "true" else "false"

/-- The spelling of a token that is always spelled the same. -/
def symbol? : TokenKind → Option String
  | lparen => some "("
  | rparen => some ")"
  | lbracket => some "["
  | rbracket => some "]"
  | lbrace => some "\x7b"
  | rbrace => some "\x7d"
  | assign => some "="
  | shortDeclare => some ":="
  | compoundAssign op => some (op.symbol ++ "=")
  | increment => some "++"
  | decrement => some "--"
  | binary op => some op.symbol
  | compare op => some op.symbol
  | logical op => some op.symbol
  | not => some "!"
  | bool value => some (truthText value)
  | keyword word => some word.text
  | comma => some ","
  | semicolon => some ";"
  | colon => some ":"
  | pipe => some "|"
  | atSign => some "@"
  | comment | number _ | string _ | newline | ident _ | eof => none

/-- What a diagnostic calls the token. -/
def describe : TokenKind → String
  | comment => "comment"
  | number value => "number " ++ toString value
  | string _ => "string literal"
  | newline => "newline"
  | ident name => "identifier '" ++ name ++ "'"
  | eof => "end of file"
  | kind => "'" ++ kind.symbol?.getD "" ++ "'"

def listing : TokenKind → Listing
  | comment => .word "Comment"
  | lparen => .word "LParen"
  | rparen => .word "RParen"
  | lbracket => .word "LBracket"
  | rbracket => .word "RBracket"
  | lbrace => .word "LBrace"
  | rbrace => .word "RBrace"
  | assign => .word "Assign"
  | shortDeclare => .word "ShortDeclare"
  | compoundAssign op => .tuple "CompoundAssign" [.word op.title]
  | increment => .word "Increment"
  | decrement => .word "Decrement"
  | binary op => .tuple "Binary" [.word op.title]
  | compare op => .tuple "Compare" [.word op.title]
  | logical op => .tuple "Logical" [.word op.title]
  | not => .word "Not"
  | bool value => .tuple "Bool" [.truth value]
  | number value => .tuple "Number" [.word (toString value)]
  | string value => .tuple "String" [.word (quoted value)]
  | keyword word => .word word.title
  | comma => .word "Comma"
  | semicolon => .word "Semicolon"
  | colon => .word "Colon"
  | newline => .word "Newline"
  | ident name => .tuple "Ident" [.word (quoted name)]
  | pipe => .word "Pipe"
  | atSign => .word "At"
  | eof => .word "Eof"

end TokenKind

end Shellwright
