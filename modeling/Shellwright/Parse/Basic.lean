/-
The parser's state and its elementary steps.

All recursion of the parser goes through two combinators, `nested` for grammar
rules that contain themselves and `iterate` for repetitions.  Both are bounded
by the number of tokens ahead, which is enough because every round and every
nested rule first reads a token.
-/
import Shellwright.SyntaxError

namespace Shellwright

/-- The tokens still to be read (`last` closes the input and is never passed),
the names known so far, and how many hidden names have been made. -/
structure ParserState where
  ahead : List Token
  last : Token
  scope : Scope
  hidden : Nat

/-- The token to be read next. -/
def ParserState.next (state : ParserState) : Token :=
  state.ahead.headD state.last

/-- Parsers: the first fault ends the parse. -/
abbrev Parse := StateT ParserState (Except SyntaxError)

/-- What a round of a repetition decides. -/
inductive Round (α β : Type) where
  | again (value : α)
  | done (result : β)

namespace Parse

variable {α β : Type}

def fail (fault : SyntaxFault) (pos : Position) : Parse α := throw ⟨fault, pos⟩

def peek : Parse Token := return (← get).next

def peekKind : Parse TokenKind := return (← get).next.kind

/-- The position of the next token. -/
def position : Parse Position := return (← get).next.pos

/-- The kind of the token `n` places after the next one. -/
def peekAfter (n : Nat) : Parse (Option TokenKind) :=
  return (← get).ahead[n]?.map Token.kind

/-- Reads the next token. -/
def advance : Parse Token := do
  let state ← get
  set { state with ahead := state.ahead.tail }
  return state.next

/-- Complains about the next token. -/
def expected (wanted : Wanted) : Parse α := do
  let token ← peek
  fail (.expected wanted token.kind) token.pos

/-- Reads a token of the given kind. -/
def expect (kind : TokenKind) : Parse Unit := do
  if (← peekKind) = kind then
    let _ ← advance
  else
    expected (.token kind)

/-- Reads a token of the given kind if it is next. -/
def accept (kind : TokenKind) : Parse Bool := do
  if (← peekKind) = kind then
    let _ ← advance
    return true
  else
    return false

def identifier (wanted : Wanted) : Parse (String × Position) := do
  let token ← peek
  match token.kind with
  | .ident name =>
      let _ ← advance
      return (name, token.pos)
  | _ => expected wanted

/-- Passes over tokens of certain kinds. -/
def skipWhile (skipped : TokenKind → Bool) : Parse Unit :=
  modify fun state =>
    { state with
      ahead := state.ahead.dropWhile (fun token => skipped token.kind) }

/-- Line feeds inside brackets have no meaning. -/
def skipLineBreaks : Parse Unit := skipWhile (· == .newline)

/-- Line feeds and semicolons between statements. -/
def skipSeparators : Parse Unit :=
  skipWhile fun kind => kind == .newline || kind == .semicolon

/-- A statement ends at a line feed or semicolon, and before whatever closes
the block it stands in. -/
def endStatement : Parse Unit := do
  match ← peekKind with
  | .newline | .semicolon =>
      let _ ← advance
  | .rbrace | .eof | .keyword .caseWord | .keyword .defaultWord => return
  | _ => expected .endOfStatement

/-- A grammar rule that contains itself, unfolded at most `depth` times. -/
def nestedAt (rule : Parse α → Parse α) : Nat → Parse α
  | 0 => do fail .tooDeep (← position)
  | depth + 1 => rule (nestedAt rule depth)

/-- A grammar rule that contains itself. -/
def nested (rule : Parse α → Parse α) : Parse α := do
  nestedAt rule ((← get).ahead.length + 1)

/-- At most `rounds` rounds of a repetition. -/
def iterateAt (round : α → Parse (Round α β)) : Nat → α → Parse β
  | 0, _ => do fail .tooDeep (← position)
  | rounds + 1, value => do
      match ← round value with
      | .again value => iterateAt round rounds value
      | .done result => return result

/-- Repeats `round` until it is done. -/
def iterate (round : α → Parse (Round α β)) (value : α) : Parse β := do
  iterateAt round ((← get).ahead.length + 1) value

/-- Items separated by commas up to the token `close`, which is not read.  A
comma may follow the last item, and line feeds may stand around each.  `item`
is given the items before it. -/
def commaSeparated (close : TokenKind) (item : List α → Parse α) :
    Parse (List α) := do
  skipLineBreaks
  iterate (fun items => do
    if (← peekKind) = close then
      return .done items
    let next ← item items
    skipLineBreaks
    if ← accept .comma then
      skipLineBreaks
      return .again (items ++ [next])
    else
      return .done (items ++ [next])) []

/-- A type: a base name, after `[]` for a list. -/
def valueType : Parse ValueType := do
  let isList ← accept .lbracket
  if isList then
    expect .rbracket
  match ← peekKind with
  | .ident name =>
      match BaseType.ofName? name with
      | some base =>
          let _ ← advance
          return ⟨base, isList⟩
      | none => expected .typeName
  | _ => expected .typeName

/-- Whether a type is next. -/
def atType : Parse Bool := do
  match ← peekKind with
  | .lbracket => return (← peekAfter 1) == some .rbracket
  | .ident name => return (BaseType.ofName? name).isSome
  | _ => return false

def lookupVariable? (name : String) : Parse (Option Variable) :=
  return (← get).scope.lookupVariable? name

def lookupFunction? (name : String) : Parse (Option Signature) :=
  return (← get).scope.lookupFunction? name

def modifyScope (change : Scope → Scope) : Parse Unit :=
  modify fun state => { state with scope := change state.scope }

/-- A fresh name no program can spell. -/
def hiddenName (stem : String) : Parse String := do
  let state ← get
  set { state with hidden := state.hidden + 1 }
  return "__" ++ stem ++ toString state.hidden

def undeclaredVariable (name : String) (pos : Position) : Parse α := do
  let names := (← get).scope.variableNames
  fail (.undeclaredVariable name (Suggestion.closest? name names)) pos

def undeclaredFunction (name : String) (pos : Position) : Parse α := do
  let names := (← get).scope.functionNames
  fail (.undeclaredFunction name (Suggestion.closest? name names)) pos

end Parse

end Shellwright
