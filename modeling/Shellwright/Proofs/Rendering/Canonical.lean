/-
Expressions in the form in which they can be written without further
parentheses, and the tokens that write them.  Whatever the parser reads has this
form.
-/
import Shellwright.Proofs.Parse.Expr

namespace Shellwright

namespace Expr

/-- How tightly an expression binds. -/
def level : Expr → Nat
  | .logical op _ _ _ => op.level
  | .compare _ _ _ _ => 2
  | .binary op _ _ _ => op.level
  | .unary _ _ _ => 5
  | .listElement _ _ _ | .substring _ _ _ _ => 6
  | _ => 7

/-- No integer is negative, and every operand binds as tightly as its place asks
for: operators group to the left, unary operators take unary ones, and indices
stand behind indices or what stands on its own. -/
inductive Canonical : Expr → Prop where
  | bool {value types} : Canonical (.bool value types)
  | int {value types} : 0 ≤ value → Canonical (.int value types)
  | string {value types} : Canonical (.string value types)
  | unary {op operand types} : Canonical operand → 5 ≤ operand.level →
      Canonical (.unary op operand types)
  | binary {op left right types} : Canonical left → Canonical right →
      op.level ≤ left.level → op.level < right.level →
        Canonical (.binary op left right types)
  | compare {op left right types} : Canonical left → Canonical right →
      2 ≤ left.level → 2 < right.level →
        Canonical (.compare op left right types)
  | logical {op left right types} : Canonical left → Canonical right →
      op.level ≤ left.level → op.level < right.level →
        Canonical (.logical op left right types)
  | var {name types} : Canonical (.var name types)
  | listLiteral {items types} : (∀ item ∈ items, Canonical item) →
      Canonical (.listLiteral items types)
  | listElement {list index types} : Canonical list → Canonical index →
      6 ≤ list.level → Canonical (.listElement list index types)
  | listLength {list types} : Canonical list →
      Canonical (.listLength list types)
  | substring {value start stop types} : Canonical value → Canonical start →
      (∀ e ∈ stop, Canonical e) → 6 ≤ value.level →
      Canonical (.substring value start stop types)
  | stringLength {value types} : Canonical value →
      Canonical (.stringLength value types)
  | group {inner types} : Canonical inner → Canonical (.group inner types)
  | call {name args types} : (∀ arg ∈ args, Canonical arg) →
      Canonical (.call name args types)
  | process {stages types} :
      (∀ stage ∈ stages, ∀ arg ∈ stage.2, Canonical arg) →
      Canonical (.process stages types)
  | input {prompt types} : (∀ e ∈ prompt, Canonical e) →
      Canonical (.input prompt types)
  | copy {list types} : Canonical list → Canonical (.copy list types)
  | fileExists {path types} : Canonical path →
      Canonical (.fileExists path types)
  | fileContent {path types} : Canonical path →
      Canonical (.fileContent path types)
  | intToString {value types} : Canonical value →
      Canonical (.intToString value types)
  | stringToInt {value types} : Canonical value →
      Canonical (.stringToInt value types)

end Expr

/-! The tokens of an expression. -/

def UnaryOp.token : UnaryOp → TokenKind
  | neg => .binary .sub
  | not => .not

/-- A word in front of something in parentheses. -/
def applied (word : TokenKind) (inside : List TokenKind) : List TokenKind :=
  word :: .lparen :: (inside ++ [.rparen])

def Builtin.applied (builtin : Builtin) (inside : List TokenKind) :
    List TokenKind :=
  Shellwright.applied (.ident builtin.name) inside

namespace Expr

mutual

/-- The kinds of the tokens that write an expression.  Programs are written as
strings, and nothing is left out that may be. -/
def tokens : Expr → List TokenKind
  | .bool value _ => [.bool value]
  | .int value _ => [.number value.toNat]
  | .string value _ => [.string value]
  | .unary op operand _ => op.token :: operand.tokens
  | .binary op left right _ => left.tokens ++ .binary op :: right.tokens
  | .compare op left right _ => left.tokens ++ .compare op :: right.tokens
  | .logical op left right _ => left.tokens ++ .logical op :: right.tokens
  | .var name _ => [.ident name]
  | .listLiteral items types =>
      .lbracket :: .rbracket :: .ident (types.headD .void).base.text ::
        .lbrace :: (tokensOfAll items ++ [.rbrace])
  | .listElement list index _ =>
      list.tokens ++ .lbracket :: (index.tokens ++ [.rbracket])
  | .substring value start stop _ =>
      value.tokens ++ .lbracket ::
        (start.tokens ++ (tokensOfStop stop ++ [.rbracket]))
  | .listLength inner _ | .stringLength inner _ =>
      applied (.keyword .lenWord) inner.tokens
  | .group inner _ => .lparen :: (inner.tokens ++ [.rparen])
  | .call name args _ => applied (.ident name) (tokensOfAll args)
  | .process stages _ => tokensOfStages stages
  | .input prompt _ => applied (.keyword .inputWord) (tokensOfPrompt prompt)
  | .copy list _ => Builtin.copy.applied list.tokens
  | .fileExists path _ => Builtin.exists.applied path.tokens
  | .fileContent path _ => Builtin.read.applied path.tokens
  | .intToString value _ => Builtin.itoa.applied value.tokens
  | .stringToInt value _ => Builtin.atoi.applied value.tokens

/-- Expressions with commas between them. -/
def tokensOfAll : List Expr → List TokenKind
  | [] => []
  | e :: rest => e.tokens ++ tokensOfMore rest

def tokensOfMore : List Expr → List TokenKind
  | [] => []
  | e :: rest => .comma :: (e.tokens ++ tokensOfMore rest)

def tokensOfStop : Option Expr → List TokenKind
  | none => []
  | some e => .colon :: e.tokens

def tokensOfPrompt : Option Expr → List TokenKind
  | none => []
  | some e => e.tokens

/-- The stages of a pipeline with bars between them. -/
def tokensOfStages : List (String × List Expr) → List TokenKind
  | [] => []
  | (name, args) :: rest =>
      .atSign :: .string name :: .lbrace ::
        (tokensOfAll args ++ .rbrace :: tokensOfMoreStages rest)

def tokensOfMoreStages : List (String × List Expr) → List TokenKind
  | [] => []
  | (name, args) :: rest =>
      .pipe :: .atSign :: .string name :: .lbrace ::
        (tokensOfAll args ++ .rbrace :: tokensOfMoreStages rest)

end

end Expr

/-- The tokens with which something that stands on its own starts. -/
def TokenKind.standsAlone : TokenKind → Bool
  | .number _ | .string _ | .bool _ | .lparen | .lbracket | .keyword .lenWord
  | .keyword .inputWord | .atSign | .ident _ => true
  | _ => false

/-- The tokens with which an expression starts. -/
def TokenKind.starts (kind : TokenKind) : Bool :=
  kind.standsAlone || (Parse.unaryOperator? kind).isSome

/-- The first token of an expression, which is no operator where indices may
follow. -/
theorem Expr.Canonical.tokens_eq_cons {tables : Tables} {e : Expr}
    (h : e.Canonical) (htyped : e.Typed tables) :
    ∃ kind rest, e.tokens = kind :: rest ∧ kind.starts = true ∧
      (6 ≤ e.level → kind.standsAlone = true) := by
  -- operators and indices start with what is left of them
  have hleft : ∀ {left e : Expr} (more : List TokenKind),
    e.tokens = left.tokens ++ more →
      (6 ≤ e.level → 6 ≤ left.level) →
        (∃ kind rest, left.tokens = kind :: rest ∧
        kind.starts = true ∧ (6 ≤ left.level → kind.standsAlone = true)) →
      ∃ kind rest, e.tokens = kind :: rest ∧ kind.starts = true ∧
        (6 ≤ e.level → kind.standsAlone = true) := by
    rintro left e more htokens hlevel ⟨kind, rest, hkind, hstarts, halone⟩
    exact ⟨kind, rest ++ more, by rw [htokens, hkind]; rfl, hstarts,
      fun hle => halone (hlevel hle)⟩
  induction h with
  | @unary op operand types _ hlevel ih =>
      refine ⟨op.token, operand.tokens, rfl, by cases op <;> rfl, fun hle => ?_⟩
      exact absurd hle (by simp [level])
  | @binary op left right types _ _ _ _ ihl ihr =>
      cases htyped with
      | binary hl _ _ _ _ =>
          refine hleft _ rfl (fun hle => absurd hle ?_) (ihl hl)
          cases op <;> simp [level, BinaryOp.level]
  | compare _ _ _ _ ihl ihr =>
      cases htyped with
      | compare hl _ _ _ _ =>
          exact hleft _ rfl (fun hle => absurd hle (by simp [level])) (ihl hl)
  | @logical op left right types _ _ _ _ ihl ihr =>
      cases htyped with
      | logical hl _ _ _ =>
          refine hleft _ rfl (fun hle => absurd hle ?_) (ihl hl)
          cases op <;> simp [level, LogicalOp.level]
  | listElement _ _ hlevel ihl ihi =>
      cases htyped with
      | listElement hl _ _ _ _ => exact hleft _ rfl (fun _ => hlevel) (ihl hl)
  | substring _ _ _ hlevel ihv ihs ihe =>
      cases htyped with
      | substring hv _ _ _ _ _ => exact hleft _ rfl (fun _ => hlevel) (ihv hv)
  | @process stages types _ _ =>
      cases htyped with
      | process hstages _ _ =>
          obtain ⟨⟨name, args⟩, rest, rfl⟩ := List.exists_cons_of_ne_nil hstages
          exact ⟨_, _, rfl, rfl, fun _ => rfl⟩
  | _ => exact ⟨_, _, rfl, rfl, fun _ => rfl⟩

namespace Parse

/-- The canonical form as rules for expressions. -/
def rendering : Grammar fun _ => True where
  value level e := e.Canonical ∧ level ≤ e.level
  spelled _ := True
  ident _ _ := trivial
  program _ _ _ := trivial
  looser h := ⟨h.1, Nat.le_of_succ_le h.2⟩
  bool := ⟨.bool, le_rfl⟩
  int := ⟨.int (Int.natCast_nonneg _), le_rfl⟩
  string := ⟨.string, le_rfl⟩
  unary h _ := ⟨.unary h.1 h.2, le_rfl⟩
  binary hl hr _ _ _ := ⟨.binary hl.1 hr.1 hl.2 hr.2, le_rfl⟩
  compare hl hr _ _ _ := ⟨.compare hl.1 hr.1 hl.2 hr.2, le_rfl⟩
  logical hl hr _ _ := ⟨.logical hl.1 hr.1 hl.2 hr.2, le_rfl⟩
  var _ _ _ := ⟨.var, le_rfl⟩
  listLiteral _ _ h _ :=
    ⟨.listLiteral fun item hitem => (h item hitem).1, le_rfl⟩
  listElement hl hi _ _ _ := ⟨.listElement hl.1 hi.1 hl.2, le_rfl⟩
  listLength h _ _ := ⟨.listLength h.1, le_rfl⟩
  substring hv hs he _ _ _ :=
    ⟨.substring hv.1 hs.1 (fun e h => (he e h).1) hv.2, le_rfl⟩
  stringLength h _ := ⟨.stringLength h.1, le_rfl⟩
  group h _ := ⟨.group h.1, le_rfl⟩
  call _ _ _ h _ := ⟨.call fun arg harg => (h arg harg).1, le_rfl⟩
  process _ h _ :=
    ⟨.process fun stage hs arg harg => (h stage hs arg harg).1, le_rfl⟩
  input h _ := ⟨.input fun e he => (h e he).1, le_rfl⟩
  copy h _ _ := ⟨.copy h.1, le_rfl⟩
  fileExists h _ := ⟨.fileExists h.1, le_rfl⟩
  fileContent h _ := ⟨.fileContent h.1, le_rfl⟩
  intToString h _ := ⟨.intToString h.1, le_rfl⟩
  stringToInt h _ := ⟨.stringToInt h.1, le_rfl⟩

instance : Reading fun _ => True := ⟨fun _ _ => trivial⟩

/-- The parser yields canonical expressions only, whatever it reads. -/
theorem expression_gives : Keeps (fun _ => True) expression Expr.Canonical :=
  rendering.expression_makes.mono fun _ he => he.1

end Parse

end Shellwright
