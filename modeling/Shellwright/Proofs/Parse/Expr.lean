/-
Expressions the parser accepts are well typed.  Reading an expression changes no
name, so that all its parts are typed in one scope.
-/
import Shellwright.Proofs.Parse.Grammar

namespace Shellwright

/-- The names of a scope as the typing judgement sees them. -/
def Scope.tables (scope : Scope) : Tables := ⟨scope.vars, scope.functions⟩

@[simp] theorem Scope.lookupVariable?_tables (scope : Scope) (name : String) :
    scope.tables.lookupVariable? name = scope.lookupVariable? name := rfl

@[simp] theorem Scope.lookupFunction?_tables (scope : Scope) (name : String) :
    scope.tables.lookupFunction? name = scope.lookupFunction? name := rfl

namespace Parse

variable {st st' : ParserState} {expr : Parse Expr}

/-- The parser reads tokens only, and the expression it yields is well typed in
the scope it starts in. -/
def ReadsTyped (expr : Parse Expr) : Prop :=
  ∀ ⦃st e st'⦄, expr st = .ok (e, st') → st.Reads st' ∧ e.Typed st.scope.tables

/-- A reader applied after other reading. -/
theorem ReadsTyped.after (hexpr : ReadsTyped expr) {mid : ParserState}
    {e : Expr} (hreads : st.Reads mid) (h : expr mid = .ok (e, st')) :
    st.Reads st' ∧ e.Typed st.scope.tables := by
  obtain ⟨hreads', htyped⟩ := hexpr h
  rw [hreads.scope] at htyped
  exact ⟨hreads.trans hreads', htyped⟩

/-- The typing judgement as rules for what is read from `start` on. -/
def typing (start : ParserState) : Grammar start.Reads where
  value _ e := e.Typed start.scope.tables
  spelled _ := True
  ident _ _ := trivial
  program hst _ _ := hst.advance.advance
  looser := id
  bool := .bool
  int := .int
  string := .string
  unary := .unary
  binary := .binary
  compare := .compare
  logical := .logical
  var _ hst hlookup := .var (hst.scope ▸ hlookup)
  listLiteral := .listLiteral
  listElement := .listElement
  listLength := .listLength
  substring := .substring
  stringLength := .stringLength
  group := .group
  call _ hst hlookup := .call (hst.scope ▸ hlookup)
  process := .process
  input := .input
  copy := .copy
  fileExists := .fileExists
  fileContent := .fileContent
  intToString := .intToString
  stringToInt := .stringToInt

/-- Every expression the parser accepts is well typed in the scope it stands
in. -/
theorem expression_typed : ReadsTyped expression := fun st _ _ h =>
  ((typing st).expression_makes (.refl st) h).symm

end Parse

end Shellwright
