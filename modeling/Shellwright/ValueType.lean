/-
Static types of the script language.  A type is a base kind together with a
list flag; two types agree only when both parts agree.
-/

namespace Shellwright

/-- The base kind of a value.  `unknown` and `void` never belong to a value a
program can name: `void` is the type read off an expression that yields
nothing. -/
inductive BaseType where
  | unknown
  | bool
  | int
  | string
  | void
deriving DecidableEq, Repr

/-- A base kind, or a list of it. -/
structure ValueType where
  base : BaseType
  isList : Bool
deriving DecidableEq, Repr

namespace BaseType

/-- The word a diagnostic uses for the base kind. -/
def text : BaseType → String
  | unknown => "unknown"
  | bool => "bool"
  | int => "int"
  | string => "string"
  | void => "void"

/-- The base kind a program can spell with `name`. -/
def ofName? (name : String) : Option BaseType :=
  if name = "int" then some .int
  else if name = "bool" then some .bool
  else if name = "string" then some .string
  else none

end BaseType

namespace ValueType

def scalar (base : BaseType) : ValueType := ⟨base, false⟩

def list (base : BaseType) : ValueType := ⟨base, true⟩

abbrev bool : ValueType := scalar .bool

abbrev int : ValueType := scalar .int

abbrev string : ValueType := scalar .string

abbrev void : ValueType := scalar .void

/-- The type of a list's elements; a type that is no list is kept. -/
def element (ty : ValueType) : ValueType := scalar ty.base

/-- Values that fit into one variable of the target shell. -/
def isScalar (ty : ValueType) : Bool :=
  !ty.isList && (ty.base == .bool || ty.base == .int || ty.base == .string)

/-- The text a scalar variable starts with when no value is given. -/
def defaultText (ty : ValueType) : String :=
  match ty.base with
  | .int | .bool => "0"
  | _ => ""

/-- How a diagnostic writes the type. -/
def text (ty : ValueType) : String :=
  if ty.isList then "[]" ++ ty.base.text else ty.base.text

end ValueType

end Shellwright
