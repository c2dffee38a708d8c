/-
Names the language itself gives a meaning to.  They are ordinary identifiers,
so no variable and no function may take one of them.
-/

namespace Shellwright

inductive Builtin where
  | panic
  | write
  | copy
  | exists
  | read
  | itoa
  | atoi
deriving DecidableEq, Repr

namespace Builtin

def all : List Builtin := [panic, write, copy, .exists, read, itoa, atoi]

def name : Builtin → String
  | panic => "panic"
  | write => "write"
  | copy => "copy"
  | .exists => "exists"
  | read => "read"
  | itoa => "itoa"
  | atoi => "atoi"

/-- The builtin that `text` names. -/
def ofName? (text : String) : Option Builtin :=
  all.find? (fun builtin => builtin.name == text)

/-- Statement builtins produce no value and stand alone on a line. -/
def isStatement : Builtin → Bool
  | panic | write => true
  | _ => false

end Builtin

end Shellwright
