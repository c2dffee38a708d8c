/-
The two script dialects a program can be compiled to.
-/

namespace Shellwright

inductive Shell where
  | bash
  | batch
deriving DecidableEq, Repr, Inhabited

namespace Shell

def name : Shell → String
  | bash => "bash"
  | batch => "batch"

def lineEnding : Shell → String
  | bash => "\n"
  | batch => "\r\n"

/-- The dialect that `text` selects; each has short names besides its own. -/
def ofName? (text : String) : Option Shell :=
  if text = "bash" ∨ text = "sh" then some .bash
  else if text = "batch" ∨ text = "bat" ∨ text = "cmd" then some .batch
  else none

/-- What is said about a name that selects no dialect. -/
def unknownMessage (text : String) : String :=
  "unknown target '" ++ text ++ "' (expected 'bash' or 'batch')"

end Shell

end Shellwright
