/-
Positions in a source text and the lines they point into.
-/
import Shellwright.Text.Parts

namespace Shellwright

/-- Row and column of a character, both counted from one; columns count
characters. -/
structure Position where
  row : Nat
  column : Nat
deriving DecidableEq, Repr

namespace Position

def start : Position := ⟨1, 1⟩

/-- The position after a character at `pos`. -/
def step (pos : Position) (c : Char) : Position :=
  if c = '\n' then ⟨pos.row + 1, 1⟩ else ⟨pos.row, pos.column + 1⟩

end Position

/-- The line in row `row` of `source` as a diagnostic shows it: without
carriage returns at its end, and empty for a row that does not exist. -/
def sourceLine (source : String) : Nat → String
  | 0 => ""
  | row + 1 =>
      match (splitParts '\n' source.toList)[row]? with
      | none => ""
      | some line => String.ofList (dropTrailing (· == '\r') line)

end Shellwright
