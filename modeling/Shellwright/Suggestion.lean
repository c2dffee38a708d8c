/-
"Did you mean" hints: the declared name closest to a misspelled one.
-/
import Shellwright.Text.Word

namespace Shellwright

namespace Suggestion

/-- One row of the edit-distance table from the row above it.  `left` is the
entry just written and `diagonal` the one above it to the left. -/
def fillRow (a : Char) (left diagonal : Nat) : List Char → List Nat → List Nat
  | b :: bs, above :: row =>
      let cost := if a = b then 0 else 1
      let entry := min (min (above + 1) (left + 1)) (diagonal + cost)
      entry :: fillRow a entry above bs row
  | _, _ => []

def nextRow (bs : List Char) (row : List Nat) (a : Char) : List Nat :=
  match row with
  | [] => []
  | first :: rest => (first + 1) :: fillRow a (first + 1) first bs rest

/-- The least number of single-character insertions, deletions and replacements
that turn `a` into `b`. -/
def editDistance (a b : String) : Nat :=
  let bs := b.toList
  (a.toList.foldl (nextRow bs) (List.range (bs.length + 1))).getLastD 0

/-- The largest distance at which a name still counts as a misspelling of
`input`. -/
def limit (input : String) : Nat := max 1 (min 2 (input.length / 2))

/-- Names a hint may offer: no hidden names and not the input itself. -/
def isOffered (input candidate : String) : Bool :=
  candidate != input && !isHiddenName candidate &&
    editDistance input candidate ≤ limit input

/-- The better of two candidates: the smaller distance first, then the earlier
name. -/
def better (input best candidate : String) : String :=
  let bestDistance := editDistance input best
  let distance := editDistance input candidate
  if bestDistance < distance ∨
    (bestDistance = distance ∧ ¬ candidate < best) then best
  else candidate

/-- The candidate closest to `input`, if one is close enough. -/
def closest? (input : String) (candidates : List String) : Option String :=
  (candidates.filter (isOffered input)).foldl
    (fun best candidate =>
      match best with
      | none => some candidate
      | some best => some (better input best candidate))
    none

def didYouMean (name : String) : String := "did you mean '" ++ name ++ "'?"

end Suggestion

end Shellwright
