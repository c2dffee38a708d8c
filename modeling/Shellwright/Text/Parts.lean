/-
Cutting a text at every occurrence of one character.
-/

namespace Shellwright

/-- The parts between the separators.  There is one more part than there are
separators. -/
def splitParts (separator : Char) : List Char → List (List Char)
  | [] => [[]]
  | c :: rest =>
      if c = separator then [] :: splitParts separator rest
      else
        match splitParts separator rest with
        | [] => [[c]]
        | part :: parts => (c :: part) :: parts

/-- All of `items` but those at the end for which `drop` holds. -/
def dropTrailing {α : Type} (drop : α → Bool) (items : List α) : List α :=
  (items.reverse.dropWhile drop).reverse

end Shellwright
