/-
Paths of source files as diagnostics show them.  Relative paths are kept.  An
absolute path is shown relative to a base directory, and cut to its last name
when it lies elsewhere, so that no message carries directories of the machine
it was made on.

A path is read as its parts between slashes.  Empty parts and single dots stand
for nothing and never tell two paths apart.
-/
import Shellwright.Text.Parts

namespace Shellwright

namespace SourcePath

def isAbsolute (path : String) : Bool := path.toList.head? == some '/'

/-- The parts between slashes. -/
def parts (path : String) : List String :=
  (splitParts '/' path.toList).map String.ofList

/-- Parts that lead nowhere: doubled slashes and single dots. -/
def isIdle (part : String) : Bool := part == "" || part == "."

def dropTrailingIdle (parts : List String) : List String :=
  dropTrailing isIdle parts

/-- What is left of `parts` after following `base` through it, if `base` leads
there. -/
def follow : (base parts : List String) → Option (List String)
  | [], parts => some parts
  | _ :: _, [] => none
  | name :: base, part :: parts =>
      if isIdle part then follow (name :: base) parts
      else if part = name then follow base parts
      else none
termination_by structural _ parts => parts

/-- The parts of an absolute path below the root. -/
def belowRoot (path : String) : List String := (parts path).tail

def joined (parts : List String) : String := String.intercalate "/" parts

/-- An absolute path relative to `base`.  The empty base leaves the path
absolute. -/
def relativeTo? (base path : String) : Option String :=
  if base = "" then some ("/" ++ joined (dropTrailingIdle (belowRoot path)))
  else if isAbsolute base then
    (follow ((belowRoot base).filter (!isIdle ·)) (belowRoot path)).map
      fun rest => joined (dropTrailingIdle (rest.dropWhile isIdle))
  else none

/-- The last name of an absolute path; a path that ends in `..` has none. -/
def lastName? (path : String) : Option String :=
  match ((belowRoot path).filter (!isIdle ·)).getLast? with
  | some name => if name = ".." then none else some name
  | none => none

/-- The path a diagnostic shows for `path`, always with forward slashes. -/
def display (path : String) (base : Option String) : String :=
  let shown :=
    if !isAbsolute path then path
    else
      match base.bind (relativeTo? · path) with
      | some rest => rest
      | none => (lastName? path).getD path
  String.ofList (shown.toList.map fun c => if c = '\\' then '/' else c)

/-- The directory an absolute path stands in; none for a relative path and for
the root. -/
def directory? (path : String) : Option String :=
  if isAbsolute path then
    match (dropTrailingIdle (belowRoot path)).reverse with
    | [] => none
    | _ :: above => some ("/" ++ joined (dropTrailingIdle above.reverse))
  else none

end SourcePath

end Shellwright
