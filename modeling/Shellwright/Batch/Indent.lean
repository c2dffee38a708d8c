/-
Indentation of parenthesized batch blocks.  A line that is or ends in an opening
parenthesis after a blank opens a block, and a line that starts with a closing
one ends it.
-/
import Shellwright.Text.Blank

namespace Shellwright

namespace Batch

def closesBlock (text : String) : Bool := text.toList.head? == some ')'

def opensBlock (text : String) : Bool :=
  text.toList == ['('] || text.toList.reverse.take 2 == ['(', ' ']

/-- Lines at depth `depth`, which never falls below zero.  Indentation a line
already has is dropped, and blank lines become empty. -/
def indentFrom (width depth : Nat) : List String → List String
  | [] => []
  | line :: rest =>
      let text := dropLeadingBlanks line
      if text = "" then "" :: indentFrom width depth rest
      else
        let depth := if closesBlock text then depth - 1 else depth
        (String.ofList (List.replicate (depth * width) ' ') ++ text) ::
          indentFrom width (if opensBlock text then depth + 1 else depth) rest

def indentBlocks (lines : List String) (width : Nat) : List String :=
  indentFrom width 0 lines

end Batch

end Shellwright
