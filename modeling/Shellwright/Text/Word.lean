/-
Words: the spelling of names, in programs as in the scripts made from them.
Only the letters and digits of the basic Latin alphabet count.
-/

namespace Shellwright

def isWordStart (c : Char) : Bool := c.isAlpha || c == '_'

def isWordChar (c : Char) : Bool := c.isAlphanum || c == '_'

/-- Letters, digits and underscores, no digit first. -/
def isWord : List Char → Bool
  | [] => false
  | c :: rest => isWordStart c && rest.all isWordChar

/-- Names that start with two underscores belong to the compiler. -/
def isHiddenName (name : String) : Bool := name.toList.take 2 == ['_', '_']

end Shellwright
