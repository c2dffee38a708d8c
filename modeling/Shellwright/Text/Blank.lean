/-
Blank characters: the code points with the Unicode property `White_Space`.
-/

namespace Shellwright

/-- The 25 code points with `White_Space`. -/
def isBlank (c : Char) : Bool :=
  let code := c.toNat
  (0x09 ≤ code && code ≤ 0x0d) || code == 0x20 || code == 0x85 ||
    code == 0xa0 ||
    code == 0x1680 || (0x2000 ≤ code && code ≤ 0x200a) || code == 0x2028 ||
    code == 0x2029 || code == 0x202f || code == 0x205f || code == 0x3000

/-- Drops the blanks in front of `text`. -/
def dropLeadingBlanks (text : String) : String :=
  String.ofList (text.toList.dropWhile isBlank)

end Shellwright
