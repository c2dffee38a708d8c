/-
Reading a program from its source text.
-/
import Shellwright.Parse.Stmt
import Shellwright.Token.Scan

namespace Shellwright

/-- The program a source text spells. -/
def parseSource (source : String) : Except SyntaxError Program := do
  parseTokens (← lex source)

end Shellwright
