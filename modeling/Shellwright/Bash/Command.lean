/-
Lines of a bash script.  A line is a command at some depth of indentation;
`Command.text` writes it.
-/

namespace Shellwright

namespace Bash

/-- The commands a script is made of.  Values are pasted between double quotes,
so they hold text that has been escaped already. -/
inductive Command where
  /-- Sets a variable to a quoted value. -/
  | assign (isLocal : Bool) (name value : String)
  /-- Sets a variable to a bare word. -/
  | setWord (isLocal : Bool) (name word : String)
  /-- Sets an array to the items of another one. -/
  | copyList (isLocal : Bool) (name source : String)
  /-- Sets an array to the given items. -/
  | fillList (isLocal : Bool) (name : String) (items : List String)
  /-- Stores into an array and fills the gap before the index. -/
  | storeElement (list index value filler : String)
  | declareLocal (names : List String)
  | ifTrue (condition : String)
  | elseIfTrue (condition : String)
  | otherwise
  | endIf
  | whileTrue
  | endWhile
  | leaveUnless (condition : String)
  | leaveLoop
  | nextRound
  | functionOpen (name : String)
  | functionClose
  | returnSuccess
  | callFunction (name : String) (args : List String)
  | printLine (value : String)
  | printPanic (message : String)
  | printPrompt (prompt : String)
  | writeFile (content : String) (append : Bool) (path : String)
  | readLine (name : String)
  | discardFile (path : String)
  | exitFailure
  | run (commandLine : String)
  | nothing
deriving DecidableEq, Repr

/-- The value of a variable, to stand inside double quotes. -/
def expand (name : String) : String := "$\x7b" ++ name ++ "\x7d"

/-- All items of an array. -/
def expandAll (name : String) : String := "$\x7b" ++ name ++ "[@]\x7d"

def inQuotes (text : String) : String := "\"" ++ text ++ "\""

def localWord (isLocal : Bool) : String := if isLocal then "local " else ""

def localArrayWord (isLocal : Bool) : String :=
  if isLocal then "local -a " else ""

/-- Arguments after a command, each quoted. -/
def quotedArguments (args : List String) : String :=
  String.join (args.map fun arg => " " ++ inQuotes arg)

def functionName (name : String) : String := "__sb_fn_" ++ name

namespace Command

def text : Command → String
  | assign isLocal name value =>
      localWord isLocal ++ name ++ "=" ++ inQuotes value
  | setWord isLocal name word => localWord isLocal ++ name ++ "=" ++ word
  | copyList isLocal name source =>
      localArrayWord isLocal ++ name ++ "=( " ++
        inQuotes (expandAll source) ++ " )"
  | fillList isLocal name [] => localArrayWord isLocal ++ name ++ "=()"
  | fillList isLocal name items =>
      localArrayWord isLocal ++ name ++ "=( " ++
        String.intercalate " " (items.map inQuotes) ++ " )"
  | storeElement list index value filler =>
      "__sb_list_set " ++ list ++ quotedArguments [index, value, filler]
  | declareLocal names => "local " ++ String.intercalate " " names
  | ifTrue condition => "if [ " ++ inQuotes condition ++ " = 1 ]; then"
  | elseIfTrue condition => "elif [ " ++ inQuotes condition ++ " = 1 ]; then"
  | otherwise => "else"
  | endIf => "fi"
  | whileTrue => "while true; do"
  | endWhile => "done"
  | leaveUnless condition =>
      "if [ " ++ inQuotes condition ++ " != 1 ]; then break; fi"
  | leaveLoop => "break"
  | nextRound => "continue"
  | functionOpen name => functionName name ++ "() \x7b"
  | functionClose => "\x7d"
  | returnSuccess => "return 0"
  | callFunction name args => functionName name ++ quotedArguments args
  | printLine value => "printf '%s\\n' " ++ inQuotes value
  | printPanic message => "printf 'panic: %s\\n' " ++ inQuotes message
  | printPrompt prompt => "printf '%s' " ++ inQuotes prompt
  | writeFile content append path =>
      "printf '%s\\n' " ++ inQuotes content ++
        (if append then " >> " else " > ") ++ inQuotes path
  | readLine name => "IFS= read -r " ++ name
  | discardFile path => "cat " ++ inQuotes path ++ " > /dev/null"
  | exitFailure => "exit 1"
  | run commandLine => commandLine
  | nothing => ":"

end Command

/-- A command and its depth of indentation. -/
structure Line where
  depth : Nat
  command : Command
deriving DecidableEq, Repr

/-- Two spaces a level. -/
def Line.text (line : Line) : String :=
  String.ofList (List.replicate (2 * line.depth) ' ') ++ line.command.text

end Bash

end Shellwright
