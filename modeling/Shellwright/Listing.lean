/-
Listings show a value as a tree of named parts, either on one line or with one
part a line.
-/

namespace Shellwright

/-- A value to be listed: a bare word, a named record, a named tuple or a
sequence. -/
inductive Listing where
  | word (text : String)
  | record (name : String) (fields : List (String × Listing))
  | tuple (name : String) (parts : List Listing)
  | sequence (items : List Listing)

namespace Listing

def truth (value : Bool) : Listing := word (if value then "true" else "false")

/-- An optional part. -/
def optional : Option Listing → Listing
  | none => word "None"
  | some part => tuple "Some" [part]

mutual

/-- The listing on one line. -/
def compact : Listing → String
  | word text => text
  | record name fields =>
      name ++ " \x7b " ++ String.intercalate ", "
        (compactFields fields) ++ " \x7d"
  | tuple name parts =>
      name ++ "(" ++ String.intercalate ", " (compactParts parts) ++ ")"
  | sequence items => "[" ++ String.intercalate ", " (compactParts items) ++ "]"

def compactFields : List (String × Listing) → List String
  | [] => []
  | (field, value) :: rest =>
      (field ++ ": " ++ compact value) :: compactFields rest

def compactParts : List Listing → List String
  | [] => []
  | part :: rest => compact part :: compactParts rest

end

/-- Four spaces a level. -/
def margin (depth : Nat) : String :=
  String.ofList (List.replicate (4 * depth) ' ')

mutual

/-- The listing with every part on a line of its own; `depth` is the level at
which the closing bracket stands. -/
def indented (depth : Nat) : Listing → String
  | word text => text
  | record name fields =>
      name ++ " \x7b\n" ++ indentedFields (depth + 1) fields ++
        margin depth ++ "\x7d"
  | tuple name parts =>
      name ++ "(\n" ++ indentedParts (depth + 1) parts ++ margin depth ++ ")"
  | sequence [] => "[]"
  | sequence (item :: items) =>
      "[\n" ++ margin (depth + 1) ++ indented (depth + 1) item ++ ",\n" ++
        indentedParts (depth + 1) items ++ margin depth ++ "]"

def indentedFields (depth : Nat) : List (String × Listing) → String
  | [] => ""
  | (field, value) :: rest =>
      margin depth ++ field ++ ": " ++ indented depth value ++ ",\n" ++
        indentedFields depth rest

def indentedParts (depth : Nat) : List Listing → String
  | [] => ""
  | part :: rest =>
      margin depth ++ indented depth part ++ ",\n" ++ indentedParts depth rest

end

end Listing

end Shellwright
