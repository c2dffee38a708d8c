/-
Listings of typed programs.
-/
import Shellwright.Program
import Shellwright.Token

namespace Shellwright

def BaseType.title : BaseType → String
  | unknown => "Unknown"
  | bool => "Bool"
  | int => "Int"
  | string => "String"
  | void => "Void"

def ValueType.listing (ty : ValueType) : Listing :=
  .record "ValueType" [("base", .word ty.base.title),
    ("is_list", .truth ty.isList)]

def Binding.listing (binding : Binding) : Listing :=
  .record "Target" [("name", .word (quoted binding.name)),
    ("ty", binding.ty.listing)]

namespace Expr

/-- An expression shown as its kind beside its types. -/
def typedListing (kind : Listing) (types : List ValueType) : Listing :=
  .record "Expr" [("kind", kind),
    ("types", .sequence (types.map ValueType.listing))]

mutual

def listing : Expr → Listing
  | bool value ts => typedListing (.tuple "Bool" [.truth value]) ts
  | int value ts => typedListing (.tuple "Int" [.word (toString value)]) ts
  | string value ts => typedListing (.tuple "String" [.word (quoted value)]) ts
  | unary op operand ts =>
      typedListing
        (.record "Unary" [("op", .word op.title),
          ("operand", operand.listing)]) ts
  | binary op left right ts =>
      typedListing (.record "Binary"
        [("op", .word op.title), ("left", left.listing),
          ("right", right.listing)]) ts
  | compare op left right ts =>
      typedListing (.record "Compare"
        [("op", .word op.title), ("left", left.listing),
          ("right", right.listing)]) ts
  | logical op left right ts =>
      typedListing (.record "Logical"
        [("op", .word op.title), ("left", left.listing),
          ("right", right.listing)]) ts
  | var name ts => typedListing (.tuple "Var" [.word (quoted name)]) ts
  | listLiteral items ts =>
      typedListing (.tuple "ListLiteral" [.sequence (listings items)]) ts
  | listElement list index ts =>
      typedListing (.record "ListElement"
        [("list", list.listing), ("index", index.listing)]) ts
  | listLength list ts => typedListing (.tuple "ListLength" [list.listing]) ts
  | substring value start stop ts =>
      typedListing (.record "StringSubscript"
        [("value", value.listing), ("start", start.listing),
          ("end", .optional (optionListing stop))]) ts
  | stringLength value ts =>
      typedListing (.tuple "StringLength" [value.listing]) ts
  | group inner ts => typedListing (.tuple "Group" [inner.listing]) ts
  | call name args ts =>
      typedListing (.record "Call"
        [("name", .word (quoted name)), ("args", .sequence (listings args))]) ts
  | process stages ts =>
      typedListing (.tuple "Process" [.sequence (stageListings stages)]) ts
  | input prompt ts =>
      typedListing (.tuple "Input" [.optional (optionListing prompt)]) ts
  | copy list ts => typedListing (.tuple "Copy" [list.listing]) ts
  | fileExists path ts => typedListing (.tuple "FileExists" [path.listing]) ts
  | fileContent path ts => typedListing (.tuple "ReadFile" [path.listing]) ts
  | intToString value ts => typedListing (.tuple "Itoa" [value.listing]) ts
  | stringToInt value ts => typedListing (.tuple "Atoi" [value.listing]) ts

def listings : List Expr → List Listing
  | [] => []
  | e :: rest => e.listing :: listings rest

def optionListing : Option Expr → Option Listing
  | none => none
  | some e => some e.listing

def stageListings : List (String × List Expr) → List Listing
  | [] => []
  | (name, args) :: rest =>
      .record "ProcessCall"
        [("name", .word (quoted name)), ("args", .sequence (listings args))] ::
        stageListings rest

end

end Expr

namespace Stmt

mutual

def listing : Stmt → Listing
  | define targets value constant =>
      .record "VarDefinition"
        [("targets", .sequence (targets.map Binding.listing)),
          ("value", .optional (value.map Expr.listing)),
          ("constant", .truth constant)]
  | assign targets value =>
      .record "VarAssignment"
        [("targets", .sequence (targets.map Binding.listing)),
          ("value", value.listing)]
  | store target index value =>
      .record "ListAssignment"
        [("target", target.listing), ("index", index.listing),
          ("value", value.listing)]
  | function name params returns body =>
      .record "FunctionDefinition"
        [("name", .word (quoted name)),
          ("params", .sequence (params.map Binding.listing)),
          ("returns", .sequence (returns.map ValueType.listing)),
          ("body", .sequence (listings body))]
  | giveBack values => .tuple "Return" [.sequence (values.map Expr.listing)]
  | choose branches otherwise =>
      .record "If"
        [("branches", .sequence (branchListings branches)),
          ("else_body", .optional (bodyListing otherwise))]
  | loop init condition post body =>
      .record "For"
        [("init", .optional (optionListing init)),
          ("condition", .optional (condition.map Expr.listing)),
          ("post", .optional (optionListing post)),
          ("body", .sequence (listings body))]
  | leaveLoop => .word "Break"
  | nextRound => .word "Continue"
  | print value => .tuple "Print" [value.listing]
  | panic message => .tuple "Panic" [message.listing]
  | writeFile path content append =>
      .record "WriteFile"
        [("path", path.listing), ("content", content.listing),
          ("append", .truth append)]
  | action value => .tuple "Expression" [value.listing]
  | noOp => .word "NoOp"

def listings : List Stmt → List Listing
  | [] => []
  | s :: rest => s.listing :: listings rest

def optionListing : Option Stmt → Option Listing
  | none => none
  | some s => some s.listing

def bodyListing : Option (List Stmt) → Option Listing
  | none => none
  | some body => some (.sequence (listings body))

def branchListings : List (Expr × List Stmt) → List Listing
  | [] => []
  | (condition, body) :: rest =>
      .record "Branch"
        [("condition", condition.listing),
          ("body", .sequence (listings body))] ::
        branchListings rest

end

end Stmt

def Program.listing (program : Program) : Listing :=
  .record "Program"
    [("statements", .sequence (Stmt.listings program.statements))]

end Shellwright
