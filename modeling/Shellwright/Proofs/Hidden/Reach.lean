/-
Hidden names in a tree.  Loops over ranges and switches put variables of their
own into the tree.  Here stands where such a variable may occur: at the places
the compiler puts it, and inside its loop or switch wherever a program spells
it.
-/
import Shellwright.Proofs.Names
import Shellwright.Proofs.Parse.Rules

namespace Shellwright

/-- The names a program spells: all identifiers but those behind `@`, which are
the programs of pipelines. -/
def spelledNames : List TokenKind → List String
  | .atSign :: .ident _ :: rest => spelledNames rest
  | .ident name :: rest => name :: spelledNames rest
  | _ :: rest => spelledNames rest
  | [] => []

/-- The hidden variables of the range loops and switches around a place. -/
structure Reach where
  indices : List String
  tags : List String
deriving DecidableEq, Repr

namespace Reach

def none : Reach := ⟨[], []⟩

def withIndex (reach : Reach) (name : String) : Reach :=
  { reach with indices := name :: reach.indices }

def withTag (reach : Reach) (name : String) : Reach :=
  { reach with tags := name :: reach.tags }

def Has (reach : Reach) (name : String) : Prop := name ∈ reach.indices ∨
    name ∈ reach.tags

end Reach

/-- The program spells the name and it is an ordinary one. -/
structure PlainName (spelled : String → Prop) (name : String) : Prop where
  spelled : spelled name
  plain : isHiddenName name = false

/-- A name in an expression is spelled by the program.  Variables are hidden
only within their reach, functions never. -/
def Mention.Within (spelled : String → Prop) (reach : Reach) : Mention → Prop
  | .use name => spelled name ∧ (isHiddenName name = true → reach.Has name)
  | .call name => PlainName spelled name
  | .define _ | .assign _ => False
  | .pipeline _ | .panic => True

def Expr.Within (spelled : String → Prop) (reach : Reach) (e : Expr) : Prop :=
  ∀ mention ∈ e.mentions, mention.Within spelled reach

/-- The condition of a case: the hidden tag is compared with each of its
values. -/
inductive CaseTest (spelled : String → Prop) (reach : Reach) (tag : Expr) :
    Expr → Prop where
  | value {e} : e.Within spelled reach →
      CaseTest spelled reach tag (.compare .eq tag e [.bool])
  | or {left right} : CaseTest spelled reach tag left →
      CaseTest spelled reach tag right →
      CaseTest spelled reach tag (.logical .or left right [.bool])

/-- What stands in front of the body of a range loop with a hidden index:
nothing, or the definition of the variable for the elements. -/
def RangePrologue (spelled : String → Prop) (source : Expr) (index : String)
    (prologue : List Stmt) : Prop :=
  prologue = [] ∨ ∃ name, PlainName spelled name ∧
    prologue = [.define [⟨name, source.ty.element⟩]
      (some (Parse.elementAt source (.var index [.int]))) false]

/-- The range loop with the given index. -/
def rangeLoopWith (source : Expr) (index : String) (body : List Stmt) : Stmt :=
  .loop (some (.define [⟨index, .int⟩] (some (.int 0 [.int])) false))
    (some (.compare .lt (.var index [.int]) (Parse.lengthAsInt source) [.bool]))
    (some (.assign [⟨index, .int⟩]
      (.binary .add (.var index [.int]) (.int 1 [.int]) [.int])))
    body

section Judgement

variable (spelled : String → Prop)

mutual

/-- `Desugared spelled reach count s count'`: within the given reach, `s` is a
statement in which hidden names stand where they may.  The hidden names it makes
have the numbers from `count` up to `count'`. -/
inductive Stmt.Desugared : Reach → Nat → Stmt → Nat → Prop where
  | define {reach count targets value constant} :
      (∀ target ∈ targets, PlainName spelled target.name) →
      (∀ e ∈ value, Expr.Within spelled reach e) →
      Stmt.Desugared reach count (.define targets value constant) count
  /-- A program may assign to the index of a range loop, but not to a tag. -/
  | assign {reach count targets value} :
      (∀ target ∈ targets, spelled target.name ∧
        (isHiddenName target.name = true → target.name ∈ reach.indices)) →
      value.Within spelled reach →
        Stmt.Desugared reach count (.assign targets value) count
  | store {reach count target index value} :
      PlainName spelled target.name → index.Within spelled reach →
      value.Within spelled reach →
        Stmt.Desugared reach count (.store target index value) count
  /-- Nothing hidden reaches into a function. -/
  | function {reach count count' name params returns body} :
      PlainName spelled name →
        (∀ param ∈ params, PlainName spelled param.name) →
      Block.Desugared .none count body count' →
      Stmt.Desugared reach count (.function name params returns body) count'
  | giveBack {reach count values} :
      (∀ value ∈ values, Expr.Within spelled reach value) →
      Stmt.Desugared reach count (.giveBack values) count
  | choose {reach count count' branches otherwise} :
      Chain.Desugared (Expr.Within spelled reach) reach count branches
        otherwise count' →
      Stmt.Desugared reach count (.choose branches otherwise) count'
  | loop {reach count count' init condition post body} :
      (∀ s ∈ init, Stmt.Desugared reach count s count) →
      (∀ e ∈ condition, Expr.Within spelled reach e) →
      (∀ s ∈ post, Stmt.Desugared reach count s count) →
      Block.Desugared reach count body count' →
      Stmt.Desugared reach count (.loop init condition post body) count'
  /-- A range loop whose index the program does not name. -/
  | rangeLoop {reach count count' source prologue body} :
      source.Within spelled reach →
      RangePrologue spelled source (hiddenNameAt "idx" count) prologue →
      Block.Desugared (reach.withIndex (hiddenNameAt "idx" count))
        (count + 1) body count' →
      Stmt.Desugared reach count
        (rangeLoopWith source (hiddenNameAt "idx" count)
          (prologue ++ body)) count'
  | leaveLoop {reach count} : Stmt.Desugared reach count .leaveLoop count
  | nextRound {reach count} : Stmt.Desugared reach count .nextRound count
  | print {reach count value} :
      value.Within spelled reach →
        Stmt.Desugared reach count (.print value) count
  | panic {reach count message} :
      message.Within spelled reach →
        Stmt.Desugared reach count (.panic message) count
  | writeFile {reach count path content append} :
      path.Within spelled reach → content.Within spelled reach →
      Stmt.Desugared reach count (.writeFile path content append) count
  | action {reach count value} :
      value.Within spelled reach →
        Stmt.Desugared reach count (.action value) count

inductive Block.Desugared : Reach → Nat → List Stmt → Nat → Prop where
  | nil {reach count} : Block.Desugared reach count [] count
  | cons {reach count middle count' s rest} :
      Stmt.Desugared reach count s middle →
        Block.Desugared reach middle rest count' →
      Block.Desugared reach count (s :: rest) count'
  /-- A switch over a value that is put into a hidden constant first. -/
  | switch {reach count middle count' value ty branches otherwise rest} :
      value.Within spelled reach →
      Chain.Desugared
        (CaseTest spelled (reach.withTag (hiddenNameAt "sw" count))
          (.var (hiddenNameAt "sw" count) [ty]))
        (reach.withTag (hiddenNameAt "sw" count)) (count + 1) branches
        otherwise middle →
      Block.Desugared reach middle rest count' →
      Block.Desugared reach count
        (.define [⟨hiddenNameAt "sw" count, ty⟩] (some value) true ::
          .choose branches otherwise :: rest) count'
  /-- Such a switch without cases: the default body follows at once. -/
  | lone {reach count middle count' value ty body rest} :
      value.Within spelled reach →
      Block.Desugared (reach.withTag (hiddenNameAt "sw" count)) (count + 1)
        body middle →
      Block.Desugared reach middle rest count' →
      Block.Desugared reach count
        (.define [⟨hiddenNameAt "sw" count, ty⟩] (some value) true ::
          (body ++ rest)) count'

/-- The branches of an if chain, whose conditions pass `test`.  The last
alternative may have been read before, between or after them. -/
inductive Chain.Desugared : (Expr → Prop) → Reach → Nat →
    List (Expr × List Stmt) → Option (List Stmt) → Nat → Prop where
  | nil {test reach count} : Chain.Desugared test reach count [] none count
  | branch {test reach count middle count' condition body branches otherwise} :
      test condition → Block.Desugared reach count body middle →
      Chain.Desugared test reach middle branches otherwise count' →
      Chain.Desugared test reach count ((condition, body) :: branches)
        otherwise count'
  | otherwise {test reach count middle count' body branches} :
      Block.Desugared reach count body middle →
      Chain.Desugared test reach middle branches none count' →
      Chain.Desugared test reach count branches (some body) count'

end

end Judgement

theorem Block.Desugared.append {spelled : String → Prop} {reach : Reach}
    {count middle count' : Nat} {body rest : List Stmt}
    (hbody : Block.Desugared spelled reach count body middle)
    (hrest : Block.Desugared spelled reach middle rest count') :
    Block.Desugared spelled reach count (body ++ rest) count' := by
  match hbody with
  | .nil => exact hrest
  | .cons hs hbody => exact .cons hs (hbody.append hrest)
  | .switch hvalue hchain hbody =>
      exact .switch hvalue hchain (hbody.append hrest)
  | .lone hvalue hdefault hbody =>
      rw [List.cons_append, List.append_assoc]
      exact .lone hvalue hdefault (hbody.append hrest)

theorem Chain.Desugared.concat {spelled : String → Prop} {test : Expr → Prop}
    {reach : Reach} {count middle count' : Nat}
    {branches : List (Expr × List Stmt)} {otherwise : Option (List Stmt)}
    {condition : Expr} {body : List Stmt}
    (h : Chain.Desugared spelled test reach count branches otherwise middle)
    (htest : test condition)
    (hbody : Block.Desugared spelled reach middle body count') :
    Chain.Desugared spelled test reach count (branches ++ [(condition, body)])
      otherwise count' := by
  match h with
  | .nil => exact .branch htest hbody .nil
  | .branch hfirst hblock hrest =>
      exact .branch hfirst hblock (hrest.concat htest hbody)
  | .otherwise hblock hrest =>
      exact .otherwise hblock (hrest.concat htest hbody)

/-- An alternative that comes last. -/
theorem Chain.Desugared.closed {spelled : String → Prop} {test : Expr → Prop}
    {reach : Reach} {count middle count' : Nat}
    {branches : List (Expr × List Stmt)} {body : List Stmt}
    (h : Chain.Desugared spelled test reach count branches none middle)
    (hbody : Block.Desugared spelled reach middle body count') :
    Chain.Desugared spelled test reach count branches (some body) count' := by
  match h with
  | .nil => exact .otherwise hbody .nil
  | .branch hfirst hblock hrest =>
      exact .branch hfirst hblock (hrest.closed hbody)

/-- A chain without branches is its alternative. -/
theorem Chain.Desugared.alternative {spelled : String → Prop}
    {test : Expr → Prop} {reach : Reach} {count count' : Nat}
    {otherwise : Option (List Stmt)}
    (h : Chain.Desugared spelled test reach count [] otherwise count') :
    Block.Desugared spelled reach count (otherwise.getD []) count' := by
  match h with
  | .nil => exact .nil
  | .otherwise hbody .nil => exact hbody

/-! The state of the parser. -/

theorem spelledNames_cons {kind : TokenKind} (hkind : kind ≠ .atSign)
    (rest : List TokenKind) :
    spelledNames rest ⊆ spelledNames (kind :: rest) := by
  cases kind with
  | atSign => exact absurd rfl hkind
  | ident name => exact List.subset_cons_self name _
  | _ => exact List.Subset.refl _

/-- A part of a program and what surrounds it: the open blocks, the variables
that open functions have set aside, and the hidden variables in reach. -/
structure Frame where
  blocks : List BlockKind
  saved : List VariableTable
  reach : Reach

namespace Frame

def push (frame : Frame) (kind : BlockKind) : Frame :=
  { frame with blocks := kind :: frame.blocks }

def withIndex (frame : Frame) (name : String) : Frame :=
  { frame with reach := frame.reach.withIndex name }

def withTag (frame : Frame) (name : String) : Frame :=
  { frame with reach := frame.reach.withTag name }

/-- Outside all blocks nothing hidden is in reach. -/
structure Sound (frame : Frame) : Prop where
  nonempty : frame.blocks ≠ []
  top : frame.blocks.headD .program = .program → frame.reach = .none

theorem sound_push {frame : Frame} {kind : BlockKind}
    (hkind : kind ≠ .program) : (frame.push kind).Sound :=
  ⟨List.cons_ne_nil _ _, fun h => absurd h hkind⟩

end Frame

/-- Where the parser stands: what is ahead is spelled by the program, the frame
is the given one, hidden names are numbered up to `count`, and those in scope
are within their reach. -/
structure Frame.Holds (spelled : String → Prop) (frame : Frame) (count : Nat)
    (st : ParserState) : Prop where
  ahead : ∀ name ∈ spelledNames (st.ahead.map Token.kind), spelled name
  last : st.last.kind = .eof
  blocks : st.scope.blocks = frame.blocks
  saved : st.scope.saved = frame.saved
  hidden : st.hidden = count
  vars : ∀ {name var}, st.scope.lookupVariable? name = some var →
    isHiddenName name = true →
    name ∈ frame.reach.indices ∧ var = ⟨.int, false⟩ ∨
      name ∈ frame.reach.tags ∧ var.constant = true
  functions : ∀ {name signature},
    st.scope.lookupFunction? name = some signature → isHiddenName name = false

namespace Frame.Holds

variable {spelled : String → Prop} {frame : Frame} {count : Nat}
  {st : ParserState}

/-- Only what is ahead and the open blocks are looked at beside the names. -/
theorem read {tokens : List Token} (h : frame.Holds spelled count st)
    (htokens : spelledNames (tokens.map Token.kind) ⊆
      spelledNames (st.ahead.map Token.kind)) :
    frame.Holds spelled count { st with ahead := tokens } :=
  { h with ahead := fun name hname => h.ahead name (htokens hname) }

theorem advanced (h : frame.Holds spelled count st)
    (hkind : st.next.kind ≠ .atSign) :
    frame.Holds spelled count st.advanced := by
  refine h.read ?_
  unfold ParserState.next at hkind
  cases hahead : st.ahead with
  | nil => exact List.Subset.refl _
  | cons token rest =>
      rw [hahead] at hkind
      exact spelledNames_cons hkind _

theorem spelled_ident {name : String} (h : frame.Holds spelled count st)
    (hkind : st.next.kind = .ident name) : spelled name := by
  unfold ParserState.next at hkind
  cases hahead : st.ahead with
  | nil =>
      rw [hahead, List.headD_nil, h.last] at hkind
      cases hkind
  | cons token rest =>
      rw [hahead] at hkind
      refine h.ahead name ?_
      rw [hahead, List.map_cons, show token.kind = .ident name from hkind]
      exact List.mem_cons_self

theorem reach_has {name : String} {var : Variable}
    (h : frame.Holds spelled count st)
    (hlookup : st.scope.lookupVariable? name = some var)
    (hname : isHiddenName name = true) : frame.reach.Has name :=
  (h.vars hlookup hname).imp And.left And.left

/-- The program of a pipeline is no name of the source. -/
theorem program (h : frame.Holds spelled count st)
    (hat : st.next.kind = .atSign)
    (hname : (∃ name, st.advanced.next.kind = .ident name) ∨
      ∃ name, st.advanced.next.kind = .string name) :
    frame.Holds spelled count st.advanced.advanced := by
  have hlast := h.last
  refine h.read ?_
  simp only [ParserState.next, ParserState.advanced] at hat hname
  cases hahead : st.ahead with
  | nil => simp [hahead, hlast] at hat
  | cons first rest =>
      cases rest with
      | nil => simp [hahead, hlast] at hname
      | cons second more =>
          simp only [hahead, List.headD_cons, List.tail_cons] at hat hname
          simp only [ParserState.advanced, hahead, List.tail_cons,
            List.map_cons, hat]
          rcases hname with ⟨name, hname⟩ | ⟨name, hname⟩
          · rw [hname]
            exact List.Subset.refl _
          · rw [hname]
            exact List.Subset.refl _

end Frame.Holds

instance {spelled : String → Prop} {frame : Frame} {count : Nat} :
    Parse.Reading (frame.Holds spelled count) := ⟨Frame.Holds.advanced⟩

theorem Parse.identifier_spelled {spelled : String → Prop} {frame : Frame}
    {count : Nat} {wanted : Wanted} :
    Keeps (frame.Holds spelled count) (identifier wanted)
      fun found => spelled found.1 :=
  identifier_keeps Frame.Holds.spelled_ident

end Shellwright
