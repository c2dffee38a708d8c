/-
The names of an expression.  Whatever the parser makes into an expression, each
of its names has been spelled, and the hidden ones among them are in reach.
-/
import Shellwright.Proofs.Hidden.Reach

namespace Shellwright

variable {spelled : String → Prop} {reach : Reach}

/-! Names of composed expressions. -/

namespace Expr

theorem within_append {first second : List Mention} :
    (∀ mention ∈ first ++ second, mention.Within spelled reach) ↔
      (∀ mention ∈ first, mention.Within spelled reach) ∧
        ∀ mention ∈ second, mention.Within spelled reach :=
  List.forall_mem_append

theorem within_mentionsOfAll {items : List Expr}
    (h : ∀ e ∈ items, e.Within spelled reach) :
    ∀ mention ∈ mentionsOfAll items, mention.Within spelled reach := by
  intro mention hmention
  obtain ⟨e, he, hin⟩ := mem_mentionsOfAll.mp hmention
  exact h e he mention hin

theorem within_mentionsOfOption {item : Option Expr}
    (h : ∀ e ∈ item, e.Within spelled reach) :
    ∀ mention ∈ mentionsOfOption item, mention.Within spelled reach := by
  intro mention hmention
  obtain ⟨e, he, hin⟩ := mem_mentionsOfOption.mp hmention
  exact h e he mention hin

theorem within_literal {e : Expr} (h : e.mentions = []) :
    e.Within spelled reach := by
  intro mention hmention
  rw [h] at hmention
  cases hmention

theorem within_var {name : String} {types : List ValueType}
    (hname : spelled name)
    (hreach : isHiddenName name = true → reach.Has name) :
    (Expr.var name types).Within spelled reach :=
  List.forall_mem_singleton.mpr ⟨hname, hreach⟩

theorem within_call {name : String} {args : List Expr} {types : List ValueType}
    (hname : PlainName spelled name)
    (hargs : ∀ arg ∈ args, arg.Within spelled reach) :
    (Expr.call name args types).Within spelled reach :=
  List.forall_mem_append.mpr ⟨within_mentionsOfAll hargs,
    List.forall_mem_singleton.mpr hname⟩

theorem within_process {stages : List (String × List Expr)}
    {types : List ValueType}
    (h : ∀ stage ∈ stages, ∀ arg ∈ stage.2, arg.Within spelled reach) :
    (Expr.process stages types).Within spelled reach := by
  refine List.forall_mem_append.mpr ⟨?_, List.forall_mem_singleton.mpr trivial⟩
  intro mention hmention
  obtain ⟨stage, hstage, arg, harg, hin⟩ := mem_mentionsOfStages.mp hmention
  exact h stage hstage arg harg mention hin

theorem within_substring {value start : Expr} {stop : Option Expr}
    {types : List ValueType} (hvalue : value.Within spelled reach)
    (hstart : start.Within spelled reach)
    (hstop : ∀ e ∈ stop, e.Within spelled reach) :
    (Expr.substring value start stop types).Within spelled reach :=
  within_append.mpr ⟨hvalue, within_append.mpr
    ⟨hstart, within_mentionsOfOption hstop⟩⟩

end Expr

theorem CompareOp.apply_within {op : CompareOp} {left right e : Expr}
    {pos : Position} (h : op.apply left right pos = .ok e)
    (hleft : left.Within spelled reach) (hright : right.Within spelled reach) :
    e.Within spelled reach := by
  obtain ⟨_, _, _, _, rfl⟩ := CompareOp.apply_ok h
  exact Expr.within_append.mpr ⟨hleft, hright⟩

namespace Parse

variable {frame : Frame} {count : Nat} {α : Type}

/-- The parser yields expressions whose names are within their reach. -/
abbrev Reaches (spelled : String → Prop) (frame : Frame) (count : Nat)
    (expr : Parse Expr) : Prop :=
  Keeps (frame.Holds spelled count) expr (Expr.Within spelled frame.reach)

/-- The reach of names as rules for expressions. -/
def reaching (spelled : String → Prop) (frame : Frame) (count : Nat) :
    Grammar (frame.Holds spelled count) where
  value _ e := e.Within spelled frame.reach
  spelled := spelled
  ident := Frame.Holds.spelled_ident
  program := Frame.Holds.program
  looser := id
  bool := Expr.within_literal rfl
  int := Expr.within_literal rfl
  string := Expr.within_literal rfl
  unary h _ := h
  binary hleft hright _ _ _ := Expr.within_append.mpr ⟨hleft, hright⟩
  compare hleft hright _ _ _ := Expr.within_append.mpr ⟨hleft, hright⟩
  logical hleft hright _ _ := Expr.within_append.mpr ⟨hleft, hright⟩
  var hname hst hlookup := Expr.within_var hname
    fun hhidden => hst.reach_has hlookup hhidden
  listLiteral _ _ h _ := Expr.within_mentionsOfAll h
  listElement hlist hindex _ _ _ := Expr.within_append.mpr ⟨hlist, hindex⟩
  listLength h _ _ := h
  substring hvalue hstart hstop _ _ _ :=
    Expr.within_substring hvalue hstart hstop
  stringLength h _ := h
  group h _ := h
  call hname hst hlookup hargs _ :=
    Expr.within_call ⟨hname, hst.functions hlookup⟩ hargs
  process _ hargs _ := Expr.within_process hargs
  input h _ := Expr.within_mentionsOfOption h
  copy h _ _ := h
  fileExists h _ := h
  fileContent h _ := h
  intToString h _ := h
  stringToInt h _ := h

theorem expression_reaches : Reaches spelled frame count expression :=
  (reaching spelled frame count).expression_makes

end Parse

end Shellwright
