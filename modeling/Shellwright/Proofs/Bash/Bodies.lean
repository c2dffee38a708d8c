/-
Bodies of compound commands in a bash script.  Bash wants at least one line
between a line that opens a body and the one that ends it.  The generator writes
a line that does nothing into a block without statements, but a statement that
only throws a value away may write no line at all.  A script has an empty body
exactly where a body holds such statements and nothing else.
-/
import Mathlib
import Shellwright.Proofs.Accepted
import Shellwright.Proofs.Bash.Calling

namespace Shellwright

namespace Bash

variable {count : Nat} {used : Bool} {value : Expr} {name : String}
  {body : List Stmt} {tests : List String} {condition : Option Expr}
  {params targets : List Binding} {types : List ValueType}
  {otherwise : Option (List Stmt)} {branches : List (Expr × List Stmt)}
  {stages : List (String × List Expr)}

open Script

/-! Expressions are settled. -/

theorem evaluateAll_plain {items : List Expr} :
    Plain (evaluateAll items : Write State (List String)) :=
  plain_of_steady fun _ => steady_actions.evaluateAll items

theorem evaluateStages_plain :
    Plain (evaluateStages stages : Write State (List Invocation)) :=
  plain_of_steady fun _ => steady_actions.evaluateStages stages

theorem call_loud {args : List Expr} :
    Loud (evaluate (.call name args types) used : Write State String) := by
  refine evaluateAll_plain.loud fun _ => callFunction_loud.bind fun results =>
    .ite (fun _ => ?_) fun _ => .pure
  cases results with
  | nil => exact Loud.throw.plain
  | cons result _ => exact .pure

theorem process_loud :
    Loud (evaluate (.process stages types) used : Write State String) :=
  evaluateStages_plain.loud fun _ => runProcess_loud.bind fun _ => .pure

mutual

theorem evaluate_settled (e : Expr) {used : Bool} :
    Settled (evaluate e used : Write State String) := by
  match e with
  | .bool _ _ | .int _ _ | .string _ _ | .var _ _ => exact .pure
  | .unary op operand _ =>
      exact (evaluate_settled operand).bind fun _ => unary_settled
  | .binary op left right _ =>
      exact (evaluate_settled left).bind
        fun _ => (evaluate_settled right).bind fun _ => binary_settled
  | .compare op left right _ =>
      exact (evaluate_settled left).bind
        fun _ => (evaluate_settled right).bind fun _ => compare_settled
  | .logical op left right _ =>
      exact (evaluate_settled left).bind fun _ => (evaluate_settled right).bind
        fun _ => .pure
  | .listLiteral items _ =>
      exact (evaluateAll_settled items).bind fun _ => listLiteral_settled
  | .listElement list index _ =>
      exact (evaluate_settled list).bind fun _ => (evaluate_settled index).bind
        fun _ => .pure
  | .substring value start stop _ =>
      exact (evaluate_settled value).bind
        fun _ => (evaluate_settled start).bind fun _ =>
        (evaluateOption_settled stop).bind fun _ => substring_settled
  | .stringLength value _ =>
      exact (evaluate_settled value).bind fun _ => stringLength_settled
  | .call _ _ _ => exact .inr call_loud
  | .process _ _ => exact .inr process_loud
  | .input prompt _ =>
      exact (evaluateOption_settled prompt).bind fun _ => .inr inputLine_loud
  | .copy list _ => exact (evaluate_settled list).bind fun _ => copyList_settled
  | .fileContent path _ =>
      exact (evaluate_settled path).bind fun _ => .inr fileContent_loud
  | .stringToInt value _ =>
      exact (evaluate_settled value).bind fun _ => stringToInt_settled
  | .listLength inner _ | .group inner _ | .fileExists inner _
  | .intToString inner _ =>
      exact (evaluate_settled inner).bind fun _ => .pure

theorem evaluateAll_settled (items : List Expr) :
    Settled (evaluateAll items : Write State (List String)) := by
  match items with
  | [] => exact .pure
  | e :: rest =>
      exact (evaluate_settled e).bind fun _ => (evaluateAll_settled rest).bind
        fun _ => .pure

theorem evaluateOption_settled (item : Option Expr) :
    Settled (evaluateOption item : Write State (Option String)) := by
  match item with
  | none => exact .pure
  | some e => exact (evaluate_settled e).bind fun _ => .pure

end

/-! Bodies in a list of commands. -/

/-- No body is empty: no line that opens one stands directly before a line that
ends one. -/
def Filled (commands : List Command) : Prop :=
  commands.IsChain fun first second => first.opens = true →
    second.closes = false

/-- Commands in which every body that is opened is ended as well.  `solid` says
when no body is empty, `vanishes` when there are no commands at all. -/
structure Segment (solid vanishes : Prop) (commands : List Command) : Prop where
  filled : Filled commands ↔ solid
  empty : commands = [] ↔ vanishes
  first : ∀ c ∈ commands.head?, c.closes = false
  last : ∀ c ∈ commands.getLast?, c.opens = false

/-- Commands from the end of a body on. -/
structure Ending (solid : Prop) (commands : List Command) : Prop where
  filled : Filled commands ↔ solid
  first : ∃ c ∈ commands.head?, c.closes = true
  last : ∀ c ∈ commands.getLast?, c.opens = false

section Segments

variable {solid solid' vanishes vanishes' : Prop}
  {first second body tail : List Command} {opener closer : Command}

theorem Segment.congr (h : Segment solid vanishes first)
    (hsolid : solid ↔ solid') (hvanishes : vanishes ↔ vanishes') :
    Segment solid' vanishes' first :=
  ⟨h.filled.trans hsolid, h.empty.trans hvanishes, h.first, h.last⟩

theorem Ending.congr (h : Ending solid first) (hsolid : solid ↔ solid') :
    Ending solid' first :=
  ⟨h.filled.trans hsolid, h.first, h.last⟩

theorem Segment.nil (hsolid : solid) (hvanishes : vanishes) :
    Segment solid vanishes [] :=
  ⟨iff_of_true .nil hsolid, iff_of_true rfl hvanishes, by simp, by simp⟩

theorem Segment.of_plain (h : ∀ c ∈ first, c.isPlain = true) :
    Segment True (first = []) first := by
  have hplain : ∀ c ∈ first, c.opens = false ∧ c.closes = false := by
    intro c hc
    simpa [Command.isPlain] using h c hc
  refine ⟨iff_of_true ?_ trivial, Iff.rfl, ?_, ?_⟩
  · apply List.Pairwise.isChain
    apply List.pairwise_of_forall_mem_list
    intro c _ c' hc' _
    exact (hplain c' hc').2
  · exact fun c hc => (hplain c (List.mem_of_mem_head? hc)).2
  · exact fun c hc => (hplain c (List.mem_of_mem_getLast? hc)).1

/-- Where no body is left open, none is empty at the joint. -/
theorem filled_append (h : ∀ c ∈ first.getLast?, c.opens = false) :
    Filled (first ++ second) ↔ Filled first ∧ Filled second := by
  unfold Filled
  rw [List.isChain_append]
  constructor
  · exact fun hchain => ⟨hchain.1, hchain.2.1⟩
  · refine fun hchain => ⟨hchain.1, hchain.2, fun c hc _ _ hopens => ?_⟩
    rw [h c hc] at hopens
    cases hopens

theorem Segment.append (hfirst : Segment solid vanishes first)
    (hsecond : Segment solid' vanishes' second) :
    Segment (solid ∧ solid') (vanishes ∧ vanishes') (first ++ second) where
  filled := (filled_append hfirst.last).trans
    (and_congr hfirst.filled hsecond.filled)
  empty := List.append_eq_nil_iff.trans (and_congr hfirst.empty hsecond.empty)
  first c hc := by
    rw [List.head?_append, Option.mem_def, Option.or_eq_some_iff] at hc
    rcases hc with hc | ⟨_, hc⟩
    · exact hfirst.first c hc
    · exact hsecond.first c hc
  last c hc := by
    rw [List.getLast?_append, Option.mem_def, Option.or_eq_some_iff] at hc
    rcases hc with hc | ⟨_, hc⟩
    · exact hsecond.last c hc
    · exact hfirst.last c hc

theorem Ending.of_closer (hcloses : closer.closes = true)
    (hopens : closer.opens = false) : Ending True [closer] :=
  ⟨iff_of_true (.singleton closer) trivial, ⟨closer, rfl, hcloses⟩, by
    simpa using hopens⟩

/-- The body between two lines is empty exactly if it has no commands. -/
theorem filled_bracket (hopens : opener.opens = true)
    (hbody : Segment solid vanishes body) (htail : Ending solid' tail) :
    Filled (opener :: (body ++ tail)) ↔ (¬vanishes ∧ solid) ∧ solid' := by
  rw [← hbody.empty, ← hbody.filled, ← htail.filled,
    and_assoc, ← filled_append hbody.last]
  unfold Filled
  rw [List.isChain_cons]
  refine and_congr_left fun _ => ?_
  cases body with
  | nil =>
      obtain ⟨c, hc, hcloses⟩ := htail.first
      refine iff_of_false (fun h => ?_) (by simp)
      have hfalse := h c hc hopens
      rw [hcloses] at hfalse
      cases hfalse
  | cons head rest =>
      refine iff_of_true (fun c hc _ => ?_) (by simp)
      exact hbody.first c hc

theorem getLast?_bracket (htail : Ending solid tail) :
    ∀ c ∈ (opener :: (body ++ tail)).getLast?, c.opens = false := by
  intro c hc
  obtain ⟨head, hhead, _⟩ := htail.first
  have hne : tail ≠ [] := List.ne_nil_of_mem (List.mem_of_mem_head? hhead)
  rw [← List.cons_append, List.getLast?_append_of_ne_nil _ hne] at hc
  exact htail.last c hc

/-- A body with the line before it and what follows. -/
theorem Segment.bracket (hopens : opener.opens = true)
    (hcloses : opener.closes = false) (hbody : Segment solid vanishes body)
    (htail : Ending solid' tail) :
    Segment ((¬vanishes ∧ solid) ∧ solid') False (opener :: (body ++ tail)) :=
  ⟨filled_bracket hopens hbody htail, by simp, by
    simpa using hcloses, getLast?_bracket htail⟩

/-- A further body of the same construct. -/
theorem Ending.bracket (hopens : opener.opens = true)
    (hcloses : opener.closes = true) (hbody : Segment solid vanishes body)
    (htail : Ending solid' tail) :
    Ending ((¬vanishes ∧ solid) ∧ solid') (opener :: (body ++ tail)) :=
  ⟨filled_bracket hopens hbody htail, ⟨opener, rfl, hcloses⟩,
    getLast?_bracket htail⟩

end Segments

/-! Bodies in a tree. -/

/-- The statement throws a value away that costs no line. -/
def Vanishes : Stmt → Prop
  | .define targets (some value) _ | .assign targets value =>
      (∀ target ∈ targets, target.name = "_") ∧
        Silent (evaluate value true : Write State String)
  | _ => False

/-- A body that holds statements, but none that writes a line. -/
def Hollow (body : List Stmt) : Prop := body ≠ [] ∧ ∀ s ∈ body, Vanishes s

mutual

/-- No body of the statement is hollow.  The parameters of a function are lines
in its body, and the post statement of a loop is a body of its own. -/
def Solid : Stmt → Prop
  | .function _ params _ body => ¬(params = [] ∧ Hollow body) ∧ SolidBlock body
  | .choose branches otherwise =>
      SolidBranches branches ∧ SolidFallback otherwise
  | .loop init _ post body =>
      SolidPart init ∧ ((¬∃ s ∈ post, Vanishes s) ∧ SolidPart post) ∧
        SolidBlock body
  | _ => True

def SolidBlock : List Stmt → Prop
  | [] => True
  | s :: rest => Solid s ∧ SolidBlock rest

def SolidPart : Option Stmt → Prop
  | none => True
  | some s => Solid s

def SolidBranches : List (Expr × List Stmt) → Prop
  | [] => True
  | (_, body) :: rest => (¬Hollow body ∧ SolidBlock body) ∧ SolidBranches rest

def SolidFallback : Option (List Stmt) → Prop
  | none => True
  | some body => ¬Hollow body ∧ SolidBlock body

end

/-! Simple statements. -/

theorem Loud.segment {α : Type} {p : Write State α} (h : Loud p) :
    Writes p fun _ new => Segment True False new :=
  h.weaken fun _ _ hnew => (Segment.of_plain hnew.2).congr Iff.rfl
    (iff_of_false hnew.1 id)

theorem evaluateResults_writes :
    Writes (evaluateResults value count)
      fun _ new => (∀ c ∈ new, c.isPlain = true) ∧
      (new = [] ↔ Silent (evaluate value true : Write State String)) := by
  cases value with
  | call name args types =>
      have hresults : Loud (evaluateResults (.call name args types) count) :=
        evaluateAll_plain.loud fun _ => callFunction_loud
      exact hresults.weaken fun _ _ hnew =>
        ⟨hnew.2, iff_of_false hnew.1 call_loud.not_silent⟩
  | process stages types =>
      have hresults : Loud (evaluateResults (.process stages types) count) :=
        evaluateStages_plain.loud fun _ => runProcess_loud
      exact hresults.weaken fun _ _ hnew =>
        ⟨hnew.2, iff_of_false hnew.1 process_loud.not_silent⟩
  | _ =>
      refine .bind (evaluate_settled _).writes
        fun _ => .pure fun first hfirst => ?_
      rwa [List.append_nil]

/-- There are at least as many results as are asked for. -/
theorem evaluateMany_writes :
    Writes (evaluateMany value count) fun results new =>
      count ≤ results.length ∧ (∀ c ∈ new, c.isPlain = true) ∧
      (new = [] ↔ Silent (evaluate value true : Write State String)) := by
  refine .bind evaluateResults_writes fun results => .ite (fun _ => ?_)
    fun hlength => .pure ?_
  · exact .bind (Q := fun _ _ => False) .throw
      fun _ => .pure fun _ hfalse => hfalse.elim
  · intro first hfirst
    rw [List.append_nil]
    exact ⟨Nat.le_of_not_lt hlength, hfirst⟩

/-- A line for each target that is no discard. -/
theorem targets_writes {values : List String}
    (write : Binding → String → Write State Unit)
    (hwrite : ∀ target value, Loud (write target value)) :
    Writes ((targets.zip values).forM fun item =>
      if item.1.name = "_" then return else write item.1 item.2) fun _ new =>
        (∀ c ∈ new, c.isPlain = true) ∧ (targets.length ≤ values.length →
          (new = [] ↔ ∀ target ∈ targets, target.name = "_")) := by
  induction targets generalizing values with
  | nil => exact .pure (by simp)
  | cons target targets ih =>
      cases values with
      | nil => exact .pure (by simp)
      | cons value values =>
          by_cases hname : target.name = "_"
          · have hskip :
              ∀ s, exec
                (if target.name = "_" then return else write target value :
                Write State Unit) s = (.ok (), s) := by simp [hname]
            refine Writes.after_silent hskip (ih.weaken ?_)
            rintro _ new ⟨hplain, hempty⟩
            refine ⟨hplain, fun hlength => ?_⟩
            simpa [hname] using hempty (Nat.le_of_succ_le_succ hlength)
          · refine .bind (Q := fun _ new => new ≠ [] ∧
              ∀ c ∈ new, c.isPlain = true) ?_ fun _ => ih.weaken ?_
            · exact .ite (fun h => absurd h hname) fun _ => hwrite target value
            · rintro _ new ⟨hplain, _⟩ first ⟨hne, hfirst⟩
              refine ⟨List.forall_mem_append.mpr ⟨hfirst, hplain⟩, fun _ => ?_⟩
              simp [hne, hname]

/-- A definition from a value and an assignment. -/
theorem setTargets_writes (write : Binding → String → Write State Unit)
    (hwrite : ∀ target value, Loud (write target value)) :
    Writes (evaluateMany value targets.length >>= fun values =>
      (targets.zip values).forM fun item =>
        if item.1.name = "_" then return else write item.1 item.2) fun _ new =>
      Segment True ((∀ target ∈ targets, target.name = "_") ∧
        Silent (evaluate value true : Write State String)) new := by
  refine .bind evaluateMany_writes fun values =>
    (targets_writes write hwrite).weaken ?_
  rintro _ second ⟨hsecond, hdiscards⟩ first ⟨hlength, hfirst, hsilent⟩
  refine (Segment.of_plain (List.forall_mem_append.mpr ⟨hfirst, hsecond⟩)).congr
    Iff.rfl ?_
  rw [List.append_eq_nil_iff, hsilent, hdiscards hlength, and_comm]

theorem action_loud (h : value.isAction = true) :
    Loud (statement (.action value) : Write State Unit) := by
  cases value with
  | call _ _ _ => exact call_loud.bind fun _ => .pure
  | process _ _ =>
      exact evaluateStages_plain.loud fun _ => runProcess_loud.bind
        fun _ => .pure
  | input prompt types =>
      exact ((evaluateOption_settled prompt).plain.loud
        fun _ => inputLine_loud).bind fun _ => .pure
  | _ => cases h

theorem defineEmpty_loud {constant : Bool} (h : targets ≠ []) :
    Loud (statement (.define targets none constant) : Write State Unit) := by
  cases targets with
  | nil => exact absurd rfl h
  | cons target targets =>
      have hrest : Plain (targets.forM fun target =>
          defineVariable target.name target.ty none) := by
        induction targets with
        | nil => exact .pure
        | cons target targets ih =>
            exact defineVariable_loud.plain.bind fun _ => ih (by simp)
      exact defineVariable_loud.bind fun _ => hrest

/-! The lines around bodies. -/

section Frames

variable {condition : String} {construct : Construct} {command : Command}

theorem indent_writes : Writes indent fun _ new => new = [] :=
  .modify (fun _ => rfl) rfl

theorem outdent_writes : Writes (outdent construct) fun _ new => new = [] := by
  intro s _ s' hrun
  obtain ⟨depth, hdepth⟩ : ∃ depth, s' = { s with depth } := by
    cases hs : s.depth with
    | zero => simp [outdent, hs] at hrun
    | succ depth => exact ⟨depth, by simpa [outdent, hs, eq_comm] using hrun⟩
  exact ⟨[], by simp [hdepth, State.commands], rfl⟩

theorem emit_indent_writes :
    Writes (do emit command; indent) fun _ new => new = [command] := by
  refine .bind emit_writes fun _ => indent_writes.weaken ?_
  rintro _ _ rfl _ rfl
  rfl

theorem outdent_emit_writes :
    Writes (do outdent construct; emit command)
      fun _ new => new = [command] := by
  refine .bind outdent_writes fun _ => emit_writes.weaken ?_
  rintro _ _ rfl _ rfl
  rfl

theorem elseIfStart_writes :
    Writes (elseIfStart condition) fun _ new => new =
      [.elseIfTrue condition] := by
  refine .bind outdent_writes fun _ => emit_indent_writes.weaken ?_
  rintro _ _ rfl _ rfl
  rfl

theorem elseStart_writes : Writes elseStart
    fun _ new => new = [.otherwise] := by
  refine .bind outdent_writes fun _ => emit_indent_writes.weaken ?_
  rintro _ _ rfl _ rfl
  rfl

/-- A loop starts with a plain line. -/
theorem loopStart_writes :
    Writes loopStart fun _ new => ∃ start, start.isPlain = true ∧
      new = [start, .whileTrue] := by
  refine .bind (Q := fun _ new => new = []) (.modify (fun _ => rfl) rfl)
    fun _ => .get fun s =>
    .bind isLocal_writes fun _ => .bind emit_writes
      fun _ => .bind emit_writes fun _ =>
    .bind indent_writes fun _ => .modify (fun _ => rfl) ?_
  rintro _ rfl _ rfl _ rfl _ rfl _ rfl
  exact ⟨_, rfl, rfl⟩

theorem postStart_writes :
    Writes postStart fun _ new => ∃ flag lower, lower.isPlain = true ∧
      new = [.ifTrue flag, lower, .otherwise] := by
  refine .get fun s => ?_
  cases s.flags with
  | nil => exact .throw
  | cons flag flags =>
      refine .bind emit_indent_writes fun _ => .bind emit_writes
        fun _ => elseStart_writes.weaken ?_
      rintro _ _ rfl _ rfl _ rfl
      exact ⟨_, _, rfl, rfl⟩

theorem loopEnd_writes : Writes loopEnd fun _ new => new = [.endWhile] := by
  intro s _ s' hrun
  unfold loopEnd at hrun
  rw [exec_get_bind] at hrun
  cases hflags : s.flags with
  | nil => simp [hflags] at hrun
  | cons flag flags =>
      rw [hflags] at hrun
      obtain ⟨_, mid, hset, hrun⟩ := exec_bind_eq_ok hrun
      obtain rfl : { s with flags } = mid := congrArg Prod.snd hset
      obtain ⟨new, hlines, hnew⟩ := outdent_emit_writes hrun
      exact ⟨new, hlines, hnew⟩

theorem loopExit_loud {exit : LoopExit} (h : command.isPlain = true) :
    Loud (loopExit exit command) :=
  .get fun _ => .ite (fun _ => .bind (Q := fun _ _ => False) .throw fun _ =>
    (emit_loud h).weaken fun _ _ _ _ => False.elim) fun _ => emit_loud h

theorem functionEnd_writes : Writes functionEnd
    fun _ new => new = [.functionClose] := by
  refine .bind outdent_writes fun _ => .bind emit_writes
    fun _ => .modify (fun _ => rfl) ?_
  rintro _ rfl _ rfl
  rfl

theorem bindingsFrom_plain {place scalars : Nat} :
    ∀ c ∈ bindingsFrom place scalars params, c.isPlain = true := by
  intro c hc
  obtain ⟨i, _, rfl⟩ := List.mem_mapIdx.mp hc
  unfold bindingOf
  split <;> rfl

end Frames

/-! Compound statements. -/

/-- What is written for the block.  Only a hollow one writes nothing. -/
def BlockSegment (body : List Stmt) : Prop :=
  Writes (block body : Write State Unit)
    fun _ new => Segment (SolidBlock body) (Hollow body) new

theorem block_segment
    (h : Writes (statements body : Write State Unit) fun _ new => Segment
      (SolidBlock body) (∀ s ∈ body, Vanishes s) new) : BlockSegment body := by
  cases body with
  | nil =>
      have hnothing : Loud (emit .nothing) := emit_loud rfl
      refine hnothing.segment.weaken fun _ _ hnew => hnew.congr ?_ ?_
      · exact iff_of_true trivial (by simp [SolidBlock])
      · exact iff_of_false id (by simp [Hollow])
  | cons first rest =>
      unfold BlockSegment
      rw [block_cons]
      exact h.weaken fun _ _ hnew => hnew.congr Iff.rfl (by simp [Hollow])

/-- Further branches, with the rest of the chain behind them.  A body ends at
the line that opens the next one, so a branch alone is not a segment. -/
theorem guarded_ending (hbodies : ∀ branch ∈ branches, BlockSegment branch.2) :
    Writes (guarded false branches tests : Write State Unit) fun _ new =>
      tests.length = branches.length → ∀ solid tail, Ending solid tail →
        Ending (SolidBranches branches ∧ solid) (new ++ tail) := by
  induction branches generalizing tests with
  | nil =>
      unfold guarded
      exact .pure fun _ solid tail htail =>
        htail.congr (by simp [SolidBranches])
  | cons branch branches ih =>
      obtain ⟨hbody, hbodies⟩ := List.forall_mem_cons.mp hbodies
      cases tests with
      | nil =>
          unfold guarded
          exact .pure (by simp)
      | cons test tests =>
          unfold guarded
          rw [if_neg Bool.false_ne_true]
          refine .bind elseIfStart_writes
            fun _ => .bind hbody fun _ => (ih hbodies).weaken ?_
          rintro _ rest hrest body hsegment _ rfl hlength solid tail htail
          have hlater := hrest (Nat.succ.inj hlength) solid tail htail
          have hturn :
              Ending _ (.elseIfTrue test :: (body ++ (rest ++ tail))) :=
            .bracket rfl rfl hsegment hlater
          rw [List.append_assoc, List.append_assoc, List.singleton_append]
          refine hturn.congr ?_
          rw [SolidBranches]
          exact and_assoc.symm

theorem fallback_ending (hbody : ∀ body ∈ otherwise, BlockSegment body) :
    Writes (fallback otherwise >>= fun _ => ifEnd : Write State Unit)
      fun _ new => Ending (SolidFallback otherwise) new := by
  have hend : Ending True [Command.endIf] := .of_closer rfl rfl
  cases otherwise with
  | none =>
      unfold fallback
      rw [pure_bind]
      refine outdent_emit_writes.weaken ?_
      rintro _ _ rfl
      exact hend
  | some body =>
      unfold fallback
      rw [bind_assoc]
      refine .bind elseStart_writes fun _ => .bind (hbody body rfl) fun _ =>
        outdent_emit_writes.weaken ?_
      rintro _ _ rfl new hsegment _ rfl
      exact (Ending.bracket rfl rfl hsegment hend).congr (and_iff_left trivial)

theorem guarded_first_segment (hbranches : branches ≠ [])
    (hbodies : ∀ branch ∈ branches, BlockSegment branch.2) :
    Writes (guarded true branches tests : Write State Unit) fun _ new =>
      tests.length = branches.length → ∀ solid tail, Ending solid tail →
        Segment (SolidBranches branches ∧ solid) False (new ++ tail) := by
  cases branches with
  | nil => exact absurd rfl hbranches
  | cons branch branches =>
      obtain ⟨hbody, hbodies⟩ := List.forall_mem_cons.mp hbodies
      cases tests with
      | nil =>
          unfold guarded
          exact .pure (by simp)
      | cons test tests =>
          unfold guarded
          rw [if_pos rfl]
          refine .bind emit_indent_writes fun _ => .bind hbody fun _ =>
            (guarded_ending hbodies).weaken ?_
          rintro _ rest hrest body hsegment _ rfl hlength solid tail htail
          have hlater := hrest (Nat.succ.inj hlength) solid tail htail
          have hturn :
              Segment _ False (.ifTrue test :: (body ++ (rest ++ tail))) :=
            .bracket rfl rfl hsegment hlater
          rw [List.append_assoc, List.append_assoc, List.singleton_append]
          refine hturn.congr ?_ Iff.rfl
          rw [SolidBranches]
          exact and_assoc.symm

theorem choose_segment (hbranches : branches ≠ [])
    (hbodies : ∀ branch ∈ branches, BlockSegment branch.2)
    (hotherwise : ∀ body ∈ otherwise, BlockSegment body) :
    Writes (statement (.choose branches otherwise) : Write State Unit)
      fun _ new => Segment (Solid (.choose branches otherwise)) False new := by
  unfold statement
  have htests := writes_of_steady fun scope =>
    Journal.Enters.weaken (j := steady scope)
      (steady_actions.conditions branches) fun _ => And.left
  refine .bind htests fun tests =>
    .bind (guarded_first_segment hbranches hbodies)
    fun _ => (fallback_ending hotherwise).weaken ?_
  rintro _ tail htail chain hchain tested ⟨hlength, hplain⟩
  have hall := (Segment.of_plain hplain).append (hchain hlength _ tail htail)
  exact hall.congr (by simp [Solid]) (by simp)

theorem postPart_segment {post : Option Stmt}
    (h : Writes (optional post : Write State Unit) fun _ new =>
      Segment (SolidPart post) (∀ s ∈ post, Vanishes s) new) :
    Writes (postPart post : Write State Unit) fun _ new =>
      Segment (SolidPart post) (∃ s ∈ post, Vanishes s) new := by
  cases post with
  | none =>
      have hnothing : Loud (emit .nothing) := emit_loud rfl
      exact hnothing.segment.weaken fun _ _ hnew =>
        hnew.congr (iff_of_true trivial (by simp [SolidPart])) (by simp)
  | some step =>
      unfold Script.optional at h
      exact h.weaken fun _ _ hnew => hnew.congr Iff.rfl (by simp)

theorem conditionPart_plain :
    Plain (conditionPart condition : Write State Unit) := by
  cases condition with
  | none => exact .pure
  | some test =>
      exact (evaluate_settled test).plain.bind fun _ => (emit_loud rfl).plain

/-- The flag of a loop decides about its post statement, which is thus a body of
its own inside the body of the loop. -/
theorem loop_segment {init post : Option Stmt} {round : List Stmt}
    (hinit : Writes (optional init : Write State Unit) fun _ new => Segment
      (SolidPart init) (∀ s ∈ init, Vanishes s) new)
    (hpost : Writes (optional post : Write State Unit) fun _ new => Segment
      (SolidPart post) (∀ s ∈ post, Vanishes s) new)
    (hround : BlockSegment round) :
    Writes (statement (.loop init condition post round) : Write State Unit)
      fun _ new =>
      Segment (Solid (.loop init condition post round)) False new := by
  rw [statement_loop]
  refine .bind hinit fun _ => .bind loopStart_writes
    fun _ => .bind postStart_writes fun _ =>
    .bind (postPart_segment hpost) fun _ => .bind outdent_emit_writes fun _ =>
    .bind conditionPart_plain fun _ => .bind hround
      fun _ => loopEnd_writes.weaken ?_
  rintro _ _ rfl lines hlines tests htests _ rfl step hstep
    _ ⟨flag, lower, hlower, rfl⟩ _ ⟨start, hstart, rfl⟩ first hfirst
  have hplain : ∀ {c : Command}, c.isPlain = true → Segment True False [c] :=
    fun hc => (Segment.of_plain (by simpa using hc)).congr Iff.rfl (by simp)
  -- from the inside out: the post statement, the flag around it, the round, the
  -- loop
  have hstepped : Ending _ (.otherwise :: (step ++ [.endIf])) :=
    .bracket rfl rfl hstep (.of_closer rfl rfl)
  have hflag :
      Segment _ False
        (.ifTrue flag :: ([lower] ++ .otherwise :: (step ++ [.endIf]))) :=
    .bracket rfl rfl (hplain hlower) hstepped
  have hinside := hflag.append ((Segment.of_plain htests).append hlines)
  have hloop : Segment _ False (.whileTrue :: (_ ++ [.endWhile])) :=
    .bracket rfl rfl hinside (.of_closer rfl rfl)
  have hall := hfirst.append ((hplain hstart).append hloop)
  have hshort : Segment (Solid (.loop init condition post round)) False _ :=
    hall.congr (by simp [Solid]) (by simp)
  simpa only [List.append_assoc, List.cons_append, List.nil_append] using hshort

theorem function_segment {returns : List ValueType}
    (hbody : BlockSegment body) :
    Writes (statement (.function name params returns body) : Write State Unit)
      fun _ new =>
      Segment (Solid (.function name params returns body)) False new := by
  unfold statement
  refine .bind functionStart_writes fun _ => .bind hbody
    fun _ => functionEnd_writes.weaken ?_
  rintro _ _ rfl lines hlines _ rfl
  have hbindings : ∀ c ∈ bindingsFrom 0 0 params, c.isPlain = true :=
    bindingsFrom_plain
  -- the parameters stand in the body, so a hollow block is no empty body if
  -- there are any
  have hinside := (Segment.of_plain hbindings).append hlines
  have hall : Segment _ False (.functionOpen name :: (_ ++ [.functionClose])) :=
    .bracket rfl rfl hinside (.of_closer rfl rfl)
  have hempty : bindingsFrom 0 0 params = [] ↔ params = [] := by
    simp [bindingsFrom]
  have hshort : Segment (Solid (.function name params returns body)) False _ :=
    hall.congr (by simp [Solid, hempty]) Iff.rfl
  simpa only [List.append_assoc, List.cons_append] using hshort

mutual

/-- The lines of a checked statement. -/
theorem statement_segment {place : Place} {before after : Tables} {s : Stmt}
    (h : Stmt.Checked place before s after) :
    Writes (statement s : Write State Unit)
      fun _ new => Segment (Solid s) (Vanishes s) new := by
  match h with
  | .defineEmpty htargets _ _ => exact (defineEmpty_loud htargets).segment
  | .define _ _ _ =>
      unfold statement Solid
      exact setTargets_writes
        (fun target value => defineVariable target.name target.ty (some value))
        fun _ _ => defineVariable_loud
  | .assign _ _ _ =>
      unfold statement Solid
      exact setTargets_writes
        (fun target value => assignVariable target.name target.ty value)
        fun _ _ => assignVariable_loud
  | .store _ _ _ _ _ _ =>
      exact Loud.segment ((evaluate_settled _).plain.loud fun _ =>
        (evaluate_settled _).plain.loud fun _ => storeElement_loud)
  | .function _ _ _ _ hbody _ =>
      exact function_segment (block_segment (statements_segment hbody))
  | .giveBack _ _ _ =>
      exact Loud.segment
        ((plain_of_steady fun _ => steady_actions.returnedValues _).loud
        fun _ => giveBack_loud)
  | .choose hbranches hchain =>
      obtain ⟨hbodies, hotherwise⟩ := chain_segments hchain
      exact choose_segment hbranches hbodies hotherwise
  | .loop hinit _ hpost hbody _ =>
      exact loop_segment (part_segment hinit) (part_segment hpost)
        (block_segment (statements_segment hbody))
  | .leaveLoop _ | .nextRound _ => exact (loopExit_loud rfl).segment
  | .print _ _ _ =>
      exact Loud.segment ((evaluate_settled _).plain.loud fun _ => print_loud)
  | .panic _ _ =>
      exact Loud.segment ((evaluate_settled _).plain.loud fun _ => panic_loud)
  | .writeFile _ _ _ _ =>
      exact Loud.segment ((evaluate_settled _).plain.loud fun _ =>
        (evaluate_settled _).plain.loud fun _ => emit_loud rfl)
  | .action _ haction => exact (action_loud haction).segment
  | .noOp => exact (emit_loud rfl).segment

theorem statements_segment {place : Place} {before after : Tables}
    {body : List Stmt} (h : Block.Checked place before body after) :
    Writes (statements body : Write State Unit) fun _ new =>
      Segment (SolidBlock body) (∀ s ∈ body, Vanishes s) new := by
  match h with
  | .nil => exact .pure (.nil trivial (by simp))
  | .cons hfirst hrest =>
      refine .bind (statement_segment hfirst)
        fun _ => (statements_segment hrest).weaken ?_
      intro _ later hlater first hfirst
      exact (hfirst.append hlater).congr (by simp [SolidBlock]) (by simp)

theorem part_segment {place : Place} {before after : Tables}
    {part : Option Stmt} (h : Part.Checked place before part after) :
    Writes (Script.optional part : Write State Unit) fun _ new =>
      Segment (SolidPart part) (∀ s ∈ part, Vanishes s) new := by
  match h with
  | .none => exact .pure (.nil trivial (by simp))
  | .some hstatement =>
      exact (statement_segment hstatement).weaken
        fun _ _ hnew => hnew.congr Iff.rfl (by simp)

theorem chain_segments {place : Place} {before after : Tables}
    {branches : List (Expr × List Stmt)} {otherwise : Option (List Stmt)}
    (h : Chain.Checked place before branches otherwise after) :
    (∀ branch ∈ branches, BlockSegment branch.2) ∧
      ∀ body ∈ otherwise, BlockSegment body := by
  match h with
  | .nil => exact ⟨by simp, by simp⟩
  | .branch _ _ hbody hrest =>
      obtain ⟨hbodies, hotherwise⟩ := chain_segments hrest
      exact ⟨List.forall_mem_cons.mpr ⟨block_segment (statements_segment hbody),
        hbodies⟩, hotherwise⟩
  | .otherwise hbody hrest =>
      have hblock := block_segment (statements_segment hbody)
      refine ⟨(chain_segments hrest).1, ?_⟩
      rintro body ⟨⟩
      exact hblock

end

/-! Scripts. -/

theorem programEnd_eq_ok {s s' : State} {script : String}
    (h : exec programEnd s = (.ok script, s')) :
    script = String.join (s.scriptLines.map (· ++ Shell.bash.lineEnding)) := by
  unfold programEnd at h
  rw [exec_get_bind] at h
  by_cases hopen : s.depth ≠ 0 ∨ s.flags ≠ []
  · rw [if_pos hopen] at h
    cases h
  · rw [if_neg hopen] at h
    exact (Except.ok.inj (congrArg Prod.fst h)).symm

/-- An accepted program is written to its end. -/
theorem script_of_block {source : String} {program : Program}
    (h : parseSource source = .ok program) :
    ∃ s : State, exec (block program.statements) State.fresh = (.ok (), s) ∧
      program.script .bash =
        .ok (String.join (s.scriptLines.map (· ++ Shell.bash.lineEnding))) := by
  obtain ⟨⟨script, hscript⟩, _⟩ := script_of_accepted h
  obtain ⟨s', hrun⟩ : ∃ s', exec (generate program) State.fresh =
      (.ok script, s') :=
    ⟨_, Prod.ext hscript rfl⟩
  obtain ⟨_, _, hstart, hrun⟩ := exec_bind_eq_ok hrun
  obtain rfl : State.fresh = _ := congrArg Prod.snd hstart
  obtain ⟨_, s, hbody, hend⟩ := exec_bind_eq_ok hrun
  exact ⟨s, hbody, by rw [hscript, programEnd_eq_ok hend]⟩

/-- An accepted program has a bash script, and a body in it is empty exactly if
the program has a hollow body: one that is not empty in the source, but whose
statements all throw away values that cost no line. -/
theorem bash_empty_bodies_are_discards {source : String} {program : Program}
    (h : parseSource source = .ok program) :
    ∃ s : State, exec (block program.statements) State.fresh = (.ok (), s) ∧
      program.script .bash =
        .ok (String.join (s.scriptLines.map (· ++ Shell.bash.lineEnding))) ∧
      (Filled s.commands ↔ SolidBlock program.statements) := by
  obtain ⟨tables, hchecked, _⟩ := parseSource_checked h
  obtain ⟨s, hbody, hscript⟩ := script_of_block h
  obtain ⟨new, hnew, hsegment⟩ :=
    block_segment (statements_segment hchecked) hbody
  obtain rfl : s.commands = new := hnew
  exact ⟨s, hbody, hscript, hsegment.filled⟩

/-- A function and a loop with empty blocks, and a branch with a discard in
front of another statement. -/
theorem bash_empty_bodies_are_discards_none :
    ∃ program s,
      parseSource
        "func f() \x7b\n\x7d\nfor \x7b\n\x7d\nif true \x7b\n_ = 1\nf()\n\x7d\n" =
          .ok program ∧
        exec (block program.statements) State.fresh = (.ok (), s) ∧
        SolidBlock program.statements ∧ Filled s.commands := by
  have h : parseSource
      "func f() \x7b\n\x7d\nfor \x7b\n\x7d\nif true \x7b\n_ = 1\nf()\n\x7d\n" =
      .ok ⟨[.function "f" [] [] [], .loop none none none [],
        .choose [(.bool true [.bool], [.assign [⟨"_", .int⟩] (.int 1 [.int]),
          .action (.call "f" [] [])])] none]⟩ := by
    cbv
  obtain ⟨s, hrun, _, hfilled⟩ := bash_empty_bodies_are_discards h
  have hsolid : SolidBlock [.function "f" [] [] [], .loop none none none [],
      .choose [(.bool true [.bool], [.assign [⟨"_", .int⟩] (.int 1 [.int]),
        .action (.call "f" [] [])])] none] := by
    simp [SolidBlock, Solid, SolidPart, SolidBranches, SolidFallback, Hollow,
      Vanishes]
  exact ⟨_, s, h, hrun, hsolid, hfilled.mpr hsolid⟩

/-- A branch whose only statement is a discard of a literal has no line. -/
theorem bash_body_of_discard_empty :
    ∃ program s, parseSource "if true \x7b\n_ = 1\n\x7d\n" = .ok program ∧
      program.script .bash =
        .ok "#!/usr/bin/env bash\nif [ \"1\" = 1 ]; then\nfi\n" ∧
      exec (block program.statements) State.fresh = (.ok (), s) ∧
      s.commands = [.ifTrue "1", .endIf] ∧ ¬Filled s.commands := by
  have h : parseSource "if true \x7b\n_ = 1\n\x7d\n" =
      .ok ⟨[.choose
        [(.bool true [.bool], [.assign [⟨"_", .int⟩] (.int 1 [.int])])]
          none]⟩ := by
    cbv
  have hscript : Program.script
      ⟨[.choose [(.bool true [.bool], [.assign [⟨"_", .int⟩] (.int 1 [.int])])]
        none]⟩ .bash =
      .ok "#!/usr/bin/env bash\nif [ \"1\" = 1 ]; then\nfi\n" := by
    decide +kernel
  refine ⟨_, ⟨#[⟨0, .ifTrue "1"⟩, ⟨0, .endIf⟩], 0, 0, [], 0, false, false,
    false⟩, h, hscript, rfl, rfl, fun hfilled => ?_⟩
  cases hfilled with
  | cons_cons hnext _ => exact Bool.false_ne_true (hnext rfl).symm

end Bash

end Shellwright
