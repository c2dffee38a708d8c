/-
Keeping a journal of a writer.  A journal says how the state may change while
the mentions of a tree are written.  If every operation enters its own mention,
a writer that succeeds has entered the mentions of its whole tree, in order.
-/
import Shellwright.Proofs.Names
import Shellwright.Proofs.Script.Coupling
import Shellwright.Proofs.Script.WriteProgram

namespace Shellwright

/-- A statement without a block that hands control to the next line. -/
def Stmt.isStraight : Stmt → Bool
  | .define .. | .assign .. | .store .. | .print _ | .writeFile .. | .action _
  | .noOp => true
  | _ => false

namespace Script

variable {σ α β : Type}

/-- How states change while mentions are written, and which fragments they
yield. -/
structure Journal (σ : Type) where
  step : List Mention → σ → σ → Prop
  fragment : String → Prop
  refl (s : σ) : step [] s s
  trans {first second : List Mention} {s mid s' : σ} :
    step first s mid → step second mid s' → step (first ++ second) s s'

namespace Journal

/-- Whenever the writer succeeds the mentions have been entered, and its value
has the property `Q`. -/
def Enters (j : Journal σ) (mentions : List Mention) (p : Write σ α)
    (Q : α → Prop) : Prop :=
  ∀ s a s', exec p s = (.ok a, s') → j.step mentions s s' ∧ Q a

namespace Enters

variable {j : Journal σ} {first second : List Mention} {p q : Write σ α}
  {f : α → Write σ β} {Q : α → Prop} {Q' : β → Prop}

theorem pure {a : α} (ha : Q a) : j.Enters [] (Pure.pure a) Q := by
  intro s b s' hrun
  obtain ⟨hvalue, rfl⟩ := Prod.mk.inj hrun
  obtain rfl := Except.ok.inj hvalue
  exact ⟨j.refl s, ha⟩

theorem throw {error : ScriptError} :
    j.Enters first (MonadExcept.throw error) Q := by
  intro s a s' hrun
  cases hrun

theorem bind (hp : j.Enters first p Q)
    (hf : ∀ a, Q a → j.Enters second (f a) Q') :
    j.Enters (first ++ second) (p >>= f) Q' := by
  intro s b s' hrun
  obtain ⟨a, mid, hfirst, hsecond⟩ := exec_bind_eq_ok hrun
  obtain ⟨hmid, ha⟩ := hp s a mid hfirst
  obtain ⟨hlast, hb⟩ := hf a ha mid b s' hsecond
  exact ⟨j.trans hmid hlast, hb⟩

/-- An end that enters nothing. -/
theorem before (hp : j.Enters first p Q)
    (hf : ∀ a, Q a → j.Enters [] (f a) Q') : j.Enters first (p >>= f) Q' := by
  have h := hp.bind hf
  rwa [List.append_nil] at h

/-- A start that enters nothing. -/
theorem after (hp : j.Enters [] p Q)
    (hf : ∀ a, Q a → j.Enters second (f a) Q') :
    j.Enters second (p >>= f) Q' := hp.bind hf

theorem weaken {Q' : α → Prop} (hp : j.Enters first p Q)
    (hQ : ∀ a, Q a → Q' a) : j.Enters first p Q' :=
  fun s a s' hrun => (hp s a s' hrun).imp_right (hQ a)

theorem ite {c : Prop} [Decidable c] (hp : c → j.Enters first p Q)
    (hq : ¬c → j.Enters first q Q) : j.Enters first (if c then p else q) Q := by
  by_cases hc : c
  · rw [if_pos hc]
    exact hp hc
  · rw [if_neg hc]
    exact hq hc

/-- The values of the targets that take one, from left to right. -/
theorem targets (mention : String → Mention)
    (write : Binding → String → Write σ Unit) (hwrite : ∀ target value,
      j.Enters [mention target.name] (write target value) fun _ => True)
    {targets : List Binding} {values : List String}
    (hlength : targets.length ≤ values.length) :
    j.Enters ((keptTargets targets).map fun target => mention target.name)
      ((targets.zip values).forM fun item =>
        if item.1.name = "_" then return else write item.1 item.2)
      fun _ => True := by
  induction targets generalizing values with
  | nil => exact .pure trivial
  | cons target targets ih =>
      cases values with
      | nil => simp at hlength
      | cons value values =>
          have hrest := ih (Nat.le_of_succ_le_succ hlength)
          by_cases hname : target.name = "_"
          · have hkept : keptTargets (target :: targets) =
                keptTargets targets := by
              simp [keptTargets, hname]
            rw [hkept]
            refine .after (Q := fun _ => True)
              (.ite (fun _ => .pure trivial) ?_) fun _ _ => hrest
            exact fun hkeeps => absurd hname hkeeps
          · have hkept : keptTargets (target :: targets) =
                target :: keptTargets targets := by
              simp [keptTargets, hname]
            rw [hkept]
            have hfirst : j.Enters [mention target.name]
                (if target.name = "_" then return else write target value)
                  fun _ => True :=
              .ite (fun hdrops => absurd hdrops hname)
                fun _ => hwrite target value
            exact hfirst.bind fun _ _ => hrest

end Enters

variable [Dialect σ] (j : Journal σ)

/-- What the operations on values enter. -/
structure Values : Prop where
  boolLiteral : ∀ {value}, j.Enters [] (Dialect.boolLiteral value) j.fragment
  intLiteral : ∀ {value}, j.Enters [] (Dialect.intLiteral value) j.fragment
  stringLiteral : ∀ {value}, j.Enters [] (Dialect.stringLiteral value)
    j.fragment
  readVariable : ∀ {name ty},
    j.Enters [.use name] (Dialect.readVariable name ty) j.fragment
  readElement : ∀ {list element index},
    j.Enters [] (Dialect.readElement list element index) j.fragment
  unary : ∀ {op operand ty used}, j.Enters [] (Dialect.unary op operand ty used)
    j.fragment
  binary : ∀ {op left right ty used}, j.fragment left → j.fragment right →
    j.Enters [] (Dialect.binary op left right ty used) j.fragment
  compare : ∀ {op left right ty used},
    j.Enters [] (Dialect.compare op left right ty used) j.fragment
  logical : ∀ {op left right used}, j.Enters []
    (Dialect.logical op left right used) j.fragment
  listLiteral : ∀ {element values used},
    j.Enters [] (Dialect.listLiteral element values used) j.fragment
  listLength : ∀ {list used}, j.Enters [] (Dialect.listLength list used)
    j.fragment
  substring : ∀ {value start stop used},
    j.Enters [] (Dialect.substring value start stop used) j.fragment
  stringLength : ∀ {value used}, j.Enters [] (Dialect.stringLength value used)
    j.fragment
  group : ∀ {inner ty}, j.fragment inner →
    j.Enters [] (Dialect.group inner ty) j.fragment
  callFunction : ∀ {name args returns used},
    j.Enters [.call name] (Dialect.callFunction name args returns used)
      fun results => ∀ part ∈ results, j.fragment part
  runProcess : ∀ {stages count},
    j.Enters [.pipeline (stages.map Invocation.program)]
      (Dialect.runProcess stages count)
      fun results => ∀ part ∈ results, j.fragment part
  inputLine : ∀ {prompt used}, j.Enters [] (Dialect.inputLine prompt used)
    j.fragment
  copyList : ∀ {list element used}, j.Enters []
    (Dialect.copyList list element used) j.fragment
  fileExists : ∀ {path used}, j.Enters [] (Dialect.fileExists path used)
    j.fragment
  fileContent : ∀ {path used}, j.Enters [] (Dialect.fileContent path used)
    j.fragment
  intToString : ∀ {value used}, j.fragment value →
    j.Enters [] (Dialect.intToString value used) j.fragment
  stringToInt : ∀ {value used}, j.Enters [] (Dialect.stringToInt value used)
    j.fragment
  /-- A pipeline that yields nothing stands for the empty text. -/
  nothing : j.fragment ""

/-- What the operations without control flow enter. -/
structure Actions : Prop extends j.Values where
  defineVariable : ∀ {name ty value},
    j.Enters [.define name] (Dialect.defineVariable name ty value) fun _ => True
  assignVariable : ∀ {name ty value},
    j.Enters [.assign name] (Dialect.assignVariable name ty value) fun _ => True
  storeElement : ∀ {name element index value},
    j.Enters [.assign name] (Dialect.storeElement name element index value)
      fun _ => True
  print : ∀ {value ty}, j.Enters [] (Dialect.print value ty) fun _ => True
  writeFile : ∀ {path content append},
    j.Enters [] (Dialect.writeFile path content append) fun _ => True
  noOp : j.Enters [] Dialect.noOp fun _ => True

/-- What the operations inside a function enter. -/
structure Blocks : Prop extends j.Actions where
  panic : ∀ {message}, j.Enters [.panic] (Dialect.panic message) fun _ => True
  giveBack : ∀ {values}, j.Enters [] (Dialect.giveBack values) fun _ => True
  ifStart : ∀ {condition}, j.Enters [] (Dialect.ifStart condition) fun _ => True
  elseIfStart : ∀ {condition}, j.Enters [] (Dialect.elseIfStart condition)
    fun _ => True
  elseStart : j.Enters [] Dialect.elseStart fun _ => True
  ifEnd : j.Enters [] Dialect.ifEnd fun _ => True
  loopStart : j.Enters [] Dialect.loopStart fun _ => True
  postStart : j.Enters [] Dialect.postStart fun _ => True
  postEnd : j.Enters [] Dialect.postEnd fun _ => True
  loopCondition : ∀ {condition}, j.Enters [] (Dialect.loopCondition condition)
    fun _ => True
  loopEnd : j.Enters [] Dialect.loopEnd fun _ => True
  leaveLoop : j.Enters [] Dialect.leaveLoop fun _ => True
  nextRound : j.Enters [] Dialect.nextRound fun _ => True

/-- What the operations of a program enter. -/
structure Programs : Prop extends j.Blocks where
  functionStart : ∀ {name params returns},
    j.Enters (params.map fun param => .define param.name)
      (Dialect.functionStart name params returns) fun _ => True
  functionEnd : j.Enters [] Dialect.functionEnd fun _ => True
  programStart : j.Enters [] Dialect.programStart fun _ => True

variable {j}

/-! Expressions. -/

mutual

theorem Values.evaluate (law : j.Values) (e : Expr) {used : Bool} :
    j.Enters e.mentions (Script.evaluate e used) j.fragment := by
  match e with
  | .bool _ _ => exact law.boolLiteral
  | .int _ _ => exact law.intLiteral
  | .string _ _ => exact law.stringLiteral
  | .var _ _ => exact law.readVariable
  | .unary _ operand _ =>
      exact (law.evaluate operand).before fun _ _ => law.unary
  | .binary _ left right _ =>
      exact (law.evaluate left).bind fun _ hleft => (law.evaluate right).before
        fun _ hright => law.binary hleft hright
  | .compare _ left right _ =>
      exact (law.evaluate left).bind fun _ _ => (law.evaluate right).before
        fun _ _ => law.compare
  | .logical _ left right _ =>
      exact (law.evaluate left).bind fun _ _ => (law.evaluate right).before
        fun _ _ => law.logical
  | .listLiteral items _ =>
      exact (law.evaluateAll items).before fun _ _ => law.listLiteral
  | .listElement list index _ =>
      exact (law.evaluate list).bind fun _ _ => (law.evaluate index).before
        fun _ _ => law.readElement
  | .listLength list _ =>
      exact (law.evaluate list).before fun _ _ => law.listLength
  | .substring value start stop _ =>
      exact (law.evaluate value).bind fun _ _ => (law.evaluate start).bind
        fun _ _ => (law.evaluateOption stop).before fun _ _ => law.substring
  | .stringLength value _ =>
      exact (law.evaluate value).before fun _ _ => law.stringLength
  | .group inner _ =>
      exact (law.evaluate inner).before fun _ hinner => law.group hinner
  | .call name args types =>
      refine (law.evaluateAll args).bind fun _ _ => law.callFunction.before
        fun results hresults => .ite (fun _ => ?_) fun _ => .pure law.nothing
      cases results with
      | nil => exact .throw
      | cons result _ => exact .pure (hresults result List.mem_cons_self)
  | .process stages _ =>
      refine (law.evaluateStages stages).bind fun _ hprograms => hprograms ▸
        law.runProcess.before fun results hresults => .pure ?_
      cases results with
      | nil => exact law.nothing
      | cons result _ => exact hresults result List.mem_cons_self
  | .input prompt _ =>
      exact (law.evaluateOption prompt).before fun _ _ => law.inputLine
  | .copy list _ => exact (law.evaluate list).before fun _ _ => law.copyList
  | .fileExists path _ =>
      exact (law.evaluate path).before fun _ _ => law.fileExists
  | .fileContent path _ =>
      exact (law.evaluate path).before fun _ _ => law.fileContent
  | .intToString value _ =>
      exact (law.evaluate value).before fun _ hvalue => law.intToString hvalue
  | .stringToInt value _ =>
      exact (law.evaluate value).before fun _ _ => law.stringToInt

theorem Values.evaluateAll (law : j.Values) (items : List Expr) :
    j.Enters (Expr.mentionsOfAll items) (Script.evaluateAll items)
      fun _ => True := by
  match items with
  | [] => exact .pure trivial
  | e :: rest =>
      exact (law.evaluate e).bind fun _ _ => (law.evaluateAll rest).before
        fun _ _ => .pure trivial

theorem Values.evaluateOption (law : j.Values) (item : Option Expr) :
    j.Enters (Expr.mentionsOfOption item) (Script.evaluateOption item)
      fun value => ∀ fragment ∈ value, j.fragment fragment := by
  match item with
  | none => exact .pure fun _ hnone => by cases hnone
  | some e =>
      refine (law.evaluate e).before fun _ hvalue => .pure ?_
      rintro _ ⟨⟩
      exact hvalue

theorem Values.evaluateStages (law : j.Values)
    (stages : List (String × List Expr)) :
    j.Enters (Expr.mentionsOfStages stages) (Script.evaluateStages stages)
      fun invocations =>
      invocations.map Invocation.program = stages.map Prod.fst := by
  match stages with
  | [] => exact .pure rfl
  | (program, args) :: rest =>
      exact (law.evaluateAll args).bind
        fun _ _ => (law.evaluateStages rest).before
        fun _ hprograms => .pure (congrArg (program :: ·) hprograms)

end

theorem Values.evaluateResults (law : j.Values) (value : Expr) {count : Nat} :
    j.Enters value.mentions (Script.evaluateResults value count)
      fun _ => True := by
  unfold Script.evaluateResults
  split
  · exact (law.evaluateAll _).bind fun _ _ => law.callFunction.weaken
      fun _ _ => trivial
  · exact (law.evaluateStages _).bind fun _ hprograms => hprograms ▸
      law.runProcess.weaken fun _ _ => trivial
  · exact (law.evaluate _).before fun _ _ => .pure trivial

theorem Values.evaluateMany (law : j.Values) (value : Expr) {count : Nat} :
    j.Enters value.mentions (Script.evaluateMany value count) fun results =>
      count ≤ results.length := by
  refine (law.evaluateResults value).before
    fun results _ => .ite (fun _ => ?_) fun hcount => ?_
  · exact .after (Q := fun _ => False) .throw fun _ hnever => hnever.elim
  · exact .pure (Nat.le_of_not_lt hcount)

theorem Values.returnedValues (law : j.Values) (values : List Expr) :
    j.Enters (Expr.mentionsOfAll values) (Script.returnedValues values)
      fun _ => True := by
  have htyped : ∀ values, j.Enters (Expr.mentionsOfAll values)
    (typedValues values)
      fun _ => True := fun values => (law.evaluateAll values).before
        fun _ _ => .pure trivial
  unfold Script.returnedValues
  split
  · next value =>
      refine .ite (fun _ => ?_) fun _ => htyped [value]
      rw [Expr.mentionsOfAll, Expr.mentionsOfAll, List.append_nil]
      exact (law.evaluateMany value).before fun _ _ => .pure trivial
  · exact htyped _

/-- The conditions of an if chain. -/
theorem Values.conditions (law : j.Values)
    (branches : List (Expr × List Stmt)) :
    j.Enters (Stmt.mentionsOfConditions branches) (Script.conditions branches)
      fun tests =>
      tests.length = branches.length ∧ ∀ test ∈ tests, j.fragment test := by
  induction branches with
  | nil => exact .pure ⟨rfl, fun _ hnone => by cases hnone⟩
  | cons branch branches ih =>
      exact (law.evaluate branch.1).bind fun _ htest => ih.before
        fun _ htests =>
        .pure ⟨congrArg Nat.succ htests.1,
          List.forall_mem_cons.mpr ⟨htest, htests.2⟩⟩

theorem Values.action (law : j.Values) (value : Expr) :
    j.Enters value.mentions (statement (.action value)) fun _ => True := by
  cases value with
  | process stages types =>
      exact (law.evaluateStages stages).bind fun _ hprograms => hprograms ▸
        law.runProcess.before fun _ _ => .pure trivial
  | _ => exact (law.evaluate _).before fun _ _ => .pure trivial

/-! Statements. -/

theorem Actions.defineTargets (law : j.Actions) {targets : List Binding}
    {values : List String} (hlength : targets.length ≤ values.length) :
    j.Enters ((keptTargets targets).map fun target => .define target.name)
      (Script.defineTargets targets values) fun _ => True :=
  Enters.targets .define
    (fun target value => Dialect.defineVariable target.name target.ty
      (some value))
    (fun _ _ => law.defineVariable) hlength

theorem Actions.assignTargets (law : j.Actions) {targets : List Binding}
    {values : List String} (hlength : targets.length ≤ values.length) :
    j.Enters ((keptTargets targets).map fun target => .assign target.name)
      (Script.assignTargets targets values) fun _ => True :=
  Enters.targets .assign
    (fun target value => Dialect.assignVariable target.name target.ty value)
    (fun _ _ => law.assignVariable) hlength

theorem Actions.defineEmpty (law : j.Actions) (targets : List Binding) :
    j.Enters (targets.map fun target => .define target.name)
      (targets.forM fun target => Dialect.defineVariable target.name
        target.ty none)
      fun _ => True := by
  induction targets with
  | nil => exact .pure trivial
  | cons target targets ih => exact law.defineVariable.bind fun _ _ => ih

theorem Actions.statement (law : j.Actions) (s : Stmt)
    (hstraight : s.isStraight = true) :
    j.Enters s.mentions (Script.statement s) fun _ => True := by
  match s with
  | .define targets none _ => exact law.defineEmpty targets
  | .define targets (some value) _ =>
      exact (law.evaluateMany value).bind
        fun _ hlength => law.defineTargets hlength
  | .assign targets value =>
      exact (law.evaluateMany value).bind
        fun _ hlength => law.assignTargets hlength
  | .store target index value =>
      exact (law.evaluate index).bind fun _ _ => (law.evaluate value).bind
        fun _ _ => law.storeElement
  | .print value => exact (law.evaluate value).before fun _ _ => law.print
  | .writeFile path content _ =>
      exact (law.evaluate path).bind fun _ _ => (law.evaluate content).before
        fun _ _ => law.writeFile
  | .action value => exact law.action value
  | .noOp => exact law.noOp
  | .function .. | .giveBack _ | .choose .. | .loop .. | .leaveLoop | .nextRound
  | .panic _ =>
      cases hstraight

theorem Blocks.conditionPart (law : j.Blocks) (condition : Option Expr) :
    j.Enters (Expr.mentionsOfOption condition) (Script.conditionPart condition)
      fun _ => True := by
  cases condition with
  | none => exact .pure trivial
  | some condition =>
      exact (law.evaluate condition).before fun _ _ => law.loopCondition

mutual

theorem Blocks.statement (law : j.Blocks) (s : Stmt)
    (hinner : s.isInner = true) :
    j.Enters s.mentions (Script.statement s) fun _ => True := by
  match s with
  | .function _ _ _ _ => cases hinner
  | .define .. | .assign .. | .store .. | .print _ | .writeFile .. | .action _
  | .noOp =>
      exact law.toActions.statement _ rfl
  | .giveBack values =>
      exact (law.returnedValues values).before fun _ _ => law.giveBack
  | .choose branches otherwise =>
      simp only [Stmt.isInner, Bool.and_eq_true] at hinner
      obtain ⟨⟨_, hbranches⟩, hotherwise⟩ := hinner
      exact (law.conditions branches).bind fun _ htests =>
        (law.guarded branches hbranches htests.1).bind fun _ _ =>
          (law.fallback otherwise hotherwise).before fun _ _ => law.ifEnd
  | .loop init condition post body =>
      simp only [Stmt.isInner, Bool.and_eq_true] at hinner
      obtain ⟨⟨hinit, hpost⟩, hbody⟩ := hinner
      rw [statement_loop]
      exact (law.optional init hinit).bind
        fun _ _ => law.loopStart.after fun _ _ =>
        law.postStart.after fun _ _ => (law.postPart post hpost).bind fun _ _ =>
        law.postEnd.after fun _ _ => (law.conditionPart condition).bind
          fun _ _ =>
        (law.block body hbody).before fun _ _ => law.loopEnd
  | .leaveLoop => exact law.leaveLoop
  | .nextRound => exact law.nextRound
  | .panic message => exact (law.evaluate message).bind fun _ _ => law.panic

theorem Blocks.optional (law : j.Blocks) (part : Option Stmt)
    (hinner : Stmt.isInnerPart part = true) :
    j.Enters (Stmt.mentionsOfPart part) (Script.optional part)
      fun _ => True := by
  match part with
  | none => exact .pure trivial
  | some s => exact law.statement s hinner

theorem Blocks.postPart (law : j.Blocks) (post : Option Stmt)
    (hinner : Stmt.isInnerPart post = true) :
    j.Enters (Stmt.mentionsOfPart post) (Script.postPart post)
      fun _ => True := by
  match post with
  | none => exact law.noOp
  | some s => exact law.statement s hinner

theorem Blocks.statements (law : j.Blocks) (body : List Stmt)
    (hinner : Stmt.isInnerBlock body = true) :
    j.Enters (Stmt.mentionsOfBlock body) (Script.statements body)
      fun _ => True := by
  match body with
  | [] => exact .pure trivial
  | s :: rest =>
      obtain ⟨hfirst, hrest⟩ := Bool.and_eq_true_iff.mp hinner
      exact (law.statement s hfirst).bind fun _ _ => law.statements rest hrest

theorem Blocks.block (law : j.Blocks) (body : List Stmt)
    (hinner : Stmt.isInnerBlock body = true) :
    j.Enters (Stmt.mentionsOfBlock body) (Script.block body) fun _ => True := by
  match body with
  | [] => exact law.noOp
  | s :: rest =>
      obtain ⟨hfirst, hrest⟩ := Bool.and_eq_true_iff.mp hinner
      exact (law.statement s hfirst).bind fun _ _ => law.statements rest hrest

theorem Blocks.guarded (law : j.Blocks) (branches : List (Expr × List Stmt))
    (hinner : Stmt.areInner branches = true) {opening : Bool}
    {tests : List String}
    (hlength : tests.length = branches.length) :
    j.Enters (Stmt.mentionsOfBodies branches)
      (Script.guarded opening branches tests) fun _ => True := by
  match branches, tests with
  | [], _ => exact .pure trivial
  | _ :: _, [] => cases hlength
  | (_, body) :: rest, test :: tests =>
      obtain ⟨hbody, hrest⟩ := Bool.and_eq_true_iff.mp hinner
      have hfollowing : j.Enters _ (Script.guarded false rest tests)
          fun _ => True :=
        law.guarded rest hrest (Nat.succ.inj hlength)
      have hbodies := (law.block body hbody).bind fun _ _ => hfollowing
      cases opening with
      | true => exact law.ifStart.after fun _ _ => hbodies
      | false => exact law.elseIfStart.after fun _ _ => hbodies

theorem Blocks.fallback (law : j.Blocks) (otherwise : Option (List Stmt))
    (hinner : Stmt.isInnerFallback otherwise = true) :
    j.Enters (Stmt.mentionsOfFallback otherwise) (Script.fallback otherwise)
      fun _ => True := by
  match otherwise with
  | none => exact .pure trivial
  | some body => exact law.elseStart.after fun _ _ => law.block body hinner

end

/-! Programs. -/

theorem Programs.statement (law : j.Programs) {s : Stmt}
    (houter : s.isOuter = true) :
    j.Enters s.mentions (Script.statement s) fun _ => True := by
  rcases Stmt.isInner_or_function houter with hinner
    | ⟨name, params, returns, body, rfl⟩
  · exact law.toBlocks.statement s hinner
  · exact law.functionStart.bind fun _ _ => (law.block body houter).before
      fun _ _ => law.functionEnd

theorem Programs.statements (law : j.Programs) {body : List Stmt}
    (houter : ∀ s ∈ body, s.isOuter = true) :
    j.Enters (Stmt.mentionsOfBlock body) (Script.statements body)
      fun _ => True := by
  induction body with
  | nil => exact .pure trivial
  | cons first rest ih =>
      obtain ⟨hfirst, hrest⟩ := List.forall_mem_cons.mp houter
      exact (law.statement hfirst).bind fun _ _ => ih hrest

/-- A program that is written to its end has entered all its mentions. -/
theorem Programs.writeStatements (law : j.Programs) {program : Program}
    (hnested : program.isNested = true) :
    j.Enters program.mentions (Script.writeStatements program)
      fun _ => True := by
  have houter : ∀ s ∈ program.statements, s.isOuter = true :=
    List.all_eq_true.mp hnested
  unfold Program.mentions Script.writeStatements
  refine law.programStart.after fun _ _ => ?_
  cases hbody : program.statements with
  | nil => exact law.noOp
  | cons first rest =>
      rw [block_cons, ← hbody]
      exact law.statements houter

end Journal

end Script

end Shellwright
