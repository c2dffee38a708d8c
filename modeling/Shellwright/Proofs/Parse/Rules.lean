/-
Simple statements, whatever is to be known of them.  While a condition on the
state is kept, rules say what holds of the names and values that are read, and
of the statements made from them.
-/
import Shellwright.Proofs.Parse.Loop

namespace Shellwright

namespace Parse

section Tokens

variable {α : Type} {inv : ParserState → Prop} [Reading inv]

theorem parameter_keeps (spelled : String → Prop)
    {before : List (Binding × Position)}
    (h : ∀ {st name}, inv st → st.next.kind = .ident name → spelled name) :
    Keeps inv (parameter before) fun param => spelled param.1.name :=
  (identifier_keeps h).step fun _ hname => .guard
    fun _ => valueType_keeps.step fun _ _ => .done hname

theorem resultTypes_keeps : Keeps inv resultTypes fun _ => True := by
  refine atType_keeps.step fun _ _ => .ite
    (fun _ => valueType_keeps.step fun _ _ => .done trivial)
      fun _ => .accept rfl ?_ (.done trivial)
  refine Keeps.step (iterate_keeps (Q := fun _ => True) (fun _ => True)
    (fun types _ => ?_) trivial) fun _ _ => .expect rfl (.done trivial)
  exact valueType_keeps.step fun _ _ =>
    .accept rfl (.pure fun _ hst => ⟨trivial, hst⟩)
      (.pure fun _ hst => ⟨trivial, hst⟩)

omit [Reading inv] in
theorem unlessAt_keeps {stop : TokenKind} {part : Parse α} {Q : α → Prop}
    (hpart : Keeps inv part Q) :
    Keeps inv (unlessAt stop part) fun found => ∀ a ∈ found, Q a := by
  refine peekKind_keeps.step fun _ _ => .ite (fun _ => .done nofun) fun _ => ?_
  refine hpart.step fun a ha => .done ?_
  rintro _ ⟨⟩
  exact ha

omit [Reading inv] in
theorem atSimpleStatement_keeps : Keeps inv atSimpleStatement
    fun _ => True := by
  refine peekKind_keeps.step fun kind _ => ?_
  cases kind with
  | ident name =>
      exact peekAfter_keeps.step fun next _ => by
        split <;> exact .done trivial
  | keyword word =>
      cases word with
      | _ => exact .done trivial
  | _ => exact .done trivial

theorem caseCondition_keeps {tag : Option Expr} {test : Expr → Prop}
    (hone : ∀ pos, Keeps inv (caseTest tag pos) test)
    (hor : ∀ {left right}, test left → test right →
      test (.logical .or left right [.bool])) :
    Keeps inv (caseCondition tag) test := by
  refine position_keeps.step fun pos _ => (hone pos).step fun first hfirst =>
    iterate_keeps test (fun condition hcondition => ?_) hfirst
  refine .accept rfl ?_ (.pure fun _ hst => ⟨hcondition, hst⟩)
  refine position_keeps.step fun pos _ => (hone pos).step fun next hnext => ?_
  refine (Keeps.lift fun e he => ?_).step
    fun e he => .pure fun _ hst => ⟨he, hst⟩
  obtain ⟨_, _, rfl⟩ := LogicalOp.apply_ok he
  exact hor hcondition hnext

end Tokens

/-- What holds of the parts of simple statements, and of the statements made
from them, while a condition on the state is kept. -/
structure Rules (inv : ParserState → Prop) where
  /-- Names that stand in the source. -/
  spelled : String → Prop
  /-- Names of new variables. -/
  bound : String → Prop
  /-- Names of variables that are set. -/
  assigned : String → Prop
  value : Expr → Prop
  made : Stmt → Prop
  ident : ∀ {st name}, inv st → st.next.kind = .ident name → spelled name
  declare : ∀ name pos var, Keeps inv (Parse.declare name pos var)
    fun _ => bound name
  assignable : ∀ name pos, Keeps inv (Parse.assignable name pos) fun var =>
    assigned name ∧ (var.ty.isList = true → bound name)
  discard : bound "_" ∧ assigned "_"
  expression : Keeps inv Parse.expression value
  literal : value (.int 1 [.int]) ∧ value (.string "" [.string])
  var : ∀ {name types}, spelled name → assigned name → value (.var name types)
  binary : ∀ {op left right types}, value left → value right →
    value (.binary op left right types)
  define : ∀ {targets source constant},
    (∀ target ∈ targets, spelled target.name ∧ bound target.name) →
      (∀ e ∈ source, value e) → made (.define targets source constant)
  assign : ∀ {targets source},
    (∀ target ∈ targets, spelled target.name ∧ assigned target.name) →
      value source → made (.assign targets source)
  store : ∀ {target index source}, spelled target.name ∧ bound target.name →
    value index → value source → made (.store target index source)
  giveBack : ∀ {values}, (∀ e ∈ values, value e) → made (.giveBack values)
  writeFile : ∀ {path content append}, value path → value content →
    made (.writeFile path content append)
  run : ∀ {e}, value e → made (.print e) ∧ made (.panic e) ∧ made (.action e)
  exit : made .leaveLoop ∧ made .nextRound

namespace Rules

variable {inv : ParserState → Prop} (rules : Rules inv) {constant : Bool}
  {value : Expr} {name : String} {word : Keyword} {op : BinaryOp}
  {pos : Position} {kind : TokenKind}

/-- The statement is read by the rules. -/
abbrev Makes (p : Parse Stmt) : Prop := Keeps inv p rules.made

/-- So is a statement that starts with such a token. -/
abbrev MakesAt (kind : TokenKind) (p : Parse Stmt) : Prop :=
  Ensures (At kind inv) p fun s st => rules.made s ∧ inv st

theorem mem_bindings {names : Targets} {types : List ValueType}
    {target : Binding} (h : target ∈ bindings names types) :
    ∃ entry ∈ names.zip types, entry.1 ∈ names ∧ entry.1.1 = target.name := by
  obtain ⟨entry, hentry, rfl⟩ := List.mem_map.mp h
  exact ⟨entry, hentry, (List.of_mem_zip hentry).1, rfl⟩

/-! Definitions and assignments. -/

section Targets

variable {names : Targets} (hnames : ∀ target ∈ names, rules.spelled target.1)

include hnames

theorem defineEmpty_makes {ty : ValueType} :
    rules.Makes (defineEmpty names ty constant) := by
  refine Keeps.step (Keeps.forM (fun target => rules.bound target.1) ?_)
    fun _ hbound => .done (rules.define ?_ nofun)
  · rintro ⟨name, pos⟩ _
    exact .guard fun _ => rules.declare ..
  · intro target htarget
    obtain ⟨entry, hentry, rfl⟩ := List.mem_map.mp htarget
    exact ⟨hnames entry hentry, hbound entry hentry⟩

theorem defineFrom_makes {declared : Option ValueType}
    (hvalue : rules.value value) :
    rules.Makes (defineFrom names declared value pos constant) := by
  refine (Keeps.lift fun _ _ => trivial).step fun types _ => ?_
  refine Keeps.step (Keeps.forM (fun entry => rules.bound entry.1.1) ?_)
    fun _ hbound => .done (rules.define ?_ ?_)
  · rintro ⟨⟨name, pos⟩, ty⟩ _
    have hname :
      Keeps inv (if name ≠ "_" then Parse.declare name pos ⟨ty, constant⟩
        else pure ⟨⟩) fun _ => rules.bound name := by
      refine .ite (fun _ => rules.declare ..) fun hdiscard => .done ?_
      rw [not_not.mp hdiscard]
      exact rules.discard.1
    cases declared with
    | none => exact .guard fun _ => hname
    | some want => exact .guard fun _ => .guard fun _ => hname
  · intro target htarget
    obtain ⟨entry, hentry, hin, hname⟩ := mem_bindings htarget
    exact hname ▸ ⟨hnames entry.1 hin, hbound entry hentry⟩
  · rintro _ ⟨⟩
    exact hvalue

theorem assignFrom_makes (hvalue : rules.value value) :
    rules.Makes (assignFrom names value pos) := by
  refine (Keeps.lift fun _ _ => trivial).step fun types _ => ?_
  refine Keeps.step (Keeps.forM (fun entry => rules.assigned entry.1.1) ?_)
    fun _ hassigned => .done (rules.assign ?_ hvalue)
  · rintro ⟨⟨name, pos⟩, ty⟩ _
    refine .ite (fun _ => (rules.assignable ..).step fun var hvar => ?_)
      fun hdiscard => .done ?_
    · exact .ite (fun _ => .fail) fun _ => .done hvar.1
    · rw [not_not.mp hdiscard]
      exact rules.discard.2
  · intro target htarget
    obtain ⟨entry, hentry, hin, hname⟩ := mem_bindings htarget
    exact hname ▸ ⟨hnames entry.1 hin, hassigned entry hentry⟩

end Targets

variable [Reading inv]

theorem targetNames_keeps :
    Keeps inv targetNames fun names => ∀ target ∈ names,
      rules.spelled target.1 := by
  refine (identifier_keeps rules.ident).step fun first hfirst => iterate_keeps
    (fun names => ∀ target ∈ names, rules.spelled target.1)
    (fun names hnames => ?_)
    (List.forall_mem_singleton.mpr hfirst)
  refine .accept rfl ?_ (.pure fun _ hst => ⟨hnames, hst⟩)
  refine (identifier_keeps rules.ident).step
    fun next hnext => .pure fun _ hst => ⟨?_, hst⟩
  exact List.forall_mem_append.mpr ⟨hnames, List.forall_mem_singleton.mpr hnext⟩

theorem definition_makes :
    rules.MakesAt (.keyword word) (definition constant) := by
  refine .pass rfl (rules.targetNames_keeps.step fun names hnames => ?_)
  refine atType_keeps.step fun _ _ => .join (Q := fun _ => True)
    (fun _ => valueType_keeps.map fun _ _ => trivial)
    (fun _ => trivial) fun declared _ => ?_
  refine .accept rfl ?_ ?_
  · exact position_keeps.step fun _ _ => rules.expression.step fun _ hvalue =>
      rules.defineFrom_makes hnames hvalue
  · refine .ite (fun _ => .expected) fun _ => ?_
    cases declared with
    | some ty => exact rules.defineEmpty_makes hnames
    | none => exact .expected

/-! Other simple statements. -/

theorem listStore_makes : rules.MakesAt (.ident name) (listStore name pos) := by
  have hassign : Keeps (At (.ident name) inv) (Parse.assignable name pos)
      fun var => var.ty.isList = true → rules.bound name := by
    intro st var st' hst h
    obtain ⟨hvar, hinv⟩ := rules.assignable _ _ hst.1 h
    exact ⟨hvar.2, hinv, (assignable_ok.mp h).2.2 ▸ hst.2⟩
  refine .assume fun st hst => hassign.step
    fun var hvar => .guard fun hlist => .pass rfl ?_
  have hname : rules.spelled name ∧ rules.bound name :=
    ⟨rules.ident hst.1 hst.2, hvar (by simpa using hlist)⟩
  refine .expect rfl ((typed_keeps rules.expression).step
    fun index hindex => .expect rfl (.expect rfl ?_))
  exact (typed_keeps rules.expression).step fun value hvalue =>
    .done (rules.store hname hindex hvalue)

theorem panicStatement_makes : rules.MakesAt (.ident name) panicStatement :=
  .pass rfl (.expect rfl ((typed_keeps rules.expression).step fun _ hmessage =>
    .expect rfl (.done (rules.run hmessage).2.1)))

theorem writeStatement_makes : rules.MakesAt (.ident name) writeStatement := by
  refine .pass rfl
    (.expect rfl ((typed_keeps rules.expression).step
      fun path hpath => .expect rfl ?_))
  refine (typed_keeps rules.expression).step fun content hcontent => ?_
  have hrest : ∀ append : Bool, rules.Makes (do
      expect .rparen
      return .writeFile path content append) :=
    fun append => .expect rfl (.done (rules.writeFile hpath hcontent))
  refine .accept rfl ?_ (hrest false)
  refine peekKind_ensures.bind fun kind => ?_
  cases kind with
  | bool value => exact .pass rfl (hrest value)
  | _ => exact .abort .expected

omit [Reading inv] in
theorem actionStatement_makes : rules.Makes actionStatement :=
  position_keeps.step fun _ _ => rules.expression.step fun _ hvalue =>
    .ite (fun _ => .done (rules.run hvalue).2.2) fun _ => .fail

/-- A name and the token behind it, which are read one after the other. -/
theorem pass_operator {rest : Token → Parse Stmt} (hkind : kind ≠ .atSign)
    (h : rules.spelled name → ∀ token, rules.Makes (rest token)) :
    Ensures (fun st => At (.ident name) inv st ∧
      st.ahead[1]?.map Token.kind = some kind) (do
      let _ ← advance
      let token ← advance
      rest token) fun s st => rules.made s ∧ inv st := by
  rintro st s st' ⟨⟨hst, hname⟩, hsecond⟩ hrun
  have hnext : st.advanced.next.kind = kind := by
    obtain ⟨token, htoken, rfl⟩ := Option.map_eq_some_iff.mp hsecond
    unfold ParserState.advanced ParserState.next
    rw [← List.drop_one, List.headD_eq_head?_getD, List.head?_drop, htoken,
      Option.getD_some]
  have hfirst : inv st.advanced := Reading.advanced hst (by simp [hname])
  exact h (rules.ident hst hname)
    _ (Reading.advanced hfirst (hnext ▸ hkind)) hrun

theorem compoundAssignment_makes :
    Ensures (fun st => At (.ident name) inv st ∧
        st.ahead[1]?.map Token.kind = some (.compoundAssign op))
      (compoundAssignment name pos op) fun s st => rules.made s ∧ inv st := by
  refine rules.pass_operator nofun fun hname token => (rules.assignable ..).step
    fun var hvar => ?_
  refine (single_keeps rules.expression).step fun right hright => ?_
  refine (Keeps.lift fun e he => ?_).step fun value hvalue =>
    .done (rules.assign (List.forall_mem_singleton.mpr ⟨hname, hvar.1⟩) hvalue)
  obtain ⟨_, _, _, _, rfl⟩ := BinaryOp.apply_ok he
  exact rules.binary (rules.var hname hvar.1) hright

theorem countStatement_makes (hkind : kind ≠ .atSign) :
    Ensures (fun st => At (.ident name) inv st ∧
      st.ahead[1]?.map Token.kind = some kind)
      (countStatement name pos op) fun s st => rules.made s ∧ inv st := by
  refine rules.pass_operator hkind fun hname token => (rules.assignable ..).step
    fun var hvar =>
    .guard fun _ =>
      .done (rules.assign (List.forall_mem_singleton.mpr ⟨hname, hvar.1⟩) ?_)
  exact rules.binary (rules.var hname hvar.1) rules.literal.1

theorem targetStatement_makes : rules.Makes targetStatement := by
  refine rules.targetNames_keeps.step fun names hnames => ?_
  refine .accept rfl ?_ (.accept rfl ?_ .expected)
  · exact position_keeps.step fun _ _ => rules.expression.step fun _ hvalue =>
      rules.defineFrom_makes hnames hvalue
  · exact position_keeps.step fun _ _ => rules.expression.step fun _ hvalue =>
      rules.assignFrom_makes hnames hvalue

theorem namedStatement_makes :
    rules.MakesAt (.ident name) (namedStatement name pos) := by
  -- a name alone is no statement
  have halone : ∀ {pre : ParserState → Prop} {post : Stmt → ParserState → Prop},
      Ensures pre (do
        if (← lookupVariable? name).isNone then
          undeclaredVariable name pos
        let _ ← advance
        expected .assignment) post := by
    intro pre post
    refine lookupVariable?_ensures.bind fun _ =>
      .ite (fun _ => .abort .undeclaredVariable) fun _ => ?_
    exact fun _ _ _ _ h => absurd h expected_ok
  refine peekAfter_ensures.bind fun next => ?_
  cases next with
  | none => exact halone
  | some kind =>
      cases kind with
      | lparen =>
          dsimp only
          cases Builtin.ofName? name with
          | none =>
              exact rules.actionStatement_makes.weaken fun _ hst => hst.1.1
          | some builtin =>
              cases builtin with
              | panic =>
                  exact rules.panicStatement_makes.weaken fun _ hst => hst.1
              | write =>
                  exact rules.writeStatement_makes.weaken fun _ hst => hst.1
              | _ =>
                  exact rules.actionStatement_makes.weaken fun _ hst => hst.1.1
      | shortDeclare | comma | assign =>
          exact rules.targetStatement_makes.weaken fun _ hst => hst.1.1
      | compoundAssign op => exact rules.compoundAssignment_makes
      | increment | decrement => exact rules.countStatement_makes nofun
      | lbracket => exact rules.listStore_makes.weaken fun _ hst => hst.1
      | _ => exact halone

theorem simpleStatement_makes : rules.Makes simpleStatement := by
  refine peek_ensures.bind fun token => ?_
  obtain ⟨kind, text, pos⟩ := token
  cases kind with
  | ident name => exact rules.namedStatement_makes
  | keyword word =>
      cases word with
      | varWord => exact rules.definition_makes
      | _ => exact .expected
  | _ => exact .expected

theorem printStatement_makes :
    rules.MakesAt (.keyword word) printStatement := by
  refine .pass rfl
    (.expect rfl (.accept rfl (.done (rules.run rules.literal.2).1) ?_))
  refine position_keeps.step fun _ _ => (single_keeps rules.expression).step
    fun value hvalue => ?_
  exact .guard fun _ => .expect rfl (.done (rules.run hvalue).1)

theorem loopExit_makes {exit : LoopExit} :
    rules.MakesAt (.keyword word) (loopExit exit) := by
  refine .take rfl fun token => .get fun now _ => .weaken ?_ fun _ hst => hst.1
  cases exit with
  | leave => exact .guard fun _ => .done rules.exit.1
  | next => exact .guard fun _ => .done rules.exit.2

theorem returnValues_keeps :
    Keeps inv returnValues fun values => ∀ value ∈ values,
      rules.value value.1 := by
  refine peekKind_keeps.step fun kind _ => ?_
  cases kind with
  | newline | semicolon | rbrace | eof => exact .done nofun
  | _ =>
      refine iterate_keeps (fun values : List (Expr × Position) =>
        ∀ value ∈ values, rules.value value.1) (fun values hvalues => ?_) nofun
      refine position_keeps.step fun pos _ => rules.expression.step
        fun value hvalue => ?_
      have hmore : ∀ entry ∈ values ++ [(value, pos)], rules.value entry.1 :=
        List.forall_mem_append.mpr
          ⟨hvalues, List.forall_mem_singleton.mpr hvalue⟩
      exact .accept rfl (.pure fun _ hst => ⟨hmore, hst⟩)
        (.pure fun _ hst => ⟨hmore, hst⟩)

theorem returnStatement_makes :
    rules.MakesAt (.keyword word) returnStatement := by
  refine .take rfl fun token => .get fun now _ => .weaken ?_ fun _ hst => hst.1
  cases now.scope.returns with
  | none => exact .fail
  | some required =>
      refine rules.returnValues_keeps.step fun values hvalues => ?_
      refine (Keeps.lift fun _ _ => trivial).step fun _ _ => .guard fun _ => ?_
      refine (Keeps.lift fun _ _ => trivial).step
        fun _ _ => .done (rules.giveBack ?_)
      intro value hvalue
      obtain ⟨entry, hentry, rfl⟩ := List.mem_map.mp hvalue
      exact hvalues entry hentry

/-- The parts of a loop header are simple statements and a condition. -/
theorem loopHeader_keeps :
    Keeps inv loopHeader fun header => (∀ s ∈ header.1, rules.made s) ∧
      (∀ e ∈ header.2.1, rules.value e) ∧ ∀ s ∈ header.2.2, rules.made s := by
  have hcondition : Keeps inv (typed Parse.expression .bool .loopCondition)
      rules.value :=
    typed_keeps rules.expression
  rw [loopHeader_eq]
  refine peekKind_keeps.step fun _ _ => .ite
    (fun _ => .done ⟨nofun, nofun, nofun⟩) fun _ => ?_
  refine peekKind_keeps.step fun _ _ => atSimpleStatement_keeps.step
    fun _ _ => ?_
  refine .ite (fun _ => ?_) fun _ => ?_
  · refine (unlessAt_keeps rules.simpleStatement_makes).step
      fun init hinit => .expect rfl ?_
    refine (unlessAt_keeps hcondition).step
      fun condition hcondition => .expect rfl ?_
    exact (unlessAt_keeps rules.simpleStatement_makes).step fun post hpost =>
      .done ⟨hinit, hcondition, hpost⟩
  · refine hcondition.step fun condition hcondition => .done ⟨nofun, ?_, nofun⟩
    rintro _ ⟨⟩
    exact hcondition

end Rules

end Parse

end Shellwright
