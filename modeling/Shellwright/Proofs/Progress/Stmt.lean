/-
Statements come to an end and do not depend on the layout.  Every statement
starts with a token of its own and closes the brackets it opens; the statements
inside it stand behind its opening brace.  The names a statement binds carry
their places with them, which only faults are reported at; the scope holds no
places.
-/
import Shellwright.Proofs.Parse.Loop
import Shellwright.Proofs.Progress.Expr

namespace Shellwright

namespace Parse

variable {constant : Bool} {value : Expr} {α : Type} {name : String}
  {op : BinaryOp} {var : Variable} {tag : Option Expr}

open ParserState (Within)

variable {like : Token → Token → Prop} {inv : Nat → List Token → Prop}
  {depth n : Nat} {pos pos' : Position} {kind : TokenKind}

/-! Names. -/

section Names

variable {name : String} (hpos : Near like pos pos')

include hpos

theorem checkNewName_holds :
    Holds like inv depth n Eq (checkNewName name pos)
      (checkNewName name pos') := by
  unfold checkNewName
  refine .guard hpos (by simp) fun _ => .guard hpos (by simp) fun _ =>
    .guard hpos (by simp) fun _ => ?_
  exact .lookupFunction? fun _ => .ite (fun _ => .fail hpos (by simp))
    fun _ => .done rfl

theorem enterVariable_holds :
    Holds like inv depth n Eq (enterVariable name pos var)
      (enterVariable name pos' var) := by
  refine .get fun s t hscope => ?_
  rw [hscope]
  cases t.scope.declareVariable name var with
  | ok scope => exact modifyScope_holds
  | error cause => exact .fail hpos (by simp)

theorem declare_holds :
    Holds like inv depth n Eq (declare name pos var) (declare name pos' var) :=
  (checkNewName_holds hpos).step fun _ => enterVariable_holds hpos

theorem assignable_settles {pre : ParserState → Prop} :
    Settles like Eq (assignable name pos) (assignable name pos') pre
      fun _ => pre := by
  refine .lookupVariable? fun found => ?_
  cases found with
  | some var => exact .ite (fun _ => .fail hpos (by simp)) fun _ => .done rfl
  | none => exact .undeclaredVariable hpos

end Names

/-! Definitions and assignments. -/

theorem typesFor_agree {count : Nat} (hpos : Near like pos pos') :
    Agree like Eq (typesFor value count pos) (typesFor value count pos') := by
  unfold typesFor
  refine .ite (fun _ => .error hpos (by simp))
    fun _ => .ite (fun _ => ?_) fun _ => ?_
  · exact .ite (fun _ => .error hpos (by simp)) fun _ => .ok rfl
  · exact .ite (fun _ => .error hpos (by simp)) fun _ => .ok rfl

section Targets

variable {names names' : Targets}
  (hnames : List.Forall₂ (Placed like) names names')

include hnames

theorem bindings_eq (types : List ValueType) :
    bindings names types = bindings names' types := by
  have hbindings : ∀ names : Targets, bindings names types =
      ((names.map Prod.fst).zip types).map fun entry => ⟨entry.1, entry.2⟩ := by
    intro names
    rw [bindings, List.zip_map_left, List.map_map]
    rfl
  rw [hbindings, hbindings, Placed.map_fst hnames]

/-- Names with something for each of them. -/
theorem forall₂_zip (items : List α) :
    List.Forall₂ (fun entry entry' : (String × Position) × α =>
      Placed like entry.1 entry'.1 ∧
        entry.2 = entry'.2) (names.zip items) (names'.zip items) := by
  induction hnames generalizing items with
  | nil => exact .nil
  | cons hname _ ih =>
      cases items with
      | nil => exact .nil
      | cons item items => exact .cons ⟨hname, rfl⟩ (ih items)

theorem defineEmpty_holds {ty : ValueType} :
    Holds like inv depth n Eq (defineEmpty names ty constant)
      (defineEmpty names' ty constant) := by
  unfold defineEmpty
  rw [Placed.map_eq hnames]
  · refine (Settles.forM hnames ?_).step fun _ => .done rfl
    rintro ⟨name, _⟩ ⟨_, _⟩ ⟨rfl, hname⟩
    exact .guard hname (by simp) fun _ => declare_holds hname
  · exact fun _ _ _ => rfl

theorem defineFrom_holds {declared : Option ValueType}
    (hvalue : Near like pos pos') :
    Holds like inv depth n Eq (defineFrom names declared value pos constant)
      (defineFrom names' declared value pos' constant) := by
  unfold defineFrom
  rw [hnames.length_eq]
  refine (Settles.lift (typesFor_agree hvalue)).step fun types => ?_
  rw [bindings_eq hnames]
  refine (Settles.forM (forall₂_zip hnames types) ?_).step fun _ => .done rfl
  rintro ⟨⟨name, _⟩, ty⟩ ⟨⟨_, _⟩, _⟩ ⟨⟨rfl, hname⟩, rfl⟩
  cases declared with
  | none =>
      exact .guard hname (by simp) fun _ => .ite (fun _ => declare_holds hname)
        fun _ => .done rfl
  | some want =>
      refine .guard hvalue (by simp) fun _ => .guard hname (by simp) fun _ => ?_
      exact .ite (fun _ => declare_holds hname) fun _ => .done rfl

theorem assignFrom_holds (hvalue : Near like pos pos') :
    Holds like inv depth n Eq (assignFrom names value pos)
      (assignFrom names' value pos') := by
  unfold assignFrom
  rw [hnames.length_eq]
  refine (Settles.lift (typesFor_agree hvalue)).step fun types => ?_
  rw [bindings_eq hnames]
  refine (Settles.forM (forall₂_zip hnames types) ?_).step fun _ => .done rfl
  rintro ⟨⟨name, _⟩, ty⟩ ⟨⟨_, _⟩, _⟩ ⟨⟨rfl, hname⟩, rfl⟩
  refine .ite (fun _ => (assignable_settles hname).step fun _ => ?_)
    fun _ => .done rfl
  exact .ite (fun _ => .fail hvalue (by simp)) fun _ => .done rfl

end Targets

/-- Outside of a list of items a comma may stand anywhere. -/
theorem comma_depth : TokenKind.comma.depthAfter false depth = some depth := by
  cases depth <;> rfl

variable (htrail : Trail false inv)

include htrail

theorem targetNames_advances :
    Advances like inv depth n (List.Forall₂ (Placed like)) targetNames
      targetNames := by
  refine (identifier_settles htrail le_rfl).bind fun first first' hfirst =>
    iterate_settles (R := List.Forall₂ (Placed like))
      (fun names names' m hnames hm => ?_) (.cons hfirst .nil)
  refine .accept htrail comma_depth le_rfl ?_ (.pure (.done hnames) fun _ => id)
  exact (identifier_settles htrail m.le_succ).bind fun _ _ hname =>
    .pure (.again (forall₂_concat hnames hname)) fun _ => id

theorem definition_advances (hkind : kind.depthAfter false depth = some depth) :
    AdvancesAt like inv depth n Eq (definition constant)
      (definition constant) kind := by
  refine .pass htrail hkind le_rfl fun _ _ _ =>
    (holds_of_advances fun _ _ => targetNames_advances htrail).bind
      fun names names' hnames => ?_
  have hdeclared : Holds like inv depth n Eq (some <$> valueType)
      (some <$> valueType) :=
    .map (valueType_holds htrail)
  refine atType_holds.step fun _ => .ite
    (fun _ => hdeclared.step fun declared => ?_) fun _ => ?_
  · refine .accept htrail rfl n.le_succ ?_
      (.ite (fun _ => .expected) fun _ => ?_)
    · exact .position fun _ _ hpos => (expression_holds htrail).step fun _ =>
        defineFrom_holds hnames hpos
    · cases declared with
      | some ty => exact defineEmpty_holds hnames
      | none => exact .expected
  · refine .accept htrail rfl n.le_succ ?_
      (.ite (fun _ => .expected) fun _ => .expected)
    exact .position fun _ _ hpos => (expression_holds htrail).step fun _ =>
      defineFrom_holds hnames hpos

/-! Other simple statements. -/

theorem listStore_advances (hpos : Near like pos pos') :
    AdvancesAt like inv depth n Eq (listStore name pos) (listStore name pos')
      (.ident name) := by
  refine (assignable_settles hpos).step
    fun var => .guard hpos (by simp) fun _ =>
    .pass htrail rfl le_rfl fun _ _ _ =>
      (expect_settles htrail rfl n.le_succ).step fun _ => ?_
  refine (expressionTyped_holds htrail).step fun _ =>
    (expect_settles htrail rfl n.le_succ).step fun _ => ?_
  exact (expect_settles htrail rfl n.le_succ).step fun _ =>
    (expressionTyped_holds htrail).step fun _ => .done rfl

theorem panicStatement_advances :
    AdvancesAt like inv depth n Eq panicStatement panicStatement
      (.ident name) := by
  refine .pass htrail rfl le_rfl fun _ _ _ =>
    (expect_settles htrail rfl n.le_succ).step fun _ => ?_
  exact (expressionTyped_holds htrail).step fun _ =>
    (expect_settles htrail rfl n.le_succ).step fun _ => .done rfl

theorem writeStatement_advances :
    AdvancesAt like inv depth n Eq writeStatement writeStatement
      (.ident name) := by
  have hclose : ∀ path content append, Settles like Eq
      (do expect .rparen; return Stmt.writeFile path content append)
      (do expect .rparen; return Stmt.writeFile path content append)
      (Within inv (depth + 1) n) fun _ => Within inv depth n :=
    fun _ _ _ => (expect_settles htrail rfl n.le_succ).step fun _ => .done rfl
  refine .pass htrail rfl le_rfl fun _ _ _ =>
    (expect_settles htrail rfl n.le_succ).step fun _ => ?_
  refine (expressionTyped_holds htrail).step fun path =>
    (expect_settles htrail rfl n.le_succ).step fun _ => ?_
  refine (expressionTyped_holds htrail).step fun content =>
    .accept htrail rfl n.le_succ (.peekKind fun kind => ?_)
      (hclose path content false)
  cases kind with
  | bool value =>
      exact .pass htrail rfl n.le_succ fun _ _ _ => hclose path content value
  | _ => exact .abort .expected

theorem actionStatement_advances :
    Advances like inv depth n Eq actionStatement actionStatement :=
  .position fun _ _ hpos => (expression_advances htrail).step fun _ =>
    .ite (fun _ => .done rfl) fun _ => .fail hpos (by simp)

theorem compoundAssignment_advances (hpos : Near like pos pos') :
    Settles like Eq (compoundAssignment name pos op)
      (compoundAssignment name pos' op)
      (fun st => At (.ident name) (Within inv depth (n + 1)) st ∧
        st.ahead[1]?.map Token.kind = some (.compoundAssign op))
      fun _ => Within inv depth n := by
  refine .passFirst htrail rfl le_rfl fun _ _ _ => .pass htrail rfl n.le_succ
    fun _ _ htoken => ?_
  refine (assignable_settles hpos).step fun var =>
    (expressionSingle_holds htrail).step fun right => ?_
  exact (Settles.lift (op.apply_agree _ right _ _ htoken.pos)).step
    fun _ => .done rfl

theorem countStatement_advances (hpos : Near like pos pos')
    (hkind : kind.depthAfter false depth = some depth) :
    Settles like Eq (countStatement name pos op) (countStatement name pos' op)
      (fun st => At (.ident name) (Within inv depth (n + 1)) st ∧
        st.ahead[1]?.map Token.kind = some kind)
      fun _ => Within inv depth n := by
  refine .passFirst htrail rfl le_rfl fun _ _ _ =>
    .pass htrail hkind n.le_succ ?_
  rintro ⟨kind, _, _⟩ ⟨_, _, _⟩ ⟨rfl, htoken⟩
  exact (assignable_settles hpos).step
    fun _ => .guard ⟨_, _, htoken, rfl, rfl⟩ (by simp) fun _ => .done rfl

theorem targetStatement_advances :
    Advances like inv depth n Eq targetStatement targetStatement := by
  refine (targetNames_advances htrail).bind fun names names' hnames => ?_
  refine .accept htrail rfl n.le_succ ?_
    (.accept htrail rfl n.le_succ ?_ .expected)
  · exact .position fun _ _ hpos => (expression_holds htrail).step fun _ =>
      defineFrom_holds hnames hpos
  · exact .position fun _ _ hpos => (expression_holds htrail).step fun _ =>
      assignFrom_holds hnames hpos

theorem namedStatement_advances (hpos : Near like pos pos') :
    AdvancesAt like inv depth n Eq (namedStatement name pos)
      (namedStatement name pos') (.ident name) := by
  -- a name alone is no statement
  have halone : ∀ {pre : ParserState → Prop}, Settles like Eq
      (do
        if (← lookupVariable? name).isNone then
          undeclaredVariable name pos
        let _ ← advance
        (expected .assignment : Parse Stmt))
      (do
        if (← lookupVariable? name).isNone then
          undeclaredVariable name pos'
        let _ ← advance
        (expected .assignment : Parse Stmt))
      pre fun _ => Within inv depth n := by
    intro pre
    have hskip : Settles like (fun _ _ => True) advance advance pre
        fun _ _ => True :=
      fun _ _ halike _ => .ok ⟨trivial, halike.advanced, trivial⟩
    exact .lookupVariable? fun _ => .ite
      (fun _ => .abort (.undeclaredVariable hpos)) fun _ =>
      hskip.bind fun _ _ _ => .expected
  refine .peekAfter fun next => ?_
  cases next with
  | none => exact halone
  | some kind =>
      cases kind with
      | lparen =>
          refine .weaken ?_ fun _ hst => hst.1
          dsimp only
          cases Builtin.ofName? name with
          | none =>
              exact (actionStatement_advances htrail).weaken fun _ hst => hst.1
          | some builtin =>
              cases builtin with
              | panic => exact panicStatement_advances htrail
              | write => exact writeStatement_advances htrail
              | _ => exact (actionStatement_advances
                  htrail).weaken fun _ hst => hst.1
      | shortDeclare | comma | assign =>
          exact (targetStatement_advances htrail).weaken fun _ hst => hst.1.1
      | compoundAssign op => exact compoundAssignment_advances htrail hpos
      | increment | decrement => exact countStatement_advances htrail hpos rfl
      | lbracket =>
          exact (listStore_advances htrail hpos).weaken fun _ hst => hst.1
      | _ => exact halone

theorem simpleStatement_advances :
    Advances like inv depth n Eq simpleStatement simpleStatement := by
  refine .peek fun kind _ _ _ _ hpos => ?_
  cases kind with
  | ident name => exact namedStatement_advances htrail hpos
  | keyword word =>
      cases word with
      | varWord => exact definition_advances htrail rfl
      | _ => exact .expected
  | _ => exact .expected

theorem printStatement_advances :
    AdvancesAt like inv depth n Eq printStatement printStatement
      (.keyword .printWord) := by
  refine .pass htrail rfl le_rfl fun _ _ _ =>
    (expect_settles htrail rfl n.le_succ).step fun _ => ?_
  refine .accept htrail rfl n.le_succ (.done rfl) ?_
  refine .position fun _ _ hpos => (expressionSingle_holds htrail).step
    fun value => ?_
  exact .guard hpos (by simp)
    fun _ => (expect_settles htrail rfl n.le_succ).step fun _ => .done rfl

theorem loopExit_advances {exit : LoopExit}
    (hkind : kind.depthAfter false depth = some depth) :
    AdvancesAt like inv depth n Eq (loopExit exit) (loopExit exit) kind := by
  refine .pass htrail hkind le_rfl fun _ _ htoken => .get fun s t hscope => ?_
  rw [hscope]
  cases exit with
  | leave => exact .guard htoken.pos (by simp) fun _ => .done rfl
  | next => exact .guard htoken.pos (by simp) fun _ => .done rfl

/-! Returned values. -/

theorem returnValues_holds :
    Holds like inv depth n (List.Forall₂ (Placed like)) returnValues
      returnValues := by
  refine .peekKind fun kind => .weaken ?_ fun _ hst => hst.1
  cases kind with
  | newline | semicolon | rbrace | eof => exact .done .nil
  | _ =>
      refine iterate_settles (R := List.Forall₂ (Placed like))
        (fun values values' m hvalues _ => .position fun pos pos' hpos =>
          (expression_advances htrail).step fun value => ?_) .nil
      have hmore := forall₂_concat hvalues
        (⟨rfl, hpos⟩ : Placed like (value, pos) (value, pos'))
      refine .accept htrail comma_depth m.le_succ
        (.pure (.again hmore) fun _ => id)
        (.pure (.done hmore) fun _ hst => hst.mono m.le_succ)

omit htrail in
theorem mapM_singleType_agree {values values' : List (Expr × Position)}
    (hvalues : List.Forall₂ (Placed like) values values') :
    Agree like Eq (values.mapM fun value => value.1.singleType value.2)
      (values'.mapM fun value => value.1.singleType value.2) := by
  induction hvalues with
  | nil => exact .ok rfl
  | cons hfirst _ ih =>
      rw [List.mapM_cons, List.mapM_cons, hfirst.value]
      exact (Expr.singleType_agree _ hfirst.pos).step
        fun _ => ih.step fun _ => .ok rfl

omit htrail in
theorem returnedTypes_agree {values values' : List (Expr × Position)}
    (hvalues : List.Forall₂ (Placed like) values values') :
    Agree like Eq (returnedTypes values) (returnedTypes values') := by
  have hall := mapM_singleType_agree hvalues
  cases hvalues with
  | nil => exact hall
  | @cons first first' _ _ hfirst hrest =>
      cases hrest with
      | cons _ _ => exact hall
      | nil =>
          obtain ⟨value, pos⟩ := first
          obtain ⟨_, pos'⟩ := first'
          obtain ⟨rfl, hpos⟩ := hfirst
          exact .ite (fun _ => .ok rfl) fun _ =>
            (value.singleType_agree hpos).step fun _ => .ok rfl

omit htrail in
theorem checkReturns_agree {number : Nat} {positions positions' : List Position}
    {got required : List ValueType} (hpos : Near like pos pos')
    (hpositions : List.Forall₂ (Near like) positions positions') :
    Agree like Eq (checkReturns pos number positions got required)
      (checkReturns pos' number positions' got required) := by
  induction got generalizing number positions positions' required with
  | nil => exact .ok rfl
  | cons ty got ih =>
      cases required with
      | nil => exact .ok rfl
      | cons want required =>
          have htail := List.forall₂_drop 1 hpositions
          refine .ite (fun _ => ih (by simpa using htail))
            fun _ => .error ?_ (by simp)
          cases hpositions with
          | nil => exact hpos
          | cons hfirst _ => exact hfirst

theorem returnStatement_advances :
    AdvancesAt like inv depth n Eq returnStatement returnStatement
      (.keyword .returnWord) := by
  refine .pass htrail rfl le_rfl fun _ _ htoken => .get fun s t hscope => ?_
  rw [hscope]
  cases t.scope.returns with
  | none => exact .fail htoken.pos (by simp)
  | some required =>
      refine (returnValues_holds htrail).bind fun values values' hvalues => ?_
      refine (Settles.lift (returnedTypes_agree hvalues)).step fun got => ?_
      refine .guard htoken.pos (by simp) fun _ => ?_
      rw [Placed.map_fst hvalues]
      exact (Settles.lift (checkReturns_agree htoken.pos
        (Placed.map_snd hvalues))).step fun _ => .done rfl

/-! Headers. -/

theorem parameter_holds {before before' : List (Binding × Position)}
    (hbefore : List.Forall₂ (Placed like) before before') :
    Holds like inv depth n (Placed like) (parameter before)
      (parameter before') := by
  refine (identifier_settles htrail n.le_succ).bind ?_
  rintro ⟨name, _⟩ ⟨_, _⟩ ⟨rfl, hpos⟩
  dsimp only
  rw [Placed.any_eq hbefore]
  · exact .guard hpos (by simp) fun _ => (valueType_holds htrail).step
      fun _ => .done ⟨rfl, hpos⟩
  · exact fun _ _ _ => rfl

theorem resultTypes_holds : Holds like inv depth n Eq resultTypes
    resultTypes := by
  refine atType_holds.step fun _ => .ite (fun _ => ?_) fun _ => ?_
  · exact (valueType_holds htrail).step fun _ => .done rfl
  refine .accept htrail rfl n.le_succ ?_ (.done rfl)
  refine (iterate_holds
    (fun types m _ => (valueType_advances htrail).step fun _ => ?_) []).step
    fun _ => ?_
  · exact .accept htrail comma_depth m.le_succ (.pure rfl fun _ => id)
      (.pure rfl fun _ hst => hst.mono m.le_succ)
  · exact (expect_settles htrail rfl n.le_succ).step fun _ => .done rfl

omit htrail in
theorem removeVariables_holds {names : List String} :
    Holds like inv depth n Eq (removeVariables names) (removeVariables names) :=
  modifyScope_holds

omit htrail in
theorem atRangeHeader_holds : Holds like inv depth n Eq atRangeHeader
    atRangeHeader :=
  .peekAfter fun _ => .peekAfter fun _ => .peekAfter
    fun _ => .peekAfter fun _ =>
    .peekAfter fun _ => .pure rfl fun _ hst => hst.1.1.1.1.1

omit htrail in
theorem atSimpleStatement_holds :
    Holds like inv depth n Eq atSimpleStatement atSimpleStatement := by
  refine .peekKind fun kind => .weaken ?_ fun _ hst => hst.1
  cases kind with
  | ident name =>
      refine .peekAfter fun next => .weaken ?_ fun _ hst => hst.1
      split <;> exact .done rfl
  | keyword word =>
      cases word with
      | _ => exact .done rfl
  | _ => exact .done rfl

omit htrail in
theorem unlessAt_holds {stop : TokenKind} {part : Parse α}
    (hpart : Holds like inv depth n Eq part part) :
    Holds like inv depth n Eq (unlessAt stop part) (unlessAt stop part) :=
  .peekKind fun _ => .weaken (.ite (fun _ => .done rfl)
    fun _ => hpart.step fun _ => .done rfl) fun _ hst => hst.1

theorem simpleStatement_holds :
    Holds like inv depth n Eq simpleStatement simpleStatement :=
  holds_of_advances fun _ _ => simpleStatement_advances htrail

theorem loopHeader_holds : Holds like inv depth n Eq loopHeader loopHeader := by
  rw [loopHeader_eq]
  refine .peekKind fun _ => .weaken (.ite (fun _ => .done rfl) fun _ => ?_)
    fun _ hst => hst.1
  refine .peekKind fun _ => .weaken (atSimpleStatement_holds.step fun _ => ?_)
    fun _ hst => hst.1
  refine .ite (fun _ => ?_) fun _ => (expressionTyped_holds htrail).step
    fun _ => .done rfl
  refine (unlessAt_holds (simpleStatement_holds htrail)).step fun _ =>
    (expect_settles htrail rfl n.le_succ).step fun _ => ?_
  refine (unlessAt_holds (expressionTyped_holds htrail)).step fun _ =>
    (expect_settles htrail rfl n.le_succ).step fun _ => ?_
  exact (unlessAt_holds (simpleStatement_holds htrail)).step fun _ => .done rfl

omit htrail in
theorem rangeIndex_holds (hpos : Near like pos pos') :
    Holds like inv depth n Eq (rangeIndex name pos) (rangeIndex name pos') :=
  .ite (fun _ => hiddenName_holds.step fun _ => (enterVariable_holds hpos).step
    fun _ => .done rfl) fun _ => (declare_holds hpos).step fun _ => .done rfl

theorem rangeValueName_holds :
    Holds like inv depth n (Option.Rel (Placed like)) rangeValueName
      rangeValueName :=
  .accept htrail comma_depth n.le_succ
    ((identifier_settles htrail n.le_succ).bind
      fun _ _ hname => .done (.some hname)) (.done .none)

omit htrail in
theorem rangeElement_holds {source : Expr} {index : String}
    {name name' : Option (String × Position)}
    (hname : Option.Rel (Placed like) name name') :
    Holds like inv depth n Eq (rangeElement source index name)
      (rangeElement source index name') := by
  cases hname with
  | none => exact .done rfl
  | @some found found' hfound =>
      obtain ⟨name, _⟩ := found
      obtain ⟨_, _⟩ := found'
      obtain ⟨rfl, hpos⟩ := hfound
      exact .ite (fun _ => .done rfl) fun _ => (declare_holds hpos).step
        fun _ => .done rfl

theorem switchTag_holds : Holds like inv depth n Eq switchTag switchTag := by
  refine .peekKind fun _ => .weaken (.ite (fun _ => .done rfl) fun _ => ?_)
    fun _ hst => hst.1
  refine .position fun _ _ hpos => (expressionSingle_holds htrail).step
    fun tag => ?_
  refine .guard hpos (by simp) fun _ => .ite (fun _ => .done rfl) fun _ => ?_
  exact hiddenName_holds.step fun _ => (enterVariable_holds hpos).step
    fun _ => .done rfl

theorem caseCondition_holds :
    Holds like inv (depth + 1) n Eq (caseCondition tag)
      (caseCondition tag) := by
  have htest : ∀ pos pos' m, Near like pos pos' →
      Holds like inv (depth + 1) m Eq (caseTest tag pos)
        (caseTest tag pos') := by
    intro pos pos' m hpos
    cases tag with
    | none => exact expressionTyped_holds htrail
    | some tag =>
        exact (expressionSingle_holds htrail).step fun e =>
          .lift (CompareOp.eq.apply_agree tag e _ _ hpos)
  refine .position fun _ _ hpos => (htest _ _ n hpos).step fun first =>
    iterate_holds (fun condition m _ => ?_) first
  refine .accept htrail rfl le_rfl ?_ (.pure rfl fun _ => id)
  refine .position fun _ _ hpos => (htest _ _ m hpos).step fun test => ?_
  exact (Settles.lift (LogicalOp.or.apply_agree condition test _ _ hpos)).step
    fun _ => .pure rfl fun _ => id

/-! Blocks and the statements around them. -/

section Rules

variable {limit : Nat} {statement statement' : Parse (List Stmt)}
  (hstatement : ∀ depth n, n < limit →
    Advances like inv depth n Eq statement statement')
  {blockKind : BlockKind}

include hstatement

theorem statementsUntil_holds {stop : TokenKind → Bool} {wanted : Wanted}
    (hn : n ≤ limit) :
    Holds like inv depth n Eq (statementsUntil statement stop wanted)
      (statementsUntil statement' stop wanted) := by
  refine iterate_holds
    (fun body m hm => (skipSeparators_holds htrail).step fun _ => ?_) []
  refine .peekKind
    fun _ => .weaken (.ite (fun _ => .pure rfl fun _ => id) fun _ => ?_)
    fun _ hst => hst.1
  refine .demand fun _ => (hstatement depth m (Nat.lt_of_lt_of_le hm hn)).step
    fun _ => ?_
  exact .pure rfl fun _ => id

theorem block_advances (hn : n ≤ limit) :
    Advances like inv depth n Eq (block statement blockKind)
      (block statement' blockKind) := by
  refine (expect_settles htrail rfl le_rfl).step
    fun _ => modifyScope_holds.step fun _ =>
    (statementsUntil_holds htrail hstatement hn).step
      fun _ => modifyScope_holds.step fun _ => ?_
  exact (expect_settles htrail rfl n.le_succ).step fun _ => .done rfl

theorem block_holds (hn : n ≤ limit) :
    Holds like inv depth n Eq (block statement blockKind)
      (block statement' blockKind) :=
  holds_of_advances fun _ hm => block_advances htrail hstatement
    (hm.le.trans hn)

theorem functionStatement_advances (hn : n ≤ limit) :
    AdvancesAt like inv depth n Eq (functionStatement statement)
      (functionStatement statement') (.keyword .funcWord) := by
  refine .pass htrail rfl le_rfl fun _ _ htoken => .get fun s t hscope => ?_
  rw [hscope]
  refine .guard htoken.pos (by simp)
    fun _ => (identifier_settles htrail n.le_succ).bind ?_
  rintro ⟨name, _⟩ ⟨_, _⟩ ⟨rfl, hpos⟩
  refine (checkNewName_holds hpos).step fun _ => .lookupVariable? fun _ =>
    .guard hpos (by simp) fun _ => ?_
  refine (expect_settles htrail rfl n.le_succ).step
    fun _ => (commaSeparated_settles htrail
    fun _ _ _ hbefore _ => parameter_holds htrail hbefore).bind
      fun params params' hparams => ?_
  refine (expect_settles htrail rfl n.le_succ).step fun _ =>
    (resultTypes_holds htrail).step fun returns => .get fun s t hscope => ?_
  have htypes : (params.map fun param => param.1.ty) =
      params'.map fun param => param.1.ty :=
    Placed.map_eq hparams fun _ _ _ => rfl
  rw [hscope, htypes, Placed.map_fst hparams]
  dsimp only
  -- both definitions enter the same signature, or are refused for the same
  -- reason
  cases t.scope.declareFunction name
    ⟨params'.map fun param => param.1.ty, returns⟩ with
  | error cause => exact .abort (.fail hpos (by simp))
  | ok scope =>
      refine modifyScope_holds.step fun _ => modifyScope_holds.step fun _ =>
        (Settles.forM hparams ?_).step fun _ => ?_
      · rintro ⟨param, _⟩ ⟨_, _⟩ ⟨rfl, hparam⟩
        exact declare_holds hparam
      refine (expect_settles htrail rfl n.le_succ).step fun _ =>
        (statementsUntil_holds htrail hstatement hn).step fun body => ?_
      refine .ite
        (fun _ => .position fun _ _ hend => .abort (.fail hend (by simp)))
          fun _ => ?_
      exact (expect_settles htrail rfl n.le_succ).step
        fun _ => modifyScope_holds.step fun _ => .done rfl

theorem guarded_holds (hn : n ≤ limit) :
    Holds like inv depth n Eq (guarded statement) (guarded statement') :=
  (expressionTyped_holds htrail).step
    fun _ => (block_holds htrail hstatement hn).step fun _ => .done rfl

theorem ifStatement_advances (hn : n ≤ limit) :
    AdvancesAt like inv depth n Eq (ifStatement statement)
      (ifStatement statement') (.keyword .ifWord) := by
  refine .pass htrail rfl le_rfl fun _ _ _ =>
    (guarded_holds htrail hstatement hn).step
    fun first => iterate_holds (fun branches m hm => ?_) [first]
  have hm' : m ≤ limit := hm.le.trans hn
  refine .accept htrail rfl le_rfl (.accept htrail rfl m.le_succ ?_ ?_)
    (.pure rfl fun _ => id)
  · exact (guarded_holds htrail hstatement hm').step
      fun _ => .pure rfl fun _ => id
  · exact (block_holds htrail hstatement hm').step fun _ =>
      .pure rfl fun _ hst => hst.mono m.le_succ

theorem countedLoop_holds (hn : n ≤ limit) :
    Holds like inv depth n Eq (countedLoop statement)
      (countedLoop statement') := by
  refine .get fun s t hscope => ?_
  rw [hscope]
  refine (loopHeader_holds htrail).step fun _ => .get fun s t hscope => ?_
  rw [hscope]
  exact (block_holds htrail hstatement hn).step
    fun _ => removeVariables_holds.step fun _ => .done rfl

theorem rangeLoop_holds (hn : n ≤ limit) :
    Holds like inv depth n Eq (rangeLoop statement) (rangeLoop statement') := by
  rw [rangeLoop_eq, rangeLoop_eq]
  refine (identifier_settles htrail n.le_succ).bind ?_
  rintro ⟨name, _⟩ ⟨_, _⟩ ⟨rfl, hpos⟩
  refine (rangeValueName_holds htrail).bind fun _ _ hvalue =>
    (expect_settles htrail rfl n.le_succ).step fun _ => ?_
  refine (expect_settles htrail rfl n.le_succ).step
    fun _ => .position fun _ _ hsource =>
    (expressionSingle_holds htrail).step fun _ => .guard hsource
    (by simp) fun _ => ?_
  exact (rangeIndex_holds hpos).step
    fun _ => (rangeElement_holds hvalue).step fun _ =>
    (block_holds htrail hstatement hn).step
      fun _ => removeVariables_holds.step fun _ => .done rfl

theorem forStatement_advances (hn : n ≤ limit) :
    AdvancesAt like inv depth n Eq (forStatement statement)
      (forStatement statement') (.keyword .forWord) :=
  .pass htrail rfl le_rfl fun _ _ _ => atRangeHeader_holds.step fun _ =>
    .ite (fun _ => rangeLoop_holds htrail hstatement hn)
      fun _ => countedLoop_holds htrail hstatement hn

/-- The cases stand between the braces of their switch. -/
theorem switchCases_holds (hn : n ≤ limit) :
    Holds like inv (depth + 1) n Eq (switchCases statement tag)
      (switchCases statement' tag) := by
  refine iterate_holds ?_ _
  rintro ⟨branches, default?⟩ m hm
  have hm' : m ≤ limit := hm.le.trans hn
  refine (skipSeparators_holds htrail).step fun _ => .peekKind fun kind => ?_
  cases kind with
  | keyword word =>
      cases word with
      | caseWord =>
          refine .pass htrail rfl le_rfl
            fun _ _ _ => (caseCondition_holds htrail).step fun _ => ?_
          exact (expect_settles htrail rfl m.le_succ).step fun _ =>
            (statementsUntil_holds htrail hstatement hm').step
              fun _ => .pure rfl fun _ => id
      | defaultWord =>
          refine .pass htrail rfl le_rfl
            fun _ _ htoken => .guard htoken.pos (by simp) fun _ => ?_
          exact (expect_settles htrail rfl m.le_succ).step fun _ =>
            (statementsUntil_holds htrail hstatement hm').step
              fun _ => .pure rfl fun _ => id
      | _ => exact .expected
  | rbrace => exact .pure rfl fun _ hst => hst.1
  | _ => exact .expected

theorem switchStatement_advances (hn : n ≤ limit) :
    AdvancesAt like inv depth n Eq (switchStatement statement)
      (switchStatement statement') (.keyword .switchWord) := by
  refine .pass htrail rfl le_rfl fun _ _ _ => (switchTag_holds htrail).step
    fun tag =>
    (expect_settles htrail rfl n.le_succ).step
      fun _ => modifyScope_holds.step fun _ => ?_
  refine (switchCases_holds htrail hstatement hn).step fun cases =>
    modifyScope_holds.step fun _ => (expect_settles htrail rfl n.le_succ).step
      fun _ => ?_
  exact removeVariables_holds.step fun _ => .ite (fun _ => .done rfl)
    fun _ => .done rfl

theorem statementRule_advances (depth n : Nat) (hn : n ≤ limit) :
    Advances like inv depth n Eq (statementRule statement)
      (statementRule statement') := by
  have hended : ∀ {pre : ParserState → Prop} {p q : Parse (List Stmt)},
      (Settles like Eq p q pre fun _ => Within inv depth n) →
      Settles like Eq (do let statements ← p; endStatement; return statements)
        (do let statements ← q; endStatement; return statements)
        pre fun _ => Within inv depth n :=
    fun h => h.step fun _ => (endStatement_holds htrail).step fun _ => .done rfl
  have hone : ∀ {pre : ParserState → Prop} {p q : Parse Stmt},
      (Settles like Eq p q pre fun _ => Within inv depth n) →
      Settles like Eq
        (do
          let statements ← List.singleton <$> p
          endStatement
          return statements)
        (do
          let statements ← List.singleton <$> q
          endStatement
          return statements)
        pre fun _ => Within inv depth n :=
    fun h => hended (.map h)
  refine .peekKind fun kind => ?_
  cases kind with
  | keyword word =>
      cases word with
      | switchWord =>
          exact hended (switchStatement_advances htrail hstatement hn)
      | varWord | constWord => exact hone (definition_advances htrail rfl)
      | funcWord => exact hone (functionStatement_advances htrail hstatement hn)
      | returnWord => exact hone (returnStatement_advances htrail)
      | ifWord => exact hone (ifStatement_advances htrail hstatement hn)
      | forWord => exact hone (forStatement_advances htrail hstatement hn)
      | breakWord | continueWord => exact hone (loopExit_advances htrail rfl)
      | printWord => exact hone (printStatement_advances htrail)
      | inputWord =>
          exact hone ((actionStatement_advances htrail).weaken
            fun _ hst => hst.1)
      | _ => exact hended .expected
  | ident name => exact hone ((simpleStatement_advances htrail).weaken
      fun _ hst => hst.1)
  | atSign => exact hone ((actionStatement_advances htrail).weaken
      fun _ hst => hst.1)
  | _ => exact hended .expected

end Rules

theorem statement_advances : Advances like inv depth n Eq statement statement :=
  nested_advances fun hstatement => statementRule_advances htrail hstatement

theorem program_holds : Holds like inv depth n Eq program program :=
  (statementsUntil_holds htrail (fun _ _ _ => statement_advances htrail)
    le_rfl).step fun _ => .done rfl

end Parse

end Shellwright
