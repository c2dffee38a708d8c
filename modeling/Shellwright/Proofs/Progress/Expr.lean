/-
Expressions come to an end and do not depend on the layout.  Every expression
starts with a token of its own and closes the brackets it opens; the expressions
inside it stand behind one of its tokens.  Operators and arguments carry their
places only to report faults there.
-/
import Shellwright.Proofs.Progress.Settles

namespace Shellwright

variable {like : Token → Token → Prop} {pos pos' : Position}

/-! Checks of types. -/

theorem Expr.singleType_agree (e : Expr) (hpos : Near like pos pos') :
    Agree like Eq (e.singleType pos) (e.singleType pos') := by
  unfold Expr.singleType
  match e.types with
  | [] => exact .error hpos (by simp)
  | [ty] => exact .ok rfl
  | ty :: _ :: _ => exact .ite (fun _ => .ok rfl) fun _ => .error hpos (by simp)

theorem UnaryOp.apply_agree (op : UnaryOp) (operand : Expr)
    (hpos : Near like pos pos') :
    Agree like Eq (op.apply operand pos) (op.apply operand pos') :=
  (operand.singleType_agree hpos).step fun _ => .ite (fun _ => .ok rfl) fun _ =>
    .error hpos (by simp)

theorem BinaryOp.apply_agree (op : BinaryOp) (left right : Expr)
    (pos pos' : Position) (hpos : Near like pos pos') :
    Agree like Eq (op.apply left right pos) (op.apply left right pos') := by
  refine (left.singleType_agree hpos).step fun leftType =>
    (right.singleType_agree hpos).step fun rightType => ?_
  refine .ite (fun _ => .error hpos (by simp)) fun _ => ?_
  exact .ite (fun _ => .ok rfl) fun _ => .error hpos (by simp)

theorem CompareOp.apply_agree (op : CompareOp) (left right : Expr)
    (pos pos' : Position) (hpos : Near like pos pos') :
    Agree like Eq (op.apply left right pos) (op.apply left right pos') := by
  refine (left.singleType_agree hpos).step fun leftType =>
    (right.singleType_agree hpos).step fun rightType => ?_
  refine .ite (fun _ => .error hpos (by simp)) fun _ => ?_
  exact .ite (fun _ => .error hpos (by simp)) fun _ => .ok rfl

theorem LogicalOp.apply_agree (op : LogicalOp) (left right : Expr)
    (pos pos' : Position) (hpos : Near like pos pos') :
    Agree like Eq (op.apply left right pos) (op.apply left right pos') := by
  refine (left.singleType_agree hpos).step fun leftType =>
    .ite (fun _ => .error hpos (by simp)) fun _ => ?_
  refine (right.singleType_agree hpos).step fun rightType => ?_
  exact .ite (fun _ => .error hpos (by simp)) fun _ => .ok rfl

theorem Builtin.apply_agree (builtin : Builtin) (arg : Expr)
    (hpos : Near like pos pos') :
    Agree like Eq (builtin.apply arg pos) (builtin.apply arg pos') := by
  cases builtin with
  | _ => exact .ite (fun _ => .ok rfl) fun _ => .error hpos (by simp)

namespace Parse

variable {role : Role} {name : String} {required : ValueType}

open ParserState (Within)

theorem checkArguments_agree {function : String} {number : Nat}
    {params : List ValueType} {args args' : List (Expr × Position)}
    (hargs : List.Forall₂ (Placed like) args args') :
    Agree like Eq (checkArguments function number args params)
      (checkArguments function number args' params) := by
  induction hargs generalizing number params with
  | nil => exact .ok rfl
  | @cons arg arg' _ _ harg _ ih =>
      cases params with
      | nil => exact .ok rfl
      | cons param params =>
          obtain ⟨value, pos⟩ := arg
          obtain ⟨_, pos'⟩ := arg'
          obtain ⟨rfl, hpos⟩ := harg
          exact .ite (fun _ => ih) fun _ => .error hpos (by simp)

variable {items : Bool} {inv : Nat → List Token → Prop}
  (htrail : Trail items inv) {depth n : Nat} {pre post : ParserState → Prop}

section Single

variable {expr expr' : Parse Expr}
  (hexpr : Settles like Eq expr expr' pre fun _ => post)

include hexpr

theorem single_settles : Settles like Eq (single expr) (single expr') pre
    fun _ => post :=
  .position fun _ _ hpos => hexpr.step fun e =>
    (Settles.lift (e.singleType_agree hpos)).step fun _ => .done rfl

theorem typed_settles :
    Settles like Eq (typed expr required role) (typed expr' required role) pre
      fun _ => post :=
  .position fun _ _ hpos => hexpr.step fun e =>
    (Settles.lift (e.singleType_agree hpos)).step fun _ =>
      .ite (fun _ => .done rfl) fun _ => .fail hpos (by simp)

end Single

include htrail

theorem chain_advances {ω : Type} {operand operand' : Parse Expr}
    {operator? : TokenKind → Option ω}
    {apply : ω → Expr → Expr → Position → Except SyntaxError Expr}
    (hoperand : ∀ m, m ≤ n → Advances like inv depth m Eq operand operand')
    (hoperator : ∀ kind op, operator? kind = some op →
      kind.depthAfter items depth = some depth)
    (happly : ∀ op left right pos pos', Near like pos pos' →
      Agree like Eq (apply op left right pos) (apply op left right pos')) :
    Advances like inv depth n Eq (chain operand operator? apply)
      (chain operand' operator? apply) := by
  refine (hoperand n le_rfl).step fun first => iterate_holds
    (fun left m hm => ?_) first
  refine .peek fun kind _ _ _ _ hpos => ?_
  dsimp only
  cases hop : operator? kind with
  | none => exact .pure rfl fun _ hst => hst.1
  | some op =>
      refine .pass htrail (hoperator _ _ hop) le_rfl fun _ _ _ => ?_
      refine (holds_of_advances fun k hk => hoperand k (hk.trans hm).le).step
        fun right => ?_
      exact (Settles.lift (happly op left right _ _ hpos)).step
        fun _ => .pure rfl fun _ => id

omit htrail in
theorem productOperator?_depth (kind : TokenKind) (op : BinaryOp)
    (h : productOperator? kind = some op) : kind.depthAfter items depth =
      some depth := by
  unfold productOperator? at h
  split at h <;> first | rfl | cases h

omit htrail in
theorem sumOperator?_depth (kind : TokenKind) (op : BinaryOp)
    (h : sumOperator? kind = some op) : kind.depthAfter items depth =
      some depth := by
  unfold sumOperator? at h
  split at h <;> first | rfl | cases h

omit htrail in
theorem comparison?_depth (kind : TokenKind) (op : CompareOp)
    (h : comparison? kind = some op) : kind.depthAfter items depth =
      some depth := by
  unfold comparison? at h
  split at h <;> first | rfl | cases h

omit htrail in
theorem conjunction?_depth (kind : TokenKind) (op : LogicalOp)
    (h : conjunction? kind = some op) : kind.depthAfter items depth =
      some depth := by
  unfold conjunction? at h
  split at h <;> first | rfl | cases h

omit htrail in
theorem disjunction?_depth (kind : TokenKind) (op : LogicalOp)
    (h : disjunction? kind = some op) : kind.depthAfter items depth =
      some depth := by
  unfold disjunction? at h
  split at h <;> first | rfl | cases h

omit htrail in
theorem unaryOperator?_depth {kind : TokenKind} {op : UnaryOp}
    (h : unaryOperator? kind = some op) : kind.depthAfter items depth =
      some depth := by
  unfold unaryOperator? at h
  split at h <;> first | rfl | cases h

theorem unaryOperators_holds :
    Holds like inv depth n (List.Forall₂ (Placed like)) unaryOperators
      unaryOperators := by
  refine iterate_settles (R := List.Forall₂ (Placed like))
    (fun ops ops' m hops _ => .peek fun kind _ _ _ _ hpos => ?_) .nil
  dsimp only
  cases hop : unaryOperator? kind with
  | some op =>
      exact .pass htrail (unaryOperator?_depth hop) le_rfl fun _ _ _ =>
        .pure (.again (forall₂_concat hops ⟨rfl, hpos⟩)) fun _ => id
  | none => exact .pure (.done hops) fun _ hst => hst.1

section Rules

variable {limit : Nat} {expr expr' : Parse Expr}
  (hexpr : ∀ depth n, n < limit → Advances like inv depth n Eq expr expr')

include hexpr

omit htrail in
/-- An expression inside another one. -/
theorem inner_holds (hn : n ≤ limit) : Holds like inv depth n Eq expr expr' :=
  holds_of_advances fun m hm => hexpr depth m (Nat.lt_of_lt_of_le hm hn)

omit htrail in
theorem innerSingle_holds (hn : n ≤ limit) :
    Holds like inv depth n Eq (single expr) (single expr') :=
  single_settles (inner_holds hexpr hn)

omit htrail in
theorem innerTyped_holds (hn : n ≤ limit) :
    Holds like inv depth n Eq (typed expr required role)
      (typed expr' required role) :=
  typed_settles (inner_holds hexpr hn)

theorem listLiteral_advances (hn : n ≤ limit) :
    Advances like inv depth n Eq (listLiteral expr) (listLiteral expr') := by
  refine (valueType_advances htrail).step fun ty => .demand fun _ => ?_
  refine (expect_settles htrail rfl n.le_succ).step fun _ => ?_
  refine (commaSeparated_holds htrail fun m hm => ?_).step fun _ =>
    (expect_settles htrail rfl n.le_succ).step fun _ => .done rfl
  exact .position fun _ _ hpos =>
    (innerSingle_holds hexpr (hm.trans hn)).step fun _ =>
    .ite (fun _ => .done rfl) fun _ => .fail hpos (by simp)

theorem lengthOf_advances (hn : n ≤ limit) :
    AdvancesAt like inv depth n Eq (lengthOf expr) (lengthOf expr')
      (.keyword .lenWord) := by
  refine .pass htrail rfl le_rfl fun _ _ _ =>
    (expect_settles htrail rfl n.le_succ).step fun _ => ?_
  refine .position fun _ _ hpos => (innerSingle_holds hexpr hn).step
    fun inner => ?_
  refine (expect_settles htrail rfl n.le_succ).step
    fun _ => .ite (fun _ => .done rfl) fun _ => ?_
  exact .ite (fun _ => .done rfl) fun _ => .fail hpos (by simp)

theorem inputLine_advances (hn : n ≤ limit) :
    AdvancesAt like inv depth n Eq (inputLine expr) (inputLine expr')
      (.keyword .inputWord) := by
  refine .pass htrail rfl le_rfl fun _ _ _ =>
    (expect_settles htrail rfl n.le_succ).step fun _ => ?_
  refine .peekKind fun _ => .weaken (.ite (fun _ => ?_) fun _ => ?_)
    fun _ hst => hst.1
  · exact (expect_settles htrail rfl n.le_succ).step fun _ => .done rfl
  · exact (innerTyped_holds hexpr hn).step fun _ =>
      (expect_settles htrail rfl n.le_succ).step fun _ => .done rfl

theorem stage_advances (hn : n ≤ limit) :
    Advances like inv depth n Eq (stage expr) (stage expr') := by
  have harg : ∀ m, m ≤ n → Holds like inv (depth + 1) m Eq
      (do
        let pos ← position
        let arg ← single expr
        if arg.ty.isScalar then return arg
        else fail (.stageArgument arg.ty) pos)
      (do
        let pos ← position
        let arg ← single expr'
        if arg.ty.isScalar then return arg
        else fail (.stageArgument arg.ty) pos) :=
    fun m hm => .position fun _ _ hpos =>
      (innerSingle_holds hexpr (hm.trans hn)).step fun _ =>
      .ite (fun _ => .done rfl) fun _ => .fail hpos (by simp)
  refine (expect_settles htrail rfl le_rfl).step
    fun _ => .peekKind fun kind => ?_
  cases kind with
  | ident name | string name =>
      refine .pass htrail rfl n.le_succ
        fun _ _ _ => (expect_settles htrail rfl n.le_succ).step
        fun _ => (commaSeparated_holds htrail harg).step fun _ => ?_
      exact (expect_settles htrail rfl n.le_succ).step fun _ => .done rfl
  | _ => exact .abort .expected

theorem pipeline_advances (hn : n ≤ limit) :
    Advances like inv depth n Eq (pipeline expr) (pipeline expr') := by
  refine (stage_advances htrail hexpr hn).step fun first =>
    iterate_holds (fun stages m hm => ?_) [first]
  refine .accept htrail rfl le_rfl ?_ (.pure rfl fun _ => id)
  refine (skipLineBreaks_holds htrail).step fun _ => .peekKind fun _ =>
    .weaken (.demand fun _ => ?_) fun _ hst => hst.1
  refine (holds_of_advances fun k hk => ?_).step fun _ => .pure rfl fun _ => id
  exact stage_advances htrail hexpr (((hk.trans hm).le).trans hn)

theorem arguments_holds (hn : n ≤ limit) :
    Holds like inv depth n (List.Forall₂ (Placed like)) (arguments expr)
      (arguments expr') := by
  refine (expect_settles htrail rfl n.le_succ).step fun _ =>
    (commaSeparated_settles htrail fun _ _ m _ hm => ?_).bind fun _ _ hargs =>
      (expect_settles htrail rfl n.le_succ).step fun _ => .done hargs
  exact .position fun _ _ hpos =>
    (innerSingle_holds hexpr (hm.trans hn)).step fun _ => .done ⟨rfl, hpos⟩

theorem callOf_advances (hn : n ≤ limit) :
    Advances like inv depth n Eq (callOf expr) (callOf expr') := by
  refine (identifier_settles htrail le_rfl).bind ?_
  rintro ⟨name, pos⟩ ⟨_, pos'⟩ ⟨rfl, hpos⟩
  refine .lookupFunction? fun signature => ?_
  cases signature with
  | none => exact .undeclaredFunction hpos
  | some signature =>
      refine (arguments_holds htrail hexpr hn).bind fun args args' hargs => ?_
      rw [hargs.length_eq, Placed.map_fst hargs]
      refine .guard hpos (by simp) fun _ => ?_
      exact (Settles.lift (checkArguments_agree hargs)).step fun _ => .done rfl

theorem builtinCall_advances {builtin : Builtin} (hpos : Near like pos pos')
    (hn : n ≤ limit) :
    AdvancesAt like inv depth n Eq (builtinCall expr builtin pos)
      (builtinCall expr' builtin pos') (.ident name) := by
  unfold builtinCall
  refine .guard hpos (by simp) fun _ => .pass htrail rfl le_rfl fun _ _ _ =>
    (arguments_holds htrail hexpr hn).bind fun args args' hargs => ?_
  cases hargs with
  | nil => exact .fail hpos (by simp)
  | @cons arg arg' _ _ harg hrest =>
      obtain ⟨value, _⟩ := arg
      obtain ⟨_, _⟩ := arg'
      obtain ⟨rfl, hargPos⟩ := harg
      cases hrest with
      | nil => exact .lift (builtin.apply_agree value hargPos)
      | cons _ hrest =>
          dsimp only
          rw [List.length_cons, List.length_cons, hrest.length_eq]
          exact .fail hpos (by simp)

theorem named_advances (hpos : Near like pos pos') (hn : n ≤ limit) :
    AdvancesAt like inv depth n Eq (named expr name pos) (named expr' name pos')
      (.ident name) := by
  refine .peekAfter fun _ => .weaken (.ite (fun _ => ?_) fun _ => ?_)
    fun _ hst => hst.1
  · cases Builtin.ofName? name with
    | some builtin => exact builtinCall_advances htrail hexpr hpos hn
    | none => exact (callOf_advances htrail hexpr hn).weaken fun _ hst => hst.1
  · refine .pass htrail rfl le_rfl fun _ _ _ => .lookupVariable? fun found => ?_
    cases found with
    | some var => exact .done rfl
    | none => exact .undeclaredVariable hpos

theorem primary_advances (hn : n ≤ limit) :
    Advances like inv depth n Eq (primary expr) (primary expr') := by
  refine .peek fun kind _ _ _ _ hpos => ?_
  cases kind with
  | number | string | bool =>
      exact .pass htrail rfl le_rfl fun _ _ _ => .done rfl
  | lparen =>
      refine .pass htrail rfl le_rfl fun _ _ _ =>
        (skipLineBreaks_holds htrail).step fun _ =>
        (innerSingle_holds hexpr hn).step
          fun _ => (skipLineBreaks_holds htrail).step fun _ => ?_
      exact (expect_settles htrail rfl n.le_succ).step fun _ => .done rfl
  | lbracket =>
      exact (listLiteral_advances htrail hexpr hn).weaken fun _ hst => hst.1
  | keyword word =>
      cases word with
      | lenWord => exact lengthOf_advances htrail hexpr hn
      | inputWord => exact inputLine_advances htrail hexpr hn
      | _ => exact .expected
  | atSign =>
      exact (pipeline_advances htrail hexpr hn).weaken fun _ hst => hst.1
  | ident name => exact named_advances htrail hexpr hpos hn
  | _ => exact .expected

/-- Behind the opening bracket up to the closing one. -/
theorem subscript_settles {value : Expr} (hn : n ≤ limit) :
    Settles like Eq (subscript expr value) (subscript expr' value)
      (Within inv (depth + 1) n) fun _ => Within inv depth n := by
  have hclose : ∀ start stop, Settles like Eq
      (do expect .rbracket; return Expr.substring value start stop [.string])
      (do expect .rbracket; return Expr.substring value start stop [.string])
      (Within inv (depth + 1) n) fun _ => Within inv depth n := fun _ _ =>
    (expect_settles htrail rfl n.le_succ).step fun _ => .done rfl
  have hstop : ∀ start, Settles like Eq
      (do
        let stop ←
          if ← accept .colon then
            if (← peekKind) = .rbracket then
              pure (some (.stringLength value [.int]))
            else
              some <$> typed expr .int .stringIndex
          else
            pure none
        expect .rbracket
        return Expr.substring value start stop [.string])
      (do
        let stop ←
          if ← accept .colon then
            if (← peekKind) = .rbracket then
              pure (some (.stringLength value [.int]))
            else
              some <$> typed expr' .int .stringIndex
          else
            pure none
        expect .rbracket
        return Expr.substring value start stop [.string])
      (Within inv (depth + 1) n) fun _ => Within inv depth n := by
    intro start
    refine .accept htrail rfl n.le_succ ?_ (hclose start none)
    refine .peekKind fun _ => .weaken (.ite (fun _ => ?_) fun _ => ?_)
      fun _ hst => hst.1
    · exact hclose start _
    · have hlast : Holds like inv (depth + 1) n Eq
        (some <$> typed expr .int .stringIndex)
          (some <$> typed expr' .int .stringIndex) :=
        .map (innerTyped_holds hexpr hn)
      exact hlast.step fun _ => hclose start _
  refine .peekKind fun _ => .weaken (.ite (fun _ => ?_) fun _ => ?_)
    fun _ hst => hst.1
  · exact hstop _
  · exact (innerTyped_holds hexpr hn).step fun start => hstop start

theorem indexed_advances (hn : n ≤ limit) :
    Advances like inv depth n Eq (indexed expr) (indexed expr') := by
  refine (primary_advances htrail hexpr hn).step fun first =>
    iterate_holds (fun e m hm => .peek fun kind _ _ _ _ hpos => ?_) first
  have hm' : m ≤ limit := hm.le.trans hn
  refine .ite (fun _ => .pure rfl fun _ hst => hst.1) fun hbracket => ?_
  obtain rfl : kind = .lbracket := not_not.mp hbracket
  refine .pass htrail rfl le_rfl fun _ _ _ =>
    (Settles.lift (e.singleType_agree hpos)).step
    fun ty => .ite (fun _ => ?_) fun _ => .ite (fun _ => ?_)
      fun _ => .fail hpos (by simp)
  · exact (innerTyped_holds hexpr hm').step fun _ =>
      (expect_settles htrail rfl m.le_succ).step fun _ => .pure rfl fun _ => id
  · exact (subscript_settles htrail hexpr hm').step
      fun _ => .pure rfl fun _ => id

theorem unary_advances (hn : n ≤ limit) :
    Advances like inv depth n Eq (unary expr) (unary expr') := by
  refine (unaryOperators_holds htrail).bind fun ops ops' hops =>
    (indexed_advances htrail hexpr hn).step fun operand => ?_
  -- the operators inside the first one have been applied to the same operand
  induction hops with
  | nil => exact .done rfl
  | @cons first first' _ _ hfirst _ ih =>
      obtain ⟨op, pos⟩ := first
      obtain ⟨_, pos'⟩ := first'
      obtain ⟨rfl, hpos⟩ := hfirst
      rw [List.foldrM_cons, List.foldrM_cons]
      exact ih.step fun e => .lift (op.apply_agree e hpos)

theorem expressionRule_advances (depth n : Nat) (hn : n ≤ limit) :
    Advances like inv depth n Eq (expressionRule expr)
      (expressionRule expr') := by
  refine chain_advances htrail (fun m hm => ?_) disjunction?_depth
    LogicalOp.apply_agree
  refine chain_advances htrail (fun m' hm' => ?_) conjunction?_depth
    LogicalOp.apply_agree
  refine chain_advances htrail (fun k hk => ?_) comparison?_depth
    CompareOp.apply_agree
  refine chain_advances htrail (fun k' hk' => ?_) sumOperator?_depth
    BinaryOp.apply_agree
  refine chain_advances htrail (fun j hj => ?_) productOperator?_depth
    BinaryOp.apply_agree
  exact unary_advances htrail hexpr (by omega)

end Rules

theorem expression_advances : Advances like inv depth n Eq expression
    expression :=
  nested_advances fun hexpr => expressionRule_advances htrail hexpr

theorem expression_holds : Holds like inv depth n Eq expression expression :=
  holds_of_advances fun _ _ => expression_advances htrail

theorem expressionSingle_holds :
    Holds like inv depth n Eq (single expression) (single expression) :=
  single_settles (expression_holds htrail)

theorem expressionTyped_holds :
    Holds like inv depth n Eq (typed expression required role)
      (typed expression required role) :=
  typed_settles (expression_holds htrail)

end Parse

end Shellwright
