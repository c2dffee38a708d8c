/-
Reading back what has been written.  The parser climbs from what stands on its
own over indices and unary operators to the operators between operands, and on
every level it takes just the tokens of an expression that binds as tightly as
the level asks for.
-/
import Shellwright.Proofs.Parse.Reachable
import Shellwright.Proofs.Rendering.Primary

namespace Shellwright

/-! Operators applied to operands of the right types. -/

section Apply

variable {left right operand : Expr} {ty : ValueType} {pos : Position}

theorem UnaryOp.apply_eq_ok {op : UnaryOp}
    (hyields : operand.Yields op.operand) :
    op.apply operand pos = .ok (.unary op operand [op.operand]) := by
  unfold UnaryOp.apply
  rw [Expr.singleType_ok.mpr hyields]
  cases op <;> rfl

theorem BinaryOp.apply_eq_ok {op : BinaryOp} (hleft : left.Yields ty)
    (hright : right.Yields ty) (hop : op.DefinedOn ty) :
    op.apply left right pos = .ok (.binary op left right [ty]) := by
  rw [BinaryOp.apply, Expr.singleType_ok.mpr hleft,
    Expr.singleType_ok.mpr hright]
  refine (if_neg (fun hne => hne rfl)).trans (if_pos hop)

theorem CompareOp.apply_eq_ok {op : CompareOp} (hleft : left.Yields ty)
    (hright : right.Yields ty) (hop : op.DefinedOn ty) :
    op.apply left right pos = .ok (.compare op left right [.bool]) := by
  rw [CompareOp.apply, Expr.singleType_ok.mpr hleft,
    Expr.singleType_ok.mpr hright]
  refine (if_neg (fun hne => hne rfl)).trans (if_neg ?_)
  simpa [hop.1] using hop.2

theorem LogicalOp.apply_eq_ok {op : LogicalOp} (hleft : left.Yields .bool)
    (hright : right.Yields .bool) :
    op.apply left right pos = .ok (.logical op left right [.bool]) := by
  rw [LogicalOp.apply, Expr.singleType_ok.mpr hleft,
    Expr.singleType_ok.mpr hright]
  rfl

end Apply

namespace Parse

variable {st : ParserState} {expr : Parse Expr} {bound : Nat}
  {follow : TokenKind → Prop}

/-! Spines.  Indices and operators of one level lean to the left: the parser
reads the leftmost part first and puts the rest around it, round by round. -/

section Spine

variable {operand : Parse Expr} {round : Expr → Parse (Round Expr Expr)}
  {level : Nat} {follow inner : TokenKind → Prop}

theorem spine_takes (hfollow : ∀ kind, follow kind → inner kind)
    (hleaf : ∀ {e}, Readable st bound e → level < e.level →
      Takes st inner operand e.tokens (· = e))
    (hnode : ∀ {e}, Readable st bound e → e.level = level → ∃ left kind more,
      Readable st bound left ∧ level ≤ left.level ∧
        e.tokens = left.tokens ++ kind :: more ∧
        inner kind ∧ Takes st inner (round left) (kind :: more) fun outcome =>
          ∃ next, outcome = .again next ∧ next = e)
    (hstop : ∀ e, Takes st follow (round e) [] fun outcome =>
      ∃ result, outcome = .done result ∧ result = e)
    {e : Expr} (he : Readable st bound e) (hlevel : level ≤ e.level) :
    Takes st follow (operand >>= iterate round) e.tokens (· = e) := by
  -- whatever the rounds make of `e` with the tokens behind it, the parser makes
  -- of all
  have hextends : ∀ {e}, Readable st bound e → level ≤ e.level →
    ∀ {kinds} {Q : Expr → Prop},
      Takes st follow (iterate round e) kinds Q →
      (∀ kind, follow kind → inner (kinds.headD kind)) →
      Takes st follow (operand >>= iterate round) (e.tokens ++ kinds) Q := by
    intro e
    induction hlength : e.tokens.length using Nat.strong_induction_on
      generalizing e with
    | h length ih =>
        intro he hlevel kinds Q hrounds hnext
        rcases Nat.lt_or_eq_of_le hlevel with hlt | heq
        · refine (hleaf he hlt).bind ?_ hnext
          rintro _ rfl
          exact hrounds
        · obtain ⟨left, kind, more, hleft, hle, htokens, hkind, hround⟩ :=
            hnode he heq.symm
          have hshorter : left.tokens.length < length := by
            rw [← hlength, htokens, List.length_append, List.length_cons]
            omega
          rw [htokens, List.append_assoc]
          refine ih _ hshorter rfl hleft hle (.again hround nofun ?_ hnext)
            fun _ _ => hkind
          rintro _ rfl
          exact hrounds
  have hwhole := hextends he hlevel (.done (hstop e)) hfollow
  rwa [List.append_nil] at hwhole

end Spine

/-! Indices. -/

/-- One index behind an expression, or the end. -/
def indexRound (expr : Parse Expr) (e : Expr) : Parse (Round Expr Expr) := do
  let token ← peek
  if token.kind ≠ .lbracket then
    return .done e
  let _ ← advance
  let ty ← e.singleType token.pos
  if ty.isList then
    let index ← typed expr .int .listIndex
    expect .rbracket
    return .again (.listElement e index [ty.element])
  else if ty = .string then
    return .again (← subscript expr e)
  else
    fail (.notIndexable ty) token.pos

theorem indexed_eq (expr : Parse Expr) :
    indexed expr = primary expr >>= iterate (indexRound expr) :=
  rfl

theorem indexRound_stops (e : Expr) :
    Takes st (Follows 6) (indexRound expr e) [] fun outcome =>
      ∃ result, outcome = .done result ∧ result = e := by
  refine .peek fun token next hnext htoken => .ite_pos ?_ (.pure ⟨_, rfl, rfl⟩)
  rw [htoken]
  exact Follows.ne hnext rfl rfl

section Rules

variable (hexpr : ReadsBelow st expr bound)

include hexpr

theorem subscript_takes {value start : Expr} {stop : Option Expr}
    (hstart : start.Canonical) (hstop : ∀ e ∈ stop, e.Canonical)
    (htyped : start.Typed st.scope.tables)
    (htyped' : ∀ e ∈ stop, e.Typed st.scope.tables) (hint : start.Yields .int)
    (hints : ∀ e ∈ stop, e.Yields .int)
    (hsmall : start.tokens.length + (Expr.tokensOfStop stop).length < bound) :
    Takes st follow (subscript expr value)
      (start.tokens ++ (Expr.tokensOfStop stop ++ [.rbracket]))
      (· = .substring value start stop [.string]) := by
  have hread : Takes st (Follows 0) (typed expr .int .stringIndex) start.tokens
      (· = start) :=
    .typed (hexpr hstart htyped (by omega)) hint
  refine .peekKind fun next _ =>
    .ite_neg ((starting hstart htyped).headD_ne rfl _ next) ?_
  refine hread.bind ?_ fun _ _ => by cases stop <;> exact .inl rfl
  rintro _ rfl
  cases stop with
  | none =>
      refine .reject (fun _ _ => nofun) (.ite_neg Bool.false_ne_true ?_)
      rw [pure_bind]
      exact .expect (.pure rfl)
  | some e =>
      refine .accept (.ite_pos rfl (.peekKind fun next _ => .ite_neg ?_ ?_))
      · exact (starting (hstop e rfl) (htyped' e rfl)).headD_ne rfl _ next
      rw [Expr.tokensOfStop, List.length_cons] at hsmall
      have hread : Takes st (Follows 0) (typed expr .int .stringIndex) e.tokens
          (· = e) :=
        .typed (hexpr (hstop e rfl) (htyped' e rfl) (by omega)) (hints e rfl)
      refine Takes.bind (hread.map (R := (· = some e))
        fun a ha => congrArg some ha) ?_ fun _ _ => .inl rfl
      rintro _ rfl
      exact .expect (.pure rfl)

theorem indexed_node {e : Expr} (he : Readable st bound e)
    (hlevel : e.level = 6) :
    ∃ left kind more, Readable st bound left ∧ 6 ≤ left.level ∧
      e.tokens = left.tokens ++ kind :: more ∧ FollowsPrimary kind ∧
      Takes st FollowsPrimary (indexRound expr left) (kind :: more)
        fun outcome => ∃ next, outcome = .again next ∧ next = e := by
  obtain ⟨hcanonical, htyped, hsmall⟩ := he
  cases htyped with
  | @listElement list index ty hlist hindex hyields hisList hint =>
      cases hcanonical with
      | listElement hlist' hindex' hle =>
          simp only [Expr.tokens, List.length_append, List.length_cons]
            at hsmall
          refine ⟨list, .lbracket, index.tokens ++ [.rbracket],
            ⟨hlist', hlist, by omega⟩, hle, rfl, .inl rfl, ?_⟩
          have hread : Takes st (Follows 0) (typed expr .int .listIndex)
            index.tokens
              (· = index) := .typed (hexpr hindex' hindex (by omega)) hint
          refine .peekAt fun _ _ => .ite_neg
            (fun hne => hne rfl) (.advance fun _ _ => ?_)
          refine .lift (Expr.singleType_ok.mpr hyields) (.ite_pos hisList ?_)
          refine hread.bind ?_ fun _ _ => .inl rfl
          rintro _ rfl
          exact .expect (.pure ⟨_, rfl, rfl⟩)
  | @substring value start stop hvalue hstart hstop hyields hint hints =>
      cases hcanonical with
      | substring hvalue' hstart' hstop' hle =>
          simp only [Expr.tokens, List.length_append, List.length_cons]
            at hsmall
          refine ⟨value, .lbracket, _, ⟨hvalue', hvalue, by omega⟩, hle, rfl,
            .inl rfl, ?_⟩
          refine .peekAt fun _ _ => .ite_neg
            (fun hne => hne rfl) (.advance fun _ _ => ?_)
          refine .lift (Expr.singleType_ok.mpr hyields) ?_
          refine .ite_neg Bool.false_ne_true (.ite_pos rfl ?_)
          refine (subscript_takes hexpr hstart' hstop' hstart hstop hint hints
            (by omega)).bind_done ?_
          rintro _ rfl
          exact .pure ⟨_, rfl, rfl⟩
  | @binary op =>
      cases op <;> exact absurd hlevel (by simp [Expr.level, BinaryOp.level])
  | @logical op =>
      cases op <;> exact absurd hlevel (by simp [Expr.level, LogicalOp.level])
  | _ => exact absurd hlevel (by simp [Expr.level])

theorem indexed_takes
    (hnames : ∀ entry ∈ st.scope.functions, Builtin.ofName? entry.1 = none)
    {e : Expr} (he : Readable st bound e) (hlevel : 6 ≤ e.level) :
    Takes st (Follows 6) (indexed expr) e.tokens (· = e) := by
  rw [indexed_eq]
  exact spine_takes (fun _ hkind => .inr hkind)
    (fun he hlt => primary_takes hexpr hnames he hlt)
    (indexed_node hexpr) indexRound_stops he hlevel

end Rules

/-! Unary operators. -/

theorem unaryOperator?_token (op : UnaryOp) :
    unaryOperator? op.token = some op := by
  cases op <;> rfl

/-- One unary operator, or the end. -/
def unaryRound (ops : List (UnaryOp × Position)) :
    Parse (Round (List (UnaryOp × Position)) (List (UnaryOp × Position))) := do
  let token ← peek
  match unaryOperator? token.kind with
  | some op =>
      let _ ← advance
      return .again (ops ++ [(op, token.pos)])
  | none => return .done ops

theorem unaryOperators_eq : unaryOperators = iterate unaryRound [] := rfl

theorem unaryOperators_take (ops : List UnaryOp) :
    Takes st (fun kind => unaryOperator? kind = none) unaryOperators
      (ops.map UnaryOp.token) fun made => made.map Prod.fst = ops := by
  rw [unaryOperators_eq]
  suffices h : ∀ before, Takes st (fun kind => unaryOperator? kind = none)
      (iterate unaryRound before) (ops.map UnaryOp.token)
      fun made => made.map Prod.fst = before.map Prod.fst ++ ops from h []
  induction ops with
  | nil =>
      intro before
      refine .done (.peek fun token next hnext htoken => ?_)
      have hnone : unaryOperator? token.kind = none := htoken ▸ hnext
      rw [hnone]
      exact .pure ⟨_, rfl, by simp⟩
  | cons op ops ih =>
      intro before
      have hround : Takes st (fun _ => True) (unaryRound before) [op.token]
          fun outcome =>
          ∃ next, outcome = .again next ∧
            next.map Prod.fst = before.map Prod.fst ++ [op] := by
        refine .peekAt fun _ _ => ?_
        simp only [unaryOperator?_token]
        exact .advance fun _ _ => .pure ⟨_, rfl, by simp⟩
      refine .again hround nofun (fun next hnext => ?_) fun _ _ => trivial
      exact (ih next).mono fun made hmade => by simpa [hnext] using hmade

/-- Unary operators in front of something that binds more tightly. -/
theorem unary_spine {e : Expr} (he : Readable st bound e)
    (hlevel : 5 ≤ e.level) :
    ∃ ops base, Readable st bound base ∧ 6 ≤ base.level ∧
      e.tokens = ops.map UnaryOp.token ++ base.tokens ∧
      ∀ {follow} {entries : List (UnaryOp × Position)},
        entries.map Prod.fst = ops →
        Takes st follow (entries.foldrM (fun (op, pos) e => op.apply e pos)
          base) [] (· = e) := by
  induction hlength : e.tokens.length using Nat.strong_induction_on
    generalizing e with
  | h length ih =>
      obtain ⟨hcanonical, htyped, hsmall⟩ := he
      rcases Nat.lt_or_eq_of_le hlevel with hlt | heq
      · refine ⟨[], e, ⟨hcanonical, htyped, hsmall⟩, hlt, rfl,
          fun hentries => ?_⟩
        obtain rfl := List.map_eq_nil_iff.mp hentries
        exact .pure rfl
      cases htyped with
      | @unary op operand htyped hyields =>
          cases hcanonical with
          | unary hcanonical hle =>
              simp only [Expr.tokens, List.length_cons] at hsmall hlength
              obtain ⟨ops, base, hbase, hbaseLevel, htokens, happly⟩ :=
                ih _ (by omega) ⟨hcanonical, htyped, by omega⟩ hle rfl
              refine ⟨op :: ops, base, hbase, hbaseLevel, ?_,
                fun hentries => ?_⟩
              · rw [Expr.tokens, htokens]
                rfl
              · obtain ⟨⟨_, pos⟩, entries, rfl, rfl, hrest⟩ :=
                  List.map_eq_cons_iff.mp hentries
                rw [List.foldrM_cons]
                refine (happly hrest).bind_done ?_
                rintro _ rfl
                exact .lift_last (UnaryOp.apply_eq_ok hyields) rfl
      | @binary op =>
          cases op <;> exact absurd heq (by simp [Expr.level, BinaryOp.level])
      | @logical op =>
          cases op <;> exact absurd heq (by simp [Expr.level, LogicalOp.level])
      | _ => exact absurd heq (by simp [Expr.level])

theorem unary_takes (hexpr : ReadsBelow st expr bound)
    (hnames : ∀ entry ∈ st.scope.functions, Builtin.ofName? entry.1 = none)
    {e : Expr} (he : Readable st bound e) (hlevel : 5 ≤ e.level) :
    Takes st (Follows 5) (unary expr) e.tokens (· = e) := by
  obtain ⟨ops, base, hbase, hle, htokens, happly⟩ := unary_spine he hlevel
  obtain ⟨first, rest, hfirst, _, halone⟩ :=
    hbase.canonical.tokens_eq_cons hbase.typed
  rw [htokens]
  refine (unaryOperators_take ops).bind (fun entries hentries => ?_)
    fun next _ => ?_
  · refine ((indexed_takes hexpr hnames hbase hle).weaken fun _ hkind =>
      hkind.mono (by decide)).bind_done ?_
    rintro _ rfl
    exact happly hentries
  · rw [hfirst]
    have hfirst := halone hle
    cases first <;> first | rfl | exact absurd hfirst Bool.false_ne_true

/-! Operators between operands. -/

/-- One operator and its right operand, or the end. -/
def chainRound {ω : Type} (operand : Parse Expr)
    (operator? : TokenKind → Option ω)
    (apply : ω → Expr → Expr → Position → Except SyntaxError Expr)
    (left : Expr) : Parse (Round Expr Expr) := do
  let token ← peek
  match operator? token.kind with
  | none => return .done left
  | some op =>
      let _ ← advance
      let right ← operand
      return .again (← apply op left right token.pos)

theorem chain_eq {ω : Type} (operand : Parse Expr)
    (operator? : TokenKind → Option ω)
    (apply : ω → Expr → Expr → Position → Except SyntaxError Expr) :
    chain operand operator? apply = operand >>=
      iterate (chainRound operand operator? apply) :=
  rfl

/-- The operators of one level: what stands on that level is one of them applied
to a left operand of the level and a right operand above it. -/
structure Operators {ω : Type} (level : Nat) (operator? : TokenKind → Option ω)
    (apply : ω → Expr → Expr → Position → Except SyntaxError Expr) : Prop where
  binds : ∀ {kind op}, operator? kind = some op → kind.binding? = some level
  splits : ∀ {e tables}, Expr.Canonical e → Expr.Typed tables e →
    e.level = level → ∃ left kind op right, operator? kind = some op ∧
      e.tokens = left.tokens ++ kind :: right.tokens ∧ left.Canonical ∧
        left.Typed tables ∧
      right.Canonical ∧ right.Typed tables ∧ level ≤ left.level ∧
        level < right.level ∧
      ∀ pos, apply op left right pos = .ok e

section Chain

variable {ω : Type} {level : Nat} {operand : Parse Expr}
  {operator? : TokenKind → Option ω}
  {apply : ω → Expr → Expr → Position → Except SyntaxError Expr}

/-- An operator of a level does not follow what the level takes. -/
theorem Operators.eq_none {kind : TokenKind}
    (hops : Operators level operator? apply) (hkind : Follows level kind) :
    operator? kind = none := by
  cases hop : operator? kind with
  | none => rfl
  | some op => exact absurd (hops.binds hop) hkind.binding?_ne

theorem chainRound_takes {kind : TokenKind} {op : ω} {left right e : Expr}
    {kinds : List TokenKind} (hop : operator? kind = some op)
    (hright : Takes st follow operand kinds (· = right))
    (happly : ∀ pos, apply op left right pos = .ok e) :
    Takes st follow (chainRound operand operator? apply left) (kind :: kinds)
      fun outcome => ∃ next, outcome = .again next ∧ next = e := by
  refine .peekAt fun _ pos => ?_
  simp only [hop]
  refine .advance fun _ _ => hright.bind_done ?_
  rintro _ rfl
  exact .lift (happly pos) (.pure ⟨_, rfl, rfl⟩)

theorem chainRound_stops (hops : Operators level operator? apply)
    (left : Expr) :
    Takes st (Follows level) (chainRound operand operator? apply left) []
      fun outcome => ∃ result, outcome = .done result ∧ result = left := by
  refine .peek fun token next hnext htoken => ?_
  have hnone : operator? token.kind = none := by
    rw [htoken]
    exact hops.eq_none hnext
  rw [hnone]
  exact .pure ⟨_, rfl, rfl⟩

theorem chain_takes (hops : Operators level operator? apply)
    (hoperand : ∀ {e}, Readable st bound e → level + 1 ≤ e.level →
      Takes st (Follows (level + 1)) operand e.tokens (· = e))
    {e : Expr} (he : Readable st bound e) (hlevel : level ≤ e.level) :
    Takes st (Follows level) (chain operand operator? apply) e.tokens
      (· = e) := by
  rw [chain_eq]
  refine spine_takes (fun _ hkind => hkind.mono (Nat.le_succ level)) hoperand
    (fun {e} he hlevel => ?_) (chainRound_stops hops) he hlevel
  obtain ⟨hcanonical, htyped, hsmall⟩ := he
  obtain ⟨left, kind, op, right, hop, htokens, hleft, hleft', hright, hright',
    hle, hlt, happly⟩ := hops.splits hcanonical htyped hlevel
  rw [htokens, List.length_append, List.length_cons] at hsmall
  exact ⟨left, kind, right.tokens, ⟨hleft, hleft', by omega⟩, hle, htokens,
    .inr ⟨level, hops.binds hop, Nat.lt_succ_self level⟩,
    chainRound_takes hop (hoperand ⟨hright, hright', by omega⟩ hlt) happly⟩

end Chain

/-! The five levels of operators. -/

theorem binary_splits {level : Nat} {e : Expr} {tables : Tables}
    (hcanonical : e.Canonical) (htyped : e.Typed tables)
    (hlevel : e.level = level) (hbinary : level = 3 ∨ level = 4) :
    ∃ op left right, op.level = level ∧
      e.tokens = left.tokens ++ .binary op :: right.tokens ∧
      left.Canonical ∧ left.Typed tables ∧ right.Canonical ∧
        right.Typed tables ∧
      level ≤ left.level ∧ level < right.level ∧
        ∀ pos, op.apply left right pos = .ok e := by
  subst hlevel
  cases htyped with
  | @binary op left right ty hleft hright hyields hyields' hop =>
      cases hcanonical with
      | binary hleft' hright' hle hlt =>
          exact ⟨op, left, right, rfl, rfl, hleft', hleft, hright', hright,
            hle, hlt, fun _ => BinaryOp.apply_eq_ok hyields hyields' hop⟩
  | @logical op =>
      cases op <;> exact absurd hbinary (by simp [Expr.level, LogicalOp.level])
  | _ => exact absurd hbinary (by simp [Expr.level])

theorem logical_splits {e : Expr} {tables : Tables} (hcanonical : e.Canonical)
    (htyped : e.Typed tables) (hlevel : e.level ≤ 1) :
    ∃ op left right, op.level = e.level ∧
      e.tokens = left.tokens ++ .logical op :: right.tokens ∧
      left.Canonical ∧ left.Typed tables ∧ right.Canonical ∧
        right.Typed tables ∧
      e.level ≤ left.level ∧ e.level < right.level ∧
      ∀ pos, op.apply left right pos = .ok e := by
  cases htyped with
  | @logical op left right hleft hright hyields hyields' =>
      cases hcanonical with
      | logical hleft' hright' hle hlt =>
          exact ⟨op, left, right, rfl, rfl, hleft', hleft, hright', hright,
            hle, hlt, fun _ => LogicalOp.apply_eq_ok hyields hyields'⟩
  | @binary op =>
      cases op <;> exact absurd hlevel (by simp [Expr.level, BinaryOp.level])
  | _ => exact absurd hlevel (by simp [Expr.level])

theorem product_operators : Operators 4 productOperator? BinaryOp.apply where
  binds {kind op} h := by
    unfold productOperator? at h
    split at h <;> cases h <;> rfl
  splits hcanonical htyped hlevel := by
    obtain ⟨op, left, right, hop, hsplit⟩ :=
      binary_splits hcanonical htyped hlevel (.inr rfl)
    refine ⟨left, .binary op, op, right, ?_, hsplit⟩
    cases op <;> first | rfl | exact absurd hop (by decide)

theorem sum_operators : Operators 3 sumOperator? BinaryOp.apply where
  binds {kind op} h := by
    unfold sumOperator? at h
    split at h <;> cases h <;> rfl
  splits hcanonical htyped hlevel := by
    obtain ⟨op, left, right, hop, hsplit⟩ :=
      binary_splits hcanonical htyped hlevel (.inl rfl)
    refine ⟨left, .binary op, op, right, ?_, hsplit⟩
    cases op <;> first | rfl | exact absurd hop (by decide)

theorem comparison_operators : Operators 2 comparison? CompareOp.apply where
  binds {kind op} h := by
    unfold comparison? at h
    split at h <;> cases h
    rfl
  splits {e tables} hcanonical htyped hlevel := by
    cases htyped with
    | @compare op left right ty hleft hright hyields hyields' hop =>
        cases hcanonical with
        | compare hleft' hright' hle hlt =>
            exact ⟨left, .compare op, op, right, rfl, rfl, hleft', hleft,
              hright', hright, hle, hlt,
              fun _ => CompareOp.apply_eq_ok hyields hyields' hop⟩
    | @binary op =>
        cases op <;> exact absurd hlevel (by simp [Expr.level, BinaryOp.level])
    | @logical op =>
        cases op <;> exact absurd hlevel (by simp [Expr.level, LogicalOp.level])
    | _ => exact absurd hlevel (by simp [Expr.level])

theorem conjunction_operators : Operators 1 conjunction? LogicalOp.apply where
  binds {kind op} h := by
    unfold conjunction? at h
    split at h <;> cases h
    rfl
  splits hcanonical htyped hlevel := by
    obtain ⟨op, left, right, hop, hsplit⟩ :=
      logical_splits hcanonical htyped hlevel.le
    rw [hlevel] at hop hsplit
    refine ⟨left, .logical op, op, right, ?_, hsplit⟩
    cases op <;> first | rfl | exact absurd hop (by decide)

theorem disjunction_operators : Operators 0 disjunction? LogicalOp.apply where
  binds {kind op} h := by
    unfold disjunction? at h
    split at h <;> cases h
    rfl
  splits hcanonical htyped hlevel := by
    obtain ⟨op, left, right, hop, hsplit⟩ :=
      logical_splits hcanonical htyped (hlevel.trans_le (Nat.zero_le 1))
    rw [hlevel] at hop hsplit
    refine ⟨left, .logical op, op, right, ?_, hsplit⟩
    cases op <;> first | rfl | exact absurd hop (by decide)

/-- An expression is read back from its tokens when the smaller ones inside it
are. -/
theorem expressionRule_takes (hexpr : ReadsBelow st expr bound)
    (hnames : ∀ entry ∈ st.scope.functions, Builtin.ofName? entry.1 = none)
    {e : Expr} (he : Readable st bound e) :
    Takes st (Follows 0) (expressionRule expr) e.tokens (· = e) :=
  chain_takes disjunction_operators (chain_takes conjunction_operators
    (chain_takes comparison_operators
      (chain_takes sum_operators (chain_takes product_operators
      (unary_takes hexpr hnames))))) he (Nat.zero_le _)

theorem expression_takes
    (hnames : ∀ entry ∈ st.scope.functions, Builtin.ofName? entry.1 = none)
    {e : Expr} (hcanonical : e.Canonical) (htyped : e.Typed st.scope.tables) :
    Takes st (Follows 0) expression e.tokens (· = e) := by
  have hdeep : ∀ depth, ReadsBelow st (nestedAt expressionRule depth)
      depth := by
    intro depth
    induction depth with
    | zero => exact fun _ _ hlt => absurd hlt (Nat.not_lt_zero _)
    | succ depth ih =>
        exact fun hcanonical htyped hlt =>
          expressionRule_takes ih hnames ⟨hcanonical, htyped,
            Nat.le_of_lt_succ hlt⟩
  intro tokens rest htokens hrest
  rw [expression, nested, get_bind]
  refine hdeep _ hcanonical htyped ?_ tokens rest htokens hrest
  rw [← htokens, List.length_map]
  simp only [ParserState.facing, List.length_append]
  omega

end Parse

/-- Reading inverts writing: in every state the parser can be in, the tokens of
a canonical and well-typed expression are read as just this expression, up to
the token that ends it, and nothing else changes.  Conversely, whatever the
parser reads as an expression is canonical. -/
theorem expression_inverts_tokens :
    (∀ {st : ParserState} {e : Expr} {tokens rest : List Token}, Reachable st →
      e.Canonical → e.Typed st.scope.tables → tokens.map Token.kind = e.tokens →
      (rest.headD st.last).kind.closes = true →
      Parse.expression { st with ahead := tokens ++ rest } =
        .ok (e, { st with ahead := rest })) ∧
    ∀ {st st' : ParserState} {e : Expr}, Parse.expression st = .ok (e, st') →
      e.Canonical := by
  refine ⟨fun hst hcanonical htyped htokens hrest => ?_, fun h => ?_⟩
  · obtain ⟨_, hread, rfl⟩ := Parse.expression_takes hst.sound.named hcanonical
      htyped _ _ htokens (.inl hrest)
    exact hread
  · exact (Parse.expression_gives trivial h).1

/-- The difference `1 - 2 * -3 - len("ab")` groups to the left. -/
theorem expression_inverts_tokens_difference :
    Parse.expression { ParserState.initial [] with
        ahead := ([.number 1, .binary .sub, .number 2, .binary .mul,
          .binary .sub, .number 3, .binary .sub, .keyword .lenWord, .lparen,
          .string "ab", .rparen].map
            (⟨·, "", .start⟩)) ++ [⟨.newline, "", .start⟩] } =
      .ok (.binary .sub
        (.binary .sub (.int 1 [.int])
          (.binary .mul (.int 2 [.int]) (.unary .neg (.int 3 [.int]) [.int])
            [.int]) [.int])
        (.stringLength (.string "ab" [.string]) [.int]) [.int],
        { ParserState.initial [] with ahead := [⟨.newline, "", .start⟩] }) := by
  refine expression_inverts_tokens.1 (.initial [])
    (.binary (.binary (.int ?_) (.binary (.int ?_)
    (.unary (.int ?_) ?_) ?_ ?_) ?_ ?_) (.stringLength .string) ?_ ?_) (.binary
      (.binary .int
    (.binary .int (.unary .int (.inl rfl)) (.inl rfl) (.inl rfl) (.inl rfl))
    (.inl rfl) (.inl rfl)
    (.inl rfl)) (.stringLength .string
    (.inl rfl)) (.inl rfl) (.inl rfl) (.inl rfl)) rfl rfl
  all_goals decide

end Shellwright
