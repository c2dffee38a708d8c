/-
What stands on its own is read back from its tokens, given that the expressions
inside it are.
-/
import Shellwright.Proofs.Rendering.Canonical
import Shellwright.Proofs.Rendering.Takes

namespace Shellwright

variable {level : Nat} {kind other : TokenKind}

/-! What may follow an expression. -/

/-- How tightly an operator between two operands binds. -/
def TokenKind.binding? : TokenKind → Option Nat
  | .logical op => some op.level
  | .compare _ => some 2
  | .binary op => some op.level
  | _ => none

/-- The tokens that end every expression. -/
def TokenKind.closes : TokenKind → Bool
  | .eof | .newline | .semicolon | .rparen | .rbracket | .rbrace | .lbrace
  | .comma | .colon =>
      true
  | _ => false

/-- What may follow an operand whose operators bind from `level` on: an operator
that binds less tightly, or the end. -/
def Follows (level : Nat) (kind : TokenKind) : Prop :=
  kind.closes = true ∨ ∃ binding, kind.binding? = some binding ∧ binding < level

theorem Follows.mono {higher : Nat} (h : Follows level kind)
    (hle : level ≤ higher) : Follows higher kind :=
  h.imp id fun ⟨binding, hbinding, hlt⟩ => ⟨binding, hbinding, hlt.trans_le hle⟩

theorem binding?_of_closes (h : kind.closes = true) : kind.binding? = none := by
  cases kind <;> first | rfl | exact absurd h Bool.false_ne_true

/-- The operators of a level do not follow what their own level takes. -/
theorem Follows.binding?_ne (h : Follows level kind) :
    kind.binding? ≠ some level := by
  intro hsame
  rcases h with hcloses | ⟨binding, hbinding, hlt⟩
  · exact absurd ((binding?_of_closes hcloses).symm.trans hsame) nofun
  · exact absurd (Option.some.inj (hbinding.symm.trans hsame))
      (Nat.ne_of_lt hlt)

theorem Follows.ne (h : Follows level kind) (hcloses : other.closes = false)
    (hbinding : other.binding? = none) : kind ≠ other := by
  rintro rfl
  rcases h with h | ⟨_, h, _⟩
  · exact absurd (hcloses.symm.trans h) Bool.false_ne_true
  · exact absurd (hbinding.symm.trans h) nofun

/-- Behind what stands on its own there may also be an index. -/
def FollowsPrimary (kind : TokenKind) : Prop := kind = .lbracket ∨
    Follows 6 kind

theorem FollowsPrimary.ne (h : FollowsPrimary kind)
    (hcloses : other.closes = false) (hbinding : other.binding? = none)
    (hbracket : other ≠ .lbracket) : kind ≠ other := by
  rcases h with rfl | h
  · exact hbracket.symm
  · exact h.ne hcloses hbinding

theorem ne_of_starts (h : kind.starts = true) (hother : other.starts = false) :
    kind ≠ other := by
  rintro rfl
  exact absurd (hother.symm.trans h) Bool.false_ne_true

namespace Parse

variable {α β : Type} {st : ParserState} {follow : TokenKind → Prop}
  {kinds : List TokenKind} {R : β → Prop} {e : Expr} {name : String}
  {items : List Expr}

namespace Takes

theorem identifier {wanted : Wanted} {f : String × Position → Parse β}
    (h : ∀ pos, Takes st follow (f (name, pos)) kinds R) :
    Takes st follow (Parse.identifier wanted >>= f)
      (.ident name :: kinds) R := by
  intro tokens rest htokens hrest
  obtain ⟨token, tokens, rfl, htoken, htail⟩ := List.map_eq_cons_iff.mp htokens
  obtain ⟨b, hb, hR⟩ := h token.pos tokens rest htail hrest
  exact ⟨b, bind_ok.mpr ⟨(name, token.pos), _,
    identifier_ok.mpr ⟨htoken, rfl, rfl⟩, hb⟩, hR⟩

theorem lookupFunction {name : String} {found : Option Signature}
    {f : Option Signature → Parse β}
    (hfound : st.scope.lookupFunction? name = found)
    (h : Takes st follow (f found) kinds R) :
    Takes st follow (Parse.lookupFunction? name >>= f) kinds R := by
  intro tokens rest htokens hrest
  rw [lookupFunction?_bind]
  simp only [ParserState.facing, hfound]
  exact h tokens rest htokens hrest

theorem lookupVariable {name : String} {found : Option Variable}
    {f : Option Variable → Parse β}
    (hfound : st.scope.lookupVariable? name = found)
    (h : Takes st follow (f found) kinds R) :
    Takes st follow (Parse.lookupVariable? name >>= f) kinds R := by
  intro tokens rest htokens hrest
  rw [lookupVariable?_bind]
  simp only [ParserState.facing, hfound]
  exact h tokens rest htokens hrest

/-- A look behind the next token, where the input may be at its end. -/
theorem peekSecond {f : Option TokenKind → Parse β}
    (h : ∀ second, (∀ found ∈ second, ∃ next, follow next ∧ found =
      kinds.headD next) → (kinds ≠ [] → second = kinds.head?) → Takes st
      follow (f second) (kind :: kinds) R) :
    Takes st follow (Parse.peekAfter 1 >>= f) (kind :: kinds) R := by
  intro tokens rest htokens hrest
  rw [peekAfter_bind]
  refine h _ ?_ ?_ tokens rest htokens hrest
  all_goals
    obtain ⟨token, tokens, rfl, _, rfl⟩ := List.map_eq_cons_iff.mp htokens
  · intro found hfound
    refine ⟨_, hrest, ?_⟩
    cases tokens with
    | cons second tokens => simpa [ParserState.facing, eq_comm] using hfound
    | nil =>
        cases rest with
        | nil => simp [ParserState.facing] at hfound
        | cons second rest => simpa [ParserState.facing, eq_comm] using hfound
  · intro hne
    cases tokens with
    | nil => exact absurd rfl hne
    | cons second tokens => simp [ParserState.facing]

end Takes

/-! Items between commas. -/

/-- An expression starts with a token that neither ends anything nor is a line
break. -/
def Starting (e : Expr) : Prop :=
  ∃ kind rest, e.tokens = kind :: rest ∧ kind.starts = true

theorem Starting.headD_ne (h : Starting e) (hother : other.starts = false)
    (more : List TokenKind) (next : TokenKind) :
    (e.tokens ++ more).headD next ≠ other := by
  obtain ⟨kind, rest, htokens, hstarts⟩ := h
  rw [htokens]
  exact ne_of_starts hstarts hother

theorem Starting.headD_ne_self (h : Starting e) (hother : other.starts = false)
    (next : TokenKind) : e.tokens.headD next ≠ other := by
  simpa using h.headD_ne hother [] next

/-- One item with the comma behind it, if there is one. -/
def commaRound (close : TokenKind) (item : List α → Parse α) (items : List α) :
    Parse (Round (List α) (List α)) := do
  if (← peekKind) = close then
    return .done items
  let next ← item items
  skipLineBreaks
  if ← accept .comma then
    skipLineBreaks
    return .again (items ++ [next])
  else
    return .done (items ++ [next])

theorem commaSeparated_eq (close : TokenKind) (item : List α → Parse α) :
    commaSeparated close item = (do
      skipLineBreaks
      iterate (commaRound close item) []) :=
  rfl

section Items

variable {close : TokenKind} {item : List α → Parse α} {view : α → Expr}
  (hclose : close = .rparen ∨ close = .rbrace)

include hclose

theorem commaRound_takes_last (hstarts : Starting e) {made : List α}
    (hitem : Takes st (Follows 0) (item made) e.tokens fun a => view a = e) :
    Takes st (· = close) (commaRound close item made) e.tokens fun outcome =>
      ∃ all, outcome = .done all ∧ all.map view = made.map view ++ [e] := by
  have hcloses : close.starts = false ∧ close.closes = true ∧ close ≠ .newline ∧
      close ≠ .comma := by
    rcases hclose with rfl | rfl <;> exact ⟨rfl, rfl, nofun, nofun⟩
  refine .peekKind fun next _ =>
    .ite_neg (hstarts.headD_ne_self hcloses.1 next) ?_
  refine Takes.bind_done (hitem.weaken fun next (hnext : next = close) =>
    .inl (hnext ▸ hcloses.2.1)) fun a ha => ?_
  refine .skipLineBreaks
    (fun next (hnext : next = close) => hnext ▸ hcloses.2.2.1) ?_
  refine .reject (fun next (hnext : next = close) => hnext ▸ hcloses.2.2.2)
    (.ite_neg Bool.false_ne_true ?_)
  exact .pure ⟨_, rfl, by simp [ha]⟩

theorem commaRound_takes_more (hstarts : Starting e) {made : List α}
    (hitem : Takes st (Follows 0) (item made) e.tokens fun a => view a = e) :
    Takes st (· ≠ .newline) (commaRound close item made) (e.tokens ++ [.comma])
      fun outcome =>
      ∃ more, outcome = .again more ∧ more.map view = made.map view ++ [e] := by
  have hplain : close.starts = false := by rcases hclose with rfl | rfl <;> rfl
  refine .peekKind fun next _ => .ite_neg (hstarts.headD_ne hplain _ next) ?_
  refine hitem.bind (fun a ha => ?_) fun _ _ => .inl rfl
  refine .skipLineBreaks (fun _ _ => nofun) (.accept (.ite_pos rfl ?_))
  exact .skipLineBreaks (fun _ hnext => hnext) (.pure ⟨_, rfl, by simp [ha]⟩)

/-- The items of a list, read by a parser that makes something out of each. -/
theorem commaSeparated_takes (view : α → Expr)
    (hstarts : ∀ e ∈ items, Starting e)
    (hitem : ∀ e ∈ items, ∀ made, Takes st (Follows 0) (item made) e.tokens
      fun a => view a = e) :
    Takes st (· = close) (commaSeparated close item) (Expr.tokensOfAll items)
      fun made => made.map view = items := by
  have hbreak : close ≠ .newline := by rcases hclose with rfl | rfl <;> nofun
  rw [commaSeparated_eq]
  cases items with
  | nil =>
      refine .skipLineBreaks (fun next (hnext : next = close) => hnext ▸ hbreak)
        (.done ?_)
      exact .peekKind fun next hnext => .ite_pos hnext (.pure ⟨_, rfl, rfl⟩)
  | cons first more =>
      refine .skipLineBreaks (fun next _ => ?_) ?_
      · exact (hstarts first List.mem_cons_self).headD_ne rfl _ next
      -- along the items that are still to come, with those made so far
      suffices hmore : ∀ made : List α, Takes st (· = close)
        (iterate (commaRound close item) made)
          (first.tokens ++ Expr.tokensOfMore more)
          fun all => all.map view = made.map view ++ first :: more from hmore []
      induction more generalizing first with
      | nil =>
          intro made
          rw [Expr.tokensOfMore, List.append_nil]
          exact .done (commaRound_takes_last hclose
            (hstarts first List.mem_cons_self)
            (hitem first List.mem_cons_self made))
      | cons second more ih =>
          intro made
          have hsplit : first.tokens ++ Expr.tokensOfMore (second :: more) =
              (first.tokens ++ [.comma]) ++
                (second.tokens ++ Expr.tokensOfMore more) := by
            simp [Expr.tokensOfMore]
          rw [hsplit]
          refine .again (commaRound_takes_more hclose
            (hstarts first List.mem_cons_self)
            (hitem first List.mem_cons_self made)) (by simp)
              (fun next hnext => ?_) ?_
          · have hrest :=
              ih second (fun e he => hstarts e (List.mem_cons_of_mem _ he))
              (fun e he => hitem e (List.mem_cons_of_mem _ he)) next
            exact hrest.mono fun all hall => by simpa [hnext] using hall
          · have hsecond :=
              hstarts second (List.mem_cons_of_mem _ List.mem_cons_self)
            exact fun next _ => hsecond.headD_ne rfl _ next

end Items

/-! What stands on its own. -/

section Rules

variable {expr : Parse Expr} {bound : Nat} {inner made : Expr} {pos : Position}
  {args : List Expr} {ty : ValueType} {stages : List (String × List Expr)}

/-- Expressions of less than `bound` tokens are read back. -/
def ReadsBelow (st : ParserState) (expr : Parse Expr) (bound : Nat) : Prop :=
  ∀ {e : Expr}, e.Canonical → e.Typed st.scope.tables →
    e.tokens.length < bound → Takes st (Follows 0) expr e.tokens (· = e)

/-- An expression that is to be read back from at most `bound` tokens. -/
structure Readable (st : ParserState) (bound : Nat) (e : Expr) : Prop where
  canonical : e.Canonical
  typed : e.Typed st.scope.tables
  small : e.tokens.length ≤ bound

variable (hexpr : ReadsBelow st expr bound)

theorem starting (hcanonical : e.Canonical) (htyped : e.Typed st.scope.tables) :
    Starting e := by
  obtain ⟨kind, rest, htokens, hstarts, _⟩ := hcanonical.tokens_eq_cons htyped
  exact ⟨kind, rest, htokens, hstarts⟩

theorem tokens_le_tokensOfMore (h : e ∈ items) :
    e.tokens.length ≤ (Expr.tokensOfMore items).length := by
  induction items with
  | nil => exact absurd h List.not_mem_nil
  | cons first items ih =>
      simp only [Expr.tokensOfMore, List.length_cons, List.length_append]
      rcases List.mem_cons.mp h with rfl | hmem
      · omega
      · have := ih hmem
        omega

theorem tokens_le_tokensOfAll (h : e ∈ items) :
    e.tokens.length ≤ (Expr.tokensOfAll items).length := by
  cases items with
  | nil => exact absurd h List.not_mem_nil
  | cons first items =>
      rw [Expr.tokensOfAll, List.length_append]
      rcases List.mem_cons.mp h with rfl | hmem
      · omega
      · have := tokens_le_tokensOfMore hmem
        omega

include hexpr

/-- Items in brackets, each checked to be of a type the brackets allow. -/
theorem items_take {close : TokenKind} (allowed : ValueType → Prop)
    [DecidablePred allowed] (fault : ValueType → SyntaxFault)
    (hclose : close = .rparen ∨ close = .rbrace)
    (hcanonical : ∀ e ∈ items, e.Canonical)
    (htyped : ∀ e ∈ items, e.Typed st.scope.tables)
    (hallowed : ∀ e ∈ items, ∃ ty, e.Yields ty ∧ allowed ty)
    (hsmall : (Expr.tokensOfAll items).length < bound) :
    Takes st (· = close) (commaSeparated close fun _ => do
      let pos ← position
      let item ← single expr
      if allowed item.ty then
        return item
      else
        fail (fault item.ty) pos) (Expr.tokensOfAll items) (· = items) := by
  refine (commaSeparated_takes hclose id
    (fun e he => starting (hcanonical e he) (htyped e he))
      fun e he made => ?_).mono
    fun all hall => by simpa using hall
  obtain ⟨ty, hyields, hty⟩ := hallowed e he
  have hlt := (tokens_le_tokensOfAll he).trans_lt hsmall
  refine .position fun pos => Takes.bind_done (Takes.single
    (hexpr (hcanonical e he) (htyped e he) hlt)
    (hyields.ty_eq.symm ▸ hyields)) ?_
  rintro _ rfl
  rw [hyields.ty_eq]
  exact .ite_pos hty (.pure rfl)

omit hexpr in
theorem listType_takes {base : BaseType}
    (hbase : BaseType.ofName? base.text = some base) :
    Takes st follow valueType [.lbracket, .rbracket, .ident base.text]
      (· = ⟨base, true⟩) := by
  rw [valueType_eq]
  refine .accept (.ite_pos rfl (.expect (.peekKind fun next _ => ?_)))
  simp only [List.headD_cons, hbase]
  exact .advance fun _ _ => .pure rfl

theorem listLiteral_takes (hlist : ty.isList = true)
    (hscalar : ty.element.isScalar = true)
    (hcanonical : ∀ e ∈ items, e.Canonical)
    (htyped : ∀ e ∈ items, e.Typed st.scope.tables)
    (hyields : ∀ e ∈ items, e.Yields ty.element)
    (hsmall : (Expr.tokensOfAll items).length < bound) :
    Takes st follow (listLiteral expr) (Expr.listLiteral items [ty]).tokens
      (· = .listLiteral items [ty]) := by
  obtain ⟨base, isList⟩ := ty
  obtain rfl : isList = true := hlist
  have hbase : BaseType.ofName? base.text = some base := by
    cases base <;> first | rfl | exact absurd hscalar (by decide)
  have hitems := items_take hexpr (· = ValueType.element ⟨base, true⟩)
    (.wrongType .listElement (ValueType.element ⟨base, true⟩))
    (.inr rfl) hcanonical htyped
    (fun e he => ⟨_, hyields e he, rfl⟩) hsmall
  have htype : Takes st (fun _ => True) valueType
    [.lbracket, .rbracket, .ident base.text]
      (· = ⟨base, true⟩) := listType_takes hbase
  refine htype.bind ?_ fun _ _ => trivial
  rintro _ rfl
  refine .ite_neg (by simp) (.expect ?_)
  refine hitems.bind ?_ fun _ _ => rfl
  rintro _ rfl
  exact .expect (.pure rfl)

/-- One expression between parentheses. -/
theorem inner_takes (hcanonical : inner.Canonical)
    (htyped : inner.Typed st.scope.tables) (hyields : inner.Yields ty)
    (hsmall : inner.tokens.length < bound) :
    Takes st (Follows 0) (single expr) inner.tokens (· = inner) :=
  .single (hexpr hcanonical htyped hsmall) (hyields.ty_eq.symm ▸ hyields)

theorem group_takes (hcanonical : inner.Canonical)
    (htyped : inner.Typed st.scope.tables) (hyields : inner.Yields ty)
    (hsmall : inner.tokens.length < bound) :
    Takes st follow (primary expr) (Expr.group inner [ty]).tokens
      (· = .group inner [ty]) := by
  refine .peekAt fun _ _ => .advance fun _ _ => .skipLineBreaks
    (fun next _ => ?_) ?_
  · exact (starting hcanonical htyped).headD_ne rfl _ next
  refine (inner_takes hexpr hcanonical htyped hyields hsmall).bind ?_
    fun _ _ => .inl rfl
  rintro _ rfl
  refine .skipLineBreaks (fun _ _ => nofun) (.expect (.pure ?_))
  rw [hyields.ty_eq]

omit hexpr in
theorem lengthOf_takes {kinds : List TokenKind}
    (hinner : Takes st (Follows 0) (single expr) kinds (· = inner))
    (hyields : inner.Yields ty)
    (hmade : (ty.isList = true ∧ made = .listLength inner [.int]) ∨ (ty =
      .string ∧ made = .stringLength inner [.int])) :
    Takes st follow (lengthOf expr) (applied (.keyword .lenWord) kinds)
      (· = made) := by
  refine .advance fun _ _ => .expect (.position fun pos => ?_)
  refine hinner.bind ?_ fun _ _ => .inl rfl
  rintro _ rfl
  refine .expect ?_
  rw [hyields.ty_eq]
  rcases hmade with ⟨hlist, rfl⟩ | ⟨rfl, rfl⟩
  · exact .ite_pos hlist (.pure rfl)
  · exact .ite_neg Bool.false_ne_true (.ite_pos rfl (.pure rfl))

theorem inputLine_takes {prompt : Option Expr}
    (hcanonical : ∀ e ∈ prompt, e.Canonical)
    (htyped : ∀ e ∈ prompt, e.Typed st.scope.tables)
    (hyields : ∀ e ∈ prompt, e.Yields .string)
    (hsmall : (Expr.tokensOfPrompt prompt).length < bound) :
    Takes st follow (inputLine expr) (Expr.input prompt [.string]).tokens
      (· = .input prompt [.string]) := by
  refine .advance fun _ _ => .expect (.peekKind fun next _ => ?_)
  cases prompt with
  | none => exact .ite_pos rfl (.expect (.pure rfl))
  | some e =>
      refine .ite_neg ((starting (hcanonical e rfl) (htyped e rfl)).headD_ne rfl
        _ next) ?_
      have hread : Takes st (Follows 0) (typed expr .string .inputPrompt)
          e.tokens (· = e) :=
        .typed (hexpr (hcanonical e rfl) (htyped e rfl) hsmall) (hyields e rfl)
      refine hread.bind ?_ fun _ _ => .inl rfl
      rintro _ rfl
      exact .expect (.pure rfl)

/-! Calls. -/

theorem arguments_take (hcanonical : ∀ e ∈ args, e.Canonical)
    (htyped : ∀ e ∈ args, e.Typed st.scope.tables)
    (hyields : ∀ e ∈ args, e.Yields e.ty)
    (hsmall : (Expr.tokensOfAll args).length < bound) :
    Takes st follow (arguments expr)
      (.lparen :: (Expr.tokensOfAll args ++ [.rparen]))
      fun made => made.map Prod.fst = args := by
  refine .expect ?_
  refine (commaSeparated_takes (.inl rfl) Prod.fst
    (fun e he => starting (hcanonical e he) (htyped e he))
      fun e he made => ?_).bind
    (fun made hmade => .expect (.pure hmade)) fun _ _ => rfl
  have hlt := (tokens_le_tokensOfAll he).trans_lt hsmall
  refine .position fun pos => Takes.bind_done
    (inner_takes hexpr (hcanonical e he) (htyped e he) (hyields e he) hlt) ?_
  rintro _ rfl
  exact .pure rfl

omit hexpr in
theorem yields_of_forall₂ {types : List ValueType}
    (h : List.Forall₂ Expr.Yields args types) : ∀ e ∈ args, e.Yields e.ty := by
  induction h with
  | nil => exact nofun
  | cons hyields _ ih =>
      exact List.forall_mem_cons.mpr ⟨hyields.ty_eq.symm ▸ hyields, ih⟩

omit hexpr in
theorem checkArguments_eq_ok {function : String} {number : Nat}
    {args : List (Expr × Position)} {params : List ValueType}
    (h : List.Forall₂ Expr.Yields (args.map Prod.fst) params) :
    checkArguments function number args params = .ok () := by
  induction args generalizing number params with
  | nil => rfl
  | cons arg args ih =>
      cases h with
      | cons hyields hrest =>
          rw [checkArguments, if_pos hyields.ty_eq]
          exact ih hrest

theorem call_takes {signature : Signature} (hname : Builtin.ofName? name = none)
    (hlookup : st.scope.lookupFunction? name = some signature)
    (hcanonical : ∀ e ∈ args, e.Canonical)
    (htyped : ∀ e ∈ args, e.Typed st.scope.tables)
    (hyields : List.Forall₂ Expr.Yields args signature.params)
    (hsmall : (Expr.tokensOfAll args).length < bound) :
    Takes st follow (named expr name pos)
      (Expr.call name args signature.returns).tokens
      (· = .call name args signature.returns) := by
  refine .peekSecond fun second _ hsecond => .ite_pos (hsecond nofun) ?_
  rw [hname]
  refine .identifier fun pos => .lookupFunction hlookup ?_
  refine (arguments_take hexpr hcanonical htyped (yields_of_forall₂ hyields)
    hsmall).bind_done fun made hmade => ?_
  have hlength : made.length = signature.params.length := by
    rw [← hyields.length_eq, ← hmade, List.length_map]
  refine .ite_neg (fun hne => hne hlength)
    (.lift (checkArguments_eq_ok (hmade ▸ hyields)) ?_)
  rw [hmade]
  exact .pure rfl

/-- A builtin that makes `made` of its argument. -/
theorem builtin_takes (builtin : Builtin) {arg : Expr}
    (hvalue : builtin.isStatement = false) (hcanonical : arg.Canonical)
    (htyped : arg.Typed st.scope.tables) (hyields : arg.Yields ty)
    (hsmall : arg.tokens.length < bound)
    (hmade : ∀ pos, builtin.apply arg pos = .ok made) :
    Takes st follow (named expr builtin.name pos) (builtin.applied arg.tokens)
      (· = made) := by
  have hname : Builtin.ofName? builtin.name = some builtin := by
    cases builtin <;> rfl
  refine .peekSecond fun second _ hsecond => .ite_pos (hsecond nofun) ?_
  rw [hname]
  refine .ite_neg (by simp [hvalue]) (.advance fun _ _ => ?_)
  have hargs : Takes st follow (arguments expr)
    (.lparen :: (arg.tokens ++ [.rparen]))
      fun made => made.map Prod.fst = [arg] := by
    have hone : Expr.tokensOfAll [arg] = arg.tokens := List.append_nil _
    rw [← hone] at hsmall ⊢
    exact arguments_take hexpr (List.forall_mem_singleton.mpr hcanonical)
      (List.forall_mem_singleton.mpr htyped)
      (List.forall_mem_singleton.mpr (hyields.ty_eq.symm ▸ hyields)) hsmall
  refine hargs.bind_done fun args hargs => ?_
  obtain ⟨⟨_, argPos⟩, rfl, rfl⟩ := List.map_eq_singleton_iff.mp hargs
  exact .lift_last (hmade argPos) rfl

/-! Pipelines. -/

/-- The tokens of one stage. -/
def stageTokens (name : String) (args : List Expr) : List TokenKind :=
  .atSign :: .string name :: .lbrace :: (Expr.tokensOfAll args ++ [.rbrace])

omit hexpr in
theorem tokensOfStages_cons (name : String) (args : List Expr)
    (rest : List (String × List Expr)) :
    Expr.tokensOfStages ((name, args) :: rest) =
      stageTokens name args ++ Expr.tokensOfMoreStages rest := by
  simp [Expr.tokensOfStages, stageTokens]

omit hexpr in
theorem tokensOfMoreStages_cons (name : String) (args : List Expr)
    (rest : List (String × List Expr)) :
    Expr.tokensOfMoreStages ((name, args) :: rest) =
      (.pipe :: stageTokens name args) ++ Expr.tokensOfMoreStages rest := by
  simp [Expr.tokensOfMoreStages, stageTokens]

theorem stage_takes (hcanonical : ∀ e ∈ args, e.Canonical)
    (htyped : ∀ e ∈ args, e.Typed st.scope.tables)
    (hyields : ∀ e ∈ args, ∃ ty, e.Yields ty ∧ ty.isScalar = true)
    (hsmall : (Expr.tokensOfAll args).length < bound) :
    Takes st follow (stage expr) (stageTokens name args)
      (· = (name, args)) := by
  refine .expect (.peekKind fun next _ => ?_)
  simp only [List.headD_cons, pure_bind]
  refine .advance fun _ _ => .expect ?_
  refine (items_take hexpr (·.isScalar = true) .stageArgument
    (.inr rfl) hcanonical htyped hyields hsmall).bind ?_ fun _ _ => rfl
  rintro _ rfl
  exact .expect (.pure rfl)

omit hexpr in
theorem tokensOfAll_lt_of_mem {stage : String × List Expr}
    (h : stage ∈ stages) :
    (Expr.tokensOfAll stage.2).length <
      (Expr.tokensOfMoreStages stages).length := by
  induction stages with
  | nil => exact absurd h List.not_mem_nil
  | cons first stages ih =>
      rw [tokensOfMoreStages_cons, stageTokens]
      simp only [List.length_cons, List.length_append]
      rcases List.mem_cons.mp h with rfl | hmem
      · omega
      · have := ih hmem
        omega

/-- A bar and a stage behind it, or the end. -/
def pipeRound (expr : Parse Expr) (stages : List (String × List Expr)) :
    Parse (Round (List (String × List Expr)) Expr) := do
  if ← accept .pipe then
    skipLineBreaks
    if (← peekKind) ≠ .atSign then
      expected .stageAfterPipe
    return .again (stages ++ [← stage expr])
  else
    return .done (.process stages [.string, .string, .int])

omit hexpr in
theorem pipeline_eq (expr : Parse Expr) : pipeline expr = (do
    let first ← stage expr
    iterate (pipeRound expr) [first]) :=
  rfl

omit hexpr in
theorem moreStages_take {made rest : List (String × List Expr)}
    (hread : ∀ entry ∈ rest, Takes st (fun _ => True) (stage expr)
      (stageTokens entry.1 entry.2) (· = entry)) :
    Takes st FollowsPrimary (iterate (pipeRound expr) made)
      (Expr.tokensOfMoreStages rest)
      (· = .process (made ++ rest) [.string, .string, .int]) := by
  induction rest generalizing made with
  | nil =>
      refine .done (.reject (fun next hnext => ?_)
        (.ite_neg Bool.false_ne_true ?_))
      · exact FollowsPrimary.ne hnext rfl rfl nofun
      · exact .pure ⟨_, rfl, by rw [List.append_nil]⟩
  | cons entry rest ih =>
      obtain ⟨hentry, hrest⟩ := List.forall_mem_cons.mp hread
      have hround : Takes st (fun _ => True) (pipeRound expr made)
          (.pipe :: stageTokens entry.1 entry.2) fun outcome =>
            ∃ next, outcome = .again next ∧ next = made ++ [entry] := by
        refine .accept (.ite_pos rfl (.skipLineBreaks (fun _ _ => nofun) ?_))
        refine .peekKind fun next _ => .ite_neg (fun hother => hother rfl) ?_
        refine hentry.bind_done ?_
        rintro _ rfl
        exact .pure ⟨_, rfl, rfl⟩
      rw [tokensOfMoreStages_cons]
      refine .again hround nofun ?_ fun _ _ => trivial
      rintro _ rfl
      have hsplit : made ++ entry :: rest = made ++ [entry] ++ rest :=
        List.append_cons ..
      rw [hsplit]
      exact ih hrest

theorem pipeline_takes (hstages : stages ≠ [])
    (hcanonical : ∀ stage ∈ stages, ∀ arg ∈ stage.2, Expr.Canonical arg)
    (htyped : ∀ stage ∈ stages, ∀ arg ∈ stage.2, Expr.Typed st.scope.tables arg)
    (hyields : ∀ stage ∈ stages, ∀ arg ∈ stage.2, ∃ ty, Expr.Yields arg ty ∧
      ty.isScalar = true)
    (hsmall : (Expr.tokensOfStages stages).length ≤ bound) :
    Takes st FollowsPrimary (pipeline expr) (Expr.tokensOfStages stages)
      (· = .process stages [.string, .string, .int]) := by
  have hread : ∀ entry ∈ stages, (Expr.tokensOfAll entry.2).length < bound →
      Takes st (fun _ => True) (stage expr) (stageTokens entry.1 entry.2)
        (· = entry) :=
    fun entry hentry hlt =>
      stage_takes hexpr (hcanonical entry hentry) (htyped entry hentry)
        (hyields entry hentry) hlt
  obtain ⟨first, rest, rfl⟩ := List.exists_cons_of_ne_nil hstages
  obtain ⟨name, args⟩ := first
  rw [tokensOfStages_cons] at hsmall ⊢
  simp only [stageTokens, List.length_cons, List.length_append] at hsmall
  have hfirst := hread (name, args) List.mem_cons_self (by dsimp only; omega)
  rw [pipeline_eq]
  refine hfirst.bind ?_ fun _ _ => trivial
  rintro _ rfl
  refine moreStages_take fun entry hentry => ?_
  have hlt := tokensOfAll_lt_of_mem hentry
  exact hread entry (List.mem_cons_of_mem _ hentry) (by omega)

/-! All of them. -/

omit hexpr in
/-- A name is read on its own where no parenthesis follows. -/
theorem var_takes {var : Variable}
    (hlookup : st.scope.lookupVariable? name = some var) :
    Takes st FollowsPrimary (named expr name pos) [.ident name]
      (· = .var name [var.ty]) := by
  refine .peekSecond fun second hsecond _ => .ite_neg (fun hparen => ?_) ?_
  · obtain ⟨next, hnext, heq⟩ := hsecond _ hparen
    have hne : next ≠ .lparen := FollowsPrimary.ne hnext rfl rfl nofun
    exact hne heq.symm
  · exact .advance fun _ _ => .lookupVariable hlookup (.pure rfl)

omit hexpr in
theorem length_lt_of_applied {word : TokenKind} {inside : List TokenKind}
    (h : (applied word inside).length ≤ bound) : inside.length < bound := by
  simp only [applied, List.length_cons, List.length_append] at h
  omega

theorem primary_takes
    (hnames : ∀ entry ∈ st.scope.functions, Builtin.ofName? entry.1 = none)
    (he : Readable st bound e) (hlevel : 7 ≤ e.level) :
    Takes st FollowsPrimary (primary expr) e.tokens (· = e) := by
  obtain ⟨hcanonical, htyped, hsmall⟩ := he
  cases htyped with
  | bool => exact .peekAt fun _ _ => .advance fun _ _ => .pure rfl
  | int =>
      cases hcanonical with
      | int hvalue =>
          refine .peekAt fun _ _ => .advance fun _ _ => .pure ?_
          rw [Int.toNat_of_nonneg hvalue]
  | string => exact .peekAt fun _ _ => .advance fun _ _ => .pure rfl
  | var hlookup => exact .peekAt fun _ _ => var_takes hlookup
  | listLiteral hlist hscalar hall hyields =>
      cases hcanonical with
      | listLiteral hitems =>
          refine .peekAt fun _ _ => listLiteral_takes hexpr hlist hscalar hitems
            hall hyields ?_
          simp only [Expr.tokens, List.length_cons, List.length_append]
            at hsmall
          omega
  | group htyped hyields =>
      cases hcanonical with
      | group hcanonical =>
          refine group_takes hexpr hcanonical htyped hyields ?_
          simp only [Expr.tokens, List.length_cons, List.length_append]
            at hsmall
          omega
  | listLength htyped hyields hlist =>
      cases hcanonical with
      | listLength hcanonical =>
          exact .peekAt fun _ _ => lengthOf_takes
            (inner_takes hexpr hcanonical htyped hyields
            (length_lt_of_applied hsmall)) hyields (.inl ⟨hlist, rfl⟩)
  | stringLength htyped hyields =>
      cases hcanonical with
      | stringLength hcanonical =>
          exact .peekAt fun _ _ => lengthOf_takes
            (inner_takes hexpr hcanonical htyped hyields
            (length_lt_of_applied hsmall)) hyields (.inr ⟨rfl, rfl⟩)
  | input htyped hyields =>
      cases hcanonical with
      | input hcanonical =>
          exact .peekAt fun _ _ => inputLine_takes hexpr hcanonical
            htyped hyields (length_lt_of_applied hsmall)
  | process hstages htyped hyields =>
      cases hcanonical with
      | process hcanonical =>
          have hread := pipeline_takes hexpr hstages hcanonical htyped
            hyields hsmall
          obtain ⟨⟨name, args⟩, rest, rfl⟩ := List.exists_cons_of_ne_nil hstages
          exact .peekAt fun _ _ => hread
  | @call name args signature hlookup htyped hyields =>
      cases hcanonical with
      | call hcanonical =>
          have hname : Builtin.ofName? name = none := by
            obtain ⟨before, after, hsplit, _⟩ :=
              List.lookup_eq_some_iff.mp hlookup
            have hsplit : st.scope.functions =
              before ++ (name, signature) :: after := hsplit
            exact hnames (name, signature) (by simp [hsplit])
          exact .peekAt fun _ _ => call_takes hexpr hname hlookup hcanonical
            htyped hyields (length_lt_of_applied hsmall)
  | copy htyped hyields hlist =>
      cases hcanonical with
      | copy hcanonical =>
          refine .peekAt fun _ _ => builtin_takes hexpr
            .copy rfl hcanonical htyped hyields
            (length_lt_of_applied hsmall) fun pos => ?_
          rw [← hyields.ty_eq] at hlist ⊢
          exact if_pos hlist
  | fileExists htyped hyields =>
      cases hcanonical with
      | fileExists hcanonical =>
          exact .peekAt fun _ _ => builtin_takes hexpr
            .exists rfl hcanonical htyped hyields
            (length_lt_of_applied hsmall) fun pos => if_pos hyields.ty_eq
  | fileContent htyped hyields =>
      cases hcanonical with
      | fileContent hcanonical =>
          exact .peekAt fun _ _ => builtin_takes hexpr
            .read rfl hcanonical htyped hyields
            (length_lt_of_applied hsmall) fun pos => if_pos hyields.ty_eq
  | intToString htyped hyields =>
      cases hcanonical with
      | intToString hcanonical =>
          exact .peekAt fun _ _ => builtin_takes hexpr
            .itoa rfl hcanonical htyped hyields
            (length_lt_of_applied hsmall) fun pos => if_pos hyields.ty_eq
  | stringToInt htyped hyields =>
      cases hcanonical with
      | stringToInt hcanonical =>
          exact .peekAt fun _ _ => builtin_takes hexpr
            .atoi rfl hcanonical htyped hyields
            (length_lt_of_applied hsmall) fun pos => if_pos hyields.ty_eq
  | @binary op =>
      cases op <;> exact absurd hlevel (by simp [Expr.level, BinaryOp.level])
  | @logical op =>
      cases op <;> exact absurd hlevel (by simp [Expr.level, LogicalOp.level])
  | _ => exact absurd hlevel (by simp [Expr.level])

end Rules

end Parse

end Shellwright
