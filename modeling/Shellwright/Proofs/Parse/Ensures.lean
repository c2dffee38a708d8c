/-
What a parser ensures when it succeeds.  A condition on the state it starts from
leads to a condition on its result and the state it ends in, and every rule here
follows a parser part by part.  A parser that keeps an invariant may be put
anywhere between others that do.
-/
import Mathlib
import Shellwright.Proofs.Parse.Steps

namespace Shellwright

variable {α β : Type}

/-- What has to hold after a round: one condition for going on, one for the
end. -/
def Round.Then (loop : α → ParserState → Prop) (post : β → ParserState → Prop) :
    Round α β → ParserState → Prop
  | .again value => loop value
  | .done result => post result

namespace Parse

variable {a : α} {n : Nat} {c : Prop} {g : α → β} {name : String}
  {x : Except SyntaxError α} {round : α → Parse (Round α β)}

/-- Started where `pre` holds, the parser ends where `post` holds, if it ends
without a fault. -/
def Ensures (pre : ParserState → Prop) (p : Parse α)
    (post : α → ParserState → Prop) : Prop :=
  ∀ ⦃st a st'⦄, pre st → p st = .ok (a, st') → post a st'

/-- The parser keeps the invariant, and its result has the property. -/
abbrev Keeps (inv : ParserState → Prop) (p : Parse α) (Q : α → Prop) : Prop :=
  Ensures inv p fun a st => Q a ∧ inv st

/-- The next token is of this kind. -/
def At (kind : TokenKind) (pre : ParserState → Prop)
    (st : ParserState) : Prop :=
  pre st ∧ st.next.kind = kind

namespace Ensures

variable {pre : ParserState → Prop} {mid : α → ParserState → Prop}
  {post : β → ParserState → Prop} {p q : Parse α} {f : α → Parse β}
  {wanted : Wanted} {pos : Position} {fault : SyntaxFault}
  {rest : PUnit → Parse α}

theorem weaken {pre' : ParserState → Prop} (h : Ensures pre p mid)
    (hpre : ∀ st, pre' st → pre st) : Ensures pre' p mid :=
  fun _ _ _ hst hp => h (hpre _ hst) hp

/-- What holds of any state the parser may start from. -/
theorem assume (h : ∀ st, pre st → Ensures pre p mid) : Ensures pre p mid :=
  fun st _ _ hst hp => h st hst hst hp

theorem conclude {mid' : α → ParserState → Prop} (h : Ensures pre p mid)
    (hmid : ∀ a st, mid a st → mid' a st) : Ensures pre p mid' :=
  fun _ _ _ hst hp => hmid _ _ (h hst hp)

theorem pure (h : ∀ st, pre st → mid a st) : Ensures pre (Pure.pure a) mid := by
  intro st b st' hst hp
  obtain ⟨rfl, rfl⟩ := pure_ok.mp hp
  exact h _ hst

theorem done {Q : α → Prop} (h : Q a) : Keeps pre (Pure.pure a) Q :=
  .pure fun _ hst => ⟨h, hst⟩

theorem bind (hp : Ensures pre p mid) (hf : ∀ a, Ensures (mid a) (f a) post) :
    Ensures pre (p >>= f) post := by
  intro st b st' hst h
  obtain ⟨a, between, hfirst, hsecond⟩ := bind_ok.mp h
  exact hf a (hp hst hfirst) hsecond

theorem pure_bind (h : Ensures pre (f a) post) :
    Ensures pre (Pure.pure a >>= f) post := by
  rw [LawfulMonad.pure_bind]
  exact h

theorem map (hp : Ensures pre p fun a st => post (g a) st) :
    Ensures pre (g <$> p) post := by
  rw [map_eq_pure_bind]
  exact hp.bind fun _ => .pure fun _ h => h

theorem ite [Decidable c] (hp : c → Ensures pre p mid)
    (hq : ¬c → Ensures pre q mid) : Ensures pre (if c then p else q) mid := by
  by_cases hc : c
  · rw [if_pos hc]
    exact hp hc
  · rw [if_neg hc]
    exact hq hc

theorem fail : Ensures pre (Parse.fail fault pos) mid :=
  fun _ _ _ _ h => absurd h fail_ok

theorem expected : Ensures pre (Parse.expected wanted) mid :=
  fun _ _ _ _ h => absurd h expected_ok

theorem undeclaredVariable :
    Ensures pre (Parse.undeclaredVariable name pos) mid :=
  fun _ _ _ _ h => absurd h undeclaredVariable_ok

theorem undeclaredFunction :
    Ensures pre (Parse.undeclaredFunction name pos) mid :=
  fun _ _ _ _ h => absurd h undeclaredFunction_ok

/-- Nothing follows a parser that never succeeds. -/
theorem abort (hp : Ensures pre p fun _ _ => False) :
    Ensures pre (p >>= f) post :=
  hp.bind fun _ _ _ _ h => h.elim

theorem guard [Decidable c] (h : ¬c → Ensures pre (rest ⟨⟩) mid) :
    Ensures pre (if c then Parse.fail fault pos >>= rest else rest ⟨⟩) mid :=
  .ite (fun _ => .abort .fail) h

theorem demand [Decidable c] (h : ¬c → Ensures pre (rest ⟨⟩) mid) :
    Ensures pre (if c then Parse.expected wanted >>= rest else rest ⟨⟩) mid :=
  .ite (fun _ => .abort .expected) h

/-- A look at the state. -/
theorem get {f : ParserState → Parse α}
    (h : ∀ now, pre now → Ensures (fun st => pre st ∧ st = now) (f now) mid) :
    Ensures pre (MonadState.get >>= f) mid :=
  fun st _ _ hst hf => h st hst ⟨hst, rfl⟩ hf

theorem lift (h : ∀ a, x = .ok a → ∀ st, pre st → mid a st) :
    Ensures pre (liftM x) mid := by
  intro st a st' hst hx
  obtain ⟨ha, rfl⟩ := lift_ok.mp hx
  exact h a ha _ hst

end Ensures

namespace Keeps

variable {inv : ParserState → Prop} {Q : α → Prop}
  {post : β → ParserState → Prop} {p : Parse α} {f : α → Parse β}

/-- The rest starts where the invariant holds again. -/
theorem step (hp : Keeps inv p Q) (hf : ∀ a, Q a → Ensures inv (f a) post) :
    Ensures inv (p >>= f) post :=
  hp.bind fun a _ _ _ hmid h => hf a hmid.1 hmid.2 h

theorem lift (h : ∀ a, x = .ok a → Q a) : Keeps inv (liftM x) Q :=
  Ensures.lift fun a ha _ hst => ⟨h a ha, hst⟩

theorem mono {R : α → Prop} (hp : Keeps inv p Q) (h : ∀ a, Q a → R a) :
    Keeps inv p R :=
  hp.conclude fun a _ hmid => ⟨h a hmid.1, hmid.2⟩

theorem map {R : β → Prop} (hp : Keeps inv p Q) (h : ∀ a, Q a → R (g a)) :
    Keeps inv (g <$> p) R :=
  Ensures.map (hp.mono h)

theorem forM {items : List α} {g : α → Parse PUnit} (R : α → Prop)
    (h : ∀ item ∈ items, Keeps inv (g item) fun _ => R item) :
    Keeps inv (items.forM g) fun _ => ∀ item ∈ items, R item := by
  induction items with
  | nil => exact .done (by simp)
  | cons item items ih =>
      obtain ⟨hitem, hitems⟩ := List.forall_mem_cons.mp h
      refine hitem.step fun _ hfirst => (ih hitems).mono fun _ hrest => ?_
      exact List.forall_mem_cons.mpr ⟨hfirst, hrest⟩

end Keeps

section Joins

variable {inv : ParserState → Prop} {Q : α → Prop}
  {post : β → ParserState → Prop} {p : Parse α} {f : α → Parse β}

/-- An optional part, before the rest that has to do with it or with `a`. -/
theorem Ensures.join {c : Prop} [Decidable c] {a : α} (hp : c → Keeps inv p Q)
    (ha : ¬c → Q a) (hrest : ∀ a, Q a → Ensures inv (f a) post) :
    Ensures inv (if c then p >>= f else f a) post :=
  .ite (fun hc => (hp hc).step hrest) fun hc => hrest a (ha hc)

theorem Ensures.joinElse [Decidable c] (hp : ¬c → Keeps inv p Q) (ha : c → Q a)
    (hrest : ∀ a, Q a → Ensures inv (f a) post) :
    Ensures inv (if c then f a else p >>= f) post :=
  .ite (fun hc => hrest a (ha hc)) fun hc => (hp hc).step hrest

end Joins

variable {inv : ParserState → Prop}

/-! Steps that look ahead. -/

theorem peek_ensures : Ensures inv peek fun token => At token.kind inv := by
  rintro st _ _ hst ⟨⟩
  exact ⟨hst, rfl⟩

theorem peekKind_ensures : Ensures inv peekKind fun kind => At kind inv := by
  rintro st _ _ hst ⟨⟩
  exact ⟨hst, rfl⟩

theorem peekAfter_ensures :
    Ensures inv (peekAfter n) fun kind st => inv st ∧
      st.ahead[n]?.map Token.kind = kind := by
  rintro st _ _ hst ⟨⟩
  exact ⟨hst, rfl⟩

theorem lookupVariable?_ensures :
    Ensures inv (lookupVariable? name) fun found st =>
      inv st ∧ st.scope.lookupVariable? name = found := by
  rintro st _ _ hst ⟨⟩
  exact ⟨hst, rfl⟩

theorem lookupFunction?_ensures :
    Ensures inv (lookupFunction? name) fun found st =>
      inv st ∧ st.scope.lookupFunction? name = found := by
  rintro st _ _ hst ⟨⟩
  exact ⟨hst, rfl⟩

theorem position_keeps : Keeps inv position fun _ => True := by
  rintro st _ _ hst ⟨⟩
  exact ⟨trivial, hst⟩

theorem peekKind_keeps : Keeps inv peekKind fun _ => True :=
  peekKind_ensures.conclude fun _ _ h => ⟨trivial, h.1⟩

theorem peekAfter_keeps : Keeps inv (peekAfter n) fun _ => True :=
  peekAfter_ensures.conclude fun _ _ h => ⟨trivial, h.1⟩

/-! Recursion. -/

/-- A nested rule for a family of conditions, each of which may be used inside
it. -/
theorem nested_ensures {ι : Type} {rule : Parse α → Parse α}
    (pre : ι → ParserState → Prop) (post : ι → α → ParserState → Prop)
    (hrule : ∀ p, (∀ i, Ensures (pre i) p (post i)) →
      ∀ i, Ensures (pre i) (rule p) (post i))
    (i : ι) : Ensures (pre i) (nested rule) (post i) := by
  intro st a st' hst h
  rw [nested, get_bind] at h
  have hdeep : ∀ i, Ensures (pre i) (nestedAt rule (st.ahead.length + 1))
      (post i) := by
    refine nestedAt_sound (P := fun p => ∀ i, Ensures (pre i) p (post i))
      (fun i => ?_) hrule _
    exact position_keeps.step fun _ _ => .fail
  exact hdeep i hst h

theorem iterate_ensures (loop : α → ParserState → Prop)
    {post : β → ParserState → Prop}
    (hround : ∀ value, Ensures (loop value) (round value) (Round.Then loop
      post)) (value : α) : Ensures (loop value) (iterate round value) post := by
  intro st result st' hst h
  refine iterate_ok loop h hst ?_ ?_
  · exact fun value st next st' hst h => hround value hst h
  · exact fun value st result st' hst h => hround value hst h

/-- A repetition that keeps an invariant and a property of its value. -/
theorem iterate_keeps (P : α → Prop) {Q : β → Prop}
    (hround : ∀ value, P value → Ensures inv (round value) (Round.Then (fun
      value st => P value ∧ inv st) fun result st => Q result ∧ inv st))
    {value : α} (hvalue : P value) : Keeps inv (iterate round value) Q := by
  refine (iterate_ensures (fun value st => P value ∧ inv st)
    (fun value => ?_) value).weaken fun _ hst => ⟨hvalue, hst⟩
  exact fun _ _ _ hst h => hround value hst.1 hst.2 h

end Parse

end Shellwright
