/-
How parsers come to an end.  Every rule of the grammar reads a token before it
turns to a rule inside it, and so does every round of a repetition, so that the
bounds on both are never met: two parsers that differ in their bounds only end
alike, and neither sees more of its text than the kinds of the tokens.  On the
way brackets are counted.  What is known of the tokens ahead at each depth may
be anything that reading a token carries on; the end of the input is never read.
-/
import Mathlib
import Shellwright.Proofs.Layout.Alike
import Shellwright.Proofs.Parse.Ensures

namespace Shellwright

/-! Brackets. -/

/-- How many brackets are open behind a token that `depth` brackets are open
before.  No text goes on behind the end of the input, a bracket that closes
nothing or, outside of brackets, the head of a case; among `items` neither does
it behind a comma or a colon there. -/
def TokenKind.depthAfter (items : Bool) : TokenKind → Nat → Option Nat
  | .lparen, depth | .lbracket, depth | .lbrace, depth => some (depth + 1)
  | .rparen, depth + 1 | .rbracket, depth + 1 | .rbrace, depth + 1 => some depth
  | .rparen, 0 | .rbracket, 0 | .rbrace, 0 | .eof, _ => none
  | .keyword .caseWord, 0 | .keyword .defaultWord, 0 => none
  | .comma, 0 | .colon, 0 => if items then none else some 0
  | _, depth => some depth

/-- What is known of the tokens ahead when some brackets are open, wherever it
is carried on by reading a token. -/
def Trail (items : Bool) (inv : Nat → List Token → Prop) : Prop :=
  ∀ ⦃depth depth' token rest⦄, inv depth (token :: rest) →
    token.kind.depthAfter items depth = some depth' → inv depth' rest

/-- The tokens ahead with the one that closes the input. -/
def ParserState.input (st : ParserState) : List Token := st.ahead ++ [st.last]

/-- Fewer than `bound` tokens are ahead, inside `depth` brackets. -/
structure ParserState.Within (inv : Nat → List Token → Prop) (depth bound : Nat)
    (st : ParserState) : Prop where
  trail : inv depth st.input
  last : st.last.kind = .eof
  short : st.ahead.length < bound

namespace ParserState.Within

variable {items : Bool} {inv : Nat → List Token → Prop} {depth depth' n m : Nat}
  {st st' : ParserState}

theorem mono (h : st.Within inv depth n) (hle : n ≤ m) :
    st.Within inv depth m :=
  ⟨h.trail, h.last, Nat.lt_of_lt_of_le h.short hle⟩

/-- What is known of the tokens does not depend on names. -/
theorem of_tokens (h : st.Within inv depth n) (hahead : st'.ahead = st.ahead)
    (hlast : st'.last = st.last) : st'.Within inv depth n :=
  ⟨by rw [ParserState.input, hahead, hlast]; exact h.trail, hlast ▸ h.last,
    hahead ▸ h.short⟩

theorem advanced (htrail : Trail items inv) (h : st.Within inv depth n)
    (hkind : st.next.kind.depthAfter items depth = some depth')
    (hn : n ≤ m + 1) :
    st.advanced.Within inv depth' m := by
  obtain ⟨ahead, last, scope, hidden⟩ := st
  cases ahead with
  | nil =>
      have hend : last.kind.depthAfter items depth = none := by
        rw [show last.kind = .eof from h.last]
        rfl
      cases hend.symm.trans hkind
  | cons token rest =>
      have hshort : rest.length + 1 < n := h.short
      exact ⟨htrail h.trail hkind, h.last, show rest.length < m by omega⟩

end ParserState.Within

/-! Endings. -/

/-- A fault of the program, or a result for which `post` holds. -/
def Settled {α : Type} (post : α → ParserState → Prop) :
    Except SyntaxError (α × ParserState) → Prop
  | .ok (a, st) => post a st
  | .error e => e.fault ≠ .tooDeep

namespace Agree

variable {α : Type} {like : Token → Token → Prop} {P : α → α → Prop}
  {x y : Except SyntaxError α}

/-- What agrees with something is a fault of the program, or a result. -/
theorem settled {x y : Except SyntaxError (α × ParserState)}
    {P : α × ParserState → _ → Prop} {post : α → ParserState → Prop}
    (h : Agree like P x y) (hP : ∀ a st other, P (a, st) other → post a st) :
    Settled post x := by
  cases h with
  | ok hpost => exact hP _ _ _ hpost
  | error _ hfault => exact hfault

theorem eq (h : Agree Eq P x y) (hP : ∀ a b, P a b → a = b) : x = y := by
  cases h with
  | ok hpost => exact congrArg Except.ok (hP _ _ hpost)
  | error hpos _ =>
      obtain ⟨_, _, rfl, rfl, rfl⟩ := hpos
      rfl

end Agree

namespace Parse

variable {wanted : Wanted}

open ParserState (Within)

section Relations

variable {α : Type} (like : Token → Token → Prop)
  (inv : Nat → List Token → Prop) (depth n : Nat) (R : α → α → Prop)
  (p q : Parse α)

/-- Started alike where `pre` holds, both parsers end alike: in a fault of the
program, or with values that correspond, where `post` holds. -/
def Settles (pre : ParserState → Prop) (post : α → ParserState → Prop) : Prop :=
  ∀ ⦃s t⦄, s.Alike like t → pre s →
    Agree like (fun x y => R x.1 y.1 ∧ x.2.Alike like y.2 ∧ post x.1 x.2)
      (p s) (q t)

/-- The parsers read at least one token, and all brackets they open. -/
abbrev Advances : Prop :=
  Settles like R p q (Within inv depth (n + 1)) fun _ => Within inv depth n

/-- They do so in front of a token of this kind. -/
abbrev AdvancesAt (kind : TokenKind) : Prop :=
  Settles like R p q (At kind (Within inv depth (n + 1)))
    fun _ => Within inv depth n

/-- The parsers read all brackets they open. -/
abbrev Holds : Prop :=
  Settles like R p q (Within inv depth n) fun _ => Within inv depth n

end Relations

variable {α β : Type} {like : Token → Token → Prop} {R : α → α → Prop}
  {S : β → β → Prop}

namespace Settles

variable {pre : ParserState → Prop} {mid : α → ParserState → Prop}
  {post : β → ParserState → Prop} {p q p' q' : Parse α} {f g : α → Parse β}
  {c : Prop} {name : String} {fault : SyntaxFault}

theorem weaken {pre' : ParserState → Prop} (h : Settles like R p q pre mid)
    (hpre : ∀ st, pre' st → pre st) : Settles like R p q pre' mid :=
  fun _ _ halike hst => h halike (hpre _ hst)

theorem pure {a b : α} (hab : R a b) (h : ∀ st, pre st → mid a st) :
    Settles like R (Pure.pure a) (Pure.pure b) pre mid :=
  fun _ _ halike hst => .ok ⟨hab, halike, h _ hst⟩

/-- Nothing is left to do. -/
theorem done {a b : α} (hab : R a b) :
    Settles like R (Pure.pure a) (Pure.pure b) pre fun _ => pre :=
  .pure hab fun _ => id

theorem bind (hp : Settles like R p q pre mid)
    (hf : ∀ a b, R a b → Settles like S (f a) (g b) (mid a) post) :
    Settles like S (p >>= f) (q >>= g) pre post :=
  fun _ _ halike hst => (hp halike hst).bind
    fun x y hxy => hf x.1 y.1 hxy.1 hxy.2.1 hxy.2.2

/-- Both parsers give the same value. -/
theorem step (hp : Settles like Eq p q pre mid)
    (hf : ∀ a, Settles like S (f a) (g a) (mid a) post) :
    Settles like S (p >>= f) (q >>= g) pre post :=
  hp.bind fun a _ hab => hab ▸ hf a

theorem conclude {mid' : α → ParserState → Prop}
    (h : Settles like R p q pre mid) (hmid : ∀ a st, mid a st → mid' a st) :
    Settles like R p q pre mid' := by
  have hpure : Settles like R (p >>= Pure.pure) (q >>= Pure.pure) pre mid' :=
    h.bind fun a _ hab => .pure hab (hmid a)
  rwa [bind_pure, bind_pure] at hpure

theorem map {change : α → β}
    (hp : Settles like Eq p q pre fun a st => post (change a) st) :
    Settles like Eq (change <$> p) (change <$> q) pre post := by
  rw [map_eq_pure_bind, map_eq_pure_bind]
  exact hp.step fun _ => .pure rfl fun _ h => h

theorem ite [Decidable c] (hp : c → Settles like R p q pre mid)
    (hq : ¬c → Settles like R p' q' pre mid) :
    Settles like R (if c then p else p') (if c then q else q') pre mid := by
  by_cases hc : c
  · rw [if_pos hc, if_pos hc]
    exact hp hc
  · rw [if_neg hc, if_neg hc]
    exact hq hc

theorem fail {pos pos' : Position} (hpos : Near like pos pos')
    (hfault : fault ≠ .tooDeep) :
    Settles like R (Parse.fail fault pos) (Parse.fail fault pos') pre mid :=
  fun _ _ _ _ => .error hpos hfault

/-- Both parsers go on with the names they know. -/
theorem get {f g : ParserState → Parse α}
    (h : ∀ s t, s.scope = t.scope → Settles like R (f s) (g t) pre mid) :
    Settles like R (MonadState.get >>= f) (MonadState.get >>= g) pre mid :=
  fun s t halike hst => h s t halike.scope halike hst

theorem peek {f g : Token → Parse α}
    (h : ∀ kind text text' pos pos', Near like pos pos' →
      Settles like R (f ⟨kind, text, pos⟩) (g ⟨kind, text', pos'⟩)
        (At kind pre) mid) :
    Settles like R (Parse.peek >>= f) (Parse.peek >>= g) pre mid := by
  intro s t halike hst
  have hright : t.next = ⟨s.next.kind, t.next.text, t.next.pos⟩ := by
    rw [halike.next.kind]
  change Agree like _ (f s.next s) (g t.next t)
  rw [hright]
  exact h _ _ _ _ _ halike.next.pos halike ⟨hst, rfl⟩

theorem expected :
    Settles like R (Parse.expected wanted) (Parse.expected wanted) pre mid :=
  .peek fun _ _ _ _ _ hpos => .fail hpos (by simp)

theorem undeclaredVariable {pos pos' : Position} (hpos : Near like pos pos') :
    Settles like R (Parse.undeclaredVariable name pos)
      (Parse.undeclaredVariable name pos') pre mid :=
  .get fun _ _ hscope => hscope ▸ .fail hpos (by simp)

theorem undeclaredFunction {pos pos' : Position} (hpos : Near like pos pos') :
    Settles like R (Parse.undeclaredFunction name pos)
      (Parse.undeclaredFunction name pos') pre mid :=
  .get fun _ _ hscope => hscope ▸ .fail hpos (by simp)

/-- Nothing follows parsers that never succeed. -/
theorem abort (hp : Settles like (fun _ _ => False) p q pre fun _ _ => False) :
    Settles like S (p >>= f) (q >>= g) pre post :=
  hp.bind fun _ _ => False.elim

theorem guard [Decidable c] {pos pos' : Position} {rest rest' : PUnit → Parse α}
    (hpos : Near like pos pos') (hfault : fault ≠ .tooDeep)
    (h : ¬c → Settles like R (rest ⟨⟩) (rest' ⟨⟩) pre mid) :
    Settles like R (if c then Parse.fail fault pos >>= rest else rest ⟨⟩)
      (if c then Parse.fail fault pos' >>= rest' else rest' ⟨⟩) pre mid :=
  .ite (fun _ => .abort (.fail hpos hfault)) h

theorem demand [Decidable c] {rest rest' : PUnit → Parse α}
    (h : ¬c → Settles like R (rest ⟨⟩) (rest' ⟨⟩) pre mid) :
    Settles like R (if c then Parse.expected wanted >>= rest else rest ⟨⟩)
      (if c then Parse.expected wanted >>= rest' else rest' ⟨⟩) pre mid :=
  .ite (fun _ => .abort .expected) h

theorem lift {x y : Except SyntaxError α} (h : Agree like R x y) :
    Settles like R (liftM x) (liftM y) pre fun _ => pre :=
  fun _ _ halike hst => Agree.bind h fun _ _ hab => .ok ⟨hab, halike, hst⟩

theorem forM {items items' : List α} {f g : α → Parse PUnit}
    (hitems : List.Forall₂ R items items')
    (h : ∀ a b, R a b → Settles like Eq (f a) (g b) pre fun _ => pre) :
    Settles like Eq (items.forM f) (items'.forM g) pre fun _ => pre := by
  induction hitems with
  | nil => exact .done rfl
  | cons hfirst _ ih => exact (h _ _ hfirst).step fun _ => ih

/-! Looking ahead. -/

theorem peekKind {f g : TokenKind → Parse α}
    (h : ∀ kind, Settles like R (f kind) (g kind) (At kind pre) mid) :
    Settles like R (Parse.peekKind >>= f) (Parse.peekKind >>= g) pre mid := by
  intro s t halike hst
  change Agree like _ (f s.next.kind s) (g t.next.kind t)
  rw [← halike.next.kind]
  exact h _ halike ⟨hst, rfl⟩

theorem peekAfter {k : Nat} {f g : Option TokenKind → Parse α}
    (h : ∀ kind, Settles like R (f kind) (g kind)
      (fun st => pre st ∧ st.ahead[k]?.map Token.kind = kind) mid) :
    Settles like R (Parse.peekAfter k >>= f) (Parse.peekAfter k >>= g) pre
      mid := by
  intro s t halike hst
  change Agree like _ (f (s.ahead[k]?.map Token.kind) s)
    (g (t.ahead[k]?.map Token.kind) t)
  rw [← halike.kind_after k]
  exact h _ halike ⟨hst, rfl⟩

theorem position {f g : Position → Parse α}
    (h : ∀ pos pos', Near like pos pos' →
      Settles like R (f pos) (g pos') pre mid) :
    Settles like R (Parse.position >>= f) (Parse.position >>= g) pre mid :=
  fun _ _ halike hst => h _ _ halike.next.pos halike hst

theorem lookupVariable? {f g : Option Variable → Parse α}
    (h : ∀ found, Settles like R (f found) (g found) pre mid) :
    Settles like R (Parse.lookupVariable? name >>= f)
      (Parse.lookupVariable? name >>= g) pre mid :=
  .get fun _ _ hscope => hscope ▸ h _

theorem lookupFunction? {f g : Option Signature → Parse α}
    (h : ∀ found, Settles like R (f found) (g found) pre mid) :
    Settles like R (Parse.lookupFunction? name >>= f)
      (Parse.lookupFunction? name >>= g) pre mid :=
  .get fun _ _ hscope => hscope ▸ h _

end Settles

/-! Reading tokens. -/

section Steps

variable {items : Bool} {inv : Nat → List Token → Prop} {depth depth' n m : Nat}
  {post : α → ParserState → Prop} {kind : TokenKind} {close : TokenKind}

/-- The token seen before is read. -/
theorem Settles.pass (htrail : Trail items inv) {f g : Token → Parse α}
    (hkind : kind.depthAfter items depth = some depth') (hn : n ≤ m + 1)
    (h : ∀ token token', token.Alike like token' →
      Settles like R (f token) (g token') (Within inv depth' m) post) :
    Settles like R (advance >>= f) (advance >>= g)
      (At kind (Within inv depth n)) post := by
  rintro s t halike ⟨hst, rfl⟩
  exact h s.next t.next halike.next halike.advanced
    (hst.advanced htrail hkind hn)

/-- The first of two tokens seen before is read. -/
theorem Settles.passFirst (htrail : Trail items inv) {f g : Token → Parse α}
    {second : TokenKind} (hkind : kind.depthAfter items depth = some depth')
    (hn : n ≤ m + 1) (h : ∀ token token', token.Alike like token' →
      Settles like R (f token) (g token')
      (At second (Within inv depth' m)) post) :
    Settles like R (advance >>= f) (advance >>= g)
      (fun st => At kind (Within inv depth n) st ∧
        st.ahead[1]?.map Token.kind = some second) post := by
  rintro s t halike ⟨⟨hst, rfl⟩, hsecond⟩
  refine h s.next t.next halike.next halike.advanced
    ⟨hst.advanced htrail hkind hn, ?_⟩
  obtain ⟨ahead, last, scope, hidden⟩ := s
  cases ahead with
  | nil => cases hsecond
  | cons first rest =>
      cases rest with
      | nil => cases hsecond
      | cons other rest => exact Option.some.inj hsecond

theorem expect_settles (htrail : Trail items inv)
    (hkind : kind.depthAfter items depth = some depth') (hn : n ≤ m + 1) :
    Settles like Eq (expect kind) (expect kind) (Within inv depth n)
      fun _ => Within inv depth' m := by
  refine .peekKind fun found => .ite (fun hfound => ?_) fun _ => .expected
  exact .pass htrail (hfound ▸ hkind) hn fun _ _ _ => .done rfl

/-- A token of the given kind is read if it is next. -/
theorem Settles.accepting (htrail : Trail items inv) {f g : Bool → Parse α}
    (hkind : kind.depthAfter items depth = some depth') (hn : n ≤ m + 1)
    (hfound : Settles like R (f true) (g true) (Within inv depth' m) post)
    (hother : Settles like R (f false) (g false) (Within inv depth n) post) :
    Settles like R (Parse.accept kind >>= f) (Parse.accept kind >>= g)
      (Within inv depth n) post := by
  unfold Parse.accept
  rw [bind_assoc, bind_assoc]
  refine .peekKind fun found => ?_
  by_cases hnext : found = kind
  · rw [if_pos hnext, bind_assoc, bind_assoc]
    exact .pass htrail (hnext ▸ hkind) hn fun _ _ _ => hfound
  · rw [if_neg hnext]
    exact hother.weaken fun _ hst => hst.1

/-- One thing is done behind a token of the given kind, another one in front of
any other. -/
theorem Settles.accept (htrail : Trail items inv) {p q p' q' : Parse α}
    (hkind : kind.depthAfter items depth = some depth') (hn : n ≤ m + 1)
    (hp : Settles like R p q (Within inv depth' m) post)
    (hq : Settles like R p' q' (Within inv depth n) post) :
    Settles like R (Parse.accept kind >>= fun found => if found then p else p')
      (Parse.accept kind >>= fun found => if found then q else q')
      (Within inv depth n) post :=
  .accepting htrail hkind hn (.ite (fun _ => hp) fun hne => absurd rfl hne)
    (.ite (fun heq => absurd heq Bool.false_ne_true) fun _ => hq)

theorem identifier_settles (htrail : Trail items inv) (hn : n ≤ m + 1) :
    Settles like (Placed like) (identifier wanted) (identifier wanted)
      (Within inv depth n) fun _ => Within inv depth m := by
  refine .peek fun kind _ _ pos pos' hpos => ?_
  cases kind with
  | ident name => exact .pass htrail rfl hn fun _ _ _ => .done ⟨rfl, hpos⟩
  | _ => exact .expected

/-- Tokens that may stand anywhere are passed over. -/
theorem skipWhile_holds (htrail : Trail items inv) {skipped : TokenKind → Bool}
    (hskipped : ∀ kind, skipped kind = true →
      kind.depthAfter items depth = some depth) :
    Holds like inv depth n Eq (skipWhile skipped) (skipWhile skipped) := by
  have hdrop : ∀ {tokens : List Token} {last : Token},
    inv depth (tokens ++ [last]) →
      inv depth ((tokens.dropWhile fun token => skipped token.kind) ++
        [last]) := by
    intro tokens last
    induction tokens with
    | nil => exact id
    | cons token rest ih =>
        intro hinv
        rw [List.dropWhile_cons]
        split
        · next hskip => exact ih (htrail hinv (hskipped _ hskip))
        · exact hinv
  intro s t halike hst
  refine .ok
    ⟨rfl, { halike with ahead := Token.Alike.dropWhile halike.ahead skipped },
    hdrop hst.trail, hst.last, ?_⟩
  exact Nat.lt_of_le_of_lt (List.dropWhile_suffix _).length_le hst.short

theorem skipLineBreaks_holds (htrail : Trail items inv) :
    Holds like inv depth n Eq skipLineBreaks skipLineBreaks := by
  refine skipWhile_holds htrail fun kind hkind => ?_
  rw [beq_iff_eq.mp hkind]
  rfl

theorem skipSeparators_holds (htrail : Trail items inv) :
    Holds like inv depth n Eq skipSeparators skipSeparators := by
  refine skipWhile_holds htrail fun kind hkind => ?_
  rcases Bool.or_eq_true_iff.mp hkind with hkind | hkind <;>
    rw [beq_iff_eq.mp hkind] <;> rfl

theorem endStatement_holds (htrail : Trail items inv) :
    Holds like inv depth n Eq endStatement endStatement := by
  refine .peekKind fun kind => ?_
  cases kind with
  | newline | semicolon =>
      exact .pass htrail rfl (Nat.le_succ n) fun _ _ _ => .done rfl
  | rbrace | eof => exact .pure rfl fun _ hst => hst.1
  | keyword word =>
      cases word with
      | caseWord | defaultWord => exact .pure rfl fun _ hst => hst.1
      | _ => exact .expected
  | _ => exact .expected

/-! Steps that read no token. -/

theorem modifyScope_holds {change : Scope → Scope} :
    Holds like inv depth n Eq (modifyScope change) (modifyScope change) :=
  fun _ _ halike hst =>
    .ok ⟨rfl, { halike with scope := congrArg change halike.scope },
    hst.of_tokens rfl rfl⟩

theorem hiddenName_holds {stem : String} :
    Holds like inv depth n Eq (hiddenName stem) (hiddenName stem) :=
  fun _ _ halike hst => .ok ⟨congrArg (hiddenNameAt stem) halike.hidden,
    { halike with hidden := congrArg (· + 1) halike.hidden },
    hst.of_tokens rfl rfl⟩

theorem atType_holds : Holds like inv depth n Eq atType atType := by
  refine .peekKind fun kind => ?_
  cases kind with
  | lbracket => exact .peekAfter fun _ => .pure rfl fun _ hst => hst.1.1
  | _ => exact .pure rfl fun _ hst => hst.1

/-! Recursion. -/

/-- Parsers that read at least one token wherever few tokens are ahead. -/
theorem holds_of_advances {p q : Parse α}
    (h : ∀ m, m < n → Advances like inv depth m R p q) :
    Holds like inv depth n R p q := by
  intro s t halike hst
  cases n with
  | zero => exact absurd hst.short (Nat.not_lt_zero _)
  | succ n => exact ((h n n.lt_succ_self).conclude
      fun _ _ hst => hst.mono n.le_succ) halike hst

/-- A repetition ends, since every round that is not the last reads a token. -/
theorem iterate_settles {round round' : α → Parse (Round α β)}
    (hround : ∀ a b m, R a b → m < n →
      Settles like (Round.Alike R S) (round a) (round' b)
      (Within inv depth (m + 1)) (Round.Then (fun _ => Within inv depth m)
        fun _ => Within inv depth (m + 1))) {a b : α} (hab : R a b) :
    Holds like inv depth n S (iterate round a) (iterate round' b) := by
  -- the rounds allowed are more than the tokens ahead
  have hrounds : ∀ rounds a b s t, R a b → s.Alike like t →
    s.Within inv depth n →
      s.ahead.length < rounds →
        Agree like (fun x y => S x.1 y.1 ∧ x.2.Alike like y.2 ∧
        x.2.Within inv depth n) (iterateAt round rounds a s)
          (iterateAt round' rounds b t) := by
    intro rounds
    induction rounds with
    | zero => exact fun _ _ _ _ _ _ _ hlt => absurd hlt (Nat.not_lt_zero _)
    | succ rounds ih =>
        intro a b s t hab halike hst hlt
        refine (hround a b s.ahead.length hab hst.short halike
          ⟨hst.trail, hst.last, Nat.lt_succ_self _⟩).bind ?_
        rintro ⟨_, mid⟩ ⟨_, mid'⟩ ⟨hdecided, hmid, hpost⟩
        cases hdecided with
        | again hnext =>
            exact ih _ _ mid mid' hnext hmid (hpost.mono hst.short.le)
              (Nat.lt_of_lt_of_le hpost.short (Nat.le_of_lt_succ hlt))
        | done hresult => exact .ok ⟨hresult, hmid, hpost.mono hst.short⟩
  intro s t halike hst
  change Agree like _ (iterateAt round (s.ahead.length + 1) a s)
    (iterateAt round' (t.ahead.length + 1) b t)
  rw [← halike.ahead.length_eq]
  exact hrounds _ a b s t hab halike hst (Nat.lt_succ_self _)

/-- A repetition whose rounds give the same values. -/
theorem iterate_holds {round round' : α → Parse (Round α β)}
    (hround : ∀ value m, m < n → Settles like Eq (round value) (round' value)
      (Within inv depth (m + 1)) (Round.Then (fun _ => Within inv depth m)
        fun _ => Within inv depth (m + 1))) (value : α) :
    Holds like inv depth n Eq (iterate round value) (iterate round' value) := by
  refine iterate_settles (R := Eq) ?_ rfl
  rintro a _ m rfl hm
  rw [Round.alike_eq]
  exact hround a m hm

section Nested

variable {rule : Parse α → Parse α}
  (hrule : ∀ {limit : Nat} {p q : Parse α},
    (∀ depth n, n < limit → Advances like inv depth n Eq p q) →
    ∀ depth n, n ≤ limit → Advances like inv depth n Eq (rule p) (rule q))

include hrule

theorem nestedAt_advances {limit fuel fuel' : Nat} (hfuel : limit ≤ fuel)
    (hfuel' : limit ≤ fuel') (hn : n < limit) :
    Advances like inv depth n Eq (nestedAt rule fuel)
      (nestedAt rule fuel') := by
  induction limit generalizing fuel fuel' depth n with
  | zero => exact absurd hn (Nat.not_lt_zero _)
  | succ limit ih =>
      obtain ⟨fuel, rfl⟩ := Nat.exists_eq_add_of_le'
        (Nat.le_of_add_left_le hfuel)
      obtain ⟨fuel', rfl⟩ := Nat.exists_eq_add_of_le'
        (Nat.le_of_add_left_le hfuel')
      exact hrule (fun _ _ hn => ih (Nat.le_of_succ_le_succ hfuel)
        (Nat.le_of_succ_le_succ hfuel') hn) depth n (Nat.le_of_lt_succ hn)

/-- A bound above the number of tokens ahead is as good as any other. -/
theorem nestedAt_nested_advances {fuel : Nat} (hn : n < fuel) :
    Advances like inv depth n Eq (nestedAt rule fuel) (nested rule) := by
  intro s t halike hst
  have hlt : s.ahead.length < fuel := Nat.lt_of_lt_of_le hst.short hn
  change Agree like _ (nestedAt rule fuel s)
    (nestedAt rule (t.ahead.length + 1) t)
  rw [← halike.ahead.length_eq]
  exact (nestedAt_advances hrule hlt le_rfl (Nat.lt_succ_self _)).conclude
    (fun _ _ h => h.mono (Nat.le_of_lt_succ hst.short)) halike
    ⟨hst.trail, hst.last, Nat.lt_succ_self _⟩

theorem nested_advances : Advances like inv depth n Eq (nested rule)
    (nested rule) := by
  intro s t halike hst
  have hinner : Advances like inv depth s.ahead.length Eq
    (nestedAt rule (s.ahead.length + 1))
      (nested rule) := nestedAt_nested_advances hrule (Nat.lt_succ_self _)
  exact hinner.conclude
    (fun _ _ h => h.mono (Nat.le_of_lt_succ hst.short)) halike
    ⟨hst.trail, hst.last, Nat.lt_succ_self _⟩

end Nested

/-- A nested rule contains itself. -/
theorem nested_eq {rule : Parse α → Parse α}
    (hrule : ∀ {limit : Nat} {p q : Parse α},
      (∀ depth n, n < limit → Advances Eq inv depth n Eq p q) →
      ∀ depth n, n ≤ limit → Advances Eq inv depth n Eq (rule p) (rule q))
    {st : ParserState} (hst : st.Within inv depth n) :
    nested rule st = rule (nested rule) st := by
  have hinner : Advances Eq inv depth st.ahead.length Eq
    (rule (nestedAt rule st.ahead.length))
      (rule (nested rule)) :=
    hrule (fun _ _ hn => nestedAt_nested_advances hrule hn) depth _ le_rfl
  have hsame := (hinner (.refl st) ⟨hst.trail, hst.last, Nat.lt_succ_self _⟩).eq
    fun _ _ h => Prod.ext h.1 h.2.1.eq
  exact hsame

/-! Types and lists of items. -/

theorem baseType_settles (htrail : Trail items inv) {isList : Bool}
    (hn : n ≤ m + 1) :
    Settles like Eq (baseType isList) (baseType isList) (Within inv depth n)
      fun _ => Within inv depth m := by
  refine .peekKind fun kind => ?_
  cases kind with
  | ident name =>
      dsimp only
      cases BaseType.ofName? name with
      | some base => exact .pass htrail rfl hn fun _ _ _ => .done rfl
      | none => exact .expected
  | _ => exact .expected

theorem valueType_advances (htrail : Trail items inv) :
    Advances like inv depth n Eq valueType valueType := by
  rw [valueType_eq]
  refine .accepting htrail rfl le_rfl (.ite (fun _ => ?_) fun hne => ?_)
    (.ite (fun heq => ?_) fun _ => ?_)
  · exact (expect_settles htrail rfl n.le_succ).step
      fun _ => baseType_settles htrail n.le_succ
  · exact absurd rfl hne
  · exact absurd heq Bool.false_ne_true
  · exact baseType_settles htrail le_rfl

theorem valueType_holds (htrail : Trail items inv) :
    Holds like inv depth n Eq valueType valueType :=
  holds_of_advances fun _ _ => valueType_advances htrail

/-- Items inside of brackets. -/
theorem commaSeparated_settles (htrail : Trail items inv)
    {item item' : List α → Parse α}
    (hitem : ∀ before before' m, List.Forall₂ R before before' → m ≤ n →
      Holds like inv (depth + 1) m R (item before) (item' before')) :
    Holds like inv (depth + 1) n (List.Forall₂ R) (commaSeparated close item)
      (commaSeparated close item') := by
  refine (skipLineBreaks_holds htrail).step fun _ =>
    iterate_settles (R := List.Forall₂ R)
      (fun before before' m hbefore hm => ?_) .nil
  refine .peekKind fun kind => .weaken ?_ fun _ hst => hst.1
  refine .ite (fun _ => .pure (.done hbefore) fun _ => id) fun _ =>
    (hitem before before' (m + 1) hbefore hm).bind fun next next' hnext => ?_
  refine (skipLineBreaks_holds htrail).step
    fun _ => .accept htrail rfl le_rfl ?_ ?_
  · exact (skipLineBreaks_holds htrail).step fun _ =>
      .pure (.again (forall₂_concat hbefore hnext)) fun _ => id
  · exact .pure (.done (forall₂_concat hbefore hnext)) fun _ => id

theorem commaSeparated_holds (htrail : Trail items inv) {item item' : Parse α}
    (hitem : ∀ m, m ≤ n → Holds like inv (depth + 1) m Eq item item') :
    Holds like inv (depth + 1) n Eq (commaSeparated close fun _ => item)
      (commaSeparated close fun _ => item') := by
  rw [← List.forall₂_eq_eq_eq]
  exact commaSeparated_settles htrail fun _ _ m _ => hitem m

end Steps

end Parse

end Shellwright
