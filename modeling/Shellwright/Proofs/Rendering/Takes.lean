/-
Parsers on inputs that are known in advance.  What a parser takes off the front
of its input is described by the kinds of the tokens and by what may follow
them; texts and positions of tokens never decide what is read.
-/
import Shellwright.Proofs.Parse.Expr

namespace Shellwright

/-- The state before other tokens. -/
def ParserState.facing (st : ParserState) (tokens : List Token) : ParserState :=
  { st with ahead := tokens }

namespace Parse

variable {α β : Type} {st : ParserState} {value : α} {result : β} {c : Prop}
  {q : Parse α} {round : α → Parse (Round α β)}

/-- Off any input that starts with tokens of the given kinds and goes on with a
kind allowed by `follow`, the parser reads just these tokens, and its result has
the property. -/
def Takes (st : ParserState) (follow : TokenKind → Prop) (p : Parse α)
    (kinds : List TokenKind) (Q : α → Prop) : Prop :=
  ∀ tokens rest, tokens.map Token.kind = kinds →
    follow (rest.headD st.last).kind →
    ∃ a, p (st.facing (tokens ++ rest)) = .ok (a, st.facing rest) ∧ Q a

/-- The kind of the token that is next when tokens of the given kinds are
ahead. -/
theorem next_kind_facing {tokens : List Token} {kinds : List TokenKind}
    (h : tokens.map Token.kind = kinds) (rest : List Token) :
    ((tokens ++ rest).headD st.last).kind = kinds.headD
    (rest.headD st.last).kind := by
  subst h
  cases tokens with
  | nil => rfl
  | cons token tokens => rfl

namespace Takes

variable {follow follow' : TokenKind → Prop} {kinds kinds' : List TokenKind}
  {kind : TokenKind} {p : Parse α} {f : α → Parse β} {Q : α → Prop}
  {R : β → Prop} {x : Except SyntaxError α}

theorem mono {Q' : α → Prop} (h : Takes st follow p kinds Q)
    (hQ : ∀ a, Q a → Q' a) : Takes st follow p kinds Q' := by
  intro tokens rest htokens hrest
  obtain ⟨a, hp, ha⟩ := h tokens rest htokens hrest
  exact ⟨a, hp, hQ a ha⟩

theorem weaken (h : Takes st follow' p kinds Q)
    (hfollow : ∀ kind, follow kind → follow' kind) :
    Takes st follow p kinds Q :=
  fun tokens rest htokens hrest => h tokens rest htokens (hfollow _ hrest)

theorem pure {a : α} (h : Q a) : Takes st follow (Pure.pure a) [] Q := by
  intro tokens rest htokens _
  obtain rfl := List.map_eq_nil_iff.mp htokens
  exact ⟨a, rfl, h⟩

theorem bind (hp : Takes st follow' p kinds Q)
    (hf : ∀ a, Q a → Takes st follow (f a) kinds' R)
    (hfollow : ∀ kind, follow kind → follow' (kinds'.headD kind)) :
    Takes st follow (p >>= f) (kinds ++ kinds') R := by
  intro tokens rest htokens hrest
  obtain ⟨first, second, rfl, hfirst, hsecond⟩ :=
    List.map_eq_append_iff.mp htokens
  have hnext : follow' ((second ++ rest).headD st.last).kind := by
    rw [next_kind_facing hsecond]
    exact hfollow _ hrest
  obtain ⟨a, ha, hQ⟩ := hp first (second ++ rest) hfirst hnext
  obtain ⟨b, hb, hR⟩ := hf a hQ second rest hsecond hrest
  rw [List.append_assoc]
  exact ⟨b, bind_ok.mpr ⟨a, _, ha, hb⟩, hR⟩

/-- The last part of a parser. -/
theorem bind_done (hp : Takes st follow p kinds Q)
    (hf : ∀ a, Q a → Takes st follow (f a) [] R) :
    Takes st follow (p >>= f) kinds R := by
  have h := hp.bind hf fun _ hkind => hkind
  rwa [List.append_nil] at h

theorem map {g : α → β} (hp : Takes st follow p kinds Q)
    (hg : ∀ a, Q a → R (g a)) : Takes st follow (g <$> p) kinds R := by
  rw [map_eq_pure_bind]
  exact hp.bind_done fun a ha => .pure (hg a ha)

/-! Single tokens. -/

theorem advance {f : Token → Parse β}
    (h : ∀ token, token.kind = kind → Takes st follow (f token) kinds R) :
    Takes st follow (Parse.advance >>= f) (kind :: kinds) R := by
  intro tokens rest htokens hrest
  obtain ⟨token, tokens, rfl, htoken, htail⟩ := List.map_eq_cons_iff.mp htokens
  obtain ⟨b, hb, hR⟩ := h token htoken tokens rest htail hrest
  exact ⟨b, hb, hR⟩

theorem expect {f : Unit → Parse β} (h : Takes st follow (f ()) kinds R) :
    Takes st follow (Parse.expect kind >>= f) (kind :: kinds) R := by
  intro tokens rest htokens hrest
  obtain ⟨token, tokens, rfl, htoken, htail⟩ := List.map_eq_cons_iff.mp htokens
  obtain ⟨b, hb, hR⟩ := h tokens rest htail hrest
  exact ⟨b, bind_ok.mpr ⟨(), _, expect_ok.mpr ⟨htoken, rfl⟩, hb⟩, hR⟩

theorem accept {f : Bool → Parse β} (h : Takes st follow (f true) kinds R) :
    Takes st follow (Parse.accept kind >>= f) (kind :: kinds) R := by
  intro tokens rest htokens hrest
  obtain ⟨token, tokens, rfl, htoken, htail⟩ := List.map_eq_cons_iff.mp htokens
  obtain ⟨b, hb, hR⟩ := h tokens rest htail hrest
  exact ⟨b, bind_ok.mpr ⟨true, _, accept_true.mpr ⟨htoken, rfl⟩, hb⟩, hR⟩

/-- A token that is not there is not read. -/
theorem reject {f : Bool → Parse β}
    (hother : ∀ next, follow next → kinds.headD next ≠ kind)
    (h : Takes st follow (f false) kinds R) :
    Takes st follow (Parse.accept kind >>= f) kinds R := by
  intro tokens rest htokens hrest
  obtain ⟨b, hb, hR⟩ := h tokens rest htokens hrest
  refine ⟨b, bind_ok.mpr ⟨false, _, accept_false.mpr ⟨?_, rfl⟩, hb⟩, hR⟩
  have hnext := hother _ hrest
  rwa [← next_kind_facing htokens] at hnext

/-! Steps that read nothing. -/

theorem peek {f : Token → Parse β} (h : ∀ token next, follow next →
    token.kind = kinds.headD next → Takes st follow (f token) kinds R) :
    Takes st follow (Parse.peek >>= f) kinds R := by
  intro tokens rest htokens hrest
  exact h _ _ hrest (next_kind_facing htokens rest) tokens rest htokens hrest

theorem peekAt {f : Token → Parse β}
    (h : ∀ text pos, Takes st follow (f ⟨kind, text, pos⟩) (kind :: kinds) R) :
    Takes st follow (Parse.peek >>= f) (kind :: kinds) R := by
  refine .peek fun token _ _ htoken => ?_
  obtain ⟨found, text, pos⟩ := token
  obtain rfl : found = kind := htoken
  exact h text pos

theorem peekKind {f : TokenKind → Parse β}
    (h : ∀ next, follow next → Takes st follow (f (kinds.headD next)) kinds R) :
    Takes st follow (Parse.peekKind >>= f) kinds R := by
  intro tokens rest htokens hrest
  have hnext := h _ hrest tokens rest htokens hrest
  rwa [← next_kind_facing htokens rest] at hnext

theorem position {f : Position → Parse β}
    (h : ∀ pos, Takes st follow (f pos) kinds R) :
    Takes st follow (Parse.position >>= f) kinds R :=
  fun tokens rest htokens hrest => h _ tokens rest htokens hrest

theorem skipLineBreaks {f : Unit → Parse β}
    (hother : ∀ next, follow next → kinds.headD next ≠ .newline)
    (h : Takes st follow (f ()) kinds R) :
    Takes st follow (Parse.skipLineBreaks >>= f) kinds R := by
  intro tokens rest htokens hrest
  obtain ⟨b, hb, hR⟩ := h tokens rest htokens hrest
  refine ⟨b, bind_ok.mpr ⟨(), st.facing (tokens ++ rest), ?_, hb⟩, hR⟩
  have hnext := hother _ hrest
  rw [← next_kind_facing htokens rest] at hnext
  have hkept :
    (tokens ++ rest).dropWhile (fun token => token.kind == .newline) =
      tokens ++ rest := by
    cases hall : tokens ++ rest with
    | nil => rfl
    | cons token others =>
        rw [hall] at hnext
        exact List.dropWhile_cons_of_neg (by simpa using hnext)
  rw [Parse.skipLineBreaks, skipWhile_eq]
  simp only [ParserState.facing, hkept]

theorem lift {a : α} (hx : x = .ok a) (h : Takes st follow (f a) kinds R) :
    Takes st follow (liftM x >>= f) kinds R := by
  intro tokens rest htokens hrest
  obtain ⟨b, hb, hR⟩ := h tokens rest htokens hrest
  exact ⟨b, bind_ok.mpr ⟨a, _, lift_ok.mpr ⟨hx, rfl⟩, hb⟩, hR⟩

theorem lift_last {a : α} (hx : x = .ok a) (h : Q a) :
    Takes st follow (liftM x) [] Q := by
  have hlift : Takes st follow (liftM x >>= Pure.pure) [] Q :=
    .lift hx (.pure h)
  rwa [bind_pure] at hlift

theorem ite_pos [Decidable c] (hc : c) (h : Takes st follow p kinds Q) :
    Takes st follow (if c then p else q) kinds Q := by
  rwa [if_pos hc]

theorem ite_neg [Decidable c] (hc : ¬c) (h : Takes st follow p kinds Q) :
    Takes st follow (if c then q else p) kinds Q := by
  rwa [if_neg hc]

/-! Expressions. -/

variable {expr : Parse Expr} {e : Expr}

theorem single (h : Takes st follow expr kinds (· = e))
    (hyields : e.Yields e.ty) :
    Takes st follow (Parse.single expr) kinds (· = e) := by
  intro tokens rest htokens hrest
  obtain ⟨_, he, rfl⟩ := h tokens rest htokens hrest
  exact ⟨_, single_ok.mpr ⟨he, hyields⟩, rfl⟩

theorem typed {ty : ValueType} {role : Role}
    (h : Takes st follow expr kinds (· = e)) (hyields : e.Yields ty) :
    Takes st follow (Parse.typed expr ty role) kinds (· = e) := by
  intro tokens rest htokens hrest
  obtain ⟨_, he, rfl⟩ := h tokens rest htokens hrest
  exact ⟨_, typed_ok.mpr ⟨he, hyields⟩, rfl⟩

end Takes

/-! Repetitions. -/

/-- More rounds than needed do no harm. -/
theorem iterateAt_mono {rounds more : Nat} {st st' : ParserState}
    (hle : rounds ≤ more)
    (h : iterateAt round rounds value st = .ok (result, st')) :
    iterateAt round more value st = .ok (result, st') := by
  induction rounds generalizing more value st with
  | zero => simp [iterateAt] at h
  | succ rounds ih =>
      obtain ⟨more, rfl⟩ := Nat.exists_eq_add_of_le' (Nat.le_of_add_left_le hle)
      obtain ⟨outcome, mid, hround, h⟩ := bind_ok.mp h
      refine bind_ok.mpr ⟨outcome, mid, hround, ?_⟩
      cases outcome with
      | again next => exact ih (Nat.le_of_succ_le_succ hle) h
      | done final => exact h

theorem iterate_done {st st' : ParserState}
    (h : round value st = .ok (.done result, st')) :
    iterate round value st = .ok (result, st') := by
  rw [iterate, get_bind]
  exact bind_ok.mpr ⟨_, _, h, rfl⟩

/-- A round that reads something leaves enough rounds to the rest. -/
theorem iterate_again {next : α} {st mid st' : ParserState}
    (hround : round value st = .ok (.again next, mid))
    (hread : mid.ahead.length < st.ahead.length)
    (h : iterate round next mid = .ok (result, st')) :
    iterate round value st = .ok (result, st') := by
  rw [iterate, get_bind]
  exact bind_ok.mpr ⟨_, _, hround, iterateAt_mono hread h⟩

namespace Takes

variable {follow follow' : TokenKind → Prop} {kinds kinds' : List TokenKind}
  {round : α → Parse (Round α β)} {value : α} {Q : β → Prop}

theorem done (h : Takes st follow (round value) kinds fun outcome =>
    ∃ result, outcome = .done result ∧ Q result) :
    Takes st follow (iterate round value) kinds Q := by
  intro tokens rest htokens hrest
  obtain ⟨_, hround, result, rfl, hQ⟩ := h tokens rest htokens hrest
  exact ⟨result, iterate_done hround, hQ⟩

theorem again {P : α → Prop}
    (h : Takes st follow' (round value) kinds fun outcome =>
      ∃ next, outcome = .again next ∧ P next) (hkinds : kinds ≠ [])
    (hrest : ∀ next, P next → Takes st follow (iterate round next) kinds' Q)
    (hfollow : ∀ kind, follow kind → follow' (kinds'.headD kind)) :
    Takes st follow (iterate round value) (kinds ++ kinds') Q := by
  intro tokens rest htokens hlast
  obtain ⟨first, second, rfl, hfirst, hsecond⟩ :=
    List.map_eq_append_iff.mp htokens
  have hnext : follow' ((second ++ rest).headD st.last).kind := by
    rw [next_kind_facing hsecond]
    exact hfollow _ hlast
  obtain ⟨_, hround, next, rfl, hP⟩ := h first (second ++ rest) hfirst hnext
  obtain ⟨result, hresult, hQ⟩ := hrest next hP second rest hsecond hlast
  rw [List.append_assoc]
  refine ⟨result, iterate_again hround ?_ hresult, hQ⟩
  have hread : first ≠ [] := fun hnil => hkinds (by rw [← hfirst, hnil]; rfl)
  have := List.length_pos_iff.mpr hread
  simp only [ParserState.facing, List.length_append]
  omega

end Takes

end Parse

end Shellwright
