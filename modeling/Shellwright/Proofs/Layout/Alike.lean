/-
Two parses of the same words in different layouts.  A relation `like` says which
tokens of the two texts belong together.  Either both parses succeed, with
values that correspond, or both fail with the same fault of the program, at the
places of tokens that belong together.
-/
import Mathlib
import Shellwright.Proofs.Parse.Steps

namespace Shellwright

section Relations

variable (like : Token → Token → Prop)

/-- Tokens of one kind that belong together.  Their texts and places may
differ. -/
structure Token.Alike (left right : Token) : Prop where
  kind : left.kind = right.kind
  like : like left right

structure ParserState.Alike (left right : ParserState) : Prop where
  ahead : List.Forall₂ (Token.Alike like) left.ahead right.ahead
  last : left.last.Alike like right.last
  scope : left.scope = right.scope
  hidden : left.hidden = right.hidden

/-- The places of tokens that belong together. -/
def Near (p q : Position) : Prop :=
  ∃ left right : Token, like left right ∧ p = left.pos ∧ q = right.pos

/-- Equal things at places that belong together. -/
structure Placed {α : Type} (left right : α × Position) : Prop where
  value : left.1 = right.1
  pos : Near like left.2 right.2

/-- Results that correspond, or the same fault at places that belong together.
The bounds of the parser are no matter of the program. -/
inductive Agree {α : Type} (R : α → α → Prop) :
    Except SyntaxError α → Except SyntaxError α → Prop where
  | ok {a b} : R a b → Agree R (.ok a) (.ok b)
  | error {fault p q} (hpos : Near like p q) (hfault : fault ≠ .tooDeep) :
      Agree R (.error ⟨fault, p⟩) (.error ⟨fault, q⟩)

/-- Both rounds decide the same. -/
inductive Round.Alike {α β : Type} (R : α → α → Prop) (S : β → β → Prop) :
    Round α β → Round α β → Prop where
  | again {a b} : R a b → Round.Alike R S (.again a) (.again b)
  | done {a b} : S a b → Round.Alike R S (.done a) (.done b)

end Relations

variable {like : Token → Token → Prop} {α β : Type} {R : α → α → Prop}
  {S : β → β → Prop}

namespace Placed

variable {left right : List (α × Position)}

/-- What does not depend on the places. -/
theorem map_eq {f : α × Position → β}
    (h : List.Forall₂ (Placed like) left right)
    (hf : ∀ a p q, f (a, p) = f (a, q)) : left.map f = right.map f := by
  induction h with
  | nil => rfl
  | @cons first first' _ _ hfirst _ ih =>
      obtain ⟨value, p⟩ := first
      obtain ⟨_, q⟩ := first'
      obtain ⟨rfl, _⟩ := hfirst
      rw [List.map_cons, List.map_cons, hf value p q, ih]

theorem map_fst (h : List.Forall₂ (Placed like) left right) :
    left.map Prod.fst = right.map Prod.fst := map_eq h fun _ _ _ => rfl

theorem any_eq {f : α × Position → Bool}
    (h : List.Forall₂ (Placed like) left right)
    (hf : ∀ a p q, f (a, p) = f (a, q)) : left.any f = right.any f := by
  have hid : ∀ items : List (α × Position),
      items.any f = (items.map f).any id := by simp
  rw [hid, hid, map_eq h hf]

theorem map_snd (h : List.Forall₂ (Placed like) left right) :
    List.Forall₂ (Near like) (left.map Prod.snd) (right.map Prod.snd) := by
  induction h with
  | nil => exact .nil
  | cons hfirst _ ih => exact .cons hfirst.pos ih

end Placed

theorem forall₂_concat {left right : List α} {a b : α}
    (h : List.Forall₂ R left right) (hab : R a b) :
    List.Forall₂ R (left ++ [a]) (right ++ [b]) :=
  List.rel_append h (.cons hab .nil)

theorem Round.alike_eq : (Round.Alike Eq Eq : Round α β → Round α β →
    Prop) = Eq := by
  funext left right
  apply propext
  constructor
  · rintro (rfl | rfl) <;> rfl
  · rintro rfl
    cases left with
    | again value => exact .again rfl
    | done result => exact .done rfl

namespace Token.Alike

variable {left right : List Token}

theorem pos {left right : Token} (h : left.Alike like right) :
    Near like left.pos right.pos :=
  ⟨left, right, h.like, rfl, rfl⟩

theorem headD {last last' : Token}
    (h : List.Forall₂ (Token.Alike like) left right)
    (hlast : last.Alike like last') :
    (left.headD last).Alike like (right.headD last') := by
  cases h with
  | nil => exact hlast
  | cons hfirst _ => exact hfirst

theorem map_kind (h : List.Forall₂ (Token.Alike like) left right) :
    left.map Token.kind = right.map Token.kind := by
  induction h with
  | nil => rfl
  | cons hfirst _ ih => rw [List.map_cons, List.map_cons, hfirst.kind, ih]

theorem dropWhile (h : List.Forall₂ (Token.Alike like) left right)
    (skipped : TokenKind → Bool) :
    List.Forall₂ (Token.Alike like) (left.dropWhile
      fun token => skipped token.kind)
      (right.dropWhile fun token => skipped token.kind) := by
  induction h with
  | nil => exact .nil
  | @cons first first' rest rest' hfirst hrest ih =>
      rw [List.dropWhile_cons, List.dropWhile_cons, hfirst.kind]
      by_cases hskip : skipped first'.kind = true
      · rw [if_pos hskip, if_pos hskip]
        exact ih
      · rw [if_neg hskip, if_neg hskip]
        exact .cons hfirst hrest

end Token.Alike

namespace Agree

variable {x y : Except SyntaxError α} {f g : α → Except SyntaxError β}

theorem bind (h : Agree like R x y)
    (hf : ∀ a b, R a b → Agree like S (f a) (g b)) :
    Agree like S (x >>= f) (y >>= g) := by
  cases h with
  | ok hab => exact hf _ _ hab
  | error hpos hfault => exact .error hpos hfault

/-- Both results are the same value. -/
theorem step (h : Agree like Eq x y) (hf : ∀ a, Agree like S (f a) (g a)) :
    Agree like S (x >>= f) (y >>= g) :=
  h.bind fun a _ hab => hab ▸ hf a

theorem ite {c : Prop} [Decidable c] {x' y' : Except SyntaxError α}
    (hx : c → Agree like R x y) (hy : ¬c → Agree like R x' y') :
    Agree like R (if c then x else x') (if c then y else y') := by
  by_cases hc : c
  · rw [if_pos hc, if_pos hc]
    exact hx hc
  · rw [if_neg hc, if_neg hc]
    exact hy hc

end Agree

namespace ParserState.Alike

variable {s t : ParserState}

theorem next (h : s.Alike like t) : s.next.Alike like t.next :=
  .headD h.ahead h.last

theorem advanced (h : s.Alike like t) : s.advanced.Alike like t.advanced :=
  { h with
    ahead := by
      simpa [ParserState.advanced] using List.forall₂_drop 1 h.ahead }

theorem kind_after (h : s.Alike like t) (n : Nat) :
    s.ahead[n]?.map Token.kind = t.ahead[n]?.map Token.kind := by
  rw [← List.getElem?_map, ← List.getElem?_map, Token.Alike.map_kind h.ahead]

/-- A state is like itself, token by token. -/
theorem refl (s : ParserState) : s.Alike Eq s :=
  ⟨List.forall₂_same.mpr fun _ _ => ⟨rfl, rfl⟩, ⟨rfl, rfl⟩, rfl, rfl⟩

theorem eq (h : s.Alike Eq t) : s = t := by
  obtain ⟨hahead, ⟨_, hlast⟩, hscope, hhidden⟩ := h
  obtain ⟨ahead, last, scope, hidden⟩ := s
  obtain ⟨ahead', last', scope', hidden'⟩ := t
  obtain rfl : ahead = ahead' := List.forall₂_eq_eq_eq ▸
    hahead.imp fun _ _ htoken => htoken.like
  obtain rfl : last = last' := hlast
  obtain rfl : scope = scope' := hscope
  obtain rfl : hidden = hidden' := hhidden
  rfl

end ParserState.Alike

end Shellwright
