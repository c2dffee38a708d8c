/-
Contracts about fragments.  A contract says what the states of a dialect are
like and what a fragment for a scalar or for a list may look like.  What has
been a fragment once stays one while the writing goes on, whether it succeeds or
not.
-/
import Shellwright.Proofs.Script.Run
import Shellwright.Proofs.Typing
import Shellwright.Text.Word

namespace Shellwright

namespace Script

/-- What is demanded of a dialect with states `σ`.  `fragment s isList text`
says that `text` may stand for a value, or for a list, in the state `s`. -/
structure Contract (σ : Type) where
  holds : σ → Prop
  grows : σ → σ → Prop
  fragment : σ → Bool → String → Prop
  refl : ∀ s, grows s s
  trans : ∀ {s mid s'}, grows s mid → grows mid s' → grows s s'
  mono : ∀ {s s' isList text}, grows s s' → fragment s isList text →
    fragment s' isList text

namespace Contract

variable {σ α β : Type} {c : Contract σ}

/-- From `s` the writer leaves a state that is held and has grown, and its value
has the property `Q` there. -/
structure Ensures (c : Contract σ) (s : σ) (p : Write σ α) (Q : α → σ → Prop) :
    Prop where
  holds : c.holds (exec p s).2
  grows : c.grows s (exec p s).2
  yields : ∀ a, (exec p s).1 = .ok a → Q a (exec p s).2

namespace Ensures

variable {s : σ} {p : Write σ α} {Q : α → σ → Prop} {condition : Prop}
  {items : List α} {error : ScriptError} {Q' : β → σ → Prop} {f : α → Write σ β}

theorem weaken {Q' : α → σ → Prop} (h : c.Ensures s p Q)
    (hQ : ∀ a s', c.grows s s' → Q a s' → Q' a s') : c.Ensures s p Q' :=
  ⟨h.holds, h.grows, fun a ha => hQ a _ h.grows (h.yields a ha)⟩

theorem pure {a : α} (hs : c.holds s) (ha : Q a s) :
    c.Ensures s (Pure.pure a) Q where
  holds := hs
  grows := c.refl s
  yields := by
    rintro _ ⟨⟩
    exact ha

theorem throw (hs : c.holds s) : c.Ensures s (MonadExcept.throw error) Q where
  holds := hs
  grows := c.refl s
  yields := by
    rintro _ ⟨⟩

theorem bind (h : c.Ensures s p Q)
    (hf : ∀ a s', c.holds s' → c.grows s s' → Q a s' → c.Ensures s' (f a) Q') :
    c.Ensures s (p >>= f) Q' := by
  rcases hrun : exec p s with ⟨result, s'⟩
  obtain ⟨hholds, hgrows, hyields⟩ := h
  rw [hrun] at hholds hgrows hyields
  cases result with
  | error error =>
      have hwhole : exec (p >>= f) s = (.error error, s') :=
        exec_bind_error hrun
      refine ⟨by rwa [hwhole], by rwa [hwhole], ?_⟩
      rw [hwhole]
      rintro _ ⟨⟩
  | ok a =>
      have hwhole : exec (p >>= f) s = exec (f a) s' := exec_bind_ok hrun
      have hrest := hf a s' hholds hgrows (hyields a rfl)
      refine ⟨by rw [hwhole]; exact hrest.holds, ?_, by
        rw [hwhole]; exact hrest.yields⟩
      rw [hwhole]
      exact c.trans hgrows hrest.grows

theorem ite [Decidable condition] {q : Write σ α}
    (hp : condition → c.Ensures s p Q) (hq : ¬condition → c.Ensures s q Q) :
    c.Ensures s (if condition then p else q) Q := by
  by_cases hcondition : condition
  · rw [if_pos hcondition]
    exact hp hcondition
  · rw [if_neg hcondition]
    exact hq hcondition

theorem pure_bind {a : α} (h : c.Ensures s (f a) Q') :
    c.Ensures s (Pure.pure a >>= f) Q' :=
  ⟨h.holds, h.grows, h.yields⟩

theorem throw_bind (hs : c.holds s) :
    c.Ensures s (MonadExcept.throw error >>= f) Q' where
  holds := hs
  grows := c.refl s
  yields := by
    rintro _ ⟨⟩

/-- A check that ends the writer where it fails. -/
theorem check [Decidable condition] (hs : c.holds s) (h : c.Ensures s p Q) :
    c.Ensures s (do
      if condition then MonadExcept.throw error
      p) Q :=
  .ite (fun _ => .throw_bind hs) fun _ => h

/-- A writer that looks at the state first. -/
theorem get {f : σ → Write σ β} (h : c.Ensures s (f s) Q') :
    c.Ensures s (MonadState.get >>= f) Q' :=
  ⟨h.holds, h.grows, h.yields⟩

theorem forM {step : α → Write σ Unit} (hs : c.holds s)
    (hstep : ∀ item ∈ items, ∀ s', c.holds s' → c.grows s s' → c.Ensures s'
      (step item) fun _ _ => True) :
    c.Ensures s (items.forM step) fun _ _ => True := by
  induction items generalizing s with
  | nil => exact .pure hs trivial
  | cons item items ih =>
      obtain ⟨hitem, hitems⟩ := List.forall_mem_cons.mp hstep
      refine .bind (hitem s hs (c.refl s)) fun _ mid hmid hgrows _ => ih hmid ?_
      exact fun item hitem s' hs' hgrows' =>
        hitems item hitem s' hs' (c.trans hgrows hgrows')

theorem mapM {step : α → Write σ β} {P : β → Prop} (hs : c.holds s)
    (hstep : ∀ item ∈ items, ∀ s', c.holds s' → c.grows s s' → c.Ensures s'
      (step item) fun b _ => P b) :
    c.Ensures s (items.mapM step) fun results _ => ∀ b ∈ results, P b := by
  induction items generalizing s with
  | nil =>
      rw [List.mapM_nil]
      exact .pure hs fun _ hb => nomatch hb
  | cons item items ih =>
      obtain ⟨hitem, hitems⟩ := List.forall_mem_cons.mp hstep
      rw [List.mapM_cons]
      refine .bind (hitem s hs (c.refl s)) fun b mid hmid hgrows hb => ?_
      refine .bind (ih hmid fun item hitem s' hs' hgrows' =>
        hitems item hitem s' hs' (c.trans hgrows hgrows'))
          fun results s' hs' _ hresults => ?_
      exact .pure hs' (List.forall_mem_cons.mpr ⟨hb, hresults⟩)

end Ensures

/-- A writer without a value. -/
abbrev Keeps (c : Contract σ) (s : σ) (p : Write σ Unit) : Prop :=
  c.holds s → c.Ensures s p fun _ _ => True

/-- A writer that yields a fragment. -/
abbrev Gives (c : Contract σ) (s : σ) (isList : Bool)
    (p : Write σ String) : Prop :=
  c.holds s → c.Ensures s p fun text s' => c.fragment s' isList text

/-- Fragments, each for a value of its type. -/
def Values (c : Contract σ) (s : σ)
    (values : List (String × ValueType)) : Prop :=
  ∀ value ∈ values, c.fragment s value.2.isList value.1

/-- Fragments for scalars. -/
def Scalars (c : Contract σ) (s : σ) (texts : List String) : Prop :=
  ∀ text ∈ texts, c.fragment s false text

section

variable {s s' : σ} {texts : List String} {types : List ValueType}

theorem Scalars.mono (hgrows : c.grows s s') (h : c.Scalars s texts) :
    c.Scalars s' texts :=
  fun text htext => c.mono hgrows (h text htext)

/-- Scalars for types that are none of lists. -/
theorem Scalars.values (h : c.Scalars s texts)
    (htypes : ∀ ty ∈ types, ty.isList = false) :
    c.Values s (texts.zip types) := by
  intro value hvalue
  obtain ⟨htext, hty⟩ := List.of_mem_zip hvalue
  rw [htypes _ hty]
  exact h _ htext

theorem Values.scalars (h : c.Values s (texts.zip types))
    (hlength : texts.length = types.length)
    (htypes : ∀ ty ∈ types, ty.isList = false) : c.Scalars s texts := by
  intro text htext
  rw [← List.map_fst_zip (Nat.le_of_eq hlength)] at htext
  obtain ⟨value, hvalue, rfl⟩ := List.mem_map.mp htext
  have hfragment := h value hvalue
  rwa [htypes _ (List.of_mem_zip hvalue).2] at hfragment

end

end Contract

end Script

end Shellwright
