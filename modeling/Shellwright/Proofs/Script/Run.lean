/-
Running script writers.  A writer changes its state whether it fails or not; the
relation `Steps` says how it may change it and when it yields a value.
-/
import Shellwright.Script.Generate
import Mathlib.Order.Defs.Unbundled

namespace Shellwright

namespace Script

variable {σ α β : Type} {items : List α} {Q' : β → Prop} {error : ScriptError}
  {f : α → Write σ β}

/-- The outcome of a writer and the state it leaves. -/
def exec (p : Write σ α) (s : σ) : Except ScriptError α × σ := p.run.run s

@[simp] theorem exec_pure (a : α) (s : σ) : exec (pure a : Write σ α) s =
    (.ok a, s) := rfl

@[simp] theorem exec_throw (error : ScriptError) (s : σ) :
    exec (throw error : Write σ α) s = (.error error, s) := rfl

@[simp] theorem exec_get (s : σ) : exec (get : Write σ σ) s = (.ok s, s) := rfl

@[simp] theorem exec_set (new s : σ) : exec (set new : Write σ PUnit) s =
    (.ok (), new) := rfl

@[simp] theorem exec_modify (change : σ → σ) (s : σ) :
    exec (modify change : Write σ Unit) s = (.ok (), change s) := rfl

theorem exec_bind (p : Write σ α) (f : α → Write σ β) (s : σ) :
    exec (p >>= f) s =
      match exec p s with
      | (.ok a, s') => exec (f a) s'
      | (.error error, s') => (.error error, s') := by
  unfold exec
  rw [ExceptT.run_bind]
  simp only [StateT.run_bind]
  rcases hp : (ExceptT.run p).run s with ⟨result, s'⟩
  cases result with
  | ok a => rfl
  | error error => rfl

theorem exec_bind_ok {p : Write σ α} {s s' : σ} {a : α}
    (h : exec p s = (.ok a, s')) : exec (p >>= f) s = exec (f a) s' := by
  rw [exec_bind, h]

theorem exec_bind_error {p : Write σ α} {s s' : σ}
    (h : exec p s = (.error error, s')) :
    exec (p >>= f) s = (.error error, s') := by
  rw [exec_bind, h]

/-- A writer that succeeds does so part by part. -/
theorem exec_bind_eq_ok {p : Write σ α} {s s' : σ} {b : β}
    (h : exec (p >>= f) s = (.ok b, s')) :
    ∃ a mid, exec p s = (.ok a, mid) ∧ exec (f a) mid = (.ok b, s') := by
  rw [exec_bind] at h
  rcases hp : exec p s with ⟨result, mid⟩
  rw [hp] at h
  cases result with
  | ok a => exact ⟨a, mid, rfl, h⟩
  | error error => cases h

@[simp] theorem exec_get_bind (f : σ → Write σ β) (s : σ) :
    exec (get >>= f) s = exec (f s) s := rfl

/-- Whatever happens the state changes by `R` only, and if `able` holds there is
a value, for which `Q` holds. -/
structure Steps (R : σ → σ → Prop) (able : Prop) (p : Write σ α)
    (Q : α → Prop) : Prop where
  changes : ∀ s, R s (exec p s).2
  yields : able → ∀ s, ∃ a, (exec p s).1 = .ok a ∧ Q a

namespace Steps

variable {R : σ → σ → Prop} {able : Prop} {p : Write σ α} {Q : α → Prop}

/-- A writer that is able does not fail. -/
theorem exec_ok (h : Steps R able p Q) (hable : able) (s : σ) :
    ∃ a s', exec p s = (.ok a, s') ∧ Q a ∧ R s s' := by
  obtain ⟨a, hok, hQ⟩ := h.yields hable s
  exact ⟨a, (exec p s).2, Prod.ext hok rfl, hQ, h.changes s⟩

theorem weaken {able' : Prop} {Q' : α → Prop} (h : Steps R able p Q)
    (hable : able' → able) (hQ : able' → ∀ a, Q a → Q' a) :
    Steps R able' p Q' where
  changes := h.changes
  yields hable' s := by
    obtain ⟨a, hok, ha⟩ := h.yields (hable hable') s
    exact ⟨a, hok, hQ hable' a ha⟩

/-- Whether it yields a value or not. -/
theorem unable (h : Steps R able p Q) : Steps R False p Q :=
  h.weaken False.elim fun h => h.elim

theorem bind [IsTrans σ R] (hp : Steps R able p Q)
    (hf : ∀ a, Steps R (able ∧ Q a) (f a) Q') : Steps R able (p >>= f) Q' where
  changes s := by
    have hfirst := hp.changes s
    rw [exec_bind]
    rcases hrun : exec p s with ⟨result, s'⟩
    rw [hrun] at hfirst
    cases result with
    | ok a => exact IsTrans.trans _ _ _ hfirst ((hf a).changes s')
    | error error => exact hfirst
  yields hable s := by
    obtain ⟨a, hok, ha⟩ := hp.yields hable s
    obtain ⟨b, hok', hb⟩ := (hf a).yields ⟨hable, ha⟩ (exec p s).2
    refine ⟨b, ?_, hb⟩
    rw [exec_bind_ok (Prod.ext hok rfl)]
    exact hok'

theorem pure [Std.Refl R] {a : α} (ha : able → Q a) :
    Steps R able (Pure.pure a : Write σ α) Q where
  changes s := Std.Refl.refl s
  yields hable _ := ⟨a, rfl, ha hable⟩

theorem throw [Std.Refl R] (hable : ¬able) :
    Steps R able (MonadExcept.throw error : Write σ α) Q where
  changes s := Std.Refl.refl s
  yields h := absurd h hable

/-- A change of the state, made whatever the state is. -/
theorem modify {change : σ → σ} {Q : Unit → Prop} (hR : ∀ s, R s (change s))
    (hQ : able → Q ()) : Steps R able (modify change : Write σ Unit) Q where
  changes := hR
  yields hable _ := ⟨(), rfl, hQ hable⟩

theorem ite {c : Prop} [Decidable c] {q : Write σ α} (hp : c → Steps R able p Q)
    (hq : ¬c → Steps R able q Q) : Steps R able (if c then p else q) Q := by
  by_cases hc : c
  · rw [if_pos hc]
    exact hp hc
  · rw [if_neg hc]
    exact hq hc

theorem forM [Std.Refl R] [IsTrans σ R] {step : α → Write σ Unit}
    (h : ∀ item, Steps R able (step item) fun _ => True) :
    Steps R able (items.forM step) fun _ => True := by
  induction items with
  | nil => exact .pure fun _ => trivial
  | cons item items ih =>
      exact .bind (h item) fun _ => ih.weaken And.left fun _ _ => id

theorem mapM [Std.Refl R] [IsTrans σ R] {step : α → Write σ β}
    (h : ∀ item, Steps R able (step item) fun _ => True) :
    Steps R able (items.mapM step) fun _ => True := by
  induction items with
  | nil =>
      rw [List.mapM_nil]
      exact .pure fun _ => trivial
  | cons item items ih =>
      rw [List.mapM_cons]
      exact .bind (h item)
        fun _ => .bind (ih.weaken And.left fun _ _ => id) fun _ =>
        .pure fun _ => trivial

/-- A writer that looks at the state first. -/
theorem get {f : σ → Write σ β} (hf : ∀ s, Steps R able (f s) Q') :
    Steps R able (MonadState.get >>= f) Q' where
  changes s := (hf s).changes s
  yields hable s := (hf s).yields hable s

end Steps

end Script

end Shellwright
