/-
Bash scripts as nested commands.  The lines of a script are put together into if
chains and loops; what those do is computed, with a bound on the rounds of a
loop.
-/
import Mathlib
import Shellwright.Proofs.Bash.Clauses
import Shellwright.Proofs.Batch.Structured

namespace Shellwright

namespace Bash

open Batch (Meaning Outcome andThen)

universe u

variable {σ τ : Type u}

/-! Reading. -/

inductive Code where
  | line (text : String)
  | set (flag : String) (raised : Bool)
  | leave
  | next
  | choose (check : Check) (body rest : List Code)
  | forever (body : List Code)

/-- A compound command whose end has not been read, and what stands before it.
`closed` holds the branches of an if chain that have been read, the last one
first. -/
inductive Opened where
  | branch (before : List Code) (closed : List (Check × List Code))
      (check : Check)
  | fallback (before : List Code) (closed : List (Check × List Code))
  | loop (before : List Code)

/-- What has been read: the innermost body so far, and the commands it stands
in. -/
structure Nesting where
  body : List Code
  opened : List Opened

/-- An if chain from its branches, the last one first. -/
def chained (closed : List (Check × List Code)) (rest : List Code) :
    List Code :=
  closed.foldl (fun rest part => [.choose part.1 part.2 rest]) rest

namespace Nesting

def add (nesting : Nesting) (code : Code) : Nesting :=
  { nesting with body := nesting.body ++ [code] }

/-- Reads a line.  What divides or closes a command must stand in one of its
kind. -/
def step : Nesting → Clause → Option Nesting
  | ⟨body, opened⟩, .ifTrue check => some ⟨[], .branch body [] check :: opened⟩
  | ⟨body, .branch before closed check :: opened⟩, .elseIfTrue next =>
      some ⟨[], .branch before ((check, body) :: closed) next :: opened⟩
  | ⟨body, .branch before closed check :: opened⟩, .otherwise =>
      some ⟨[], .fallback before ((check, body) :: closed) :: opened⟩
  | ⟨body, .branch before closed check :: opened⟩, .endIf =>
      some ⟨before ++ chained ((check, body) :: closed) [], opened⟩
  | ⟨body, .fallback before closed :: opened⟩, .endIf =>
      some ⟨before ++ chained closed body, opened⟩
  | ⟨body, opened⟩, .whileTrue => some ⟨[], .loop body :: opened⟩
  | ⟨body, .loop before :: opened⟩, .endWhile =>
      some ⟨before ++ [.forever body], opened⟩
  | nesting, .leaveUnless check =>
      some (nesting.add (.choose check [] [.leave]))
  | nesting, .leaveLoop => some (nesting.add .leave)
  | nesting, .nextRound => some (nesting.add .next)
  | nesting, .set flag raised => some (nesting.add (.set flag raised))
  | nesting, .other text => some (nesting.add (.line text))
  | _, _ => none

/-- Reads lines. -/
def read (nesting : Nesting) (clauses : List Clause) : Option Nesting :=
  clauses.foldlM step nesting

theorem read_append (nesting : Nesting) (first second : List Clause) :
    nesting.read (first ++ second) = (nesting.read first).bind fun mid =>
      mid.read second :=
  List.foldlM_append

end Nesting

/-- The commands of a script, if every compound command has its end. -/
def readScript (clauses : List Clause) : Option (List Code) :=
  match Nesting.read ⟨[], []⟩ clauses with
  | some ⟨body, []⟩ => some body
  | _ => none

/-! Running. -/

/-- Which flags are raised. -/
abbrev Flags := String → Bool

def Check.holds (m : Meaning σ) : Check → σ × Flags → Bool
  | .flag name, t => t.2 name
  | .fragment text, t => m.holds text t.1

/-- Rounds until one leaves the loop, at most the given number. -/
def rounds (round : τ → Option (Outcome × τ)) : Nat → τ → Option (Outcome × τ)
  | 0, _ => none
  | limit + 1, t =>
      match round t with
      | none => none
      | some (.leave, t') => some (.done, t')
      | some (_, t') => rounds round limit t'

mutual

/-- How a command ends and in which state, if no loop makes more rounds than
`limit`. -/
def Code.run (m : Meaning σ) (limit : Nat) : Code → σ × Flags →
    Option (Outcome × (σ × Flags))
  | .line text, t => some (.done, m.effect text t.1, t.2)
  | .set flag raised, t => some (.done, t.1, Function.update t.2 flag raised)
  | .leave, t => some (.leave, t)
  | .next, t => some (.next, t)
  | .choose check body rest, t =>
      if check.holds m t then runAll m limit body t else runAll m limit rest t
  | .forever body, t => rounds (runAll m limit body) limit t

def runAll (m : Meaning σ) (limit : Nat) :
    List Code → σ × Flags → Option (Outcome × (σ × Flags))
  | [], t => some (.done, t)
  | code :: rest, t =>
      match code.run m limit t with
      | some (.done, t') => runAll m limit rest t'
      | result => result

end

/-- The commands end, however many rounds that takes. -/
def Ends (m : Meaning σ) (codes : List Code) (t : σ × Flags) (o : Outcome)
    (t' : σ × Flags) : Prop :=
  ∃ limit, runAll m limit codes t = some (o, t')

/-! A higher bound changes nothing. -/

theorem rounds_mono {round round' : τ → Option (Outcome × τ)}
    {limit limit' : Nat} {t : τ} {result : Outcome × τ}
    (hround : ∀ t result, round t = some result → round' t = some result)
    (hle : limit ≤ limit') (h : rounds round limit t = some result) :
    rounds round' limit' t = some result := by
  induction limit generalizing t limit' with
  | zero => cases h
  | succ limit ih =>
      obtain ⟨limit', rfl⟩ := Nat.exists_eq_add_of_le' hle
      rw [← Nat.add_assoc]
      rw [rounds] at h ⊢
      cases hfirst : round t with
      | none =>
          rw [hfirst] at h
          cases h
      | some first =>
          rw [hround t first hfirst]
          rw [hfirst] at h
          obtain ⟨o, t'⟩ := first
          cases o with
          | leave => exact h
          | done => exact ih (Nat.le_add_left limit limit') h
          | next => exact ih (Nat.le_add_left limit limit') h

mutual

theorem Code.run_mono {m : Meaning σ} {limit limit' : Nat}
    (hle : limit ≤ limit') (code : Code) {t : σ × Flags}
    {result : Outcome × (σ × Flags)} (h : code.run m limit t = some result) :
    code.run m limit' t = some result := by
  match code with
  | .line _ | .set _ _ | .leave | .next => exact h
  | .choose check body rest =>
      rw [Code.run] at h ⊢
      by_cases hcheck : check.holds m t = true
      · rw [if_pos hcheck] at h ⊢
        exact runAll_mono hle body h
      · rw [if_neg hcheck] at h ⊢
        exact runAll_mono hle rest h
  | .forever body =>
      rw [Code.run] at h ⊢
      exact rounds_mono (fun _ _ => runAll_mono hle body) hle h

theorem runAll_mono {m : Meaning σ} {limit limit' : Nat} (hle : limit ≤ limit')
    (codes : List Code) {t : σ × Flags} {result : Outcome × (σ × Flags)}
    (h : runAll m limit codes t = some result) :
    runAll m limit' codes t = some result := by
  match codes with
  | [] => exact h
  | code :: rest =>
      rw [runAll] at h ⊢
      cases hfirst : code.run m limit t with
      | none =>
          rw [hfirst] at h
          cases h
      | some first =>
          rw [code.run_mono hle hfirst]
          rw [hfirst] at h
          obtain ⟨o, t'⟩ := first
          cases o with
          | done => exact runAll_mono hle rest h
          | leave => exact h
          | next => exact h

end

/-! How commands end. -/

section Ends

variable {m : Meaning σ} {t t' : σ × Flags} {o : Outcome} {body : List Code}

theorem ends_nil : Ends m [] t o t' ↔ o = .done ∧ t' = t := by
  constructor
  · rintro ⟨_, ⟨⟩⟩
    exact ⟨rfl, rfl⟩
  · rintro ⟨rfl, rfl⟩
    exact ⟨0, rfl⟩

theorem runAll_append (limit : Nat) (first second : List Code) :
    runAll m limit (first ++ second) t =
      match runAll m limit first t with
      | some (.done, t') => runAll m limit second t'
      | result => result := by
  induction first generalizing t with
  | nil => rfl
  | cons code first ih =>
      rw [List.cons_append, runAll, runAll]
      cases code.run m limit t with
      | none => rfl
      | some result =>
          obtain ⟨o, t'⟩ := result
          cases o with
          | done => exact ih
          | leave => rfl
          | next => rfl

theorem ends_append {first second : List Code} :
    Ends m (first ++ second) t o t' ↔
      andThen (Ends m first) (Ends m second) t o t' := by
  constructor
  · rintro ⟨limit, h⟩
    rw [runAll_append] at h
    cases hfirst : runAll m limit first t with
    | none =>
        rw [hfirst] at h
        cases h
    | some result =>
        rw [hfirst] at h
        obtain ⟨o', mid⟩ := result
        cases o' with
        | done => exact .inl ⟨mid, ⟨limit, hfirst⟩, limit, h⟩
        | leave =>
            cases h
            exact .inr ⟨nofun, limit, hfirst⟩
        | next =>
            cases h
            exact .inr ⟨nofun, limit, hfirst⟩
  · rintro (⟨mid, ⟨limit, hfirst⟩, limit', hsecond⟩ | ⟨hjump, limit, hfirst⟩)
    · -- each part has a bound of its own, and the larger one serves both
      refine ⟨max limit limit', ?_⟩
      rw [runAll_append, runAll_mono (Nat.le_max_left _ _) first hfirst]
      exact runAll_mono (Nat.le_max_right _ _) second hsecond
    · refine ⟨limit, ?_⟩
      rw [runAll_append, hfirst]
      cases o with
      | done => exact absurd rfl hjump
      | leave => rfl
      | next => rfl

theorem runAll_singleton (limit : Nat) (code : Code) :
    runAll m limit [code] t = code.run m limit t := by
  rw [runAll]
  cases code.run m limit t with
  | none => rfl
  | some result =>
      obtain ⟨o, t'⟩ := result
      cases o <;> rfl

/-- A command that ends at once. -/
theorem ends_at_once {code : Code} {o' : Outcome} {last : σ × Flags}
    (h : ∀ limit, code.run m limit t = some (o', last)) :
    Ends m [code] t o t' ↔ o = o' ∧ t' = last := by
  unfold Ends
  simp only [runAll_singleton, h]
  constructor
  · rintro ⟨_, ⟨⟩⟩
    exact ⟨rfl, rfl⟩
  · rintro ⟨rfl, rfl⟩
    exact ⟨0, rfl⟩

theorem ends_choose {check : Check} {rest : List Code} :
    Ends m [.choose check body rest] t o t' ↔
      if check.holds m t then Ends m body t o t' else Ends m rest t o t' := by
  unfold Ends
  simp only [runAll_singleton, Code.run]
  split
  · rfl
  · rfl

/-- Rounds until one leaves the loop. -/
inductive Repeats (round : τ → Outcome → τ → Prop) : τ → τ → Prop where
  | leave {t t' : τ} : round t .leave t' → Repeats round t t'
  | again {t mid t' : τ} {o : Outcome} : round t o mid → o ≠ .leave →
      Repeats round mid t' → Repeats round t t'

theorem repeats_of_rounds {limit count : Nat}
    (h : rounds (runAll m limit body) count t = some (o, t')) :
    o = .done ∧ Repeats (Ends m body) t t' := by
  induction count generalizing t with
  | zero => cases h
  | succ count ih =>
      rw [rounds] at h
      cases hround : runAll m limit body t with
      | none =>
          rw [hround] at h
          cases h
      | some result =>
          rw [hround] at h
          obtain ⟨o', mid⟩ := result
          cases o' with
          | leave =>
              cases h
              exact ⟨rfl, .leave ⟨limit, hround⟩⟩
          | done => exact (ih h).imp_right (.again ⟨limit, hround⟩ nofun)
          | next => exact (ih h).imp_right (.again ⟨limit, hround⟩ nofun)

theorem rounds_of_repeats (h : Repeats (Ends m body) t t') :
    ∃ limit, rounds (runAll m limit body) limit t = some (.done, t') := by
  induction h with
  | leave hround =>
      obtain ⟨limit, hround⟩ := hround
      refine ⟨limit + 1, ?_⟩
      rw [rounds, runAll_mono (Nat.le_succ limit) body hround]
  | @again _ _ _ o hround hstay _ ih =>
      obtain ⟨limit, hround⟩ := hround
      obtain ⟨count, hcount⟩ := ih
      refine ⟨max limit count + 1, ?_⟩
      have hle : count ≤ max limit count + 1 := by omega
      have hrest := rounds_mono (fun _ _ => runAll_mono hle body)
        (Nat.le_max_right limit count) hcount
      rw [rounds, runAll_mono (by omega) body hround]
      cases o with
      | leave => exact absurd rfl hstay
      | done => exact hrest
      | next => exact hrest

theorem ends_forever :
    Ends m [.forever body] t o t' ↔ o = .done ∧ Repeats (Ends m body) t t' := by
  unfold Ends
  simp only [runAll_singleton, Code.run]
  constructor
  · rintro ⟨limit, h⟩
    exact repeats_of_rounds h
  · rintro ⟨rfl, h⟩
    exact rounds_of_repeats h

end Ends

end Bash

end Shellwright
