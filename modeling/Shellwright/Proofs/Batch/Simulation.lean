/-
A structured program and its layout do the same.  Both directions are carried by
one relation between lines and what they stand for, with one lemma for each way
of putting programs together.
-/
import Shellwright.Proofs.Batch.Structured

namespace Shellwright

namespace Batch

variable {n : Nat} {line : Line} {condition target : String}

universe u

variable {σ : Type u}

/-- A label that is written once is where jumps to it lead. -/
theorem landing_of_suffix {prog rest : List Line}
    (hdistinct : (labelsOf prog).Nodup) (h : (.label target :: rest) <:+ prog) :
    landing target prog = some rest := by
  induction prog with
  | nil => simp at h
  | cons line lines ih =>
      rcases List.suffix_cons_iff.mp h with heq | hsuffix
      · obtain ⟨rfl, rfl⟩ := List.cons.inj heq
        simp [landing]
      · have hbehind : target ∈ labelsOf lines :=
          List.mem_filterMap.mpr ⟨_, hsuffix.subset List.mem_cons_self, rfl⟩
        have hline : line ≠ .label target := by
          rintro rfl
          exact (List.nodup_cons.mp hdistinct).1 hbehind
        have hlines : (labelsOf lines).Nodup :=
          hdistinct.sublist
            ((List.sublist_cons_self line lines).filterMap Line.label?)
        rw [landing, if_neg hline]
        exact ih hlines hsuffix

/-- Where a program goes on after a part of it: behind the part, or where a jump
out of the innermost loop leads. -/
def resume (prog : List Line) (exits : Exits) (rest : List Line) : Outcome →
    Option (List Line)
  | .done => some rest
  | .leave => landing exits.stop prog
  | .next => landing exits.next prog

section Run

variable {m : Meaning σ} {prog rest : List Line} {a b : σ}

/-- A program that is not at its end needs at least one more line. -/
theorem exists_succ_of_runFlat
    (h : runFlat m prog n (some (line :: rest)) a = some b) :
    ∃ k, n = k + 1 := by
  cases n with
  | zero => cases h
  | succ k => exact ⟨k, rfl⟩

theorem runFlat_plainLines (lines : List String) (n : Nat) :
    runFlat m prog (lines.length + n) (some (plainLines lines ++ rest)) a =
      runFlat m prog n (some rest) (m.after lines a) := by
  induction lines generalizing a with
  | nil => simp [plainLines, Meaning.after]
  | cons line lines ih =>
      rw [List.length_cons, Nat.add_right_comm, plainLines, List.map_cons,
        List.cons_append, runFlat]
      exact ih

theorem runFlat_plainLines_of_some {lines : List String}
    (h : runFlat m prog n (some (plainLines lines ++ rest)) a = some b) :
    ∃ k ≤ n, runFlat m prog k (some rest) (m.after lines a) = some b := by
  induction lines generalizing a n with
  | nil => exact ⟨n, Nat.le_refl n, h⟩
  | cons line lines ih =>
      obtain ⟨n, rfl⟩ := exists_succ_of_runFlat h
      rw [plainLines, List.map_cons, List.cons_append, runFlat] at h
      obtain ⟨k, hle, hrun⟩ := ih h
      exact ⟨k, Nat.le_succ_of_le hle, hrun⟩

end Run

/-- Running `code` amounts to a step of `R` and going on from where it leads, in
both directions.  What is left to run after that step takes no more lines. -/
structure Simulates (m : Meaning σ) (prog : List Line) (exits : Exits)
    (code rest : List Line) (R : σ → Outcome → σ → Prop) : Prop where
  forward : ∀ {a mid b : σ} {o : Outcome} {n : Nat}, R a o mid →
    runFlat m prog n (resume prog exits rest o) mid = some b →
    ∃ k, runFlat m prog k (some code) a = some b
  backward : ∀ {a b : σ} {n : Nat}, runFlat m prog n (some code) a = some b →
    ∃ o mid, ∃ k ≤ n, R a o mid ∧
      runFlat m prog k (resume prog exits rest o) mid = some b

namespace Simulates

variable {m : Meaning σ} {prog code rest : List Line} {exits : Exits}
  {R S : σ → Outcome → σ → Prop} {middle : List Line}

theorem congr (h : Simulates m prog exits code rest R)
    (hiff : ∀ a o b, R a o b ↔ S a o b) :
    Simulates m prog exits code rest S where
  forward hS hrun := h.forward ((hiff _ _ _).mpr hS) hrun
  backward hrun := by
    obtain ⟨o, mid, k, hle, hR, hrest⟩ := h.backward hrun
    exact ⟨o, mid, k, hle, (hiff _ _ _).mp hR, hrest⟩

theorem plainLines (lines : List String) (rest : List Line) :
    Simulates m prog exits (Batch.plainLines lines ++ rest) rest
      fun a o b => o = .done ∧ b = m.after lines a where
  forward := by
    rintro a mid b o n ⟨rfl, rfl⟩ hrun
    exact ⟨_, (runFlat_plainLines lines n).trans hrun⟩
  backward := by
    intro a b n hrun
    obtain ⟨k, hle, hrest⟩ := runFlat_plainLines_of_some hrun
    exact ⟨.done, _, k, hle, ⟨rfl, rfl⟩, hrest⟩

theorem andThen (hfirst : Simulates m prog exits code middle R)
    (hsecond : Simulates m prog exits middle rest S) :
    Simulates m prog exits code rest (Batch.andThen R S) where
  forward := by
    rintro a mid b o n (⟨between, hR, hS⟩ | ⟨hjump, hR⟩) hrun
    · obtain ⟨k, hmiddle⟩ := hsecond.forward hS hrun
      exact hfirst.forward hR hmiddle
    · refine hfirst.forward (n := n) hR ?_
      cases o with
      | done => exact absurd rfl hjump
      | leave => exact hrun
      | next => exact hrun
  backward := by
    intro a b n hrun
    obtain ⟨o, mid, k, hle, hR, hmiddle⟩ := hfirst.backward hrun
    cases o with
    | done =>
        obtain ⟨o, last, k', hle', hS, hrest⟩ := hsecond.backward hmiddle
        exact ⟨o, last, k', Nat.le_trans hle' hle, .inl ⟨mid, hR, hS⟩, hrest⟩
    | leave => exact ⟨.leave, mid, k, hle, .inr ⟨by simp, hR⟩, hmiddle⟩
    | next => exact ⟨.next, mid, k, hle, .inr ⟨by simp, hR⟩, hmiddle⟩

/-- Lines that jump nowhere, and then something else. -/
theorem afterLines (lines : List String)
    (h : Simulates m prog exits code rest R) :
    Simulates m prog exits (Batch.plainLines lines ++ code) rest
      fun a o b => R (m.after lines a) o b := by
  refine ((plainLines lines code).andThen h).congr fun a o b => ?_
  constructor
  · rintro (⟨mid, ⟨_, rfl⟩, hstep⟩ | ⟨hjump, hdone, _⟩)
    · exact hstep
    · exact absurd hdone hjump
  · exact fun hstep => .inl ⟨_, ⟨rfl, rfl⟩, hstep⟩

/-- Lines that do nothing but lead further on. -/
theorem past (h : Simulates m prog exits code middle R)
    (hpass : Simulates m prog exits middle rest fun a o b => o = .done ∧ b =
      a) : Simulates m prog exits code rest R := by
  refine (h.andThen hpass).congr fun a o b => ?_
  constructor
  · rintro (⟨mid, hends, rfl, rfl⟩ | ⟨_, hends⟩)
    · exact hends
    · exact hends
  · intro hends
    cases o with
    | done => exact .inl ⟨b, hends, rfl, rfl⟩
    | leave => exact .inr ⟨by decide, hends⟩
    | next => exact .inr ⟨by decide, hends⟩

theorem label {name : String} (h : Simulates m prog exits code rest R) :
    Simulates m prog exits (.label name :: code) rest R where
  forward hR hrun := by
    obtain ⟨k, hcode⟩ := h.forward hR hrun
    exact ⟨k + 1, by rw [runFlat, hcode]⟩
  backward hrun := by
    obtain ⟨n, rfl⟩ := exists_succ_of_runFlat hrun
    rw [runFlat] at hrun
    obtain ⟨o, mid, k, hle, hR, hrest⟩ := h.backward hrun
    exact ⟨o, mid, k, Nat.le_succ_of_le hle, hR, hrest⟩

theorem jump {skipped : List Line} (hlanding : landing target prog = some code)
    (h : Simulates m prog exits code rest R) :
    Simulates m prog exits (.jump target :: skipped) rest R where
  forward hR hrun := by
    obtain ⟨k, hcode⟩ := h.forward hR hrun
    exact ⟨k + 1, by rw [runFlat, hlanding, hcode]⟩
  backward hrun := by
    obtain ⟨n, rfl⟩ := exists_succ_of_runFlat hrun
    rw [runFlat, hlanding] at hrun
    obtain ⟨o, mid, k, hle, hR, hrest⟩ := h.backward hrun
    exact ⟨o, mid, k, Nat.le_succ_of_le hle, hR, hrest⟩

theorem jumpUnless {code' : List Line}
    (hlanding : landing target prog = some code')
    (hyes : Simulates m prog exits code rest R)
    (hno : Simulates m prog exits code' rest S) :
    Simulates m prog exits (.jumpUnless condition target :: code) rest
      fun a o b => if m.holds condition a then R a o b else S a o b where
  forward := by
    intro a mid b o n hstep hrun
    by_cases hholds : m.holds condition a = true
    · rw [if_pos hholds] at hstep
      obtain ⟨k, hcode⟩ := hyes.forward hstep hrun
      exact ⟨k + 1, by rw [runFlat, if_pos hholds, hcode]⟩
    · rw [if_neg hholds] at hstep
      obtain ⟨k, hcode⟩ := hno.forward hstep hrun
      exact ⟨k + 1, by rw [runFlat, if_neg hholds, hlanding, hcode]⟩
  backward := by
    intro a b n hrun
    obtain ⟨n, rfl⟩ := exists_succ_of_runFlat hrun
    rw [runFlat, hlanding] at hrun
    by_cases hholds : m.holds condition a = true
    · rw [if_pos hholds] at hrun
      obtain ⟨o, mid, k, hle, hR, hrest⟩ := hyes.backward hrun
      exact ⟨o, mid, k, Nat.le_succ_of_le hle, by rwa [if_pos hholds], hrest⟩
    · rw [if_neg hholds] at hrun
      obtain ⟨o, mid, k, hle, hR, hrest⟩ := hno.backward hrun
      exact ⟨o, mid, k, Nat.le_succ_of_le hle, by rwa [if_neg hholds], hrest⟩

/-- A jump out of a loop. -/
theorem exit (exits : Exits) (o : Outcome) (target : String) (rest : List Line)
    (htarget : resume prog exits rest o = landing target prog) :
    Simulates m prog exits (.jump target :: rest) rest
      fun a o' b => o' = o ∧ b = a where
  forward := by
    rintro a mid b o' n ⟨rfl, rfl⟩ hrun
    exact ⟨n + 1, by rw [runFlat, ← htarget, hrun]⟩
  backward := by
    intro a b n hrun
    obtain ⟨n, rfl⟩ := exists_succ_of_runFlat hrun
    rw [runFlat, ← htarget] at hrun
    exact ⟨o, a, n, Nat.le_succ n, ⟨rfl, rfl⟩, hrun⟩

/-- The place a jump leads to. -/
theorem landed {o : Outcome} (h : resume prog exits rest o = some code) :
    Simulates m prog exits code rest fun a o' b => o' = o ∧ b = a where
  forward := by
    rintro a mid b o' n ⟨rfl, rfl⟩ hrun
    exact ⟨n, by rw [← h, hrun]⟩
  backward := by
    intro a b n hrun
    exact ⟨o, a, n, Nat.le_refl n, ⟨rfl, rfl⟩, by rw [h, hrun]⟩

end Simulates

/-! Loops. -/

section Loop

variable {m : Meaning σ} {prog rest bodyCode : List Line} {exits : Exits}
  {next test stop : String} {post support : List String}
  {condition : Option String} {body : σ → Outcome → σ → Prop}

theorem simulates_round (hstop : landing stop prog = some rest)
    (hbody : Simulates m prog ⟨next, stop⟩
      (bodyCode ++ (roundEnd next stop ++ rest))
      (roundEnd next stop ++ rest) body) :
    Simulates m prog ⟨next, stop⟩
      (roundCode next stop support condition bodyCode ++ rest)
      (roundEnd next stop ++ rest) (Round m support condition body) := by
  have htested : Simulates m prog ⟨next, stop⟩
      ((condition.map fun condition => Line.jumpUnless condition stop).toList ++
        (bodyCode ++ (roundEnd next stop ++ rest)))
      (roundEnd next stop ++ rest)
      fun a o b => if m.goesOn condition a then body a o b else o = .leave ∧
        b = a := by
    cases condition with
    | none => exact hbody.congr fun a o b => by simp [Meaning.goesOn]
    | some condition => exact .jumpUnless hstop hbody (.landed hstop)
  unfold roundCode
  rw [List.append_assoc, List.append_assoc, List.append_assoc]
  exact htested.afterLines support

/-- From the end of a round to the start of the next one. -/
theorem runFlat_again {a b : σ}
    (hnext : landing next prog = some (plainLines post ++ .label test ::
      (roundCode next stop support condition bodyCode ++ rest)))
    (hrun : runFlat m prog n (landing next prog) a = some b) :
    ∃ k < n, runFlat m prog k
      (some (roundCode next stop support condition bodyCode ++ rest))
      (m.after post a) = some b := by
  rw [hnext] at hrun
  obtain ⟨k, hle, hlabel⟩ := runFlat_plainLines_of_some hrun
  obtain ⟨k, rfl⟩ := exists_succ_of_runFlat hlabel
  rw [runFlat] at hlabel
  exact ⟨k, hle, hlabel⟩

/-- Rounds are put together by induction on them, and taken apart by induction
on the lines that are left to run. -/
theorem simulates_rounds (hstop : landing stop prog = some rest)
    (hnext : landing next prog = some (plainLines post ++
      .label test :: (roundCode next stop support condition bodyCode ++ rest)))
    (hbody : Simulates m prog ⟨next, stop⟩
      (bodyCode ++ (roundEnd next stop ++ rest))
      (roundEnd next stop ++ rest) body) :
    Simulates m prog exits (roundCode next stop support condition bodyCode ++
      rest) rest
      fun a o b => o = .done ∧
        Rounds m post (Round m support condition body) a b := by
  have hround : Simulates m prog ⟨next, stop⟩
    (roundCode next stop support condition bodyCode ++ rest)
      (roundEnd next stop ++ rest) (Round m support condition body) :=
    simulates_round hstop hbody
  constructor
  · rintro a mid b o n ⟨rfl, hrounds⟩ hrun
    induction hrounds with
    | leave hstep =>
        exact hround.forward hstep
          ((congrArg (runFlat m prog n · _) hstop).trans hrun)
    | @again _ after _ o hstep hstays _ ih =>
        obtain ⟨k, hagain⟩ := ih hrun
        have hlabel : runFlat m prog (k + 1) (some
            (.label test ::
              (roundCode next stop support condition bodyCode ++ rest)))
            (m.after post after) = some b := by
          rw [runFlat, hagain]
        have hlanded := (runFlat_plainLines post (k + 1)).trans hlabel
        rw [← hnext] at hlanded
        cases o with
        | done =>
            exact hround.forward (n := post.length + (k + 1) + 1) hstep hlanded
        | leave => exact absurd rfl hstays
        | next => exact hround.forward hstep hlanded
  · intro a b n hrun
    induction n using Nat.strong_induction_on generalizing a with
    | _ n ih =>
        obtain ⟨o, mid, k, hle, hstep, hrest⟩ := hround.backward hrun
        have hmore : ∀ j ≤ n, o ≠ .leave →
          runFlat m prog j (landing next prog) mid = some b →
            ∃ o' last, ∃ k ≤ n,
              (o' = .done ∧
                Rounds m post (Round m support condition body) a last) ∧
                runFlat m prog k (resume prog exits rest o') last = some b := by
          intro j hj hstays hagain
          obtain ⟨i, hlt, hrun⟩ := runFlat_again hnext hagain
          obtain ⟨o', last, k, hk, ⟨rfl, hrounds⟩, hrest⟩ :=
            ih i (by omega) hrun
          exact ⟨.done, last, k, by
            omega, ⟨rfl, .again hstep hstays hrounds⟩, hrest⟩
        cases o with
        | done =>
            obtain ⟨k, rfl⟩ := exists_succ_of_runFlat hrest
            exact hmore k (by omega) (by decide) hrest
        | leave =>
            refine ⟨.done, mid, k, hle, ⟨rfl, .leave hstep⟩, ?_⟩
            exact (congrArg (runFlat m prog k · mid) hstop).symm.trans hrest
        | next => exact hmore k hle (by decide) hrest

end Loop

/-! Chains. -/

section Chain

variable {m : Meaning σ} {prog rest : List Line} {exits : Exits}
  {stop next : String} {count : Nat} {chain : Chain}

theorem Chain.exists_entry_eq (exits : Exits) (stop : String) (count : Nat)
    (chain : Chain) :
    ∃ front, chain.entry exits stop count = front ++ [.label stop] := by
  cases chain with
  | branch condition body rest =>
      obtain ⟨front, hfront⟩ := rest.exists_entry_eq exits stop
        (count + 1 + body.labels)
      refine ⟨.jumpUnless condition (countedLabel "else" (count + 1)) ::
        (body.code exits (count + 1) ++
        (rest.joint stop (countedLabel "else" (count + 1)) ++ front)), ?_⟩
      simp [Chain.entry, hfront]
  | otherwise body => exact ⟨_, rfl⟩
  | stop => exact ⟨[], rfl⟩

theorem suffix_of_append {front back : List Line}
    (h : (front ++ back) <:+ prog) : back <:+ prog :=
  (List.suffix_append front back).trans h

theorem suffix_of_cons {back : List Line} (h : (line :: back) <:+ prog) :
    back <:+ prog :=
  (List.suffix_cons line back).trans h

/-- The end of a chain is behind it. -/
theorem Chain.landing_stop (hdistinct : (labelsOf prog).Nodup)
    (h : (chain.entry exits stop count ++ rest) <:+ prog) :
    landing stop prog = some rest := by
  obtain ⟨front, hfront⟩ := chain.exists_entry_eq exits stop count
  rw [hfront, List.append_assoc] at h
  exact landing_of_suffix hdistinct (suffix_of_append h)

theorem Chain.landing_next (hdistinct : (labelsOf prog).Nodup)
    (h : (chain.joint stop next ++ (chain.entry exits stop count ++ rest))
      <:+ prog) :
    landing next prog = some (chain.entry exits stop count ++ rest) := by
  apply landing_of_suffix hdistinct
  cases chain with
  | stop => exact h
  | branch condition body rest => exact suffix_of_cons h
  | otherwise body => exact suffix_of_cons h

/-- Whatever comes to the rest of a chain from above goes past it. -/
theorem Chain.passes (hdistinct : (labelsOf prog).Nodup)
    (h : (chain.joint stop next ++ (chain.entry exits stop count ++ rest))
      <:+ prog) :
    Simulates m prog exits (chain.joint stop next ++
      (chain.entry exits stop count ++ rest)) rest
      fun a o b => o = .done ∧ b = a := by
  have hstop := Chain.landing_stop hdistinct (suffix_of_append h)
  cases chain with
  | stop => exact .label (.label (.landed rfl))
  | branch condition body rest => exact .jump hstop (.landed rfl)
  | otherwise body => exact .jump hstop (.landed rfl)

/-- A branch and what follows it. -/
theorem simulates_branch {bodyCode : List Line} {body : σ → Outcome → σ → Prop}
    (hdistinct : (labelsOf prog).Nodup)
    (h : (chain.joint stop next ++ (chain.entry exits stop count ++ rest)) <:+
      prog)
    (hbody : Simulates m prog exits (bodyCode ++ (chain.joint stop next ++
      (chain.entry exits stop count ++ rest))) (chain.joint stop next ++
      (chain.entry exits stop count ++ rest)) body)
    (hchain : Simulates m prog exits (chain.entry exits stop count ++ rest)
      rest (chain.Runs m)) :
    Simulates m prog exits
      (.jumpUnless condition next ::
        (bodyCode ++ (chain.joint stop next ++
          (chain.entry exits stop count ++ rest)))) rest
      fun a o b => if m.holds condition a then body a o b
        else chain.Runs m a o b := by
  exact .jumpUnless (Chain.landing_next hdistinct h)
    (hbody.past (Chain.passes hdistinct h)) hchain

end Chain

mutual

theorem Flow.simulates {m : Meaning σ} {prog : List Line}
    (hdistinct : (labelsOf prog).Nodup) (flow : Flow) {exits : Exits}
    {count : Nat} {rest : List Line}
    (h : (flow.code exits count ++ rest) <:+ prog) :
    Simulates m prog exits (flow.code exits count ++ rest) rest
      (flow.Runs m) := by
  match flow with
  | .straight lines => exact .plainLines lines rest
  | .seq first second =>
      simp only [Flow.code, List.append_assoc] at h ⊢
      exact (first.simulates hdistinct h).andThen
        (second.simulates hdistinct (suffix_of_append h))
  | .choose support condition body chain =>
      simp only [Flow.code, List.append_assoc, List.cons_append] at h ⊢
      have hbranch := suffix_of_cons (suffix_of_append h)
      have hchain := suffix_of_append hbranch
      exact .afterLines support
        (simulates_branch hdistinct hchain (body.simulates hdistinct hbranch)
        (chain.simulates hdistinct hchain))
  | .loop init post support condition body =>
      simp only [Flow.code, List.append_assoc, List.cons_append] at h ⊢
      have hstart := suffix_of_cons (suffix_of_append h)
      have hpost := suffix_of_cons hstart
      have htest := suffix_of_append hpost
      have hround := suffix_of_cons htest
      simp only [roundCode, List.append_assoc] at hround
      have hbody := suffix_of_append (suffix_of_append hround)
      have hend := suffix_of_append hbody
      exact .afterLines init (.jump (landing_of_suffix hdistinct htest)
        (simulates_rounds (landing_of_suffix hdistinct (suffix_of_cons hend))
          (landing_of_suffix hdistinct hstart)
            (body.simulates hdistinct hbody)))
  | .leaveLoop => exact .exit exits .leave exits.stop rest rfl
  | .nextRound => exact .exit exits .next exits.next rest rfl

theorem Chain.simulates {m : Meaning σ} {prog : List Line}
    (hdistinct : (labelsOf prog).Nodup) (chain : Chain) {exits : Exits}
    {stop next : String} {count : Nat} {rest : List Line}
    (h : (chain.joint stop next ++ (chain.entry exits stop count ++ rest))
      <:+ prog) :
    Simulates m prog exits (chain.entry exits stop count ++ rest) rest
      (chain.Runs m) := by
  match chain with
  | .branch condition body chain =>
      have hentry := suffix_of_append h
      simp only [Chain.entry, List.append_assoc, List.cons_append] at hentry ⊢
      have hbranch := suffix_of_cons hentry
      have hchain := suffix_of_append hbranch
      exact simulates_branch hdistinct hchain (body.simulates hdistinct hbranch)
        (chain.simulates hdistinct hchain)
  | .otherwise body =>
      have hentry := suffix_of_append h
      simp only [Chain.entry, List.append_assoc] at hentry ⊢
      exact (body.simulates hdistinct hentry).past (.label (.landed rfl))
  | .stop => exact .label (.landed rfl)

end

/-! Whole programs. -/

theorem landing_eq_none {prog : List Line} (h : target ∉ labelsOf prog) :
    landing target prog = none := by
  induction prog with
  | nil => rfl
  | cons line lines ih =>
      have hline : line ≠ .label target := by
        rintro rfl
        exact h List.mem_cons_self
      have hlines : target ∉ labelsOf lines := by
        intro htarget
        exact h (((List.sublist_cons_self line lines).filterMap
          Line.label?).subset htarget)
      rw [landing, if_neg hline]
      exact ih hlines

/-- The exits outside of all loops lead nowhere. -/
def Exits.none : Exits := ⟨"", ""⟩

theorem Flow.resume_none (flow : Flow) (count : Nat) (rest : List Line)
    {o : Outcome} (h : o ≠ .done) :
    resume (flow.code .none count) .none rest o = none := by
  have hnowhere : landing "" (flow.code .none count) = none := by
    apply landing_eq_none
    intro hlabel
    obtain ⟨stem, _, number, _, _, hempty⟩ :=
      (flow.numbered .none count).numbers _ hlabel
    have hchars := congrArg String.toList hempty
    simp [countedLabel] at hchars
  cases o with
  | done => exact absurd rfl h
  | leave => exact hnowhere
  | next => exact hnowhere

/-- The layout of a program ends in a state just when the program does. -/
theorem Flow.runFlat_code_iff (m : Meaning σ) (flow : Flow) (count : Nat)
    (a b : σ) :
    (∃ n, runFlat m (flow.code .none count) n (some (flow.code .none count)) a =
      some b) ↔ flow.Runs m a .done b := by
  have hdistinct := (flow.numbered .none count).nodup
  have hall : (flow.code .none count ++ []) <:+ flow.code .none count := by
    rw [List.append_nil]
  have hsimulates := flow.simulates (m := m) hdistinct hall
  rw [List.append_nil] at hsimulates
  constructor
  · rintro ⟨n, hrun⟩
    obtain ⟨o, mid, k, _, hruns, hrest⟩ := hsimulates.backward hrun
    by_cases hdone : o = .done
    · subst hdone
      rw [resume, runFlat] at hrest
      obtain rfl := Option.some.inj hrest
      exact hruns
    · rw [flow.resume_none count [] hdone, runFlat] at hrest
      cases hrest
  · exact fun hruns => hsimulates.forward (n := 0) hruns rfl

end Batch

end Shellwright
