/-
Loops guarded by flags.  A loop raises its flag before it starts, and every
round begins with a test of the flag: the first round only lowers it, the others
run the post lines.  Each loop has a flag of its own, so that what a round
contains leaves it alone, and the nested commands end as the structured program
does.
-/
import Shellwright.Proofs.Bash.Nested

namespace Shellwright

namespace Bash

variable {code : List Code}

open Batch (Flow Chain Meaning Outcome Rounds andThen)

universe u

variable {σ : Type u}

theorem flagName_inj {number other : Nat}
    (h : flagName number = flagName other) : number = other :=
  Batch.toString_nat_inj ((String.append_right_inj "__sb_loop").mp h)

theorem flagName_ne {number count : Nat} (h : number ≤ count) :
    flagName number ≠ flagName (count + 1) := by
  intro hsame
  have := flagName_inj hsame
  omega

/-! The lines of a structured program, and the commands in them. -/

mutual

/-- How many flags a program takes. -/
def loopCount : Flow → Nat
  | .straight _ | .leaveLoop | .nextRound => 0
  | .seq first second => loopCount first + loopCount second
  | .choose _ _ body rest => loopCount body + chainLoops rest
  | .loop _ _ _ _ body => 1 + loopCount body

def chainLoops : Chain → Nat
  | .branch _ body rest => loopCount body + chainLoops rest
  | .otherwise body => loopCount body
  | .stop => 0

end

def otherClauses (lines : List String) : List Clause := lines.map .other

def lineCode (lines : List String) : List Code := lines.map .line

def conditionClauses (condition : Option String) : List Clause :=
  (condition.map fun condition => .leaveUnless (.fragment condition)).toList

def conditionCode (condition : Option String) : List Code :=
  (condition.map fun condition => .choose (.fragment condition) []
    [.leave]).toList

/-- What stands at the head of a round. -/
def guardCode (flag : String) (post : List String) : List Code :=
  [.choose (.flag flag) [.set flag false] (lineCode post)]

mutual

/-- The lines of a program, when `count` flags are taken already. -/
def clausesOf (count : Nat) : Flow → List Clause
  | .straight lines => otherClauses lines
  | .seq first second =>
      clausesOf count first ++ clausesOf (count + loopCount first) second
  | .choose support condition body rest =>
      otherClauses support ++ .ifTrue (.fragment condition) ::
        (clausesOf count body ++ chainClauses (count + loopCount body) rest)
  | .loop init post support condition body =>
      otherClauses init ++ .set (flagName (count + 1)) true :: .whileTrue ::
        .ifTrue (.flag (flagName (count + 1))) ::
          .set (flagName (count + 1)) false :: .otherwise ::
          (otherClauses post ++ .endIf :: (otherClauses support ++
            (conditionClauses condition ++
              (clausesOf (count + 1) body ++ [.endWhile]))))
  | .leaveLoop => [.leaveLoop]
  | .nextRound => [.nextRound]

/-- The lines behind the first branch of an if chain. -/
def chainClauses (count : Nat) : Chain → List Clause
  | .branch condition body rest =>
      .elseIfTrue (.fragment condition) ::
        (clausesOf count body ++ chainClauses (count + loopCount body) rest)
  | .otherwise body => .otherwise :: (clausesOf count body ++ [.endIf])
  | .stop => [.endIf]

end

mutual

/-- The commands of a program, when `count` flags are taken already. -/
def codeOf (count : Nat) : Flow → List Code
  | .straight lines => lineCode lines
  | .seq first second =>
      codeOf count first ++ codeOf (count + loopCount first) second
  | .choose support condition body rest =>
      lineCode support ++ [.choose (.fragment condition) (codeOf count body)
        (chainCode (count + loopCount body) rest)]
  | .loop init post support condition body =>
      lineCode init ++ ([.set (flagName (count + 1)) true] ++
        [.forever (guardCode (flagName (count + 1)) post ++
          (lineCode support ++
            (conditionCode condition ++ codeOf (count + 1) body)))])
  | .leaveLoop => [.leave]
  | .nextRound => [.next]

/-- What is run if the first condition of an if chain fails. -/
def chainCode (count : Nat) : Chain → List Code
  | .branch condition body rest =>
      [.choose (.fragment condition) (codeOf count body)
        (chainCode (count + loopCount body) rest)]
  | .otherwise body => codeOf count body
  | .stop => []

end

/-! The lines are read as the commands. -/

/-- Wherever they stand, the lines are read as the commands. -/
def Reads (clauses : List Clause) (code : List Code) : Prop :=
  ∀ body opened, Nesting.read ⟨body, opened⟩ clauses =
    some ⟨body ++ code, opened⟩

/-- Behind a branch of an if chain, the lines are read as what is run if its
condition fails. -/
def ReadsRest (clauses : List Clause) (code : List Code) : Prop :=
  ∀ body before closed check opened,
    Nesting.read ⟨body, .branch before closed check :: opened⟩ clauses =
      some ⟨before ++ chained closed [.choose check body code], opened⟩

theorem Reads.append {first second : List Clause} {code' : List Code}
    (h : Reads first code) (h' : Reads second code') :
    Reads (first ++ second) (code ++ code') := by
  intro body opened
  rw [Nesting.read_append, h, Option.bind_some, h', List.append_assoc]

/-- What is read behind other lines. -/
theorem Reads.passed {first : List Clause} (h : Reads first code)
    (rest : List Clause) (body : List Code) (opened : List Opened) :
    Nesting.read ⟨body, opened⟩ (first ++ rest) =
      Nesting.read ⟨body ++ code, opened⟩ rest := by
  rw [Nesting.read_append, h, Option.bind_some]

theorem reads_otherClauses (lines : List String) :
    Reads (otherClauses lines) (lineCode lines) := by
  induction lines with
  | nil =>
      intro body opened
      exact congrArg (fun body => some (Nesting.mk body opened))
        (List.append_nil body).symm
  | cons line lines ih =>
      have hline : Reads [.other line] [.line line] := fun _ _ => rfl
      exact hline.append ih

theorem reads_condition (condition : Option String) :
    Reads (conditionClauses condition) (conditionCode condition) := by
  cases condition with
  | none => exact reads_otherClauses []
  | some condition => exact fun _ _ => rfl

/-- The flag and the loop it guards, with the rounds between them. -/
theorem reads_loop {flag : String} {post : List String} {round : List Clause}
    (h : Reads round code) :
    Reads (.set flag true :: .whileTrue :: .ifTrue (.flag flag) ::
      .set flag false :: .otherwise ::
        (otherClauses post ++ .endIf :: (round ++ [.endWhile])))
      ([.set flag true] ++ [.forever (guardCode flag post ++ code)]) := by
  intro body opened
  have hpost := (reads_otherClauses post).passed
    (.endIf :: (round ++ [.endWhile])) []
    (.fallback [] [(.flag flag, [.set flag false])] ::
      .loop (body ++ [.set flag true]) :: opened)
  have hround := h.passed [.endWhile] (guardCode flag post)
    (.loop (body ++ [.set flag true]) :: opened)
  refine hpost.trans (hround.trans ?_)
  rw [← List.append_assoc]
  rfl

mutual

theorem reads_flow (count : Nat) (flow : Flow) :
    Reads (clausesOf count flow) (codeOf count flow) := by
  match flow with
  | .straight lines => exact reads_otherClauses lines
  | .seq first second =>
      rw [clausesOf, codeOf]
      exact (reads_flow count first).append (reads_flow _ second)
  | .choose support condition body rest =>
      rw [clausesOf, codeOf]
      refine (reads_otherClauses support).append fun before opened => ?_
      refine ((reads_flow count body).passed _ []
        (.branch before [] _ :: opened)).trans ?_
      exact reads_rest _ rest _ before [] _ opened
  | .loop init post support condition body =>
      rw [clausesOf, codeOf]
      refine (reads_otherClauses init).append ?_
      have hround := (reads_otherClauses support).append
        ((reads_condition condition).append (reads_flow (count + 1) body))
      simpa only [List.append_assoc] using reads_loop hround
  | .leaveLoop => exact fun _ _ => rfl
  | .nextRound => exact fun _ _ => rfl

theorem reads_rest (count : Nat) (chain : Chain) :
    ReadsRest (chainClauses count chain) (chainCode count chain) := by
  match chain with
  | .branch condition body rest =>
      intro first before closed check opened
      rw [chainClauses, chainCode]
      refine ((reads_flow count body).passed _ []
        (.branch before ((check, first) :: closed) _ :: opened)).trans ?_
      exact reads_rest _ rest _ before _ _ opened
  | .otherwise body =>
      intro first before closed check opened
      rw [chainClauses, chainCode]
      exact (reads_flow count body).passed [.endIf] []
        (.fallback before ((check, first) :: closed) :: opened)
  | .stop => exact fun _ _ _ _ _ => rfl

end

theorem readScript_clausesOf (count : Nat) (flow : Flow) :
    readScript (clausesOf count flow) = some (codeOf count flow) := by
  rw [readScript, reads_flow count flow]
  rfl

/-! The commands end as the program does. -/

section Parts

variable {m : Meaning σ} {a : σ} {f : Flags} {o : Outcome} {t : σ × Flags}

/-- What follows commands that only ever end in one state. -/
theorem ends_after {first second : List Code} {mid : σ × Flags}
    (h : ∀ {o t}, Ends m first (a, f) o t ↔ o = .done ∧ t = mid) :
    Ends m (first ++ second) (a, f) o t ↔ Ends m second mid o t := by
  rw [ends_append]
  constructor
  · rintro (⟨_, hfirst, hsecond⟩ | ⟨hjump, hfirst⟩)
    · obtain ⟨_, rfl⟩ := h.mp hfirst
      exact hsecond
    · exact absurd (h.mp hfirst).1 hjump
  · exact fun hsecond => .inl ⟨mid, h.mpr ⟨rfl, rfl⟩, hsecond⟩

theorem ends_lineCode (lines : List String) :
    Ends m (lineCode lines) (a, f) o t ↔
      o = .done ∧ t = (m.after lines a, f) := by
  induction lines generalizing a with
  | nil => exact ends_nil
  | cons line lines ih =>
      have hline : ∀ {o t}, Ends m [.line line] (a, f) o t ↔
          o = .done ∧ t = (m.effect line a, f) := ends_at_once fun _ => rfl
      exact (ends_after hline).trans ih

theorem ends_set (flag : String) (raised : Bool) :
    Ends m [.set flag raised] (a, f) o t ↔
      o = .done ∧ t = (a, Function.update f flag raised) :=
  ends_at_once fun _ => rfl

/-- Behind the head of a round the flag is down, and the post lines have been
run if it was down before. -/
theorem ends_guardCode (flag : String) (post : List String) :
    Ends m (guardCode flag post) (a, f) o t ↔
      o = .done ∧ t = (if f flag then a else m.after post a,
        Function.update f flag false) := by
  refine ends_choose.trans ?_
  have hcheck : Check.holds m (.flag flag) (a, f) = f flag := rfl
  rw [hcheck]
  by_cases hflag : f flag = true
  · rw [if_pos hflag, if_pos hflag]
    exact ends_set flag false
  · have hdown : Function.update f flag false = f := by
      rw [← Bool.eq_false_iff.mpr hflag, Function.update_eq_self]
    rw [if_neg hflag, if_neg hflag, hdown]
    exact ends_lineCode post

end Parts

/-- The commands end as the program does, and touch none of the flags that are
taken already. -/
structure Simulates (m : Meaning σ) (count : Nat) (code : List Code)
    (runs : σ → Outcome → σ → Prop) : Prop where
  sound : ∀ ⦃a f o b f'⦄, Ends m code (a, f) o (b, f') →
    runs a o b ∧ ∀ number ≤ count, f' (flagName number) = f (flagName number)
  complete : ∀ ⦃a o b⦄, runs a o b → ∀ f, ∃ f', Ends m code (a, f) o (b, f')

namespace Simulates

variable {m : Meaning σ} {count : Nat} {code code' : List Code}
  {runs runs' : σ → Outcome → σ → Prop}

theorem congr (h : Simulates m count code runs)
    (hruns : ∀ a o b, runs a o b ↔ runs' a o b) :
    Simulates m count code runs' where
  sound a _ o b _ hends := (h.sound hends).imp_left (hruns a o b).mp
  complete a o b hrun := h.complete ((hruns a o b).mpr hrun)

/-- Fewer flags are taken. -/
theorem mono {lower : Nat} (h : Simulates m count code runs)
    (hle : lower ≤ count) : Simulates m lower code runs where
  sound _ _ _ _ _ hends :=
    (h.sound hends).imp_right fun hflags number hnumber => hflags number
    (hnumber.trans hle)
  complete := h.complete

theorem append (h : Simulates m count code runs)
    (h' : Simulates m count code' runs') :
    Simulates m count (code ++ code') (andThen runs runs') where
  sound a f o b f' hends := by
    rcases ends_append.mp hends with ⟨⟨mid, g⟩, hfirst, hsecond⟩
      | ⟨hjump, hfirst⟩
    · obtain ⟨hmid, hflags⟩ := h.sound hfirst
      obtain ⟨hlast, hflags'⟩ := h'.sound hsecond
      exact ⟨.inl ⟨mid, hmid, hlast⟩, fun number hnumber =>
        (hflags' number hnumber).trans (hflags number hnumber)⟩
    · obtain ⟨hrun, hflags⟩ := h.sound hfirst
      exact ⟨.inr ⟨hjump, hrun⟩, hflags⟩
  complete a o b hruns f := by
    rcases hruns with ⟨mid, hfirst, hsecond⟩ | ⟨hjump, hfirst⟩
    · obtain ⟨g, hmid⟩ := h.complete hfirst f
      obtain ⟨f', hlast⟩ := h'.complete hsecond g
      exact ⟨f', ends_append.mpr (.inl ⟨(mid, g), hmid, hlast⟩)⟩
    · obtain ⟨f', hlast⟩ := h.complete hfirst f
      exact ⟨f', ends_append.mpr (.inr ⟨hjump, hlast⟩)⟩

/-- Commands that do not look at the flags. -/
theorem of_ends (h : ∀ a f o t, Ends m code (a, f) o t ↔
    runs a o t.1 ∧ t.2 = f) : Simulates m count code runs where
  sound a f o b f' hends := by
    obtain ⟨hrun, rfl⟩ := (h a f o (b, f')).mp hends
    exact ⟨hrun, fun _ _ => rfl⟩
  complete a o b hrun f := ⟨f, (h a f o (b, f)).mpr ⟨hrun, rfl⟩⟩

theorem lines (lines : List String) :
    Simulates m count (lineCode lines) fun a o b => o = .done ∧
      b = m.after lines a :=
  of_ends fun a f o t => (ends_lineCode lines).trans
    (by rw [Prod.ext_iff, and_assoc])

theorem leave : Simulates m count [.leave] fun a o b => o = .leave ∧ b = a :=
  of_ends fun a f o t => (ends_at_once fun _ => rfl).trans
    (by rw [Prod.ext_iff, and_assoc])

theorem next : Simulates m count [.next] fun a o b => o = .next ∧ b = a :=
  of_ends fun a f o t => (ends_at_once fun _ => rfl).trans
    (by rw [Prod.ext_iff, and_assoc])

theorem after_lines (lines : List String) (h : Simulates m count code runs) :
    Simulates m count (lineCode lines ++ code)
      fun a => runs (m.after lines a) where
  sound _ _ _ _ _ hends := h.sound ((ends_after (ends_lineCode lines)).mp hends)
  complete _ _ _ hrun f :=
    (h.complete hrun f).imp fun _ => (ends_after (ends_lineCode lines)).mpr

theorem choose (condition : String) (h : Simulates m count code runs)
    (h' : Simulates m count code' runs') :
    Simulates m count [.choose (.fragment condition) code code'] fun a o b =>
      if m.holds condition a then runs a o b else runs' a o b where
  sound a f o b f' hends := by
    have hchoice := ends_choose.mp hends
    by_cases hholds : m.holds condition a = true
    · rw [if_pos hholds]
      exact h.sound ((if_pos hholds).mp hchoice)
    · rw [if_neg hholds]
      exact h'.sound ((if_neg hholds).mp hchoice)
  complete a o b hruns f := by
    by_cases hholds : m.holds condition a = true
    · rw [if_pos hholds] at hruns
      exact (h.complete hruns f).imp fun _ hends =>
        ends_choose.mpr ((if_pos hholds).mpr hends)
    · rw [if_neg hholds] at hruns
      exact (h'.complete hruns f).imp fun _ hends =>
        ends_choose.mpr ((if_neg hholds).mpr hends)

/-- A loop is left where its condition fails. -/
theorem condition (condition : Option String)
    (h : Simulates m count code runs) :
    Simulates m count (conditionCode condition ++ code) fun a o b =>
      if m.goesOn condition a then runs a o b else o = .leave ∧ b = a := by
  cases condition with
  | none => exact h
  | some condition =>
      have hgo : Simulates m count [] fun a o b => o = .done ∧ b = a := lines []
      refine ((hgo.choose condition leave).append h).congr fun a o b => ?_
      have hgoes : m.goesOn (some condition) a = m.holds condition a := rfl
      rw [hgoes, andThen]
      by_cases hholds : m.holds condition a = true
      · simp only [if_pos hholds]
        constructor
        · rintro (⟨_, ⟨_, rfl⟩, hrun⟩ | ⟨hjump, hdone, _⟩)
          · exact hrun
          · exact absurd hdone hjump
        · exact fun hrun => .inl ⟨a, ⟨trivial, rfl⟩, hrun⟩
      · simp only [if_neg hholds]
        constructor
        · rintro (⟨_, ⟨hdone, _⟩, _⟩ | ⟨_, hleave⟩)
          · cases hdone
          · exact hleave
        · rintro ⟨rfl, rfl⟩
          exact .inr ⟨nofun, rfl, rfl⟩

theorem round (support : List String) (condition : Option String)
    (h : Simulates m count code runs) :
    Simulates m count (lineCode support ++ (conditionCode condition ++ code))
      (Batch.Round m support condition runs) :=
  (h.condition condition).after_lines support

/-! A round that starts with the flag down has run the post lines before.  No
matter how the flag stood, it is down behind the round. -/

section Loop

variable {post : List String} {a b : σ} {f f' : Flags}

theorem round_sound (h : Simulates m (count + 1) code runs) {o : Outcome}
    (hends : Ends m (guardCode (flagName (count + 1)) post ++ code) (a, f) o
      (b, f')) :
    runs (if f (flagName (count + 1)) then a else m.after post a) o b ∧
      f' (flagName (count + 1)) = false ∧
      ∀ number ≤ count, f' (flagName number) = f (flagName number) := by
  obtain ⟨hrun, hflags⟩ :=
    h.sound ((ends_after (ends_guardCode _ post)).mp hends)
  refine ⟨hrun, ?_, fun number hnumber => ?_⟩
  · rw [hflags (count + 1) (Nat.le_refl _), Function.update_self]
  · rw [hflags number (Nat.le_succ_of_le hnumber),
      Function.update_of_ne (flagName_ne hnumber)]

theorem repeats_sound (h : Simulates m (count + 1) code runs) {t t' : σ × Flags}
    (hrounds : Repeats (Ends m (guardCode (flagName (count + 1)) post ++ code))
      t t') :
    Rounds m post runs (if t.2 (flagName (count + 1)) then t.1
      else m.after post t.1) t'.1 ∧
      ∀ number ≤ count, t'.2 (flagName number) = t.2 (flagName number) := by
  induction hrounds with
  | leave hround =>
      obtain ⟨hrun, _, hflags⟩ := h.round_sound hround
      exact ⟨.leave hrun, hflags⟩
  | again hround hstay _ ih =>
      -- the flag is down behind this round, so the next one begins with the
      -- post lines
      obtain ⟨hrun, hdown, hflags⟩ := h.round_sound hround
      obtain ⟨hrest, hflags'⟩ := ih
      rw [hdown, if_neg Bool.false_ne_true] at hrest
      exact ⟨.again hrun hstay hrest, fun number hnumber =>
        (hflags' number hnumber).trans (hflags number hnumber)⟩

theorem repeats_complete (h : Simulates m (count + 1) code runs) {start : σ}
    (hrounds : Rounds m post runs start b) {a : σ} {f : Flags}
    (hstart : (if f (flagName (count + 1)) then a
      else m.after post a) = start) :
    ∃ f', Repeats (Ends m (guardCode (flagName (count + 1)) post ++ code))
      (a, f) (b, f') := by
  induction hrounds generalizing a f with
  | leave hround =>
      obtain ⟨f', hends⟩ :=
        h.complete hround (Function.update f (flagName (count + 1)) false)
      exact ⟨f',
        .leave ((ends_after (ends_guardCode _ post)).mpr (hstart ▸ hends))⟩
  | again hround hstay _ ih =>
      obtain ⟨g, hends⟩ :=
        h.complete hround (Function.update f (flagName (count + 1)) false)
      have hends' := (ends_after (ends_guardCode _ post)).mpr (hstart ▸ hends)
      obtain ⟨_, hdown, _⟩ := h.round_sound hends'
      obtain ⟨f', hrest⟩ :=
        ih (f := g) (by rw [hdown, if_neg Bool.false_ne_true])
      exact ⟨f', .again hends' hstay hrest⟩

end Loop

/-- The flag is raised where the loop starts, so that nothing is run before its
first round. -/
theorem loop (post : List String) (h : Simulates m (count + 1) code runs) :
    Simulates m count ([.set (flagName (count + 1)) true] ++
        [.forever (guardCode (flagName (count + 1)) post ++ code)])
      fun a o b => o = .done ∧ Rounds m post runs a b where
  sound a f o b f' hends := by
    obtain ⟨rfl, hrounds⟩ :=
      ends_forever.mp ((ends_after (ends_set _ true)).mp hends)
    obtain ⟨hruns, hflags⟩ := h.repeats_sound hrounds
    rw [if_pos (Function.update_self (flagName (count + 1)) true f)] at hruns
    refine ⟨⟨rfl, hruns⟩, fun number hnumber => ?_⟩
    exact (hflags number hnumber).trans
      (Function.update_of_ne (flagName_ne hnumber) _ _)
  complete a o b hruns f := by
    obtain ⟨rfl, hrounds⟩ := hruns
    obtain ⟨f', hrepeats⟩ := h.repeats_complete hrounds
      (if_pos (Function.update_self (flagName (count + 1)) true f))
    exact ⟨f', (ends_after (ends_set _ true)).mpr
      (ends_forever.mpr ⟨rfl, hrepeats⟩)⟩

end Simulates

mutual

theorem codeOf_simulates (m : Meaning σ) (count : Nat) (flow : Flow) :
    Simulates m count (codeOf count flow) (flow.Runs m) := by
  match flow with
  | .straight lines =>
      rw [codeOf]
      exact (Simulates.lines lines).congr fun a o b => by rw [Flow.Runs]
  | .seq first second =>
      rw [codeOf]
      refine ((codeOf_simulates m count first).append
        ((codeOf_simulates m _ second).mono (Nat.le_add_right _ _))).congr
          fun a o b => ?_
      rw [Flow.Runs]
  | .choose support condition body rest =>
      rw [codeOf]
      refine (((codeOf_simulates m count body).choose condition
        ((chainCode_simulates m _ rest).mono
          (Nat.le_add_right _ _))).after_lines support).congr
        fun a o b => ?_
      rw [Flow.Runs]
  | .loop init post support condition body =>
      rw [codeOf]
      refine ((((codeOf_simulates m (count + 1) body).round support
        condition).loop post).after_lines init).congr fun a o b => ?_
      rw [Flow.Runs]
  | .leaveLoop =>
      rw [codeOf]
      exact Simulates.leave.congr fun a o b => by rw [Flow.Runs]
  | .nextRound =>
      rw [codeOf]
      exact Simulates.next.congr fun a o b => by rw [Flow.Runs]

theorem chainCode_simulates (m : Meaning σ) (count : Nat) (chain : Chain) :
    Simulates m count (chainCode count chain) (chain.Runs m) := by
  match chain with
  | .branch condition body rest =>
      rw [chainCode]
      refine ((codeOf_simulates m count body).choose condition
        ((chainCode_simulates m _ rest).mono (Nat.le_add_right _ _))).congr
          fun a o b => ?_
      rw [Chain.Runs]
  | .otherwise body =>
      rw [chainCode]
      exact (codeOf_simulates m count body).congr
        fun a o b => by rw [Chain.Runs]
  | .stop =>
      rw [chainCode]
      exact (Simulates.lines []).congr fun a o b => by rw [Chain.Runs]; rfl

end

end Bash

end Shellwright
