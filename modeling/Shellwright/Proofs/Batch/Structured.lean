/-
Structured programs over the lines of a batch script, what they do, and the flat
programs that are laid out from them.
-/
import Shellwright.Proofs.Batch.Reading

namespace Shellwright

namespace Batch

universe u

variable {σ : Type u}

/-- What lines do to a state, and when conditions hold in it. -/
structure Meaning (σ : Type u) where
  effect : String → σ → σ
  holds : String → σ → Bool

/-! Flat programs. -/

/-- The lines behind a label. -/
def landing (target : String) : List Line → Option (List Line)
  | [] => none
  | line :: rest =>
      if line = .label target then some rest else landing target rest

/-- Runs `prog` from `place`, the lines that are still to come, for a number of
lines at most.  A jump to a label that is not there leads nowhere. -/
def runFlat (m : Meaning σ) (prog : List Line) : Nat → Option (List Line) →
    σ → Option σ
  | _, none, _ => none
  | _, some [], a => some a
  | 0, some (_ :: _), _ => none
  | n + 1, some (.label _ :: rest), a => runFlat m prog n (some rest) a
  | n + 1, some (.jump target :: _), a =>
      runFlat m prog n (landing target prog) a
  | n + 1, some (.jumpUnless condition target :: rest), a =>
      if m.holds condition a then runFlat m prog n (some rest) a
      else runFlat m prog n (landing target prog) a
  | n + 1, some (.other text :: rest), a =>
      runFlat m prog n (some rest) (m.effect text a)

/-! Structured programs. -/

mutual

inductive Flow where
  | straight (lines : List String)
  | seq (first second : Flow)
  /-- The lines of `support` come before the first condition. -/
  | choose (support : List String) (condition : String) (body : Flow)
      (rest : Chain)
  /-- The lines of `support` come before the condition in every round. -/
  | loop (init post support : List String) (condition : Option String)
      (body : Flow)
  | leaveLoop
  | nextRound

/-- What follows the first branch of an if chain. -/
inductive Chain where
  | branch (condition : String) (body : Flow) (rest : Chain)
  | otherwise (body : Flow)
  | stop

end

/-- How a part of a program ends: at its end, with a jump out of the innermost
loop, or with one to the next round. -/
inductive Outcome where
  | done
  | leave
  | next
deriving DecidableEq

namespace Meaning

/-- The state after lines that jump nowhere. -/
def after (m : Meaning σ) (lines : List String) (a : σ) : σ :=
  lines.foldl (fun a line => m.effect line a) a

/-- Whether a round is made. -/
def goesOn (m : Meaning σ) (condition : Option String) (a : σ) : Bool :=
  condition.all fun condition => m.holds condition a

end Meaning

/-- One part after the other, unless the first jumps away. -/
def andThen (first second : σ → Outcome → σ → Prop) (a : σ) (o : Outcome)
    (b : σ) : Prop :=
  (∃ mid, first a .done mid ∧ second mid o b) ∨ (o ≠ .done ∧ first a o b)

/-- One round of a loop: the lines before the condition, and the body if the
condition holds.  If it fails, the loop is left. -/
def Round (m : Meaning σ) (support : List String) (condition : Option String)
    (body : σ → Outcome → σ → Prop) (a : σ) (o : Outcome) (b : σ) : Prop :=
  if m.goesOn condition (m.after support a) then body (m.after support a) o b
  else o = .leave ∧ b = m.after support a

/-- The rounds of a loop until it is left.  The post lines come between them. -/
inductive Rounds (m : Meaning σ) (post : List String)
    (round : σ → Outcome → σ → Prop) : σ → σ → Prop where
  | leave {a b : σ} : round a .leave b → Rounds m post round a b
  | again {a mid b : σ} {o : Outcome} : round a o mid → o ≠ .leave →
      Rounds m post round (m.after post mid) b → Rounds m post round a b

mutual

/-- The program can run from one state to another, and ends there with an
outcome. -/
def Flow.Runs (m : Meaning σ) : Flow → σ → Outcome → σ → Prop
  | .straight lines, a, o, b => o = .done ∧ b = m.after lines a
  | .seq first second, a, o, b => andThen (first.Runs m) (second.Runs m) a o b
  | .choose support condition body rest, a, o, b =>
      if m.holds condition (m.after support a) then body.Runs m
        (m.after support a) o b
      else rest.Runs m (m.after support a) o b
  | .loop init post support condition body, a, o, b =>
      o = .done ∧
        Rounds m post (Round m support condition (body.Runs m))
          (m.after init a) b
  | .leaveLoop, a, o, b => o = .leave ∧ b = a
  | .nextRound, a, o, b => o = .next ∧ b = a

def Chain.Runs (m : Meaning σ) : Chain → σ → Outcome → σ → Prop
  | .branch condition body rest, a, o, b =>
      if m.holds condition a then body.Runs m a o b else rest.Runs m a o b
  | .otherwise body, a, o, b => body.Runs m a o b
  | .stop, a, o, b => o = .done ∧ b = a

end

/-! The layout of a structured program. -/

/-- Where a loop is left to. -/
structure Exits where
  next : String
  stop : String

mutual

/-- How many labels a program takes. -/
def Flow.labels : Flow → Nat
  | .straight _ | .leaveLoop | .nextRound => 0
  | .seq first second => first.labels + second.labels
  | .choose _ _ body rest => 2 + body.labels + rest.labels
  | .loop _ _ _ _ body => 3 + body.labels

def Chain.labels : Chain → Nat
  | .branch _ body rest => 1 + body.labels + rest.labels
  | .otherwise body => body.labels
  | .stop => 0

end

/-- Lines that jump nowhere. -/
def plainLines (lines : List String) : List Line := lines.map .other

/-- What stands between two parts of a chain: the first part goes to the end,
and a condition that fails leads to the label. -/
def Chain.joint (stop next : String) : Chain → List Line
  | .stop => [.label next]
  | _ => [.jump stop, .label next]

/-- What stands at the end of a loop. -/
def roundEnd (next stop : String) : List Line := [.jump next, .label stop]

/-- What a loop repeats: the lines before the condition, the condition, the
body, and the jump to the next round. -/
def roundCode (next stop : String) (support : List String)
    (condition : Option String) (bodyCode : List Line) : List Line :=
  plainLines support ++
    ((condition.map fun condition => .jumpUnless condition stop).toList ++
      (bodyCode ++ roundEnd next stop))

mutual

/-- The lines of a program, when `count` labels are taken already. -/
def Flow.code (exits : Exits) (count : Nat) : Flow → List Line
  | .straight lines => plainLines lines
  | .seq first second =>
      first.code exits count ++ second.code exits (count + first.labels)
  | .choose support condition body rest =>
      plainLines support ++ .jumpUnless condition
        (countedLabel "else" (count + 1)) :: (body.code exits (count + 2) ++
          (rest.joint (countedLabel "endif" (count + 2))
            (countedLabel "else" (count + 1)) ++
            rest.entry exits (countedLabel "endif" (count + 2))
              (count + 2 + body.labels)))
  | .loop init post support condition body =>
      plainLines init ++
        .jump (countedLabel "cond" (count + 2)) ::
          .label (countedLabel "next" (count + 1)) ::
          (plainLines post ++ .label (countedLabel "cond" (count + 2)) ::
            roundCode (countedLabel "next" (count + 1))
              (countedLabel "done" (count + 3)) support condition
              (body.code ⟨countedLabel "next" (count + 1),
                countedLabel "done" (count + 3)⟩ (count + 3)))
  | .leaveLoop => [.jump exits.stop]
  | .nextRound => [.jump exits.next]

/-- The lines of the rest of a chain, behind the label a failed condition leads
to. -/
def Chain.entry (exits : Exits) (stop : String) (count : Nat) : Chain →
    List Line
  | .branch condition body rest =>
      .jumpUnless condition (countedLabel "else" (count + 1)) ::
        (body.code exits (count + 1) ++
          (rest.joint stop (countedLabel "else" (count + 1)) ++
            rest.entry exits stop (count + 1 + body.labels)))
  | .otherwise body => body.code exits count ++ [.label stop]
  | .stop => [.label stop]

end

/-! The labels of a layout. -/

/-- The labels of a flat program. -/
def labelsOf (prog : List Line) : List String := prog.filterMap Line.label?

@[simp] theorem labelsOf_append (first second : List Line) :
    labelsOf (first ++ second) = labelsOf first ++ labelsOf second :=
  List.filterMap_append

/-- Labels made while the counter went from `low` to `high`, no two the same. -/
structure Numbered (low high : Nat) (labels : List String) : Prop where
  numbers : ∀ label ∈ labels, ∃ stem ∈ stems, ∃ number, low < number ∧
    number ≤ high ∧ label = countedLabel stem number
  nodup : labels.Nodup

namespace Numbered

variable {low middle high : Nat} {labels more : List String}

theorem nil : Numbered low high [] :=
  ⟨fun _ hlabel => (nomatch hlabel), List.nodup_nil⟩

theorem perm (h : Numbered low high labels) (hperm : more.Perm labels) :
    Numbered low high more :=
  ⟨fun label hlabel => h.numbers label (hperm.mem_iff.mp hlabel),
    hperm.nodup_iff.mpr h.nodup⟩

theorem append (h : Numbered low middle labels)
    (hmore : Numbered middle high more) (hlow : low ≤ middle)
    (hhigh : middle ≤ high) : Numbered low high (labels ++ more) where
  numbers label hlabel := by
    rcases List.mem_append.mp hlabel with hin | hin
    · obtain ⟨stem, hstem, number, hlt, hle, rfl⟩ := h.numbers label hin
      exact ⟨stem, hstem, number, hlt, Nat.le_trans hle hhigh, rfl⟩
    · obtain ⟨stem, hstem, number, hlt, hle, rfl⟩ := hmore.numbers label hin
      exact ⟨stem, hstem, number, Nat.lt_of_le_of_lt hlow hlt, hle, rfl⟩
  nodup := by
    rw [List.nodup_append]
    refine ⟨h.nodup, hmore.nodup, ?_⟩
    rintro label hlabel other hother rfl
    obtain ⟨stem, hstem, number, _, hle, rfl⟩ := h.numbers label hlabel
    obtain ⟨stem', hstem', number', hlt, _, hsame⟩ := hmore.numbers _ hother
    have := countedLabel_inj hsame
    omega

theorem cons (stem : String) (hstem : stem ∈ stems)
    (h : Numbered (low + 1) high labels) (hhigh : low + 1 ≤ high) :
    Numbered low high (countedLabel stem (low + 1) :: labels) := by
  have hfirst : Numbered low (low + 1) [countedLabel stem (low + 1)] := by
    refine ⟨fun label hlabel => ?_, List.nodup_singleton _⟩
    exact ⟨stem, hstem, low + 1, Nat.lt_succ_self low, Nat.le_refl _,
      List.mem_singleton.mp hlabel⟩
  exact hfirst.append h (Nat.le_succ low) hhigh

end Numbered

@[simp] theorem labelsOf_plainLines (lines : List String) :
    labelsOf (plainLines lines) = [] := by
  simp [labelsOf, plainLines, Line.label?]

@[simp] theorem labelsOf_joint (stop next : String) (chain : Chain) :
    labelsOf (chain.joint stop next) = [next] := by
  cases chain <;> rfl

theorem labelsOf_jump (target : String) (code : List Line) :
    labelsOf (.jump target :: code) = labelsOf code := rfl

theorem labelsOf_label (name : String) (code : List Line) :
    labelsOf (.label name :: code) = name :: labelsOf code := rfl

theorem labelsOf_jumpUnless (condition target : String) (code : List Line) :
    labelsOf (.jumpUnless condition target :: code) = labelsOf code := rfl

theorem labelsOf_roundCode (next stop : String) (support : List String)
    (condition : Option String) (bodyCode : List Line) :
    labelsOf (roundCode next stop support condition bodyCode) =
      labelsOf bodyCode ++ [stop] := by
  have hend : labelsOf (roundEnd next stop) = [stop] := rfl
  unfold roundCode
  cases condition with
  | none => simp [hend]
  | some condition => simp [hend, labelsOf_jumpUnless]

mutual

theorem Flow.numbered (exits : Exits) (count : Nat) (flow : Flow) :
    Numbered count (count + flow.labels)
      (labelsOf (flow.code exits count)) := by
  match flow with
  | .straight lines =>
      rw [Flow.code, labelsOf_plainLines]
      exact .nil
  | .seq first second =>
      rw [Flow.code, Flow.labels, labelsOf_append]
      have hsecond := second.numbered exits (count + first.labels)
      rw [Nat.add_assoc] at hsecond
      exact (first.numbered exits count).append hsecond (by omega) (by omega)
  | .choose support condition body chain =>
      obtain ⟨own, hown, hnumbered⟩ := chain.numbered exits
        (countedLabel "endif" (count + 2)) (count + 2 + body.labels)
      have hinner := (body.numbered exits (count + 2)).append hnumbered
        (by omega) (by omega)
      have hlabels :
        labelsOf ((Flow.choose support condition body chain).code exits count) =
          labelsOf (body.code exits (count + 2)) ++
            countedLabel "else" (count + 1) ::
            (own ++ [countedLabel "endif" (count + 2)]) := by
        simp [Flow.code, labelsOf_jumpUnless, hown]
      rw [hlabels, Flow.labels, ← Nat.add_assoc, ← Nat.add_assoc]
      refine Numbered.perm
        (.cons "else" (by decide) (.cons "endif" (by decide) hinner (by omega))
        (by omega)) ?_
      refine List.perm_middle.trans (.cons _ ?_)
      rw [← List.append_assoc]
      exact List.perm_append_singleton _ _
  | .loop init post support condition body =>
      have hinner := body.numbered
        ⟨countedLabel "next" (count + 1), countedLabel "done" (count + 3)⟩
          (count + 3)
      have hlabels :
        labelsOf ((Flow.loop init post support condition body).code
          exits count) =
          countedLabel "next" (count + 1) :: countedLabel "cond" (count + 2) ::
            (labelsOf
              (body.code ⟨countedLabel "next" (count + 1),
                countedLabel "done" (count + 3)⟩
              (count + 3)) ++ [countedLabel "done" (count + 3)]) := by
        simp [Flow.code, labelsOf_roundCode, labelsOf_jump, labelsOf_label]
      rw [hlabels, Flow.labels, ← Nat.add_assoc]
      refine Numbered.perm (.cons "next" (by decide) (.cons "cond" (by decide)
        (.cons "done" (by decide) hinner (by omega)) (by omega)) (by omega)) ?_
      exact .cons _ (.cons _ (List.perm_append_singleton _ _))
  | .leaveLoop => exact .nil
  | .nextRound => exact .nil

/-- The last label of a chain is its end; the others are its own. -/
theorem Chain.numbered (exits : Exits) (stop : String) (count : Nat)
    (chain : Chain) :
    ∃ own, labelsOf (chain.entry exits stop count) = own ++ [stop] ∧
      Numbered count (count + chain.labels) own := by
  match chain with
  | .branch condition body rest =>
      obtain ⟨own, hown, hnumbered⟩ :=
        rest.numbered exits stop (count + 1 + body.labels)
      have hinner := (body.numbered exits (count + 1)).append hnumbered
        (by omega) (by omega)
      refine ⟨labelsOf (body.code exits (count + 1)) ++
        countedLabel "else" (count + 1) :: own, ?_, ?_⟩
      · simp [Chain.entry, labelsOf_jumpUnless, hown]
      · rw [Chain.labels, ← Nat.add_assoc, ← Nat.add_assoc]
        exact Numbered.perm (.cons "else" (by decide) hinner (by omega))
          List.perm_middle
  | .otherwise body =>
      refine ⟨labelsOf (body.code exits count), ?_, body.numbered exits count⟩
      rw [Chain.entry, labelsOf_append]
      rfl
  | .stop => exact ⟨[], rfl, .nil⟩

end

end Batch

end Shellwright
