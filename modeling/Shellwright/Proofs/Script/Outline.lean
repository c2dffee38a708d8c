/-
The structured program behind the lines of a script, whatever its dialect.  It
is put together while the lines are written: writing it writes what the
generator writes.
-/
import Shellwright.Proofs.Batch.Structured
import Shellwright.Proofs.Script.WriteStmt

namespace Shellwright

namespace Stmt

mutual

/-- The statements that `simple` admits, put together by blocks, if chains and
loops. -/
def isBuiltFrom (simple : Stmt → Bool) : Stmt → Bool
  | .choose branches otherwise =>
      !branches.isEmpty && areBranchesFrom simple branches &&
        isFallbackFrom simple otherwise
  | .loop init _ post body =>
      init.all simple && post.all simple && isBlockFrom simple body
  | .leaveLoop | .nextRound => true
  | s => simple s

def isBlockFrom (simple : Stmt → Bool) : List Stmt → Bool
  | [] => true
  | s :: rest => s.isBuiltFrom simple && isBlockFrom simple rest

def areBranchesFrom (simple : Stmt → Bool) : List (Expr × List Stmt) → Bool
  | [] => true
  | (_, body) :: rest => isBlockFrom simple body && areBranchesFrom simple rest

def isFallbackFrom (simple : Stmt → Bool) : Option (List Stmt) → Bool
  | none => true
  | some body => isBlockFrom simple body

end

end Stmt

namespace Script

open Batch (Flow Chain)

variable {σ α β : Type} (texts : σ → List String)

/-- Writes something and keeps the lines it adds to `texts`. -/
def keepLines (p : Write σ α) : Write σ (α × List String) := do
  let before := (texts (← get)).length
  let value ← p
  return (value, (texts (← get)).drop before)

section Outline

variable [Dialect σ]

mutual

/-- Writes a statement, and yields the structured program it is. -/
def outline : Stmt → Write σ Flow
  | .choose ((condition, body) :: branches) otherwise => do
      let ((test, tests), support) ← keepLines texts do
        let test ← evaluate condition true
        let tests ← conditions branches
        return (test, tests)
      Dialect.ifStart test
      let first ← outlineBlock body
      let rest ← outlineRest branches tests (outlineFallback otherwise)
      return .choose support test first rest
  | .loop init condition post body => do
      let (_, before) ← keepLines texts (optional init)
      Dialect.loopStart
      Dialect.postStart
      let (_, between) ← keepLines texts (postPart post)
      Dialect.postEnd
      let (test, support) ← keepLines texts (evaluateOption condition)
      test.forM Dialect.loopCondition
      let inside ← outlineBlock body
      Dialect.loopEnd
      return .loop before between support test inside
  | .leaveLoop => do
      Dialect.leaveLoop
      return .leaveLoop
  | .nextRound => do
      Dialect.nextRound
      return .nextRound
  | s => do
      let (_, lines) ← keepLines texts (statement s)
      return .straight lines

def outlineStatements : List Stmt → Write σ Flow
  | [] => return .straight []
  | s :: rest => do
      let first ← outline s
      let second ← outlineStatements rest
      return .seq first second

def outlineBlock : List Stmt → Write σ Flow
  | [] => do
      let (_, lines) ← keepLines texts Dialect.noOp
      return .straight lines
  | s :: rest => do
      let first ← outline s
      let second ← outlineStatements rest
      return .seq first second

/-- The branches behind the first one, and then `finish`. -/
def outlineRest : List (Expr × List Stmt) → List String → Write σ Chain →
    Write σ Chain
  | (_, body) :: branches, test :: tests, finish => do
      Dialect.elseIfStart test
      let inside ← outlineBlock body
      let rest ← outlineRest branches tests finish
      return .branch test inside rest
  | _, _, finish => finish

def outlineFallback : Option (List Stmt) → Write σ Chain
  | none => do
      Dialect.ifEnd
      return .stop
  | some body => do
      Dialect.elseStart
      let inside ← outlineBlock body
      Dialect.ifEnd
      return .otherwise inside

end

end Outline

/-- Rules for the writers of outlines: `lays` is kept by every way to build one
from the statements that `simple` admits, and `follows` by what comes behind the
first branch of an if chain.  The conditions that are evaluated are known to be
`fine`. -/
structure OutlineRules [Dialect σ] (simple : Stmt → Bool) (fine : String → Prop)
    (lays : Write σ Flow → Prop) (follows : Write σ Chain → Prop) : Prop where
  straight {s : Stmt} : simple s = true →
    lays (keepLines texts (statement s) >>= fun result =>
      pure (.straight result.2))
  noOp : lays (keepLines texts Dialect.noOp >>= fun result =>
    pure (.straight result.2))
  empty : lays (pure (.straight []))
  leaveLoop : lays do
    Dialect.leaveLoop
    return .leaveLoop
  nextRound : lays do
    Dialect.nextRound
    return .nextRound
  seq {p q : Write σ Flow} : lays p → lays q → lays do
    let first ← p
    let second ← q
    return .seq first second
  stop : follows do
    Dialect.ifEnd
    return .stop
  otherwise {p : Write σ Flow} : lays p → follows do
    Dialect.elseStart
    let inside ← p
    Dialect.ifEnd
    return .otherwise inside
  branch {test : String} {p : Write σ Flow} {q : Write σ Chain} :
    fine test → lays p → follows q → follows do
      Dialect.elseIfStart test
      let inside ← p
      let rest ← q
      return .branch test inside rest
  choose (condition : Expr) (branches : List (Expr × List Stmt))
      {p : Write σ Flow} {q : List String → Write σ Chain} :
    lays p → (∀ tests, (∀ test ∈ tests, fine test) → follows (q tests)) →
      lays do
      let ((test, tests), support) ← keepLines texts do
        let test ← evaluate condition true
        let tests ← conditions branches
        return (test, tests)
      Dialect.ifStart test
      let first ← p
      let rest ← q tests
      return .choose support test first rest
  loop {init post : Option Stmt} (condition : Option Expr) {p : Write σ Flow} :
    init.all simple = true → post.all simple = true → lays p → lays do
      let (_, before) ← keepLines texts (optional init)
      Dialect.loopStart
      Dialect.postStart
      let (_, between) ← keepLines texts (postPart post)
      Dialect.postEnd
      let (test, support) ← keepLines texts (evaluateOption condition)
      test.forM Dialect.loopCondition
      let inside ← p
      Dialect.loopEnd
      return .loop before between support test inside

namespace OutlineRules

variable {texts} [Dialect σ] {simple : Stmt → Bool} {fine : String → Prop}
  {lays : Write σ Flow → Prop} {follows : Write σ Chain → Prop}

mutual

theorem outline (rules : OutlineRules texts simple fine lays follows) {s : Stmt}
    (h : s.isBuiltFrom simple = true) : lays (Script.outline texts s) := by
  match s with
  | .choose [] otherwise => simp [Stmt.isBuiltFrom] at h
  | .choose ((condition, body) :: branches) otherwise =>
      simp only [Stmt.isBuiltFrom, Stmt.areBranchesFrom, Bool.and_eq_true] at h
      obtain ⟨⟨_, hbody, hbranches⟩, hotherwise⟩ := h
      have hlays := rules.choose condition branches (rules.block hbody)
        fun tests htests => rules.rest hbranches htests
          (rules.fallback hotherwise)
      rw [Script.outline]
      exact hlays
  | .loop init condition post body =>
      simp only [Stmt.isBuiltFrom, Bool.and_eq_true] at h
      rw [Script.outline]
      exact rules.loop condition h.1.1 h.1.2 (rules.block h.2)
  | .leaveLoop =>
      rw [Script.outline]
      exact rules.leaveLoop
  | .nextRound =>
      rw [Script.outline]
      exact rules.nextRound
  | .define .. | .assign .. | .store .. | .function .. | .giveBack ..
  | .print .. | .panic .. | .writeFile .. | .action .. | .noOp =>
      exact rules.straight h

theorem statements (rules : OutlineRules texts simple fine lays follows)
    {body : List Stmt} (h : Stmt.isBlockFrom simple body = true) :
    lays (outlineStatements texts body) := by
  match body with
  | [] =>
      rw [outlineStatements]
      exact rules.empty
  | s :: rest =>
      simp only [Stmt.isBlockFrom, Bool.and_eq_true] at h
      rw [outlineStatements]
      exact rules.seq (rules.outline h.1) (rules.statements h.2)

theorem block (rules : OutlineRules texts simple fine lays follows)
    {body : List Stmt} (h : Stmt.isBlockFrom simple body = true) :
    lays (outlineBlock texts body) := by
  match body with
  | [] =>
      rw [outlineBlock]
      exact rules.noOp
  | s :: rest =>
      simp only [Stmt.isBlockFrom, Bool.and_eq_true] at h
      rw [outlineBlock]
      exact rules.seq (rules.outline h.1) (rules.statements h.2)

theorem rest (rules : OutlineRules texts simple fine lays follows)
    {branches : List (Expr × List Stmt)} {tests : List String}
    {finish : Write σ Chain} (h : Stmt.areBranchesFrom simple branches = true)
    (htests : ∀ test ∈ tests, fine test) (hfinish : follows finish) :
    follows (outlineRest texts branches tests finish) := by
  match branches, tests with
  | [], _ =>
      rw [outlineRest]
      · exact hfinish
      · simp
  | _ :: _, [] =>
      rw [outlineRest]
      · exact hfinish
      · simp
  | (_, body) :: branches, test :: tests =>
      simp only [Stmt.areBranchesFrom, Bool.and_eq_true] at h
      obtain ⟨htest, hothers⟩ := List.forall_mem_cons.mp htests
      rw [outlineRest]
      exact rules.branch htest (rules.block h.1)
        (rules.rest h.2 hothers hfinish)

theorem fallback (rules : OutlineRules texts simple fine lays follows)
    {otherwise : Option (List Stmt)}
    (h : Stmt.isFallbackFrom simple otherwise = true) :
    follows (outlineFallback texts otherwise) := by
  match otherwise with
  | none =>
      rw [outlineFallback]
      exact rules.stop
  | some body =>
      rw [outlineFallback]
      exact rules.otherwise (rules.block h)

end

end OutlineRules

/-! Writing an outline writes what is outlined. -/

section Lines

variable {texts}

theorem exec_keepLines {p : Write σ α} {s s' : σ} {a : α} {lines : List String}
    (h : exec (keepLines texts p) s = (.ok (a, lines), s')) :
    exec p s = (.ok a, s') ∧ lines = (texts s').drop (texts s).length := by
  unfold keepLines at h
  rw [exec_get_bind] at h
  obtain ⟨value, mid, hp, hrest⟩ := exec_bind_eq_ok h
  cases hrest
  exact ⟨hp, rfl⟩

/-- Keeping the lines of a writer changes nothing else. -/
theorem keepLines_bind (p : Write σ α) (f : α → Write σ β) :
    (keepLines texts p >>= fun result => f result.1) = p >>= f := by
  funext s
  change exec (keepLines texts p >>= fun result => f result.1) s =
    exec (p >>= f) s
  rcases hp : exec p s with ⟨result, s'⟩
  cases result with
  | error error =>
      have hkept : exec (keepLines texts p) s = (.error error, s') := by
        rw [keepLines, exec_get_bind]
        exact exec_bind_error hp
      rw [exec_bind_error hkept, exec_bind_error hp]
  | ok a =>
      have hkept : exec (keepLines texts p) s =
          (.ok (a, (texts s').drop (texts s).length), s') := by
        rw [keepLines, exec_get_bind]
        exact exec_bind_ok hp
      rw [exec_bind_ok hkept, exec_bind_ok hp]

theorem keepLines_seq (p : Write σ α) (rest : Write σ β) :
    (keepLines texts p >>= fun _ => rest) = p >>= fun _ => rest :=
  keepLines_bind p fun _ => rest

end Lines

/-- The writer does what `q` does, and has a value of its own. -/
def Decorates (p : Write σ α) (q : Write σ Unit) : Prop :=
  (p >>= fun _ => pure ()) = q

theorem Decorates.bind {p : Write σ α} {q : Write σ Unit} (h : Decorates p q)
    (rest : Write σ β) : (p >>= fun _ => rest) = q >>= fun _ => rest := by
  unfold Decorates at h
  rw [← h, bind_assoc]
  simp only [pure_bind]

theorem straight_decorates (p : Write σ Unit) :
    Decorates (keepLines texts p >>=
      fun result => pure (Flow.straight result.2)) p := by
  rw [Decorates, bind_assoc]
  simp only [pure_bind]
  rw [keepLines_seq, bind_pure_unit]

section Decorates

variable [Dialect σ]

theorem conditionPart_eq (condition : Option Expr) :
    (conditionPart condition : Write σ Unit) =
      evaluateOption condition >>=
        fun test => test.forM Dialect.loopCondition := by
  cases condition with
  | none => rfl
  | some condition =>
      rw [conditionPart, evaluateOption, bind_assoc]
      simp only [pure_bind]
      rfl

mutual

theorem outline_decorates (s : Stmt) :
    Decorates (outline texts s) (statement s) := by
  match s with
  | .choose ((condition, body) :: branches) otherwise =>
      rw [Decorates, outline, statement, conditions]
      simp only [bind_assoc, pure_bind]
      refine (keepLines_bind _ fun tests : String × List String => do
        Dialect.ifStart tests.1
        let _ ← outlineBlock texts body
        let _ ← outlineRest texts branches tests.2
          (outlineFallback texts otherwise)
        pure ()).trans ?_
      simp only [bind_assoc, pure_bind, guarded, if_true]
      refine bind_congr fun test => bind_congr
        fun tests => bind_congr fun _ => ?_
      rw [(outlineBlock_decorates body).bind]
      exact bind_congr fun _ => outlineRest_decorates branches tests
        (outlineFallback_decorates otherwise)
  | .loop init condition post body =>
      rw [Decorates, outline, statement_loop]
      simp only [bind_assoc, pure_bind]
      rw [keepLines_seq]
      refine bind_congr fun _ => bind_congr fun _ => bind_congr fun _ => ?_
      rw [keepLines_seq]
      refine bind_congr fun _ => bind_congr fun _ => ?_
      refine (keepLines_bind _ fun test : Option String => do
        test.forM Dialect.loopCondition
        let _ ← outlineBlock texts body
        Dialect.loopEnd
        pure ()).trans ?_
      rw [conditionPart_eq, bind_assoc]
      refine bind_congr fun test => bind_congr fun _ => ?_
      rw [(outlineBlock_decorates body).bind, bind_pure_unit]
  | .leaveLoop =>
      rw [Decorates, outline, statement, bind_assoc]
      simp only [pure_bind, bind_pure_unit]
  | .nextRound =>
      rw [Decorates, outline, statement, bind_assoc]
      simp only [pure_bind, bind_pure_unit]
  | .define .. | .assign .. | .store .. | .function .. | .giveBack ..
  | .print .. | .panic .. | .writeFile .. | .action .. | .noOp | .choose [] _ =>
      exact straight_decorates texts _

theorem outlineStatements_decorates (body : List Stmt) :
    Decorates (outlineStatements texts body) (statements body) := by
  match body with
  | [] =>
      rw [Decorates, outlineStatements, statements]
      simp only [pure_bind]
  | s :: rest =>
      rw [Decorates, outlineStatements, statements]
      simp only [bind_assoc, pure_bind]
      rw [(outline_decorates s).bind]
      exact bind_congr fun _ => outlineStatements_decorates rest

theorem outlineBlock_decorates (body : List Stmt) :
    Decorates (outlineBlock texts body) (block body) := by
  match body with
  | [] =>
      rw [outlineBlock, block]
      exact straight_decorates texts _
  | s :: rest =>
      rw [Decorates, outlineBlock, block]
      simp only [bind_assoc, pure_bind]
      rw [(outline_decorates s).bind]
      exact bind_congr fun _ => outlineStatements_decorates rest

theorem outlineRest_decorates (branches : List (Expr × List Stmt))
    (tests : List String) {finish : Write σ Chain} {close : Write σ Unit}
    (hfinish : Decorates finish close) :
    Decorates (outlineRest texts branches tests finish)
      (do
        guarded false branches tests
        close) := by
  match branches, tests with
  | [], tests =>
      rw [outlineRest, guarded]
      · simpa using hfinish
      · simp
      · simp
  | branch :: branches, [] =>
      rw [outlineRest, guarded]
      · simpa using hfinish
      · simp
      · simp
  | (_, body) :: branches, test :: tests =>
      rw [Decorates, outlineRest, guarded, if_neg Bool.false_ne_true]
      simp only [bind_assoc, pure_bind]
      refine bind_congr fun _ => ?_
      rw [(outlineBlock_decorates body).bind]
      exact bind_congr fun _ => outlineRest_decorates branches tests hfinish

theorem outlineFallback_decorates (otherwise : Option (List Stmt)) :
    Decorates (outlineFallback texts otherwise)
      (do
        fallback otherwise
        Dialect.ifEnd) := by
  match otherwise with
  | none =>
      rw [Decorates, outlineFallback, fallback, bind_assoc]
      simp only [pure_bind, bind_pure_unit]
  | some body =>
      rw [Decorates, outlineFallback, fallback]
      simp only [bind_assoc, pure_bind]
      refine bind_congr fun _ => ?_
      rw [(outlineBlock_decorates body).bind, bind_pure_unit]

end

/-- A block that is written has an outline. -/
theorem exists_outlineBlock {body : List Stmt} {s s' : σ}
    (h : exec (block body) s = (.ok (), s')) :
    ∃ flow, exec (outlineBlock texts body) s = (.ok flow, s') := by
  have hsame : exec (outlineBlock texts body >>= fun _ => pure ()) s =
      (.ok (), s') :=
    (congrArg (exec · s) (outlineBlock_decorates texts body)).trans h
  obtain ⟨flow, last, houtline, hlast⟩ := exec_bind_eq_ok hsame
  cases hlast
  exact ⟨flow, houtline⟩

end Decorates

end Script

end Shellwright
