/-
A lawful dialect writes every well-typed program, by recursion on the judgement.
Statements away from the top level define no functions, so the functions known
to the writer change at the top level only.
-/
import Shellwright.Proofs.Script.WriteExpr

namespace Shellwright

namespace Script

variable {σ : Type} [Dialect σ] {c : Course σ} {tables : Tables}
  {here : Progress} {s : σ} {place : Place} {other : Tables} {body : List Stmt}
  {condition : Option Expr} {otherwise : Option (List Stmt)}
  {branches : List (Expr × List Stmt)}

theorem Knows.congr (h : Knows here tables)
    (heq : other.functions = tables.functions) : Knows here other := by
  unfold Knows
  rw [heq]
  exact h

theorem ExprWritten.congr {e : Expr} (h : ExprWritten c other e)
    (heq : other.functions = tables.functions) : ExprWritten c tables e :=
  fun _ _ hinv hknows hne => h hinv (hknows.congr heq) hne

/-! The parts of a loop as the generator writes them. -/

/-- The statement between two rounds. -/
def postPart : Option Stmt → Write σ Unit
  | some post => statement post
  | none => Dialect.noOp

def conditionPart : Option Expr → Write σ Unit
  | some condition => do
      let test ← evaluate condition true
      Dialect.loopCondition test
  | none => pure ()

theorem statement_loop (init : Option Stmt) (condition : Option Expr)
    (post : Option Stmt) (body : List Stmt) :
    (statement (.loop init condition post body) : Write σ Unit) = (do
      optional init
      Dialect.loopStart
      Dialect.postStart
      postPart post
      Dialect.postEnd
      conditionPart condition
      block body
      Dialect.loopEnd) := by
  cases post <;> cases condition <;> simp [statement, postPart, conditionPart]

theorem block_cons (first : Stmt) (rest : List Stmt) :
    (block (first :: rest) : Write σ Unit) = statements (first :: rest) := by
  rw [block, statements]

/-! Simple statements. -/

omit [Dialect σ] in
/-- Each target takes a fragment of its type. -/
theorem targets_meets {targets : List Binding} {values : List String}
    (write : Binding → String → Write σ Unit) (hinv : c.Inv here s)
    (hvalues : c.Values s (values.zip (targets.map Binding.ty)))
    (hwrite : ∀ target ∈ keptTargets targets, ∀ {value s'},
      c.fragment s' target.ty.isList value →
        c.Keeps s' here (write target value)) :
    c.Meets none ((targets.zip values).forM fun item =>
      if item.1.name = "_" then return else write item.1 item.2) s
      (fun _ _ => True) here := by
  refine .forM hinv fun item hitem s' hgrows hinv' => ?_
  by_cases hname : item.1.name = "_"
  · rw [if_pos hname]
    exact .pure trivial hinv'
  · rw [if_neg hname]
    have hvalue : (item.2, item.1.ty) ∈
        values.zip (targets.map Binding.ty) := by
      rw [List.zip_map_right, List.mem_map]
      refine ⟨item.swap, ?_, rfl⟩
      rw [← List.zip_swap, List.mem_map]
      exact ⟨item, hitem, rfl⟩
    have hkept : item.1 ∈ keptTargets targets :=
      List.mem_filter.mpr ⟨(List.of_mem_zip hitem).1, by simpa using hname⟩
    exact hwrite item.1 hkept (c.mono hgrows (hvalues _ hvalue)) hinv'

/-! Compound statements. -/

/-- The block is written wherever a statement of the place can stand. -/
def BlockWritten (c : Course σ) (place : Place) (tables : Tables)
    (body : List Stmt) : Prop :=
  ∀ ⦃here s⦄, c.Inv here s → Knows here tables →
    (place.inLoop = true → here.InLoop) →
    c.Meets (refusal c.strict here.function (Stmt.eventsOfBlock body))
      (block body) s (fun _ _ => True) (here.noted (Stmt.eventsOfBlock body))

theorem BlockWritten.congr (h : BlockWritten c place other body)
    (heq : other.functions = tables.functions) :
    BlockWritten c place tables body :=
  fun _ _ hinv hknows hloop => h hinv (hknows.congr heq) hloop

theorem conditions_meets
    (hbranches : ∀ branch ∈ branches, ExprWritten c tables branch.1 ∧
      branch.1.Yields .bool) (hinv : c.Inv here s)
    (hknows : Knows here tables) :
    c.Meets (refusal c.strict here.function (Stmt.eventsOfConditions branches))
      (conditions branches) s
      (fun tests s' => c.Scalars s' tests ∧ tests.length = branches.length)
      (here.noted (Stmt.eventsOfConditions branches)) := by
  induction branches generalizing here s with
  | nil =>
      exact .pure ⟨fun _ htest => (nomatch htest), rfl⟩
        (by simpa [Stmt.eventsOfConditions] using hinv)
  | cons branch branches ih =>
      obtain ⟨⟨hbranch, hbool⟩, hbranches⟩ := List.forall_mem_cons.mp hbranches
      unfold Stmt.eventsOfConditions conditions
      refine (hbranch.yields hbool hinv hknows).seq
        fun test s' _ htest hinv' => ?_
      refine (ih hbranches hinv' hknows).andThen
        fun tests s'' hgrows htests => .pure ?_
      exact ⟨List.forall_mem_cons.mpr ⟨c.mono hgrows htest, htests.1⟩, by
        simpa using htests.2⟩

variable (law : Lawful c)

include law

theorem returnedValues_meets {values : List Expr} {required : List ValueType}
    (hvalues : ∀ value ∈ values, value.Typed tables)
    (hwords : ∀ value ∈ values, Words value.mentions)
    (hreturned : Returned values required)
    (hinv : c.Inv here s) (hknows : Knows here tables) :
    c.Meets (refusal c.strict here.function (Expr.eventsOfAll values))
      (returnedValues values) s
      (fun results s' => c.Values s' results)
        (here.noted (Expr.eventsOfAll values)) := by
  rcases hreturned with ⟨value, rfl, hprocess, hlength, _⟩ | hyields
  · have hhands : value.Hands value.types := by
      refine ⟨List.ne_nil_of_length_pos (Nat.zero_lt_of_lt hlength), ?_⟩
      rw [hprocess]
      rfl
    have hevents : Expr.eventsOfAll [value] = value.events := by
      simp [Expr.eventsOfAll]
    have hmember := List.mem_singleton_self value
    rw [hevents, returnedValues, if_pos (by simp [hprocess, hlength])]
    exact (evaluateMany_meets law (hvalues value hmember)
      (hwords value hmember) hhands hinv
      hknows).andThen fun _ _ _ hresults => .pure hresults
  · have heq : (returnedValues values : Write σ _) = typedValues values := by
      cases hyields with
      | nil => rfl
      | cons hvalue hrest =>
          cases hrest with
          | nil =>
              rw [returnedValues, if_neg]
              rcases hvalue with htypes | ⟨hprocess, _⟩
              · simp [htypes]
              · simp [hprocess]
          | cons _ _ => rfl
    rw [heq]
    unfold typedValues
    exact (evaluateAll_meets
      (fun e he => evaluate_meets law (hvalues e he) (hwords e he))
      (types_ne_nil_of_forall₂ hyields) hinv hknows).andThen
      fun _ _ _ hresults => .pure hresults.1

/-- A statement that is an expression. -/
theorem action_meets {value : Expr} (htyped : value.Typed tables)
    (hwords : Words value.mentions) (haction : value.isAction = true)
    (hinv : c.Inv here s) (hknows : Knows here tables) :
    c.Meets (refusal c.strict here.function (Stmt.action value).events)
      (statement (.action value)) s (fun _ _ => True)
        (here.noted (Stmt.action value).events) := by
  cases htyped with
  | call hlookup hargs hyields =>
      obtain ⟨hwords, hname⟩ := words_append.mp hwords
      have hall := words_mentionsOfAll.mp hwords
      unfold Stmt.events statement
      exact (evaluate_call_meets law (words_cons.mp hname).1
        (fun arg harg => evaluate_meets law (hargs arg harg) (hall arg harg))
        (types_ne_nil_of_forall₂ hyields) (hknows.mem hlookup)
          (fun h => by cases h) hinv
        hknows).andThen fun _ _ _ _ => .pure trivial
  | process hstages hargs hyields =>
      have hall := words_mentionsOfStages.mp (words_append.mp hwords).1
      unfold Stmt.events statement
      rw [← bind_assoc]
      exact (runProcess_meets law
        (fun stage hstage arg harg => evaluate_meets law
        (hargs stage hstage arg harg) (hall stage hstage arg harg)) hyields
        (show 0 ≤ 3 by decide) hinv hknows).andThen fun _ _ _ _ => .pure trivial
  | input hprompt hyields =>
      have hall := words_mentionsOfOption.mp hwords
      unfold Stmt.events statement
      exact (evaluate_input_meets law
        (fun e he => evaluate_meets law (hprompt e he) (hall e he))
        hyields hinv hknows).andThen fun _ _ _ _ => .pure trivial
  | _ => cases haction

/-- The branches of a chain, with or without its first one. -/
theorem guarded_meets {tests : List String} {first : Bool}
    (hbranches : first = true → branches ≠ [])
    (hbodies : ∀ branch ∈ branches, BlockWritten c place tables branch.2)
    (htests : c.Scalars s tests) (hlength : tests.length = branches.length)
    (hinv : c.Inv (if first then here else here.opened .branch) s)
    (hknows : Knows here tables) (hloop : place.inLoop = true → here.InLoop) :
    c.Meets (refusal c.strict here.function (Stmt.eventsOfBodies branches))
      (guarded first branches tests) s (fun _ _ => True)
      ((here.noted (Stmt.eventsOfBodies branches)).opened .branch) := by
  induction branches generalizing here s tests first with
  | nil =>
      cases first with
      | true => exact absurd rfl (hbranches rfl)
      | false =>
          unfold guarded
          exact .pure trivial (by simpa [Stmt.eventsOfBodies] using hinv)
  | cons branch branches ih =>
      obtain ⟨hbody, hbodies⟩ := List.forall_mem_cons.mp hbodies
      cases tests with
      | nil => cases hlength
      | cons test tests =>
          obtain ⟨htest, htests⟩ := List.forall_mem_cons.mp htests
          have hrest : ∀ s₁, c.grows s s₁ → c.Inv (here.opened .branch) s₁ →
              c.Meets (refusal c.strict here.function
                (Stmt.eventsOfBodies (branch :: branches))) (do
                  block branch.2
                  guarded false branches tests) s₁ (fun _ _ => True)
                ((here.noted (Stmt.eventsOfBodies (branch :: branches))).opened
                  .branch) := by
            intro s₁ hgrows hinv₁
            unfold Stmt.eventsOfBodies
            rw [← Progress.opened_noted]
            refine (hbody hinv₁ hknows fun h => (hloop h).opened _).seq
              fun _ s₂ hgrows' _ hinv₂ => ?_
            rw [Progress.opened_noted] at hinv₂
            exact ih (fun h : false = true => nomatch h) hbodies
              (Contract.Scalars.mono (c.trans hgrows hgrows') htests)
                (Nat.succ.inj hlength) hinv₂
              hknows hloop
          unfold guarded
          cases first with
          | true =>
              exact (law.ifStart htest hinv).first
                fun _ s₁ hgrows _ => hrest s₁ hgrows
          | false =>
              exact (law.elseIfStart htest hinv).first
                fun _ s₁ hgrows _ => hrest s₁ hgrows

theorem fallback_meets
    (hotherwise : ∀ body ∈ otherwise, BlockWritten c place tables body)
    (hinv : c.Inv (here.opened .branch) s) (hknows : Knows here tables)
    (hloop : place.inLoop = true → here.InLoop) :
    c.Meets (refusal c.strict here.function (Stmt.eventsOfFallback otherwise))
      (do
        fallback otherwise
        Dialect.ifEnd) s (fun _ _ => True) (here.noted
          (Stmt.eventsOfFallback otherwise)) := by
  cases otherwise with
  | none =>
      unfold fallback Stmt.eventsOfFallback
      rw [pure_bind, Progress.noted_nil]
      exact law.ifEnd (.inl rfl) hinv
  | some body =>
      unfold fallback Stmt.eventsOfFallback
      rw [bind_assoc]
      refine (law.elseStart hinv).first fun _ s' _ _ hinv' => ?_
      have hbody := hotherwise body rfl hinv' hknows fun h => (hloop h).opened _
      rw [Progress.opened_noted] at hbody
      exact hbody.andThen fun _ _ _ _ => law.ifEnd (.inr rfl)

theorem choose_meets (hbranches : branches ≠ [])
    (hconditions : ∀ branch ∈ branches, ExprWritten c tables branch.1 ∧
      branch.1.Yields .bool)
    (hbodies : ∀ branch ∈ branches, BlockWritten c place tables branch.2)
    (hotherwise : ∀ body ∈ otherwise, BlockWritten c place tables body)
    (hinv : c.Inv here s) (hknows : Knows here tables)
    (hloop : place.inLoop = true → here.InLoop) :
    c.Meets (refusal c.strict here.function
      (Stmt.choose branches otherwise).events)
      (statement (.choose branches otherwise)) s (fun _ _ => True)
      (here.noted (Stmt.choose branches otherwise).events) := by
  unfold Stmt.events statement
  refine (conditions_meets hconditions hinv hknows).seq
    fun tests s' _ htests hinv' => ?_
  rw [refusal_append, Progress.noted_append]
  refine (guarded_meets law (fun _ : true = true => hbranches) hbodies htests.1
    htests.2 hinv' hknows hloop).bind fun _ s'' _ _ hinv'' => ?_
  exact fallback_meets law hotherwise hinv'' hknows hloop

theorem postPart_meets {post : Option Stmt}
    (hpost : c.Meets (refusal c.strict here.function (Stmt.eventsOfPart post))
      (optional post) s
      (fun _ _ => True) (here.noted (Stmt.eventsOfPart post))) (hinv :
        c.Inv here s) :
    c.Meets (refusal c.strict here.function (Stmt.eventsOfPart post))
      (postPart post) s
      (fun _ _ => True) (here.noted (Stmt.eventsOfPart post)) := by
  cases post with
  | none =>
      unfold postPart Stmt.eventsOfPart
      rw [Progress.noted_nil]
      exact law.noOp hinv
  | some step => exact hpost

theorem conditionPart_meets
    (hcondition : ∀ test ∈ condition, ExprWritten c tables test ∧ test.Yields
      .bool) (hinv : c.Inv (here.opened .loop) s) (hknows : Knows here tables) :
    c.Meets (refusal c.strict here.function (Expr.eventsOfOption condition))
      (conditionPart condition) s (fun _ _ => True)
      ((here.opened .loop).noted (Expr.eventsOfOption condition)) := by
  cases condition with
  | none => exact .pure trivial (by simpa [Expr.eventsOfOption] using hinv)
  | some test =>
      unfold conditionPart Expr.eventsOfOption
      obtain ⟨hwritten, hbool⟩ := hcondition test rfl
      have htest := hwritten.yields hbool hinv hknows
      rw [Progress.opened_noted] at htest ⊢
      exact htest.andThen fun _ _ _ => law.loopCondition

/-- The parts of a loop one after the other, each with what it needs. -/
theorem loop_meets {init post : Option Stmt}
    (hinit : c.Meets (refusal c.strict here.function (Stmt.eventsOfPart init))
      (optional init) s (fun _ _ => True) (here.noted (Stmt.eventsOfPart init)))
    (hpost : ∀ {here s}, c.Inv here s → Knows here tables → (place.inLoop =
      true → here.InLoop) → c.Meets (refusal c.strict here.function
      (Stmt.eventsOfPart post)) (postPart post) s (fun _ _ => True) (here.noted
      (Stmt.eventsOfPart post)))
    (hcondition : ∀ test ∈ condition, ExprWritten c tables test ∧ test.Yields
      .bool) (hbody : BlockWritten c place.loopBody tables body)
    (hknows : Knows here tables) (hloop : place.inLoop = true → here.InLoop) :
    c.Meets (refusal c.strict here.function
      (Stmt.loop init condition post body).events)
      (statement (.loop init condition post body)) s (fun _ _ => True)
      (here.noted (Stmt.loop init condition post body).events) := by
  rw [statement_loop]
  unfold Stmt.events
  refine hinit.seq fun _ s₁ _ _ hinv₁ => ?_
  refine (law.loopStart hinv₁).first fun _ s₂ _ _ hinv₂ => ?_
  refine (law.postStart hinv₂).first fun _ s₃ _ _ hinv₃ => ?_
  rw [refusal_append, Progress.noted_append]
  have hposted := hpost hinv₃ hknows fun h => (hloop h).opened _
  rw [Progress.opened_noted] at hposted
  refine hposted.bind fun _ s₄ _ _ hinv₄ => ?_
  refine (law.postEnd hinv₄).first fun _ s₅ _ _ hinv₅ => ?_
  rw [refusal_append, Progress.noted_append]
  have htested := conditionPart_meets law hcondition hinv₅ hknows
  rw [Progress.opened_noted] at htested
  refine htested.bind fun _ s₆ _ _ hinv₆ => ?_
  have hround := hbody hinv₆ hknows fun _ => Progress.inLoop_opened_loop _
  rw [Progress.opened_noted] at hround
  exact hround.andThen fun _ _ _ _ => law.loopEnd

theorem block_meets
    (hbody : c.Meets (refusal c.strict here.function (Stmt.eventsOfBlock body))
      (statements body) s (fun _ _ => True) (here.noted (Stmt.eventsOfBlock
      body))) (hinv : c.Inv here s) :
    c.Meets (refusal c.strict here.function (Stmt.eventsOfBlock body))
      (block body) s
      (fun _ _ => True) (here.noted (Stmt.eventsOfBlock body)) := by
  cases body with
  | nil =>
      unfold block Stmt.eventsOfBlock
      rw [Progress.noted_nil]
      exact law.noOp hinv
  | cons first rest =>
      rw [block_cons]
      exact hbody

omit law

mutual

/-- A checked statement away from the top level is written. -/
theorem statement_meets (law : Lawful c) {place : Place} {before after : Tables}
    {first : Stmt} (h : Stmt.Checked place before first after)
    (hinner : place.topLevel = false) (hwords : Words first.mentions)
    {here : Progress} {s : σ} (hinv : c.Inv here s) (hknows : Knows here before)
    (hloop : place.inLoop = true → here.InLoop) :
    c.Meets (refusal c.strict here.function first.events) (statement first) s
      (fun _ _ => True) (here.noted first.events) := by
  match h with
  | .defineEmpty _ _ _ =>
      have htargets := (words_map fun _ => .rfl).mp hwords
      unfold Stmt.events Expr.eventsOfOption statement
      rw [Progress.noted_nil]
      exact .forM hinv fun target htarget s' _ =>
        law.defineVariable (htargets target htarget)
          fun _ htext => nomatch htext
  | .define hvalue hhands _ =>
      obtain ⟨hwords, hkept⟩ := words_append.mp hwords
      have htargets := (words_map fun _ => .rfl).mp hkept
      have hresults := evaluateMany_meets law hvalue hwords hhands hinv hknows
      rw [List.length_map] at hresults
      unfold Stmt.events Expr.eventsOfOption statement
      refine hresults.andThen fun _ _ _ hvalues hinv' => targets_meets
        (fun target value => Dialect.defineVariable target.name target.ty
          (some value)) hinv'
        hvalues fun target htarget _ _ hvalue =>
          law.defineVariable (htargets target htarget) ?_
      rintro _ ⟨⟩
      exact hvalue
  | .assign hvalue hhands _ =>
      obtain ⟨hwords, hkept⟩ := words_append.mp hwords
      have htargets := (words_map fun _ => .rfl).mp hkept
      have hresults := evaluateMany_meets law hvalue hwords hhands hinv hknows
      rw [List.length_map] at hresults
      unfold Stmt.events statement
      exact hresults.andThen fun _ _ _ hvalues hinv' => targets_meets
        (fun target value => Dialect.assignVariable target.name target.ty value)
          hinv' hvalues
        fun target htarget _ _ => law.assignVariable (htargets target htarget)
  | .store _ _ hindex hindexYields hvalue hvalueYields =>
      obtain ⟨hindexWords, hrest⟩ := words_append.mp hwords
      obtain ⟨hvalueWords, hname⟩ := words_append.mp hrest
      unfold Stmt.events statement
      exact evaluate_pair_meets (evaluate_meets law hindex hindexWords)
        (evaluate_meets law hvalue hvalueWords) hindexYields hvalueYields
        (law.storeElement (words_cons.mp hname).1) hinv hknows
  | .function htop _ _ _ _ _ =>
      rw [hinner] at htop
      cases htop
  | .giveBack _ hvalues hreturned =>
      unfold Stmt.events statement
      exact (returnedValues_meets law hvalues (words_mentionsOfAll.mp hwords)
        hreturned hinv hknows).andThen fun _ _ _ => law.giveBack
  | .choose hbranches hchain =>
      obtain ⟨hconditionWords, hbodyWords⟩ := words_append.mp hwords
      obtain ⟨hconditions, hbodies, hotherwise⟩ :=
        chain_meets law hchain rfl hconditionWords hbodyWords
      exact choose_meets law hbranches hconditions hbodies hotherwise hinv
        hknows hloop
  | .loop hinit hcondition hpost hbody _ =>
      obtain ⟨hinitWords, hrest⟩ := words_append.mp hwords
      obtain ⟨hpostWords, hrest⟩ := words_append.mp hrest
      obtain ⟨hconditionWords, hbodyWords⟩ := words_append.mp hrest
      have htests := words_mentionsOfOption.mp hconditionWords
      have hstepped := hpost.leaves.functions rfl
      exact loop_meets law
        (optional_meets law hinit rfl hinitWords hinv hknows hloop)
        (fun hinv hknows hloop =>
          postPart_meets law
            (optional_meets law hpost rfl hpostWords hinv hknows hloop) hinv)
        (fun test htest =>
          ⟨evaluate_meets law (hcondition test htest).1 (htests test htest),
          (hcondition test htest).2⟩)
        (fun here s hinv hknows hloop => block_meets law
          (statements_meets law hbody rfl hbodyWords hinv
            (hknows.congr hstepped) hloop) hinv)
        (hknows.congr (hinit.leaves.functions rfl)) hloop
  | .leaveLoop hin =>
      unfold Stmt.events statement
      rw [Progress.noted_nil]
      exact law.leaveLoop (hloop hin) hinv
  | .nextRound hin =>
      unfold Stmt.events statement
      rw [Progress.noted_nil]
      exact law.nextRound (hloop hin) hinv
  | .print hvalue hyields hscalar =>
      unfold Stmt.events statement
      rw [hyields.ty_eq]
      refine evaluate_single_meets (evaluate_meets law hvalue hwords) hyields
        (fun htext => ?_) hinv hknows
      rw [ValueType.isList_of_isScalar hscalar] at htext
      exact law.print hscalar htext
  | .panic hmessage hyields =>
      unfold Stmt.events statement
      have hmeets := evaluate_meets law hmessage (words_append.mp hwords).1
      exact evaluate_single_meets hmeets hyields law.panic hinv hknows
  | .writeFile hpath hpathYields hcontent hcontentYields =>
      obtain ⟨hpathWords, hcontentWords⟩ := words_append.mp hwords
      unfold Stmt.events statement
      exact evaluate_pair_meets (evaluate_meets law hpath hpathWords)
        (evaluate_meets law hcontent hcontentWords) hpathYields hcontentYields
          law.writeFile hinv
        hknows
  | .action hvalue haction =>
      exact action_meets law hvalue hwords haction hinv hknows
  | .noOp =>
      unfold Stmt.events statement
      rw [Progress.noted_nil]
      exact law.noOp hinv

theorem statements_meets (law : Lawful c) {place : Place}
    {before after : Tables} {body : List Stmt}
    (h : Block.Checked place before body after)
    (hinner : place.topLevel = false)
    (hwords : Words (Stmt.mentionsOfBlock body)) {here : Progress} {s : σ}
    (hinv : c.Inv here s) (hknows : Knows here before)
    (hloop : place.inLoop = true → here.InLoop) :
    c.Meets (refusal c.strict here.function (Stmt.eventsOfBlock body))
      (statements body) s
      (fun _ _ => True) (here.noted (Stmt.eventsOfBlock body)) := by
  match h with
  | .nil =>
      unfold Stmt.eventsOfBlock statements
      exact .pure trivial (by simpa using hinv)
  | .cons hfirst hrest =>
      obtain ⟨hfirstWords, hrestWords⟩ := words_append.mp hwords
      unfold Stmt.eventsOfBlock statements
      refine (statement_meets law hfirst hinner hfirstWords hinv hknows
        hloop).seq fun _ s' _ _ hinv' => ?_
      exact statements_meets law hrest hinner hrestWords hinv'
        (hknows.congr (hfirst.leaves.functions hinner)) hloop

theorem optional_meets (law : Lawful c) {place : Place} {before after : Tables}
    {part : Option Stmt} (h : Part.Checked place before part after)
    (hinner : place.topLevel = false)
    (hwords : Words (Stmt.mentionsOfPart part))
    {here : Progress} {s : σ} (hinv : c.Inv here s) (hknows : Knows here before)
    (hloop : place.inLoop = true → here.InLoop) :
    c.Meets (refusal c.strict here.function (Stmt.eventsOfPart part))
      (optional part) s
      (fun _ _ => True) (here.noted (Stmt.eventsOfPart part)) := by
  match h with
  | .none =>
      unfold Stmt.eventsOfPart optional
      exact .pure trivial (by simpa using hinv)
  | .some hstatement =>
      exact statement_meets law hstatement hinner hwords hinv hknows hloop

/-- The functions are the same along a chain, whichever part has its turn
first. -/
theorem chain_meets (law : Lawful c) {place : Place} {before after : Tables}
    {branches : List (Expr × List Stmt)} {otherwise : Option (List Stmt)}
    (h : Chain.Checked place before branches otherwise after)
    (hinner : place.topLevel = false)
    (hconditions : Words (Stmt.mentionsOfConditions branches))
    (hbodies : Words (Stmt.mentionsOfBodies branches ++
      Stmt.mentionsOfFallback otherwise)) :
    (∀ branch ∈ branches, ExprWritten c before branch.1 ∧
      branch.1.Yields .bool) ∧
      (∀ branch ∈ branches, BlockWritten c place before branch.2) ∧
      ∀ body ∈ otherwise, BlockWritten c place before body := by
  match h with
  | .nil =>
      exact ⟨fun _ hmem => (nomatch hmem), fun _ hmem => (nomatch hmem),
        fun _ hmem => (nomatch hmem)⟩
  | .branch htyped hyields hbody hrest =>
      obtain ⟨hcondition, hconditions⟩ := words_append.mp hconditions
      rw [Stmt.mentionsOfBodies, List.append_assoc] at hbodies
      obtain ⟨hbodyWords, hbodies⟩ := words_append.mp hbodies
      obtain ⟨htests, hwritten, hotherwise⟩ :=
        chain_meets law hrest hinner hconditions hbodies
      have hsame := hbody.leaves.functions hinner
      refine ⟨List.forall_mem_cons.mpr
        ⟨⟨evaluate_meets law htyped hcondition, hyields⟩, ?_⟩,
        List.forall_mem_cons.mpr ⟨fun here s hinv hknows hloop => ?_, ?_⟩, ?_⟩
      · exact fun branch hmem => ⟨(htests branch hmem).1.congr hsame,
          (htests branch hmem).2⟩
      · exact block_meets law
          (statements_meets law hbody hinner hbodyWords hinv hknows hloop) hinv
      · exact fun branch hmem => (hwritten branch hmem).congr hsame
      · exact fun body hmem => (hotherwise body hmem).congr hsame
  | .otherwise hbody hrest =>
      obtain ⟨hbodies, hbodyWords⟩ := words_append.mp hbodies
      obtain ⟨htests, hwritten, _⟩ := chain_meets law hrest hinner hconditions
        (words_append.mpr ⟨hbodies, words_nil⟩)
      have hsame := hbody.leaves.functions hinner
      refine ⟨fun branch hmem => ⟨(htests branch hmem).1.congr hsame,
        (htests branch hmem).2⟩, fun branch hmem =>
          (hwritten branch hmem).congr hsame, ?_⟩
      rintro _ ⟨⟩ here s hinv hknows hloop
      exact block_meets law
        (statements_meets law hbody hinner hbodyWords hinv hknows hloop) hinv

end

end Script

end Shellwright
