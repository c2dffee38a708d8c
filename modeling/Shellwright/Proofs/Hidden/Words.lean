/-
The names in the tree of an accepted source are words: those a program spells
have been read as such, and the hidden ones are made as such.
-/
import Shellwright.Proofs.Hidden.Source

namespace Shellwright

variable {value : Expr} {tag : String} {targets : List Binding}
  {kind : String → Mention}

/-- The name, if there is one, is a word. -/
def Mention.IsWord : Mention → Prop
  | .use name | .assign name | .define name | .call name =>
      isWord name.toList = true
  | .pipeline _ | .panic => True

/-- All names are words. -/
def Words (mentions : List Mention) : Prop :=
  ∀ mention ∈ mentions, mention.IsWord

@[simp] theorem words_nil : Words [] := fun _ h => nomatch h

@[simp] theorem words_cons {mention : Mention} {mentions : List Mention} :
    Words (mention :: mentions) ↔ mention.IsWord ∧ Words mentions :=
  List.forall_mem_cons

@[simp] theorem words_append {first second : List Mention} :
    Words (first ++ second) ↔ Words first ∧ Words second :=
  List.forall_mem_append

theorem words_mentionsOfAll {items : List Expr} :
    Words (Expr.mentionsOfAll items) ↔ ∀ e ∈ items, Words e.mentions := by
  induction items with
  | nil => simp [Expr.mentionsOfAll]
  | cons e items ih => simp [Expr.mentionsOfAll, ih]

theorem words_mentionsOfOption {item : Option Expr} :
    Words (Expr.mentionsOfOption item) ↔ ∀ e ∈ item, Words e.mentions := by
  cases item <;> simp [Expr.mentionsOfOption]

theorem words_mentionsOfStages {stages : List (String × List Expr)} :
    Words (Expr.mentionsOfStages stages) ↔
      ∀ stage ∈ stages, ∀ arg ∈ stage.2, Words arg.mentions := by
  induction stages with
  | nil => simp [Expr.mentionsOfStages]
  | cons stage stages ih =>
      simp [Expr.mentionsOfStages, words_mentionsOfAll, ih]

theorem words_mentionsOfPart {part : Option Stmt} :
    Words (Stmt.mentionsOfPart part) ↔ ∀ s ∈ part, Words s.mentions := by
  cases part <;> simp [Stmt.mentionsOfPart]

theorem words_mentionsOfBlock_append {first second : List Stmt} :
    Words (Stmt.mentionsOfBlock (first ++ second)) ↔
      Words (Stmt.mentionsOfBlock first) ∧
        Words (Stmt.mentionsOfBlock second) := by
  induction first with
  | nil => simp [Stmt.mentionsOfBlock]
  | cons s first ih => simp [Stmt.mentionsOfBlock, ih, and_assoc]

/-- Bindings that are mentioned one by one. -/
theorem words_map
    (hkind : ∀ name, (kind name).IsWord ↔ isWord name.toList = true) :
    Words (targets.map fun target => kind target.name) ↔
      ∀ target ∈ targets, isWord target.name.toList = true := by
  simp [Words, hkind]

theorem words_keptTargets
    (hkind : ∀ name, (kind name).IsWord ↔ isWord name.toList = true)
    (h : ∀ target ∈ targets, isWord target.name.toList = true) :
    Words ((keptTargets targets).map fun target => kind target.name) :=
  (words_map hkind).mpr fun target htarget =>
    h target (List.mem_filter.mp htarget).1

theorem words_define {value : Option Expr} {constant : Bool}
    (htargets : ∀ target ∈ targets, isWord target.name.toList = true)
    (hvalue : ∀ e ∈ value, Words e.mentions) :
    Words (Stmt.define targets value constant).mentions := by
  cases value with
  | none =>
      rw [Stmt.mentions]
      exact (words_map fun _ => .rfl).mpr htargets
  | some e =>
      rw [Stmt.mentions, words_append]
      exact ⟨hvalue e rfl, words_keptTargets (fun _ => .rfl) htargets⟩

theorem words_assign
    (htargets : ∀ target ∈ targets, isWord target.name.toList = true)
    (hvalue : Words value.mentions) :
    Words (Stmt.assign targets value).mentions := by
  rw [Stmt.mentions, words_append]
  exact ⟨hvalue, words_keptTargets (fun _ => .rfl) htargets⟩

theorem words_hidden (stem : String) (hstem : stem.toList.all isWordChar = true)
    (count : Nat) : Words [.use (hiddenNameAt stem count)] := by
  have hdigits : (toString count).toList.all isWordChar = true := by
    refine List.all_eq_true.mpr fun c hc => ?_
    rw [Nat.toString_eq_repr, Nat.toList_repr] at hc
    have hdigit : c.isDigit = true :=
      Nat.isDigit_of_mem_toDigits (by decide) (by decide) hc
    simp [isWordChar, Char.isAlphanum, hdigit]
  refine words_cons.mpr ⟨(?_ : isWord (hiddenNameAt stem count).toList = true),
    words_nil⟩
  unfold hiddenNameAt
  rw [String.toList_append, String.toList_append, List.append_assoc]
  show isWord ('_' :: '_' :: (stem.toList ++ (toString count).toList)) = true
  rw [isWord, List.all_cons, List.all_append, hstem, hdigits]
  rfl

/-- The definition of a hidden tag. -/
theorem words_tag {ty : ValueType} (htag : Words [.use tag])
    (hvalue : Words value.mentions) :
    Words (Stmt.define [⟨tag, ty⟩] (some value) true).mentions := by
  refine words_define (List.forall_mem_singleton.mpr (words_cons.mp htag).1) ?_
  rintro _ ⟨⟩
  exact hvalue

section Trees

variable {spelled : String → Prop}
  (hspelled : ∀ name, spelled name → isWord name.toList = true)
  {e source : Expr} {reach : Reach} {index : String}

include hspelled

theorem Expr.Within.words (h : e.Within spelled reach) : Words e.mentions := by
  intro mention hmention
  have hwithin := h mention hmention
  cases mention with
  | use name => exact hspelled name hwithin.1
  | define name | assign name => exact hwithin.elim
  | call name => exact hspelled name hwithin.spelled
  | pipeline _ | panic => trivial

theorem CaseTest.words {types : List ValueType} (htag : Words [.use tag])
    (h : CaseTest spelled reach (.var tag types) e) : Words e.mentions := by
  induction h with
  | value hvalue =>
      rw [Expr.mentions, words_append]
      exact ⟨htag, hvalue.words hspelled⟩
  | or _ _ ihl ihr =>
      rw [Expr.mentions, words_append]
      exact ⟨ihl, ihr⟩

omit hspelled in
theorem words_elementAt {index : Expr} (hsource : Words source.mentions)
    (hindex : Words index.mentions) :
    Words (Parse.elementAt source index).mentions := by
  unfold Parse.elementAt
  split <;> simp [Expr.mentions, Expr.mentionsOfOption, hsource, hindex]

omit hspelled in
theorem words_lengthAsInt (hsource : Words source.mentions) :
    Words (Parse.lengthAsInt source).mentions := by
  unfold Parse.lengthAsInt
  split <;> simpa [Expr.mentions] using hsource

theorem RangePrologue.words {prologue : List Stmt}
    (hsource : Words source.mentions) (hindex : Words [.use index])
    (h : RangePrologue spelled source index prologue) :
    Words (Stmt.mentionsOfBlock prologue) := by
  rcases h with rfl | ⟨name, hname, rfl⟩
  · exact words_nil
  · rw [Stmt.mentionsOfBlock, words_append]
    refine ⟨words_define ?_ ?_, words_nil⟩
    · exact List.forall_mem_singleton.mpr (hspelled _ hname.spelled)
    · rintro _ ⟨⟩
      exact words_elementAt hsource hindex

omit hspelled in
theorem words_rangeLoopWith {body : List Stmt} (hsource : Words source.mentions)
    (hindex : Words [.use index]) (hbody : Words (Stmt.mentionsOfBlock body)) :
    Words (rangeLoopWith source index body).mentions := by
  have htarget : ∀ target ∈ [(⟨index, .int⟩ : Binding)],
      isWord target.name.toList = true :=
    List.forall_mem_singleton.mpr (words_cons.mp hindex).1
  have hsum :
      Words (Expr.binary .add (.var index [.int]) (.int 1 [.int])
        [.int]).mentions :=
    words_append.mpr ⟨hindex, words_nil⟩
  have hstart :
      Words (Stmt.define [⟨index, .int⟩] (some (.int 0 [.int]))
        false).mentions := by
    refine words_define htarget ?_
    rintro _ ⟨⟩
    exact words_nil
  rw [rangeLoopWith, Stmt.mentions, words_append, words_append, words_append]
  exact ⟨hstart, words_assign htarget hsum,
    words_append.mpr ⟨hindex, words_lengthAsInt hsource⟩, hbody⟩

end Trees

mutual

theorem Stmt.Desugared.words {spelled : String → Prop}
    (hspelled : ∀ name, spelled name → isWord name.toList = true)
    {reach : Reach}
    {count count' : Nat} {s : Stmt}
    (h : Stmt.Desugared spelled reach count s count') :
    Words s.mentions := by
  match h with
  | .define htargets hvalue =>
      exact words_define
        (fun target htarget => hspelled _ (htargets target htarget).spelled)
        fun e he => (hvalue e he).words hspelled
  | .assign htargets hvalue =>
      exact words_assign
        (fun target htarget => hspelled _ (htargets target htarget).1)
        (hvalue.words hspelled)
  | .store htarget hindex hvalue =>
      rw [Stmt.mentions, words_append, words_append, words_cons]
      exact ⟨hindex.words hspelled, hvalue.words hspelled,
        hspelled _ htarget.spelled, words_nil⟩
  | .function _ hparams hbody =>
      rw [Stmt.mentions, words_append]
      exact ⟨(words_map fun _ => .rfl).mpr fun param hparam =>
        hspelled _ (hparams param hparam).spelled, hbody.words hspelled⟩
  | .giveBack hvalues =>
      rw [Stmt.mentions, words_mentionsOfAll]
      exact fun value hvalue => (hvalues value hvalue).words hspelled
  | .choose hchain =>
      rw [Stmt.mentions, words_append]
      exact hchain.words hspelled fun _ he => he.words hspelled
  | .loop hinit hcondition hpost hbody =>
      rw [Stmt.mentions, words_append, words_append, words_append,
        words_mentionsOfOption, words_mentionsOfPart, words_mentionsOfPart]
      exact ⟨fun s hs => (hinit s hs).words hspelled,
        fun s hs => (hpost s hs).words hspelled,
        fun e he => (hcondition e he).words hspelled, hbody.words hspelled⟩
  | .rangeLoop hsource hprologue hbody =>
      have hindex := words_hidden "idx" rfl count
      refine words_rangeLoopWith (hsource.words hspelled) hindex
        (words_mentionsOfBlock_append.mpr ⟨?_, hbody.words hspelled⟩)
      exact hprologue.words hspelled (hsource.words hspelled) hindex
  | .leaveLoop | .nextRound => exact words_nil
  | .print hvalue | .action hvalue => exact hvalue.words hspelled
  | .panic hvalue =>
      rw [Stmt.mentions, words_append, words_cons]
      exact ⟨hvalue.words hspelled, trivial, words_nil⟩
  | .writeFile hpath hcontent =>
      rw [Stmt.mentions, words_append]
      exact ⟨hpath.words hspelled, hcontent.words hspelled⟩

theorem Block.Desugared.words {spelled : String → Prop}
    (hspelled : ∀ name, spelled name → isWord name.toList = true)
    {reach : Reach}
    {count count' : Nat} {body : List Stmt}
    (h : Block.Desugared spelled reach count body count') :
    Words (Stmt.mentionsOfBlock body) := by
  match h with
  | .nil => exact words_nil
  | .cons hs hrest =>
      rw [Stmt.mentionsOfBlock, words_append]
      exact ⟨hs.words hspelled, hrest.words hspelled⟩
  | .switch hvalue hchain hrest =>
      have htag := words_hidden "sw" rfl count
      rw [Stmt.mentionsOfBlock, Stmt.mentionsOfBlock, words_append,
        words_append]
      refine ⟨words_tag htag (hvalue.words hspelled), ?_, hrest.words hspelled⟩
      rw [Stmt.mentions, words_append]
      exact hchain.words hspelled fun e he => he.words hspelled htag
  | .lone hvalue hbody hrest =>
      have htag := words_hidden "sw" rfl count
      rw [Stmt.mentionsOfBlock, words_append, words_mentionsOfBlock_append]
      exact ⟨words_tag htag (hvalue.words hspelled), hbody.words hspelled,
        hrest.words hspelled⟩

theorem Chain.Desugared.words {spelled : String → Prop}
    (hspelled : ∀ name, spelled name → isWord name.toList = true)
    {test : Expr → Prop}
    {reach : Reach} {count count' : Nat} {branches : List (Expr × List Stmt)}
    {otherwise : Option (List Stmt)} (htest : ∀ e, test e → Words e.mentions)
    (h : Chain.Desugared spelled test reach count branches otherwise count') :
    Words (Stmt.mentionsOfConditions branches) ∧
      Words (Stmt.mentionsOfBodies branches ++
        Stmt.mentionsOfFallback otherwise) := by
  match h with
  | .nil => exact ⟨words_nil, words_nil⟩
  | .branch hcondition hbody hrest =>
      obtain ⟨hconditions, hbodies⟩ := hrest.words hspelled htest
      rw [Stmt.mentionsOfConditions, Stmt.mentionsOfBodies, List.append_assoc,
        words_append]
      exact ⟨⟨htest _ hcondition, hconditions⟩,
        words_append.mpr ⟨hbody.words hspelled, hbodies⟩⟩
  | .otherwise hbody hrest =>
      obtain ⟨hconditions, hbodies⟩ := hrest.words hspelled htest
      rw [words_append] at hbodies ⊢
      exact ⟨hconditions, hbodies.1, hbody.words hspelled⟩

end

theorem ident_mem_of_mem_spelledNames {kinds : List TokenKind} {name : String}
    (h : name ∈ spelledNames kinds) : .ident name ∈ kinds := by
  fun_induction spelledNames kinds with
  | case1 program rest ih =>
      exact List.mem_cons_of_mem _ (List.mem_cons_of_mem _ (ih h))
  | case2 other rest ih =>
      rcases List.mem_cons.mp h with rfl | h
      · exact List.mem_cons_self
      · exact List.mem_cons_of_mem _ (ih h)
  | case3 kind rest _ _ ih => exact List.mem_cons_of_mem _ (ih h)
  | case4 => cases h

/-- Every name in the tree of an accepted source is a word. -/
theorem parseSource_words {source : String} {program : Program}
    (h : parseSource source = .ok program) :
    Words (Stmt.mentionsOfBlock program.statements) := by
  unfold parseSource at h
  obtain ⟨tokens, htokens, h⟩ := except_bind_ok.mp h
  obtain ⟨count, hdesugared⟩ := parseTokens_desugared h
  refine hdesugared.words fun name hname => ?_
  obtain ⟨token, htoken, hkind⟩ :=
    List.mem_map.mp (ident_mem_of_mem_spelledNames hname)
  exact (lex_tiles htokens).isWord (List.mem_filter.mp htoken).1 hkind

end Shellwright
