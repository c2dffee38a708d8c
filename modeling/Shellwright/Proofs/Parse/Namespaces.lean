/-
The names of a parse stay apart.  The parser changes its state in a few ways
only; along any number of such changes variables and functions share no name,
neither takes a word of the language, and the hidden names among the variables
are those the parser has made, each of them once.
-/
import Shellwright.Proofs.Parse.Retained

namespace Shellwright

variable {α : Type} {stem : String} {var : Variable}

/-- The states a parse of `tokens` passes through, each with the hidden names
made on the way, the latest first. -/
def Passes (tokens : List Token) (st : ParserState)
    (made : List String) : Prop :=
  (ParserState.initial tokens).Steps [] st made

/-- The words that are names like any other to the grammar but have a
meaning. -/
def reservedWords : List String :=
  ["panic", "write", "copy", "exists", "read", "itoa", "atoi", "int", "bool",
    "string"]

namespace Scope

/-- The name stands in the table of variables or in one that has been set
aside. -/
def HasVariable (scope : Scope) (name : String) : Prop :=
  ∃ table ∈ scope.vars :: scope.saved, name ∈ table.map Prod.fst

/-- Variables and functions have names of their own, and the hidden ones among
the variables are names that have been made. -/
structure Namespaced (scope : Scope) (made : List String) : Prop where
  apart : ∀ {name}, scope.HasVariable name → name ∉ scope.functionNames
  unreserved : ∀ {name}, scope.HasVariable name ∨ name ∈ scope.functionNames →
    name ∉ reservedWords
  hidden : ∀ {name}, scope.HasVariable name → isHiddenName name = true →
    name ∈ made

/-- The program's block is the outermost one, and every open function has set
aside one table. -/
def Levelled (scope : Scope) : Prop :=
  ∃ inner, scope.blocks = inner ++ [.program] ∧ .program ∉ inner ∧
    inner.count .function = scope.saved.length

end Scope

theorem not_mem_reservedWords {name : String} :
    name ∉ reservedWords ↔ Builtin.ofName? name = none ∧
      BaseType.ofName? name = none := by
  have hbuiltin : Builtin.ofName? name = none ↔
      name ∉ Builtin.all.map Builtin.name := by
    simp [Builtin.ofName?]
  have hbase : BaseType.ofName? name = none ↔
      name ∉ ["int", "bool", "string"] := by
    unfold BaseType.ofName?
    split_ifs <;> simp_all
  have hwords : reservedWords = Builtin.all.map Builtin.name ++
    ["int", "bool", "string"] := rfl
  rw [hbuiltin, hbase, hwords, List.mem_append, not_or]

theorem not_mem_reservedWords_of_hidden {name : String}
    (h : isHiddenName name = true) : name ∉ reservedWords := by
  have hplain : ∀ word ∈ reservedWords, isHiddenName word = false := by decide
  intro hname
  exact absurd h (by simp [hplain name hname])

theorem HiddenBefore.isHiddenName {count : Nat} {name : String}
    (h : HiddenBefore count name) : isHiddenName name = true := by
  obtain ⟨stem, number, -, -, rfl⟩ := h
  exact isHiddenName_hiddenNameAt stem number

namespace Scope

variable {before after : Scope} {st : ParserState} {made : List String}
  {name : String}

/-! Tables. -/

theorem HasVariable.mono (h : after.HasVariable name)
    (htables : after.vars :: after.saved ⊆ before.vars :: before.saved) :
    before.HasVariable name := by
  obtain ⟨table, htable, hname⟩ := h
  exact ⟨table, htables htable, hname⟩

theorem hasVariable_declared {other : String} :
    (st.declared name var).scope.HasVariable other ↔
      other = name ∨ st.scope.HasVariable other := by
  simp [HasVariable, ParserState.declared, exists_or, or_assoc]

theorem Namespaced.mono (h : before.Namespaced made)
    (hvars : ∀ {name}, after.HasVariable name → before.HasVariable name)
    (hfunctions : after.functions = before.functions) :
    after.Namespaced made := by
  have hnames : after.functionNames = before.functionNames :=
    congrArg (·.map Prod.fst) hfunctions
  refine ⟨fun hname => ?_, fun hname => h.unreserved ?_,
    fun hname => h.hidden (hvars hname)⟩
  · rw [hnames]
    exact h.apart (hvars hname)
  · rw [hnames] at hname
    exact hname.imp_left hvars

/-- A variable may be entered under any name that is no function's and no word
of the language, and under a hidden one that has been made. -/
theorem Namespaced.declared (h : st.scope.Namespaced made)
    (hfunction : name ∉ st.scope.functionNames) (hword : name ∉ reservedWords)
    (hhidden : isHiddenName name = true → name ∈ made) :
    (st.declared name var).scope.Namespaced made := by
  refine ⟨fun hother => ?_, fun hother => ?_, fun hother => ?_⟩
  · rcases hasVariable_declared.mp hother with rfl | hold
    · exact hfunction
    · exact h.apart hold
  · rw [hasVariable_declared, or_assoc] at hother
    rcases hother with rfl | hold
    · exact hword
    · exact h.unreserved hold
  · rcases hasVariable_declared.mp hother with rfl | hold
    · exact hhidden
    · exact h.hidden hold

/-- A function may be entered under a name that no table holds. -/
theorem Namespaced.known (h : before.Namespaced made) {signature : Signature}
    (hvariable : ¬before.HasVariable name) (hword : name ∉ reservedWords)
    (hafter : after = { before with functions :=
      (name, signature) :: before.functions }) :
    after.Namespaced made := by
  subst hafter
  refine ⟨fun {other} hother hmem => ?_, fun {other} hother => ?_, h.hidden⟩
  · rcases List.mem_cons.mp hmem with rfl | hold
    · exact hvariable hother
    · exact h.apart hother hold
  · rcases hother with hother | hother
    · exact h.unreserved (.inl hother)
    · rcases List.mem_cons.mp hother with rfl | hold
      · exact hword
      · exact h.unreserved (.inr hold)

/-! Blocks. -/

theorem Levelled.saved_nil (h : before.Levelled)
    (htop : before.current = .program) : before.saved = [] := by
  obtain ⟨inner, hblocks, hinner, hcount⟩ := h
  cases inner with
  | nil => exact List.length_eq_zero_iff.mp hcount.symm
  | cons kind inner =>
      rw [current, hblocks] at htop
      exact absurd (List.mem_cons.mpr (.inl htop.symm)) hinner

theorem Levelled.push (h : before.Levelled) {kind : BlockKind}
    (hprogram : kind ≠ .program) (hfunction : kind ≠ .function) :
    (before.push kind).Levelled := by
  obtain ⟨inner, hblocks, hinner, hcount⟩ := h
  refine ⟨kind :: inner, congrArg (kind :: ·) hblocks, ?_, ?_⟩
  · exact List.not_mem_cons_of_ne_of_not_mem hprogram.symm hinner
  · rw [List.count_cons_of_ne hfunction]
    exact hcount

/-- The innermost block, if it is not the program's, and what is around it. -/
theorem Levelled.inner (h : before.Levelled)
    (hprogram : before.current ≠ .program) :
    ∃ inner, before.blocks = before.current :: (inner ++ [.program]) ∧
      .program ∉ inner ∧
      (before.current :: inner).count .function = before.saved.length := by
  obtain ⟨inner, hblocks, hinner, hcount⟩ := h
  cases inner with
  | nil => exact absurd (by rw [current, hblocks]; rfl) hprogram
  | cons kind inner =>
      obtain rfl : kind = before.current := by rw [current, hblocks]; rfl
      exact ⟨inner, hblocks, List.not_mem_of_not_mem_cons hinner, hcount⟩

theorem Levelled.pop (h : before.Levelled)
    (hprogram : before.current ≠ .program)
    (hfunction : before.current ≠ .function) : before.pop.Levelled := by
  obtain ⟨inner, hblocks, hinner, hcount⟩ := h.inner hprogram
  rw [pop_of_cons hblocks (by simp)]
  rw [List.count_cons_of_ne hfunction] at hcount
  exact ⟨inner, rfl, hinner, hcount⟩

theorem Levelled.enterFunction (h : before.Levelled)
    (returns : List ValueType) : (before.enterFunction returns).Levelled := by
  obtain ⟨inner, hblocks, hinner, hcount⟩ := h
  refine ⟨.function :: inner, congrArg (BlockKind.function :: ·)
    hblocks, ?_, ?_⟩
  · exact List.not_mem_cons_of_ne_of_not_mem (by decide) hinner
  · rw [List.count_cons_self, hcount]
    rfl

/-- A function that is left gives back the table it has set aside. -/
theorem Levelled.exitFunction (h : before.Levelled)
    (hcurrent : before.current = .function) :
    ∃ inner vars saved, before.saved = vars :: saved ∧
      before.exitFunction.Levelled ∧
      before.exitFunction = ⟨inner, vars, saved, before.functions, none⟩ := by
  obtain ⟨inner, hblocks, hinner, hcount⟩ := h.inner (by rw [hcurrent]; decide)
  rw [hcurrent, List.count_cons_self] at hcount
  obtain ⟨vars, saved, hsaved⟩ :=
    List.exists_cons_of_length_eq_add_one hcount.symm
  have hexit := exitFunction_of_cons hblocks (by simp) hsaved
  refine ⟨_, vars, saved, hsaved, ?_, hexit⟩
  rw [hexit]
  refine ⟨inner, rfl, hinner, ?_⟩
  rw [hsaved] at hcount
  exact Nat.succ.inj hcount

end Scope

/-- What every step of a parse preserves. -/
structure Orderly (st : ParserState) (made : List String) : Prop where
  names : st.scope.Namespaced made
  plain : ∀ name ∈ st.scope.functionNames, isHiddenName name = false
  levels : st.scope.Levelled
  idle : st.scope.saved = [] → st.scope.returns = none
  old : ∀ name ∈ made, HiddenBefore st.hidden name
  nodup : made.Nodup

theorem ParserState.scope_initial (tokens : List Token) :
    (ParserState.initial tokens).scope = .initial := by
  unfold ParserState.initial
  dsimp only
  split
  · rfl
  · split <;> rfl

namespace Orderly

variable {st st' : ParserState} {made : List String} {name : String}

theorem initial (tokens : List Token) : Orderly (.initial tokens) [] := by
  have hvariable : ∀ name, ¬Scope.initial.HasVariable name := by
    simp [Scope.HasVariable, Scope.initial]
  have hnames : Scope.initial.Namespaced [] :=
    ⟨fun hname => absurd hname (hvariable _),
      fun hname => absurd (hname.resolve_left (hvariable _)) List.not_mem_nil,
      fun hname => absurd hname (hvariable _)⟩
  have hscope := ParserState.scope_initial tokens
  refine ⟨hscope ▸ hnames, ?_, ?_, ?_,
    fun _ hname => absurd hname List.not_mem_nil, .nil⟩
  · rw [hscope]
    exact fun _ hname => absurd hname List.not_mem_nil
  · rw [hscope]
    exact ⟨[], rfl, List.not_mem_nil, rfl⟩
  · rw [hscope]
    exact fun _ => rfl

theorem sound (h : Orderly st made) : st.scope.Sound := by
  refine ⟨?_, fun htop => h.idle (h.levels.saved_nil htop),
    fun entry hentry => ?_⟩
  · obtain ⟨inner, hblocks, -⟩ := h.levels
    simp [hblocks]
  · have hname : entry.1 ∈ st.scope.functionNames := List.mem_map_of_mem hentry
    exact (not_mem_reservedWords.mp (h.names.unreserved (.inr hname))).1

/-- A change of the scope that enters no name. -/
theorem of_scope (h : Orderly st made) {scope : Scope}
    (hvars : ∀ {name}, scope.HasVariable name → st.scope.HasVariable name)
    (hfunctions : scope.functions = st.scope.functions)
    (hlevels : scope.Levelled)
    (hidle : scope.saved = [] → scope.returns = none) :
    Orderly { st with scope := scope } made := by
  refine ⟨h.names.mono hvars hfunctions, fun name hname => h.plain name ?_,
    hlevels, hidle, h.old, h.nodup⟩
  exact (congrArg (·.map Prod.fst) hfunctions : _ = st.scope.functionNames) ▸
    hname

theorem read (h : Orderly st made) (hreads : st.Reads st') :
    Orderly st' made := by
  obtain ⟨ahead, last, scope, hidden⟩ := st'
  obtain rfl : scope = st.scope := hreads.scope
  obtain rfl : hidden = st.hidden := hreads.hidden
  exact ⟨h.names, h.plain, h.levels, h.idle, h.old, h.nodup⟩

theorem entered_variable (h : Orderly st made)
    (hfunction : name ∉ st.scope.functionNames) (hword : name ∉ reservedWords)
    (hhidden : isHiddenName name = true → name ∈ made) :
    Orderly (st.declared name var) made :=
  ⟨h.names.declared hfunction hword hhidden, h.plain, h.levels, h.idle,
    h.old, h.nodup⟩

/-- The name made next is new. -/
theorem not_mem_made (h : Orderly st made)
    (hstem : stem = "idx" ∨ stem = "sw") : hiddenNameAt stem st.hidden ∉ made :=
  fun hname => not_hiddenBefore hstem (h.old _ hname)

theorem make (h : Orderly st made) (hstem : stem = "idx" ∨ stem = "sw") :
    Orderly { st with hidden := st.hidden + 1 }
      (hiddenNameAt stem st.hidden :: made) := by
  refine ⟨⟨h.names.apart, h.names.unreserved, fun hname hhidden => ?_⟩, h.plain,
    h.levels, h.idle, ?_, List.nodup_cons.mpr ⟨h.not_mem_made hstem, h.nodup⟩⟩
  · exact List.mem_cons_of_mem _ (h.names.hidden hname hhidden)
  · refine List.forall_mem_cons.mpr ⟨hiddenBefore_succ hstem _,
      fun name hname => ?_⟩
    exact (h.old name hname).mono (Nat.le_succ _)

theorem step {made' : List String} (h : Orderly st made)
    (hstep : st.Step made st' made') : Orderly st' made' := by
  cases hstep with
  | read hreads => exact h.read hreads
  | declared hdeclare =>
      obtain ⟨_, mid, hcheck, henter⟩ := Parse.bind_ok.mp hdeclare
      obtain ⟨hfree, rfl⟩ := Parse.checkNewName_iff.mp hcheck
      obtain ⟨-, rfl⟩ := Parse.enterVariable_ok.mp henter
      refine h.entered_variable (Parse.not_mem_keys hfree.unused)
        (not_mem_reservedWords.mpr ⟨hfree.builtin, hfree.base⟩)
          fun hhidden => ?_
      exact absurd hhidden (by simp [hfree.plain])
  | made hstem hmade =>
      cases hmade
      exact h.make hstem
  | @hidden _ _ name _ _ henter =>
      obtain ⟨-, rfl⟩ := Parse.enterVariable_ok.mp henter
      have hhidden := (h.old name List.mem_cons_self).isHiddenName
      refine h.entered_variable (fun hname => ?_)
        (not_mem_reservedWords_of_hidden hhidden) fun _ => List.mem_cons_self
      exact absurd hhidden (by simp [h.plain name hname])
  | opened hprogram hfunction =>
      exact h.of_scope id rfl (h.levels.push hprogram hfunction) h.idle
  | closed hprogram hfunction =>
      obtain ⟨inner, hblocks, -⟩ := h.levels.inner hprogram
      have hpop := Scope.pop_of_cons hblocks (by simp)
      refine h.of_scope ?_ ?_ (h.levels.pop hprogram hfunction) ?_ <;> rw [hpop]
      · exact id
      · exact h.idle
  | @known _ name pos signature scope htop hcheck hvariable hdeclare =>
      obtain ⟨hfree, -⟩ := Parse.checkNewName_iff.mp hcheck
      have hscope : scope =
          { st.scope with functions :=
            (name, signature) :: st.scope.functions } := by
        rw [Scope.declareFunction, hfree.unused] at hdeclare
        exact (Except.ok.inj hdeclare).symm
      -- at the top no table is set aside, so that the one in use holds all
      -- names
      have hunknown : ¬st.scope.HasVariable name := by
        rintro ⟨table, htable, hname⟩
        rw [h.levels.saved_nil htop, List.mem_singleton] at htable
        exact Parse.not_mem_keys hvariable (htable ▸ hname)
      have hword := not_mem_reservedWords.mpr ⟨hfree.builtin, hfree.base⟩
      refine ⟨h.names.known hunknown hword hscope, ?_, ?_, ?_, h.old, h.nodup⟩
        <;> subst hscope
      · exact List.forall_mem_cons.mpr ⟨hfree.plain, h.plain⟩
      · exact h.levels
      · exact h.idle
  | @entered _ returns htop =>
      refine h.of_scope (fun hname => hname.mono ?_) rfl
        (h.levels.enterFunction returns)
        fun hsaved => absurd hsaved (List.cons_ne_nil _ _)
      exact List.cons_subset.mpr ⟨List.mem_cons_self, List.Subset.refl _⟩
  | left hcurrent =>
      obtain ⟨inner, vars, saved, hsaved, hlevels, hexit⟩ :=
        h.levels.exitFunction hcurrent
      refine h.of_scope (fun hname => hname.mono ?_) ?_ hlevels ?_ <;>
        rw [hexit]
      · exact List.subset_cons_of_subset _ (hsaved ▸ List.Subset.refl _)
      · exact fun _ => rfl
  | dropped hremove =>
      rw [Parse.removeVariables_eq] at hremove
      cases hremove
      refine h.of_scope (fun hname => ?_) rfl h.levels h.idle
      obtain ⟨table, htable, hname⟩ := hname
      rcases List.mem_cons.mp htable with rfl | htable
      · exact ⟨st.scope.vars, List.mem_cons_self,
          (List.filter_sublist.map Prod.fst).subset hname⟩
      · exact ⟨table, List.mem_cons_of_mem _ htable, hname⟩

end Orderly

theorem Passes.orderly {tokens : List Token} {st : ParserState}
    {made : List String} (h : Passes tokens st made) : Orderly st made := by
  induction h with
  | refl => exact .initial tokens
  | tail _ hstep ih => exact ih.step hstep

/-! What the parser does. -/

/-- The parse passes through the state, with `made` among the names made on the
way. -/
def Onward (tokens : List Token) (made : List String)
    (st : ParserState) : Prop :=
  ∃ more, Passes tokens st (more ++ made)

/-- From a state that a parse passes through the parser comes to another one,
and leaves the scope around it as it was. -/
def Passing {α : Type} (tokens : List Token) (p : Parse α) : Prop :=
  ∀ ⦃st made a st'⦄, Passes tokens st made → p st = .ok (a, st') →
    st.scope.Retains st'.scope ∧ Onward tokens made st'

section

variable {tokens : List Token} {made : List String} {st : ParserState}

instance Onward.steady : Steady (Onward tokens made) where
  steps := by
    rintro st st' further ⟨more, h⟩ hsteps
    refine ⟨further ++ more, ?_⟩
    rw [List.append_assoc]
    exact h.trans (hsteps _)

theorem Passes.ready (h : Passes tokens st made) :
    Ready (Onward tokens made) st :=
  ⟨h.orderly.sound, [], h⟩

/-- A parser that goes on from passed states may be used inside a statement. -/
theorem Passing.retaining {p : Parse α} (hp : Passing tokens p)
    (start : Scope) : Parse.Retaining (Onward tokens made) start p := by
  intro st a st' hst h
  obtain ⟨more, hpasses⟩ := hst.kept
  obtain ⟨hretains, further, hpasses'⟩ := hp hpasses h
  refine ⟨trivial, ⟨hpasses'.orderly.sound, further ++ more, ?_⟩,
    hst.retains.trans hretains⟩
  rw [List.append_assoc]
  exact hpasses'

theorem Passing.of_retaining {p : Parse α}
    (hp : ∀ made start, Parse.Retaining (Onward tokens made) start p) :
    Passing tokens p := by
  intro st made a st' hst h
  have hframes := (hp made st.scope hst.ready.frames h).2
  exact ⟨hframes.retains, hframes.kept⟩

theorem Passing.statementRule {reader : Parse (List Stmt)}
    (hreader : Passing tokens reader) :
    Passing tokens (Parse.statementRule reader) := by
  intro st made body st' hst h
  have hframes :=
    (Parse.statementRule_leaves hreader.retaining hst.ready h).frames
  exact ⟨hframes.retains, hframes.kept⟩

theorem Passing.program : Passing tokens Parse.program := by
  refine .of_retaining fun made start => ?_
  exact (Parse.statementsUntil_retains Parse.IsStatement.whole.retaining).step
    fun _ _ => .done trivial

end

/-- Wherever a parse of any tokens has got to, no name stands both for a
variable, visible or set aside, and for a function; none of them is a builtin's
or a type's; and a variable whose name starts with two underscores has a name
made by the parser.  No such name is made twice, and the next one can always be
entered.  Between its first and its last token the parser is nowhere else:
whatever reads the statements inside, if it keeps to passed states, so does the
reader of a statement around them, and the reader of a whole program does. -/
theorem parse_keeps_namespaces (tokens : List Token) :
    (∀ st made, Passes tokens st made →
      st.scope.Namespaced made ∧ made.Nodup ∧
      ∀ stem, stem = "idx" ∨ stem = "sw" →
        ∃ name mid, Parse.hiddenName stem st = .ok (name, mid) ∧ name ∉ made ∧
          ∀ pos var, ∃ st', Parse.enterVariable name pos var mid =
            .ok ((), st')) ∧
    (∀ reader, Passing tokens reader →
      Passing tokens (Parse.statementRule reader)) ∧
    Passing tokens Parse.statement ∧ Passing tokens Parse.program := by
  refine ⟨fun st made h => ?_, fun _ hreader => hreader.statementRule, ?_,
    .program⟩
  · have horderly := h.orderly
    refine ⟨horderly.names, horderly.nodup, fun stem hstem => ?_⟩
    have hnew := horderly.not_mem_made hstem
    refine ⟨_, _, rfl, hnew,
      fun pos var => ⟨_, Parse.enterVariable_ok.mpr ⟨?_, rfl⟩⟩⟩
    -- a variable of that name would be hidden, and its name would have been
    -- made
    apply Parse.lookupVariable?_of_not_mem
    intro hname
    exact hnew (horderly.names.hidden ⟨_, List.mem_cons_self, hname⟩
      (isHiddenName_hiddenNameAt stem st.hidden))
  · exact .of_retaining fun made => Parse.IsStatement.whole.retaining

/-- Behind a function `f` with a loop over a range in it one hidden name has
been made, and the next one is another. -/
theorem parse_keeps_namespaces_function :
    ∃ tokens program st made,
      Parse.program (.initial tokens) = .ok (program, st) ∧
      Passes tokens st made ∧ st.scope.functionNames = ["f"] ∧
      st.scope.Namespaced made ∧ made.Nodup ∧
      ∃ mid, Parse.hiddenName "idx" st = .ok ("__idx1", mid) ∧
        "__idx1" ∉ made ∧
        ∃ st', Parse.enterVariable "__idx1" .start ⟨.int, false⟩ mid =
          .ok ((), st') := by
  obtain ⟨tokens, program, st, hparse, hfunctions, hnext⟩ : ∃ tokens program st,
      Parse.program (.initial tokens) = .ok (program, st) ∧
        st.scope.functionNames = ["f"] ∧
        ∃ mid, Parse.hiddenName "idx" st = .ok ("__idx1", mid) := by
    refine ⟨[.keyword .funcWord, .ident "f", .lparen, .ident "x",
      .ident "int", .rparen, .lbrace, .keyword .forWord, .ident "_",
      .shortDeclare, .keyword .rangeWord, .string "ab", .lbrace, .rbrace,
      .rbrace].map (⟨·, "", .start⟩), _, _, by cbv, by cbv, _, by cbv⟩
  obtain ⟨hnames, -, -, hprogram⟩ := parse_keeps_namespaces tokens
  obtain ⟨-, made, hpasses⟩ := hprogram .refl hparse
  obtain ⟨hnamespaced, hnodup, hhidden⟩ := hnames st _ hpasses
  obtain ⟨name, mid, hname, hnew, henter⟩ := hhidden "idx" (.inl rfl)
  obtain ⟨_, hname'⟩ := hnext
  obtain ⟨rfl, rfl⟩ := Prod.mk.inj (Except.ok.inj (hname.symm.trans hname'))
  exact ⟨tokens, program, st, _, hparse, hpasses, hfunctions, hnamespaced,
    hnodup, _, hname, hnew, henter _ _⟩

end Shellwright
