/-
Calls go backwards.  When a statement is checked the table of functions holds
those defined by the statements before it, and in the body of a function that
function as well.  A function can therefore call itself and earlier ones; the
batch dialect refuses the first, so that no function of a batch script is
entered again before it has returned.
-/
import Shellwright.Proofs.Accepted
import Shellwright.Proofs.Bash.Capture

namespace Shellwright

variable {s : Stmt} {place : Place} {name : String} {after before : Tables}
  {body : List Stmt} {definition : String × List Stmt}

/-! The calls of a tree are found by both of its listings. -/

namespace Expr

variable {callee : String}

mutual

theorem call_mem_mentions : (e : Expr) →
    (.call callee ∈ e.mentions ↔ .call callee ∈ e.events)
  | .bool _ _ | .int _ _ | .string _ _ | .var _ _ => by simp [mentions, events]
  | .unary _ operand _ => by simp [mentions, events, call_mem_mentions operand]
  | .binary _ left right _ | .compare _ left right _ | .logical _ left right _
  | .listElement left right _ => by
      simp [mentions, events, call_mem_mentions left, call_mem_mentions right]
  | .listLiteral items _ => by
      simp [mentions, events, call_mem_mentionsOfAll items]
  | .substring value start stop _ => by
      simp [mentions, events, call_mem_mentions value, call_mem_mentions start,
        call_mem_mentionsOfOption stop]
  | .call name args _ => by simp [mentions, events, call_mem_mentionsOfAll args]
  | .process stages _ => by
      simp [mentions, events, call_mem_mentionsOfStages stages]
  | .input prompt _ => by
      simp [mentions, events, call_mem_mentionsOfOption prompt]
  | .listLength inner _ | .stringLength inner _ | .group inner _ | .copy inner _
  | .fileExists inner _ | .fileContent inner _ | .intToString inner _
  | .stringToInt inner _ => by simp [mentions, events, call_mem_mentions inner]

theorem call_mem_mentionsOfAll : (items : List Expr) →
    (.call callee ∈ mentionsOfAll items ↔ .call callee ∈ eventsOfAll items)
  | [] => by simp [mentionsOfAll, eventsOfAll]
  | e :: rest => by
      simp [mentionsOfAll, eventsOfAll, call_mem_mentions e,
        call_mem_mentionsOfAll rest]

theorem call_mem_mentionsOfOption : (item : Option Expr) →
    (.call callee ∈ mentionsOfOption item ↔ .call callee ∈ eventsOfOption item)
  | none => by simp [mentionsOfOption, eventsOfOption]
  | some e => by simp [mentionsOfOption, eventsOfOption, call_mem_mentions e]

theorem call_mem_mentionsOfStages : (stages : List (String × List Expr)) →
    (.call callee ∈ mentionsOfStages stages ↔
      .call callee ∈ eventsOfStages stages)
  | [] => by simp [mentionsOfStages, eventsOfStages]
  | (_, args) :: rest => by
      simp [mentionsOfStages, eventsOfStages, call_mem_mentionsOfAll args,
        call_mem_mentionsOfStages rest]

end

end Expr

namespace Stmt

variable {callee : String}

theorem call_mem_action (value : Expr) :
    .call callee ∈ (Stmt.action value).mentions ↔
    .call callee ∈ (Stmt.action value).events := by
  cases value with
  | process stages types =>
      simp [Stmt.mentions, Stmt.events, Expr.mentions,
        Expr.call_mem_mentionsOfStages stages]
  | _ => simp only [Stmt.mentions, Stmt.events, Expr.call_mem_mentions]

mutual

theorem call_mem_mentions : (s : Stmt) →
    (.call callee ∈ s.mentions ↔ .call callee ∈ s.events)
  | .define targets none _ => by simp [mentions, events, Expr.eventsOfOption]
  | .define targets (some value) _ => by
      simp [mentions, events, Expr.eventsOfOption, value.call_mem_mentions]
  | .assign targets value => by simp [mentions, events, value.call_mem_mentions]
  | .store _ index value => by
      simp [mentions, events, index.call_mem_mentions, value.call_mem_mentions]
  | .function _ _ _ body => by
      simp [mentions, events, call_mem_mentionsOfBlock body]
  | .giveBack values => by
      simp [mentions, events, Expr.call_mem_mentionsOfAll values]
  | .choose branches otherwise => by
      simp [mentions, events, call_mem_mentionsOfConditions branches,
        call_mem_mentionsOfBodies branches,
        call_mem_mentionsOfFallback otherwise]
  | .loop init condition post body => by
      simp [mentions, events, call_mem_mentionsOfPart init,
        call_mem_mentionsOfPart post, Expr.call_mem_mentionsOfOption condition,
        call_mem_mentionsOfBlock body]
  | .leaveLoop | .nextRound | .noOp => by simp [mentions, events]
  | .print value | .panic value => by
      simp [mentions, events, value.call_mem_mentions]
  | .writeFile path content _ => by
      simp [mentions, events, path.call_mem_mentions, content.call_mem_mentions]
  | .action value => call_mem_action value

theorem call_mem_mentionsOfBlock : (body : List Stmt) →
    (.call callee ∈ mentionsOfBlock body ↔ .call callee ∈ eventsOfBlock body)
  | [] => by simp [mentionsOfBlock, eventsOfBlock]
  | s :: rest => by
      simp [mentionsOfBlock, eventsOfBlock, call_mem_mentions s,
        call_mem_mentionsOfBlock rest]

theorem call_mem_mentionsOfPart : (part : Option Stmt) →
    (.call callee ∈ mentionsOfPart part ↔ .call callee ∈ eventsOfPart part)
  | none => by simp [mentionsOfPart, eventsOfPart]
  | some s => by simp [mentionsOfPart, eventsOfPart, call_mem_mentions s]

theorem call_mem_mentionsOfConditions : (branches : List (Expr × List Stmt)) →
    (.call callee ∈ mentionsOfConditions branches ↔
      .call callee ∈ eventsOfConditions branches)
  | [] => by simp [mentionsOfConditions, eventsOfConditions]
  | (condition, _) :: rest => by
      simp [mentionsOfConditions, eventsOfConditions,
        condition.call_mem_mentions, call_mem_mentionsOfConditions rest]

theorem call_mem_mentionsOfBodies : (branches : List (Expr × List Stmt)) →
    (.call callee ∈ mentionsOfBodies branches ↔
      .call callee ∈ eventsOfBodies branches)
  | [] => by simp [mentionsOfBodies, eventsOfBodies]
  | (_, body) :: rest => by
      simp [mentionsOfBodies, eventsOfBodies, call_mem_mentionsOfBlock body,
        call_mem_mentionsOfBodies rest]

theorem call_mem_mentionsOfFallback : (otherwise : Option (List Stmt)) →
    (.call callee ∈ mentionsOfFallback otherwise ↔
      .call callee ∈ eventsOfFallback otherwise)
  | none => by simp [mentionsOfFallback, eventsOfFallback]
  | some body => by simp [mentionsOfFallback, eventsOfFallback,
      call_mem_mentionsOfBlock body]

end

theorem definitionsOfBlock_append (first second : List Stmt) :
    definitionsOfBlock (first ++ second) =
      definitionsOfBlock first ++ definitionsOfBlock second := by
  induction first with
  | nil => rfl
  | cons s rest ih => simp [definitionsOfBlock, ih]

end Stmt

/-! Statements directly in the program. -/

/-- A statement of the program is a function definition or could stand in a
block. -/
theorem Stmt.Checked.function_or_inner (h : s.Checked .program before after) :
    (∃ name params returns body, s = .function name params returns body) ∨
      s.Checked Place.program.inner before after := by
  by_cases hfunction : ∃ name params returns body, s =
    .function name params returns body
  · exact .inl hfunction
  · refine .inr (h.at_place rfl fun name params returns body hname => ?_)
    exact absurd ⟨name, params, returns, body, hname⟩ hfunction

/-- A function defines itself and nothing else. -/
theorem Stmt.Checked.definitions_function {params : List Binding}
    {returns : List ValueType}
    (h : (Stmt.function name params returns body).Checked place before after) :
    (Stmt.function name params returns body).definitions = [(name, body)] := by
  cases h with
  | function _ _ _ _ hbody _ =>
      rw [Stmt.definitions, hbody.definitions_eq_nil rfl]

/-- The functions a statement of the program adds to those that are known. -/
theorem Stmt.Checked.functions_eq (h : s.Checked .program before after) :
    after.functions.map Prod.fst =
        (s.definitions.map Prod.fst).reverse ++ before.functions.map Prod.fst ∧
      ∀ definition ∈ s.definitions, definition.1 ∉
        before.functions.map Prod.fst := by
  rcases h.function_or_inner with ⟨name, params, returns, body, rfl⟩ | hinner
  · rw [h.definitions_function]
    obtain ⟨hnew, rfl⟩ := h.function_tables
    refine ⟨rfl, ?_⟩
    rw [List.forall_mem_singleton, List.mem_map]
    rintro ⟨entry, hentry, rfl⟩
    simpa using List.lookup_eq_none_iff.mp hnew entry hentry
  · rw [hinner.definitions_eq_nil rfl, hinner.leaves.functions rfl]
    exact ⟨rfl, by simp⟩

/-- The functions known behind statements of the program are those they define,
the last one first, and those known before. -/
theorem Block.Checked.functions_eq
    (h : Block.Checked .program before body after) :
    after.functions.map Prod.fst =
      ((Stmt.definitionsOfBlock body).map Prod.fst).reverse ++
        before.functions.map Prod.fst := by
  induction body generalizing before with
  | nil =>
      cases h
      rfl
  | cons s rest ih =>
      cases h with
      | cons hs hrest =>
          rw [ih hrest, hs.functions_eq.1, Stmt.definitionsOfBlock,
            List.map_append, List.reverse_append, List.append_assoc]

/-- No name is given to two functions. -/
theorem Block.Checked.functions_nodup
    (h : Block.Checked .program before body after)
    (hbefore : (before.functions.map Prod.fst).Nodup) :
    (after.functions.map Prod.fst).Nodup := by
  induction body generalizing before with
  | nil =>
      cases h
      exact hbefore
  | cons s rest ih =>
      cases h with
      | cons hs hrest =>
          apply ih hrest
          obtain ⟨hfunctions, hnew⟩ := hs.functions_eq
          rw [hfunctions]
          rcases hs.function_or_inner
            with ⟨name, params, returns, body, rfl⟩ | hinner
          · rw [hs.definitions_function] at hnew ⊢
            exact List.nodup_cons.mpr
              ⟨hnew _ (List.mem_singleton_self _), hbefore⟩
          · rw [hinner.definitions_eq_nil rfl]
            exact hbefore

/-- Where a statement of a block is checked. -/
theorem Block.Checked.at_statement {first rest : List Stmt}
    (h : Block.Checked place before (first ++ s :: rest) after) :
    ∃ here there, Block.Checked place before first here ∧
      s.Checked place here there := by
  induction first generalizing before with
  | nil =>
      cases h with
      | cons hs _ => exact ⟨before, _, .nil, hs⟩
  | cons s' first ih =>
      cases h with
      | cons hs' hrest =>
          obtain ⟨here, there, hfirst, hs⟩ := ih hrest
          exact ⟨here, there, .cons hs' hfirst, hs⟩

/-- Where a function is defined. -/
theorem Block.Checked.at_definition {earlier later : List (String × List Stmt)}
    (h : Block.Checked .program before body after)
    (hdefinitions : Stmt.definitionsOfBlock body = earlier ++ definition ::
      later) :
    ∃ first params returns rest,
      body = first ++ .function definition.1 params returns
        definition.2 :: rest ∧ Stmt.definitionsOfBlock first = earlier := by
  induction body generalizing before earlier with
  | nil => simp [Stmt.definitionsOfBlock] at hdefinitions
  | cons s rest ih =>
      cases h with
      | cons hs hrest =>
          rw [Stmt.definitionsOfBlock] at hdefinitions
          rcases hs.function_or_inner
            with ⟨name, params, returns, body, rfl⟩ | hinner
          · rw [hs.definitions_function, List.singleton_append] at hdefinitions
            cases earlier with
            | nil =>
                obtain ⟨rfl, _⟩ := List.cons.inj hdefinitions
                exact ⟨[], params, returns, rest, rfl, rfl⟩
            | cons head earlier =>
                rw [List.cons_append] at hdefinitions
                obtain ⟨rfl, hlater⟩ := List.cons.inj hdefinitions
                obtain ⟨first, params', returns', rest', rfl, hearlier⟩ :=
                  ih hrest hlater
                refine ⟨.function name params returns body :: first, params',
                  returns', rest', rfl, ?_⟩
                rw [Stmt.definitionsOfBlock, hs.definitions_function, hearlier]
                rfl
          · rw [hinner.definitions_eq_nil rfl, List.nil_append] at hdefinitions
            obtain ⟨first, params, returns, rest', rfl, hearlier⟩ :=
              ih hrest hdefinitions
            refine ⟨s :: first, params, returns, rest', rfl, ?_⟩
            rw [Stmt.definitionsOfBlock, hinner.definitions_eq_nil rfl,
              hearlier]
            rfl

theorem Block.Checked.function_of_definition
    (h : Block.Checked .program before body after)
    (hname : name ∈ (Stmt.definitionsOfBlock body).map Prod.fst) :
    ∃ params returns inner, .function name params returns inner ∈ body := by
  obtain ⟨definition, hmem, rfl⟩ := List.mem_map.mp hname
  obtain ⟨earlier, later, hdefinitions⟩ := List.append_of_mem hmem
  obtain ⟨first, params, returns, rest, rfl, _⟩ := h.at_definition hdefinitions
  exact ⟨params, returns, definition.2, by simp⟩

/-! The order of calls. -/

theorem Tables.mem_functions_of_lookup {tables : Tables}
    (h : tables.lookupFunction? name ≠ none) :
    name ∈ tables.functions.map Prod.fst := by
  obtain ⟨signature, hlookup⟩ := Option.ne_none_iff_exists'.mp h
  obtain ⟨first, second, hsplit, _⟩ := List.lookup_eq_some_iff.mp hlookup
  rw [hsplit]
  simp

section Order

variable {program : Program} {tables : Tables} {callee : String}

/-- A function calls itself and functions defined before it. -/
theorem Block.Checked.called_in_function
    (h : Block.Checked .program .empty program.statements tables)
    {earlier later : List (String × List Stmt)}
    (hdefinitions : program.definitions = earlier ++ definition :: later)
    (hcall : .call callee ∈ Stmt.mentionsOfBlock definition.2) :
    callee ∈ (earlier ++ [definition]).map Prod.fst := by
  obtain ⟨first, params, returns, rest, hstatements, rfl⟩ :=
    h.at_definition hdefinitions
  rw [hstatements] at h
  obtain ⟨here, there, hfirst, hfunction⟩ := h.at_statement
  obtain ⟨bodyEnd, haccounts⟩ := hfunction.function_accounts
  have hknown := haccounts.called (List.mem_append_right _ hcall)
  have hmem := Tables.mem_functions_of_lookup hknown
  rw [hfunction.functions_eq.1, hfunction.definitions_function,
    hfirst.functions_eq] at hmem
  simpa [Tables.empty, or_comm] using hmem

/-- Any other statement calls functions defined before it. -/
theorem Block.Checked.called_in_statement
    (h : Block.Checked .program .empty program.statements tables)
    {first rest : List Stmt}
    (hstatements : program.statements = first ++ s :: rest)
    (hs : s.definitions = []) (hcall : .call callee ∈ s.mentions) :
    ∃ params returns body, .function callee params returns body ∈ first := by
  rw [hstatements] at h
  obtain ⟨here, there, hfirst, hchecked⟩ := h.at_statement
  have hknown : here.lookupFunction? callee ≠ none := by
    rcases hchecked.function_or_inner
      with ⟨name, params, returns, body, rfl⟩ | hinner
    · rw [hchecked.definitions_function] at hs
      cases hs
    · exact (hinner.accounts rfl).called hcall
  have hmem := Tables.mem_functions_of_lookup hknown
  rw [hfirst.functions_eq] at hmem
  exact hfirst.function_of_definition (by simpa [Tables.empty] using hmem)

theorem Block.Checked.definitions_nodup
    (h : Block.Checked .program .empty program.statements tables) :
    (program.definitions.map Prod.fst).Nodup := by
  have hnodup := h.functions_nodup .nil
  rw [h.functions_eq] at hnodup
  simpa [Tables.empty, Program.definitions] using hnodup

end Order

theorem exists_lt_of_mem_take {definitions : List (String × List Stmt)}
    {bound : Nat} (h : name ∈ (definitions.take bound).map Prod.fst) :
    ∃ j : Fin definitions.length, j < bound ∧ (definitions.get j).1 = name := by
  obtain ⟨definition, hmem, rfl⟩ := List.mem_map.mp h
  obtain ⟨j, hj, rfl⟩ := List.mem_take_iff_getElem.mp hmem
  rw [Nat.lt_min] at hj
  exact ⟨⟨j, hj.2⟩, hj.1, rfl⟩

section Places

variable {program : Program} {tables : Tables} {callee : String}

theorem Block.Checked.callee_not_behind
    (h : Block.Checked .program .empty program.statements tables)
    (i : Fin program.definitions.length)
    (hcall : .call callee ∈
      Stmt.mentionsOfBlock (program.definitions.get i).2) :
    ∃ j ≤ i, (program.definitions.get j).1 = callee := by
  have hsplit : program.definitions = program.definitions.take i ++
      program.definitions.get i :: program.definitions.drop (i + 1) := by simp
  have hmem := h.called_in_function hsplit hcall
  rw [List.get_eq_getElem, ← List.take_succ_eq_append_getElem i.isLt] at hmem
  obtain ⟨j, hj, hname⟩ := exists_lt_of_mem_take hmem
  exact ⟨j, Nat.le_of_lt_succ hj, hname⟩

/-- Where no function calls itself, every function calls only functions before
it. -/
theorem Block.Checked.callee_before
    (h : Block.Checked .program .empty program.statements tables)
    (hnone : ∀ definition ∈ program.definitions, callsItself definition = false)
    (i : Fin program.definitions.length)
    (hcall : .call callee ∈
      Stmt.mentionsOfBlock (program.definitions.get i).2) :
    ∃ j < i, (program.definitions.get j).1 = callee := by
  obtain ⟨j, hle, hname⟩ := h.callee_not_behind i hcall
  refine ⟨j, lt_of_le_of_ne hle ?_, hname⟩
  rintro rfl
  have hself := hnone _ (List.get_mem program.definitions j)
  rw [callsItself, decide_eq_false_iff_not, hname] at hself
  exact hself (Stmt.call_mem_mentionsOfBlock _ |>.mp hcall)

theorem Stmt.definitions_subset (h : s ∈ body) :
    s.definitions ⊆ definitionsOfBlock body := by
  obtain ⟨first, rest, rfl⟩ := List.append_of_mem h
  rw [definitionsOfBlock_append, definitionsOfBlock]
  exact fun _ hmem => List.mem_append_right _ (List.mem_append_left _ hmem)

/-- The callee comes before the caller among the names of the functions. -/
theorem Block.Checked.idxOf_lt_of_calls
    (h : Block.Checked .program .empty program.statements tables)
    (hnone : ∀ definition ∈ program.definitions, callsItself definition = false)
    {caller : String} (hcalls : program.Calls caller callee) :
    (program.definitions.map Prod.fst).idxOf callee <
      (program.definitions.map Prod.fst).idxOf caller := by
  obtain ⟨params, returns, body, hmem, hcall⟩ := hcalls
  have hdefined : (caller, body) ∈ program.definitions :=
    Stmt.definitions_subset hmem (by simp [Stmt.definitions])
  obtain ⟨i, hi⟩ := List.get_of_mem hdefined
  obtain ⟨j, hlt, hj⟩ := h.callee_before hnone i (by rw [hi]; exact hcall)
  have hplace : ∀ k : Fin program.definitions.length,
      (program.definitions.map Prod.fst).idxOf (program.definitions.get k).1 =
        k := by
    intro k
    have hk : k < (program.definitions.map Prod.fst).length := by simp
    simpa using h.definitions_nodup.idxOf_getElem k hk
  have hcaller := hplace i
  have hcallee := hplace j
  rw [hi] at hcaller
  rw [hj] at hcallee
  rw [hcaller, hcallee]
  exact hlt

/-- A chain of calls enters no function twice. -/
theorem Block.Checked.nodup_of_calls
    (h : Block.Checked .program .empty program.statements tables)
    (hnone : ∀ definition ∈ program.definitions, callsItself definition = false)
    {chain : List String} (hchain : chain.IsChain program.Calls) :
    chain.Nodup := by
  have hdescends : (chain.map (program.definitions.map Prod.fst).idxOf).IsChain
      (· > ·) := by
    rw [List.isChain_map]
    exact hchain.imp fun _ _ hcalls => h.idxOf_lt_of_calls hnone hcalls
  have hpairs := List.isChain_iff_pairwise.mp hdescends
  exact List.Nodup.of_map _ (hpairs.imp fun hlt => Nat.ne_of_gt hlt)

end Places

/-- In an accepted program the functions have different names, a function calls
only itself and functions before it, and any other statement only functions
defined before it.  If there is a batch script, functions do not call themselves
either, and no chain of calls enters a function twice. -/
theorem accepted_calls_go_backwards {source : String} {program : Program}
    (h : parseSource source = .ok program) :
    (program.definitions.map Prod.fst).Nodup ∧
      (∀ (i : Fin program.definitions.length) (callee : String),
        .call callee ∈ Stmt.mentionsOfBlock (program.definitions.get i).2 →
          ∃ j ≤ i, (program.definitions.get j).1 = callee) ∧
      (∀ (first rest : List Stmt) (s : Stmt) (callee : String),
        program.statements = first ++ s :: rest → s.definitions = [] →
          .call callee ∈ s.mentions →
            ∃ params returns body,
            .function callee params returns body ∈ first) ∧
      ∀ script, program.script .batch = .ok script →
        (∀ (i : Fin program.definitions.length) (callee : String),
          .call callee ∈ Stmt.mentionsOfBlock (program.definitions.get i).2 →
            ∃ j < i, (program.definitions.get j).1 = callee) ∧
        ∀ chain : List String, chain.IsChain program.Calls → chain.Nodup := by
  obtain ⟨tables, hchecked, _⟩ := parseSource_checked h
  refine ⟨hchecked.definitions_nodup,
    fun i callee => hchecked.callee_not_behind i,
    fun first rest s callee => hchecked.called_in_statement,
    fun script hscript => ?_⟩
  have hbatch := (script_of_accepted h).2
  have hnone : ∀ definition ∈ program.definitions, callsItself definition =
      false := by
    cases hfind : program.definitions.find? callsItself with
    | none => simpa using List.find?_eq_none.mp hfind
    | some definition =>
        rw [hfind, hscript] at hbatch
        cases hbatch
  constructor
  · exact fun i callee => hchecked.callee_before hnone i
  · exact fun chain => hchecked.nodup_of_calls hnone

/-- A function that calls an earlier one, and a call from inside a branch. -/
theorem accepted_calls_go_backwards_branch :
    ∃ program script,
      parseSource
        ("func f() \x7b\nprint(1)\n\x7d\nfunc g() \x7b\nf()\n\x7d\n" ++
        "if true \x7b\ng()\n\x7d\n") = .ok program ∧
      program.script .batch = .ok script ∧
        program.definitions.map Prod.fst = ["f", "g"] ∧
      (∃ params returns body, .function "g" params returns body ∈
        program.statements.take 2) ∧
      ["g", "f"].IsChain program.Calls ∧ ["g", "f"].Nodup ∧
        ¬program.Calls "f" "g" := by
  obtain ⟨program, h, hbranch, hnames, hfind⟩ : ∃ program : Program,
      parseSource
        ("func f() \x7b\nprint(1)\n\x7d\nfunc g() \x7b\nf()\n\x7d\n" ++
        "if true \x7b\ng()\n\x7d\n") = .ok program ∧
      program.statements = [.function "f" [] [] [.print (.int 1 [.int])],
          .function "g" [] [] [.action (.call "f" [] [])]] ++
        .choose [(.bool true [.bool], [.action (.call "g" [] [])])] none :: [] ∧
      program.definitions.map Prod.fst = ["f", "g"] ∧
      program.definitions.find? callsItself = none :=
    ⟨⟨[.function "f" [] [] [.print (.int 1 [.int])],
        .function "g" [] [] [.action (.call "f" [] [])],
        .choose [(.bool true [.bool], [.action (.call "g" [] [])])] none]⟩,
      by cbv, rfl, rfl, rfl⟩
  have hbatch := (script_of_accepted h).2
  rw [hfind] at hbatch
  obtain ⟨script, hscript⟩ := hbatch
  obtain ⟨_, _, hstatement, hbackwards⟩ := accepted_calls_go_backwards h
  obtain ⟨_, hnodup⟩ := hbackwards script hscript
  have hcalls : program.Calls "g" "f" :=
    ⟨[], [], [.action (.call "f" [] [])], by simp [hbranch], by decide⟩
  refine ⟨program, script, h, hscript, hnames, ?_, List.isChain_pair.mpr hcalls,
    hnodup _ (List.isChain_pair.mpr hcalls), ?_⟩
  · rw [hbranch]
    exact hstatement _ _ _ "g" hbranch rfl (by decide)
  · intro hback
    simpa using hnodup ["f", "g", "f"]
      (List.isChain_cons_cons.mpr ⟨hback, List.isChain_pair.mpr hcalls⟩)

end Shellwright
