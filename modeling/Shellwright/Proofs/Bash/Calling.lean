/-
How a bash script hands arguments over.  Caller and callee count on their own:
scalars travel as the words of the call in their order, lists in arrays numbered
by their place among all arguments.  A parameter is read by `$` and its number,
of which bash takes one digit only, so that the words from the tenth on do not
arrive.
-/
import Mathlib
import Shellwright.Proofs.Bash.Lines

namespace Shellwright

namespace Bash

variable {number place : Nat} {name : String} {digits : List Char}
  {params : List Binding} {args : List (String × ValueType)}

open Script

/-! Positional parameters in a quoted text. -/

/-- A piece of a text between double quotes: a character that stands for itself
or a positional parameter.  Other expansions are not looked at. -/
inductive Piece where
  | char (c : Char)
  | positional (number : Nat)
deriving DecidableEq, Repr

/-- The positional parameter named behind a `$`, and how many characters name
it: one digit, or any number in braces. -/
def positional? : List Char → Option (Nat × Nat)
  | [] => none
  | c :: rest =>
      if c = '\x7b' then
        let digits := rest.takeWhile Char.isDigit
        if digits ≠ [] ∧ rest[digits.length]? = some '\x7d' then
          some (Nat.ofDigitChars 10 digits 0, digits.length + 2)
        else none
      else if c.isDigit then some (Nat.ofDigitChars 10 [c] 0, 1)
      else none

/-- The pieces of a text after passing over `skip` characters. -/
def piecesFrom (skip : Nat) : List Char → List Piece
  | [] => []
  | c :: rest =>
      match skip with
      | skip + 1 => piecesFrom skip rest
      | 0 =>
          match if c = '$' then positional? rest else none with
          | some (number, length) =>
              .positional number :: piecesFrom length rest
          | none => .char c :: piecesFrom 0 rest

def pieces (text : String) : List Piece := piecesFrom 0 text.toList

theorem piecesFrom_length (text : List Char) :
    piecesFrom text.length text = [] := by
  induction text with
  | nil => rfl
  | cons c rest ih => exact ih

theorem piecesFrom_digits (h : ∀ c ∈ digits, c.isDigit = true) :
    piecesFrom 0 digits = digits.map .char := by
  induction digits with
  | nil => rfl
  | cons c rest ih =>
      obtain ⟨hdigit, hrest⟩ := List.forall_mem_cons.mp h
      have hdollar : c ≠ '$' := by
        rintro rfl
        exact absurd hdigit (by decide)
      rw [piecesFrom, if_neg hdollar, ih hrest]
      rfl

/-- Without braces the first digit of a number is the parameter and the other
ones are text. -/
theorem pieces_dollar {digit : Char}
    (h : Nat.toDigits 10 number = digit :: digits) :
    pieces ("$" ++ toString number) =
      .positional (Nat.ofDigitChars 10 [digit] 0) :: digits.map .char := by
  have hdigits : ∀ c ∈ digit :: digits, c.isDigit = true :=
    h ▸ isDigit_of_mem_digits
  obtain ⟨hdigit, hrest⟩ := List.forall_mem_cons.mp hdigits
  have hbrace : digit ≠ '\x7b' := by
    rintro rfl
    exact absurd hdigit (by decide)
  have htext : ("$" ++ toString number).toList = '$' :: digit :: digits := by
    rw [toList_numbered, h]
    rfl
  rw [pieces, htext, piecesFrom, if_pos rfl, positional?, if_neg hbrace,
    if_pos hdigit]
  show _ :: piecesFrom 0 digits = _
  rw [piecesFrom_digits hrest]

/-- A number of one digit is read as that parameter, and no other number is. -/
theorem pieces_dollar_iff :
    pieces ("$" ++ toString number) = [.positional number] ↔ number < 10 := by
  obtain ⟨digit, digits, hdigits⟩ :=
    List.exists_cons_of_ne_nil (Nat.toDigits_ne_nil (b := 10) (n := number))
  have hlength : digits = [] ↔ number < 10 := by
    have hle := Nat.length_toDigits_le_iff (b := 10) (n := number) (k := 1)
      (by decide) (by decide)
    rw [hdigits, List.length_cons] at hle
    rw [← List.length_eq_zero_iff]
    omega
  rw [pieces_dollar hdigits, ← hlength]
  constructor
  · intro hpieces
    simpa using (List.cons.inj hpieces).2
  · rintro rfl
    rw [← hdigits, Nat.ofDigitChars_ten_toDigits]
    rfl

/-- In braces every number is read as that parameter. -/
theorem pieces_braces (number : Nat) :
    pieces (expand (toString number)) = [.positional number] := by
  have htext : (expand (toString number)).toList =
      '$' :: '\x7b' :: (Nat.toDigits 10 number ++ ['\x7d']) := by
    simp [expand]
  have htake : (Nat.toDigits 10 number ++ ['\x7d']).takeWhile Char.isDigit =
      Nat.toDigits 10 number := by
    rw [List.takeWhile_append_of_pos isDigit_of_mem_digits]
    simp
  have hpositional :
    positional? ('\x7b' :: (Nat.toDigits 10 number ++ ['\x7d'])) =
      some (number,
        ('\x7b' :: (Nat.toDigits 10 number ++ ['\x7d'])).length) := by
    rw [positional?, if_pos rfl]
    simp [htake, Nat.toDigits_ne_nil, Nat.ofDigitChars_ten_toDigits]
  rw [pieces, htext, piecesFrom, if_pos rfl, hpositional]
  show _ :: piecesFrom _ _ = _
  rw [piecesFrom_length]

/-! The lines of both sides. -/

/-- The array in which the list argument at place `place` travels. -/
def argumentArray (place : Nat) : String := "__sb_arg_" ++ toString place

theorem argumentArray_inj {other : Nat}
    (h : argumentArray place = argumentArray other) : place = other := by
  have hchars := congrArg String.toList h
  unfold argumentArray at hchars
  rw [toList_numbered, toList_numbered] at hchars
  have hdigits := List.append_cancel_left hchars
  rw [← Nat.ofDigitChars_ten_toDigits (n := place), hdigits,
    Nat.ofDigitChars_ten_toDigits]

/-- How many scalars are among types. -/
def scalarsIn (types : List ValueType) : Nat :=
  types.countP fun ty => !ty.isList

/-- The line that sets a parameter: the one at place `place` from its array, or
the scalar with the given rank from its word. -/
def bindingOf (place rank : Nat) (param : Binding) : Command :=
  if param.ty.isList then .copyList true (variableName param.name)
    (argumentArray place)
  else .assign true (variableName param.name) ("$" ++ toString rank)

/-- The lines that set parameters from place `place` on, with `scalars` scalars
before them. -/
def bindingsFrom (place scalars : Nat) (params : List Binding) : List Command :=
  params.mapIdx fun i param =>
    bindingOf (place + i)
      (scalars + scalarsIn ((params.take i).map Binding.ty) + 1) param

theorem bindParameters_writes {scalars : Nat} :
    Writes (bindParameters place scalars params) fun _ new =>
      new = bindingsFrom place scalars params := by
  induction params generalizing place scalars with
  | nil => exact .pure rfl
  | cons param params ih =>
      unfold bindParameters
      by_cases hlist : param.ty.isList = true
      · rw [if_pos hlist]
        refine .bind emit_writes fun _ => ih.weaken ?_
        rintro _ _ rfl _ rfl
        simp [bindingsFrom, List.mapIdx_cons, bindingOf, hlist, argumentArray,
          scalarsIn, Nat.add_assoc, Nat.add_comm 1]
      · rw [if_neg hlist]
        refine .bind emit_writes fun _ => ih.weaken ?_
        rintro _ _ rfl _ rfl
        simp [bindingsFrom, List.mapIdx_cons, bindingOf, hlist, scalarsIn,
          Nat.add_assoc, Nat.add_comm 1]

theorem functionStart_writes :
    Writes (functionStart name params) fun _ new =>
      new = .functionOpen name :: bindingsFrom 0 0 params := by
  have hopened : Writes (do
      emit (.functionOpen name)
      indent
      modify fun s => { s with inFunction := true }
      bindParameters 0 0 params : Write State Unit) fun _ new =>
        new = .functionOpen name :: bindingsFrom 0 0 params := by
    refine .bind emit_writes fun _ => .bind (Q := fun _ new => new = [])
      (.modify (fun _ => rfl) rfl) fun _ => .bind (Q := fun _ new => new = [])
      (.modify (fun _ => rfl) rfl) fun _ => bindParameters_writes.weaken ?_
    rintro _ _ rfl _ rfl _ rfl _ rfl
    simp
  exact .get fun s => .ite
    (fun _ => .bind (Q := fun _ _ => False) .throw fun _ =>
    hopened.weaken fun _ _ _ _ => False.elim) fun _ => hopened

/-- The lines that fill the arrays of the list arguments. -/
def fillsFrom (place : Nat) (args : List (String × ValueType)) : List Command :=
  (args.zipIdx place).filterMap fun entry =>
    if entry.1.2.isList then some
      (.copyList false (argumentArray entry.2) entry.1.1) else none

/-- The arguments that travel as words. -/
def wordsOf (args : List (String × ValueType)) : List String :=
  (args.filter fun arg => !arg.2.isList).map Prod.fst

theorem passLists_writes :
    Writes (passLists place args) fun words new =>
      words = wordsOf args ∧ new = fillsFrom place args := by
  induction args generalizing place with
  | nil => exact .pure ⟨rfl, rfl⟩
  | cons arg args ih =>
      unfold passLists
      by_cases hlist : arg.2.isList = true
      · rw [if_pos hlist]
        refine .bind emit_writes fun _ => ih.weaken ?_
        rintro _ _ ⟨rfl, rfl⟩ _ rfl
        simp [wordsOf, fillsFrom, hlist, argumentArray]
      · rw [if_neg hlist]
        refine .bind ih fun words => .pure ?_
        rintro _ ⟨rfl, rfl⟩
        simp [wordsOf, fillsFrom, hlist]

theorem callFunction_writes {returns : List ValueType} {used : Bool} :
    Writes (callFunction name args returns used) fun _ new =>
      ∃ fetches, new = fillsFrom 0 args ++ .callFunction name (wordsOf args) ::
        fetches := by
  refine .bind passLists_writes fun words => .bind emit_writes fun _ => ?_
  refine .ite (fun _ => ?_) fun _ => ?_
  · refine (plain_of_steady fun _ => fetchResults_straight.enters).weaken ?_
    rintro _ fetches _ _ rfl _ ⟨rfl, rfl⟩
    exact ⟨fetches, rfl⟩
  · refine .pure ?_
    rintro _ rfl _ ⟨rfl, rfl⟩
    exact ⟨[], rfl⟩

/-! Places and ranks. -/

/-- A scalar stands among the words at the number of scalars before it. -/
theorem wordsOf_getElem? {i : Nat} {arg : String × ValueType}
    (h : args[i]? = some arg) (hscalar : arg.2.isList = false) :
    (wordsOf args)[scalarsIn ((args.take i).map Prod.snd)]? = some arg.1 := by
  induction args generalizing i with
  | nil => simp at h
  | cons first args ih =>
      cases i with
      | zero =>
          obtain rfl : first = arg := by simpa using h
          simp [wordsOf, scalarsIn, hscalar]
      | succ i =>
          have hrest := ih (by simpa using h)
          cases hfirst : first.2.isList with
          | true => simpa [wordsOf, scalarsIn, hfirst] using hrest
          | false => simpa [wordsOf, scalarsIn, hfirst] using hrest

theorem mem_fillsFrom {command : Command} :
    command ∈ fillsFrom 0 args ↔ ∃ i arg, args[i]? = some arg ∧
      arg.2.isList = true ∧
      command = .copyList false (argumentArray i) arg.1 := by
  simp only [fillsFrom, List.mem_filterMap]
  constructor
  · rintro ⟨⟨arg, i⟩, hmem, hsome⟩
    cases hlist : arg.2.isList with
    | true =>
        rw [List.mem_zipIdx_iff_getElem?] at hmem
        exact ⟨i, arg, hmem, hlist, by simpa [hlist, eq_comm] using hsome⟩
    | false => simp [hlist] at hsome
  · rintro ⟨i, arg, harg, hlist, rfl⟩
    exact ⟨(arg, i), List.mem_zipIdx_iff_getElem?.mpr harg, by simp [hlist]⟩

/-- The array of a list argument is filled from that argument only. -/
theorem mem_fillsFrom_iff {i : Nat} {arg : String × ValueType}
    (h : args[i]? = some arg) (hlist : arg.2.isList = true) (source : String) :
    .copyList false (argumentArray i) source ∈ fillsFrom 0 args ↔
      source = arg.1 := by
  rw [mem_fillsFrom]
  constructor
  · rintro ⟨j, other, hother, _, hcommand⟩
    obtain ⟨_, harray, rfl⟩ := Command.copyList.inj hcommand
    obtain rfl := argumentArray_inj harray
    rw [hother, Option.some.injEq] at h
    rw [h]
  · rintro rfl
    exact ⟨i, arg, h, hlist, rfl⟩

/-- How the arguments of a call reach the parameters, given the lines that set
the parameters, those that fill arrays, and the words of the call. -/
structure HandsOver (params : List Binding) (args : List (String × ValueType))
    (bindings fills : List Command) (words : List String) : Prop where
  /-- A list parameter copies an array that is filled from its argument only. -/
  lists : ∀ {i param arg}, params[i]? = some param → args[i]? = some arg →
    param.ty.isList = true →
      bindings[i]? = some (.copyList true (variableName param.name)
        (argumentArray i)) ∧
        ∀ source, .copyList false (argumentArray i) source ∈ fills ↔
          source = arg.1
  /-- The argument of a scalar parameter is the word of its rank `k`.  The
  parameter is set from the word that the first digit of `k` counts, followed by
  the other digits: this is word `k` below ten only, where `k` in braces would
  be for every `k`. -/
  scalars : ∀ {i k param arg}, params[i]? = some param → args[i]? = some arg →
    param.ty.isList = false →
      k = scalarsIn ((params.take i).map Binding.ty) + 1 →
      words[k - 1]? = some arg.1 ∧
        ∃ text, bindings[i]? =
          some (.assign true (variableName param.name) text) ∧
          (∃ digit digits, Nat.toDigits 10 k = digit :: digits ∧
            pieces text = .positional (Nat.ofDigitChars 10 [digit] 0) ::
              digits.map .char) ∧
          (pieces text = [.positional k] ↔ k < 10) ∧
          pieces (expand (toString k)) = [.positional k]
  count : words.length = scalarsIn (params.map Binding.ty)

theorem bindingsFrom_getElem? {i : Nat} {param : Binding}
    (h : params[i]? = some param) : (bindingsFrom 0 0 params)[i]? =
      some (bindingOf i (scalarsIn ((params.take i).map Binding.ty) + 1)
        param) := by
  rw [bindingsFrom, List.getElem?_mapIdx, h, Nat.zero_add, Nat.zero_add]
  rfl

theorem handsOver (htypes : args.map Prod.snd = params.map Binding.ty) :
    HandsOver params args (bindingsFrom 0 0 params) (fillsFrom 0 args)
      (wordsOf args) where
  lists {i param arg} hparam harg hlist := by
    have hty : arg.2 = param.ty := by
      simpa [hparam, harg] using congrArg (·[i]?) htypes
    constructor
    · rw [bindingsFrom_getElem? hparam, bindingOf, if_pos hlist]
    · exact mem_fillsFrom_iff harg (hty ▸ hlist)
  scalars {i k param arg} hparam harg hscalar hk := by
    have hty : arg.2 = param.ty := by
      simpa [hparam, harg] using congrArg (·[i]?) htypes
    have hrank : (args.take i).map Prod.snd =
        (params.take i).map Binding.ty := by
      rw [List.map_take, htypes, List.map_take]
    obtain ⟨digit, digits, hdigits⟩ :=
      List.exists_cons_of_ne_nil (Nat.toDigits_ne_nil (b := 10) (n := k))
    constructor
    · rw [hk, Nat.add_sub_cancel, ← hrank]
      exact wordsOf_getElem? harg (hty ▸ hscalar)
    · refine ⟨"$" ++ toString k, ?_,
        ⟨digit, digits, hdigits, pieces_dollar hdigits⟩, pieces_dollar_iff,
        pieces_braces k⟩
      rw [bindingsFrom_getElem? hparam, ← hk, bindingOf,
        if_neg (by simp [hscalar])]
  count := by
    rw [wordsOf, List.length_map, ← List.countP_eq_length_filter, ← htypes,
      scalarsIn, List.countP_map]
    rfl

/-- A call hands its arguments over to the parameters of the function it names,
whatever their number and types; only scalars from the tenth on are lost. -/
theorem bash_words_arrive_below_ten (name : String) {params : List Binding}
    {args : List (String × ValueType)} (returns : List ValueType) (used : Bool)
    (callee caller : State) (htypes : args.map Prod.snd = params.map Binding.ty)
    (houter : callee.inFunction = false) :
    ∃ callee' bindings results caller' fills words fetches,
      exec (functionStart name params) callee = (.ok (), callee') ∧
        callee'.commands = callee.commands ++ .functionOpen name :: bindings ∧
        exec (callFunction name args returns used) caller =
          (.ok results, caller') ∧
        caller'.commands = caller.commands ++
          (fills ++ .callFunction name words :: fetches) ∧
        HandsOver params args bindings fills words := by
  obtain ⟨lines, depth, helpers, flags, loops, inFunction, needsListSet,
    needsCapture⟩ := callee
  obtain rfl : inFunction = false := houter
  have hbinds : Does True ⟨true, []⟩ _ (bindParameters 0 0 params)
      fun _ => True :=
    bindParameters_does
  obtain ⟨_, callee', hstart⟩ :=
    hbinds.succeeds trivial ⟨lines.push ⟨depth, .functionOpen name⟩,
    depth + 1, helpers, flags, loops, true, needsListSet, needsCapture⟩
  have hstart : exec (functionStart name params)
    ⟨lines, depth, helpers, flags, loops, false,
      needsListSet, needsCapture⟩ = (.ok (), callee') := hstart
  have hcalls : Straight ⟨false, []⟩ (callFunction name args returns used) _ :=
    callFunction_straight
  obtain ⟨results, caller', hcall⟩ := hcalls.succeeds trivial caller
  obtain ⟨_, hopened, rfl⟩ := functionStart_writes hstart
  obtain ⟨_, hcalled, fetches, rfl⟩ := callFunction_writes hcall
  exact ⟨callee', _, results, caller', _, _, fetches, hstart, hopened,
    hcall, hcalled, handsOver htypes⟩

/-- A list between two scalars. -/
theorem bash_words_arrive_below_ten_mixed :
    [("1", ValueType.int), ("v_l", .list .int), ("b", .string)].map Prod.snd =
        [Binding.mk "x" .int, ⟨"l", .list .int⟩,
          ⟨"y", .string⟩].map Binding.ty ∧
      State.fresh.inFunction = false ∧
      ∃ callee' bindings results caller' fills words fetches,
        exec (functionStart "f" [⟨"x", .int⟩, ⟨"l", .list .int⟩,
          ⟨"y", .string⟩]) State.fresh =
            (.ok (), callee') ∧
          callee'.commands = State.fresh.commands ++ .functionOpen "f" ::
            bindings ∧
          exec (callFunction "f" [("1", .int), ("v_l", .list .int),
            ("b", .string)] [] false) State.fresh = (.ok results, caller') ∧
          caller'.commands =
            State.fresh.commands ++ (fills ++ .callFunction "f" words ::
              fetches) ∧
          (∀ source, .copyList false "__sb_arg_1" source ∈ fills ↔
            source = "v_l") ∧
          words[1]? = some "b" ∧
          ∃ text, bindings[2]? = some (.assign true "v_y" text) ∧
            pieces text = [.positional 2] := by
  have htypes : [("1", ValueType.int), ("v_l", .list .int),
    ("b", .string)].map Prod.snd =
      [Binding.mk "x" .int, ⟨"l", .list .int⟩, ⟨"y", .string⟩].map
        Binding.ty := rfl
  obtain ⟨callee', bindings, results, caller', fills, words, fetches, hstart,
    hopened, hcall, hcalled, hhands⟩ :=
    bash_words_arrive_below_ten "f" [] false State.fresh State.fresh
      htypes rfl
  obtain ⟨_, hfills⟩ := hhands.lists (i := 1) rfl rfl rfl
  obtain ⟨hword, text, hbinding, _, hpieces, _⟩ :=
    hhands.scalars (i := 2) rfl rfl rfl rfl
  exact ⟨htypes, rfl, callee', bindings, results, caller', fills, words,
    fetches, hstart, hopened, hcall, hcalled, hfills, hword, text, hbinding,
    hpieces.mpr (by decide)⟩

/-- The tenth of ten scalars is set from the first word and a zero. -/
theorem bash_tenth_word_lost :
    let names := ["a", "b", "c", "d", "e", "f", "g", "h", "i", "j"]
    (exec (functionStart "f" (names.map (⟨·, .int⟩)))
      State.fresh).2.commands[10]? =
        some (.assign true "v_j" "$10") ∧
      (exec (callFunction "f" (names.map (·, .int)) [] false)
        State.fresh).2.commands = [.callFunction "f" names] ∧
      pieces "$10" = [.positional 1, .char '0'] ∧
        pieces "$10" ≠ [.positional 10] := by
  decide +kernel

end Bash

end Shellwright
