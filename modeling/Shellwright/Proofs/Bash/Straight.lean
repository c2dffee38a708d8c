/-
Straight parts of a bash script.  What evaluates an expression, and whatever
else has no block, adds plain lines that control flow does not see, and no
fragment of it is a test of a flag.  Inside a function such lines set local
names only, apart from variables.  Most of it cannot fail.
-/
import Shellwright.Proofs.Bash.Clauses
import Shellwright.Proofs.Bash.Locals
import Shellwright.Proofs.Bash.Quoting
import Shellwright.Proofs.Script.Journal

namespace Shellwright

namespace Bash

variable {fragment rest : String}

open Script (Journal exec)

variable {α β : Type}

/-- The commands written so far. -/
def State.commands (s : State) : List Command := s.lines.toList.map Line.command

/-- Whether lines are written inside a function, and the names that are local
there. -/
structure Scope where
  inside : Bool
  known : List String

/-- Only lines that control flow does not see have been added, and nothing has
been opened or closed. -/
structure State.Continues (scope : Scope) (mentions : List Mention)
    (s s' : State) : Prop where
  lines : ∃ new, s'.lines.toList = s.lines.toList ++ new.map (Line.mk s.depth) ∧
    (∀ c ∈ new, c.IsOther ∧ c.isPlain = true) ∧
    (scope.inside = true → Localized scope.known mentions new)
  depth : s'.depth = s.depth
  flags : s'.flags = s.flags
  loops : s'.loops = s.loops
  inFunction : s'.inFunction = s.inFunction

namespace State.Continues

variable {scope : Scope} {first second : List Mention} {s mid s' : State}

/-- A change of what is neither written nor about constructs. -/
theorem of_eq (hlines : s'.lines = s.lines) (hdepth : s'.depth = s.depth)
    (hflags : s'.flags = s.flags) (hloops : s'.loops = s.loops)
    (hfunction : s'.inFunction = s.inFunction) : s.Continues scope [] s' :=
  ⟨⟨[], by simp [hlines], by simp, fun _ => .nil⟩, hdepth, hflags, hloops,
    hfunction⟩

theorem trans (h : s.Continues scope first mid)
    (h' : mid.Continues scope second s') :
    s.Continues scope (first ++ second) s' := by
  obtain ⟨new, hlines, hplain, hlocal⟩ := h.lines
  obtain ⟨new', hlines', hplain', hlocal'⟩ := h'.lines
  refine ⟨⟨new ++ new', ?_, List.forall_mem_append.mpr ⟨hplain, hplain'⟩, ?_⟩,
    h'.depth.trans h.depth, h'.flags.trans h.flags, h'.loops.trans h.loops,
    h'.inFunction.trans h.inFunction⟩
  · rw [hlines', hlines, h.depth, List.map_append, List.append_assoc]
  · exact fun hinside =>
      (hlocal hinside).append
        ((hlocal' hinside).mono (List.subset_append_right _ _))

end State.Continues

/-- Lines that control flow does not see, and fragments that test no flag. -/
def steady (scope : Scope) : Journal State where
  step mentions s s' := s.inFunction = scope.inside →
    s.Continues scope mentions s'
  fragment := Unflagged
  refl _ _ := .of_eq rfl rfl rfl rfl rfl
  trans hfirst hsecond hinside :=
    (hfirst hinside).trans (hsecond ((hfirst hinside).inFunction.trans hinside))

/-- A writer that adds such lines for the mentions whenever it succeeds, with a
value that has the property `Q`.  If it is able to, it succeeds. -/
structure Does (able : Prop) (scope : Scope) (mentions : List Mention)
    (p : Write State α) (Q : α → Prop) : Prop where
  enters : (steady scope).Enters mentions p Q
  succeeds : able → ∀ s, ∃ a s', exec p s = (.ok a, s')

/-- A writer without mentions that cannot fail. -/
abbrev Straight (scope : Scope) (p : Write State α) (Q : α → Prop) : Prop :=
  Does True scope [] p Q

namespace Does

variable {able : Prop} {scope : Scope} {first second : List Mention}
  {p q : Write State α} {f : α → Write State β} {Q : α → Prop} {Q' : β → Prop}

theorem pure {a : α} (ha : Q a) : Does able scope [] (Pure.pure a) Q :=
  ⟨.pure ha, fun _ s => ⟨a, s, rfl⟩⟩

theorem throw {error : ScriptError} (h : ¬able) :
    Does able scope first (MonadExcept.throw error) Q :=
  ⟨.throw, fun hable => absurd hable h⟩

theorem bind (hp : Does able scope first p Q)
    (hf : ∀ a, Q a → Does able scope second (f a) Q') :
    Does able scope (first ++ second) (p >>= f) Q' where
  enters := hp.enters.bind fun a ha => (hf a ha).enters
  succeeds hable s := by
    obtain ⟨a, mid, hrun⟩ := hp.succeeds hable s
    obtain ⟨b, s', hrest⟩ := (hf a (hp.enters s a mid hrun).2).succeeds
      hable mid
    exact ⟨b, s', (Script.exec_bind_ok hrun).trans hrest⟩

theorem after (hp : Does able scope [] p Q)
    (hf : ∀ a, Q a → Does able scope second (f a) Q') :
    Does able scope second (p >>= f) Q' :=
  hp.bind hf

theorem given (h : Does True scope first p Q) : Does able scope first p Q :=
  ⟨h.enters, fun _ => h.succeeds trivial⟩

theorem weaken {Q' : α → Prop} (h : Does able scope first p Q)
    (hQ : ∀ a, Q a → Q' a) : Does able scope first p Q' :=
  ⟨h.enters.weaken hQ, h.succeeds⟩

theorem ite {c : Prop} [Decidable c] (hp : c → Does able scope first p Q)
    (hq : ¬c → Does able scope first q Q) :
    Does able scope first (if c then p else q) Q := by
  by_cases hc : c
  · rw [if_pos hc]
    exact hp hc
  · rw [if_neg hc]
    exact hq hc

end Does

/-! Forms of fragments. -/

theorem unflagged_append (front : String)
    (hfront : ¬front.toList <+: "$\x7b__sb_loop".toList ∧
      ¬"$\x7b__sb_loop".toList <+: front.toList) :
    Unflagged (front ++ rest) := by
  refine unflagged_of_front front hfront ?_
  rw [String.toList_append]
  exact List.prefix_append _ _

theorem unflagged_arithmetic (expression : String) :
    Unflagged (arithmetic expression) := by
  unfold arithmetic
  rw [String.append_assoc]
  exact unflagged_append "$(( " (by decide)

theorem unflagged_testResult (test : String) : Unflagged (testResult test) := by
  unfold testResult
  rw [String.append_assoc]
  exact unflagged_append "$( [ " (by decide)

theorem unflagged_expand (front : String)
    (hfront : ¬("$\x7b" ++ front).toList <+: "$\x7b__sb_loop".toList ∧
      ¬"$\x7b__sb_loop".toList <+: ("$\x7b" ++ front).toList) :
    Unflagged (expand (front ++ rest)) := by
  unfold expand
  rw [← String.append_assoc, String.append_assoc]
  exact unflagged_append ("$\x7b" ++ front) hfront

/-- A separator stands between the braces. -/
theorem unflagged_separated {c : Char}
    (hc : c ∉ "$\x7b__sb_loop\x7d".toList ∧ c.isDigit = false)
    (first second : String) :
    Unflagged (expand (first ++ String.singleton c ++ second)) := by
  refine unflagged_of_mem ?_ hc
  simp [expand]

theorem unflagged_of_head (h : fragment.toList.head? ≠ some '$') :
    Unflagged fragment := by
  intro digits _ hbegins
  obtain ⟨rest, hrest⟩ := hbegins
  cases hchars : fragment.toList with
  | nil => rfl
  | cons c chars =>
      rw [hchars] at h hrest
      exact absurd (congrArg List.head? hrest) h

theorem unflagged_boolean (value : Bool) :
    Unflagged (if value then "1" else "0") := by
  cases value with
  | true => exact unflagged_of_head (by decide)
  | false => exact unflagged_of_head (by decide)

theorem unflagged_integer (value : Int) : Unflagged (toString value) := by
  apply unflagged_of_head
  intro hhead
  cases value with
  | ofNat n =>
      have hdigits : (toString (Int.ofNat n)).toList = Nat.toDigits 10 n :=
        Nat.toList_repr
      rw [hdigits] at hhead
      have hdigit := isDigit_of_mem_digits _ (List.mem_of_mem_head? hhead)
      exact absurd hdigit (by decide)
  | negSucc n =>
      have hsign : (toString (Int.negSucc n)).toList =
          '-' :: (toString (n + 1)).toList :=
        String.toList_append
      rw [hsign] at hhead
      exact absurd (Option.some.inj hhead) (by decide)

theorem unflagged_escape (text : String) : Unflagged (escape text) := by
  apply unflagged_of_head
  rw [escape, String.toList_ofList]
  cases htext : text.toList with
  | nil => exact nofun
  | cons c rest =>
      rw [escapeChars]
      by_cases hspecial : isSpecial c = true
      · rw [if_pos hspecial]
        exact fun hhead => absurd (Option.some.inj hhead) (by decide)
      · rw [if_neg hspecial]
        intro hhead
        obtain rfl : c = '$' := Option.some.inj hhead
        exact hspecial rfl

/-- The name of a helper variable. -/
def IsHelper (name : String) : Prop := ∃ number :
    Nat, name = "__sb_h" ++ toString number

namespace IsHelper

variable {name : String}

theorem fronted (h : IsHelper name) : Fronted name := by
  obtain ⟨number, rfl⟩ := h
  exact fronted_append (by decide) _

theorem isWord (h : IsHelper name) : isWord name.toList = true := by
  obtain ⟨number, rfl⟩ := h
  exact isWord_append rfl fun _ hc => isWordChar_of_mem_toString hc

theorem unflagged (h : IsHelper name) : Unflagged name := by
  obtain ⟨number, rfl⟩ := h
  exact unflagged_append "__sb_h" (by decide)

theorem expand_unflagged (h : IsHelper name) : Unflagged (expand name) := by
  obtain ⟨number, rfl⟩ := h
  exact unflagged_expand "__sb_h" (by decide)

end IsHelper

/-- The values of so many helpers. -/
def HelperValues (count : Nat) (results : List String) : Prop :=
  ∃ names : List String, names.length = count ∧
    (∀ name ∈ names, IsHelper name) ∧ results = names.map expand

namespace HelperValues

variable {count : Nat} {results : List String}

theorem length (h : HelperValues count results) : results.length = count := by
  obtain ⟨names, hlength, _, rfl⟩ := h
  rw [List.length_map, hlength]

theorem unflagged (h : HelperValues count results) :
    ∀ part ∈ results, Unflagged part := by
  obtain ⟨names, _, hnames, rfl⟩ := h
  exact List.forall_mem_map.mpr fun name hname =>
    (hnames name hname).expand_unflagged

end HelperValues

/-! The operations. -/

section Operations

variable {scope : Scope} {command : Command} {name : String}
  {mentions : List Mention} {p : Write State α} {Q : α → Prop} {place : Nat}
  {used : Bool} {index line list path value : String} {ty : ValueType}
  {j : Journal State} {returns : List ValueType}
  {args values : List (String × ValueType)}

theorem emit_does (h : command.IsOther) (hplain : command.isPlain = true)
    (hlocal : scope.inside = true → Localized scope.known mentions [command]) :
    Does True scope mentions (emit command) fun _ => True where
  enters s a s' hrun := by
    obtain rfl : { s with lines := s.lines.push ⟨s.depth, command⟩ } = s' :=
      (Prod.mk.inj hrun).2
    refine ⟨fun _ => ⟨⟨[command], Array.toList_push, ?_, hlocal⟩, rfl, rfl, rfl,
      rfl⟩, trivial⟩
    exact List.forall_mem_singleton.mpr ⟨h, hplain⟩
  succeeds _ _ := ⟨(), _, rfl⟩

theorem emit_straight (h : command.IsOther) (hplain : command.isPlain = true)
    (hlocal : scope.inside = true → ∀ name ∈ command.assigned,
      name ∈ command.declared ++ scope.known ∨ IsShared name) :
    Straight scope (emit command) fun _ => True :=
  emit_does h hplain fun hinside => .line (hlocal hinside) .nil

/-- The line declares what it sets, if that is needed. -/
theorem emit_own {isLocal : Bool} (command : Bool → Command)
    (h : (command isLocal).IsOther) (hplain : (command isLocal).isPlain = true)
    (hlocal : (command true).assigned ⊆ (command true).declared) :
    Straight ⟨isLocal, scope.known⟩ (emit (command isLocal)) fun _ => True := by
  refine emit_straight h hplain ?_
  rintro rfl name hname
  exact .inl (List.mem_append_left _ (hlocal hname))

/-- The line starts with a fixed text and sets nothing. -/
theorem emit_front (front : String) (hfront : front ∈ otherFronts)
    (htext : command.text = front ++ rest) (hplain : command.isPlain = true)
    (hassigned : command.assigned = []) :
    Straight scope (emit command) fun _ => True := by
  refine emit_straight (Command.isOther_of_fronted
    (htext ▸ fronted_append hfront rest)) hplain ?_
  rw [hassigned]
  exact fun _ _ hname => absurd hname List.not_mem_nil

theorem emit_word (hfront : command.text ∈ otherFronts)
    (hplain : command.isPlain = true) (hassigned : command.assigned = []) :
    Straight scope (emit command) fun _ => True := by
  refine emit_straight (Command.isOther_of_fronted ⟨_, hfront, List.prefix_rfl⟩)
    hplain ?_
  rw [hassigned]
  exact fun _ _ hname => absurd hname List.not_mem_nil

/-- A mention of which the lines show nothing. -/
theorem straight_skip {mention : Mention} (h : Straight scope p Q)
    (hmention : ∀ name, mention ≠ .define name) :
    Does True scope [mention] p Q where
  enters s a s' hrun := by
    obtain ⟨hstep, ha⟩ := h.enters s a s' hrun
    refine ⟨fun hinside => ?_, ha⟩
    obtain ⟨new, hlines, hplain, hlocal⟩ := (hstep hinside).lines
    exact { hstep hinside with lines :=
      ⟨new, hlines, hplain, fun h => .skip hmention (hlocal h)⟩ }
  succeeds := h.succeeds

theorem modify_straight {change : State → State}
    (h : ∀ s : State, s.Continues scope [] (change s)) :
    Straight scope (modify change : Write State Unit) fun _ => True where
  enters s a s' hrun := by
    obtain rfl : change s = s' := (Prod.mk.inj hrun).2
    exact ⟨fun _ => h s, trivial⟩
  succeeds _ _ := ⟨(), _, rfl⟩

theorem helper_straight : Straight scope helper IsHelper where
  enters s name s' hrun := by
    obtain ⟨hname, rfl⟩ := Prod.mk.inj hrun
    exact ⟨fun _ => .of_eq rfl rfl rfl rfl rfl, _, (Except.ok.inj hname).symm⟩
  succeeds _ _ := ⟨_, _, rfl⟩

/-- What follows knows whether it is inside a function. -/
theorem isLocal_bind {f : Bool → Write State α}
    (h : ∀ isLocal, Does True ⟨isLocal, scope.known⟩ mentions (f isLocal) Q) :
    Does True scope mentions (isLocal >>= f) Q where
  enters s a s' hrun := by
    obtain ⟨hstep, ha⟩ := (h s.inFunction).enters s a s' hrun
    refine ⟨fun hinside => ?_, ha⟩
    have hcontinues := hstep rfl
    rwa [hinside] at hcontinues
  succeeds hable s := (h s.inFunction).succeeds hable s

/-- The names are declared first, if that is needed. -/
theorem declared_bind {names : List String}
    (h : ∀ isLocal, Straight ⟨isLocal, names ++ scope.known⟩ p Q) :
    Straight scope (isLocal >>= fun isLocal =>
      if isLocal then emit (.declareLocal names) >>= fun _ => p else p) Q := by
  refine isLocal_bind fun isLocal => ?_
  cases isLocal with
  | false =>
      refine ⟨fun s a s' hrun => ?_, (h false).succeeds⟩
      obtain ⟨hstep, ha⟩ := (h false).enters s a s' hrun
      refine ⟨fun hinside => ?_, ha⟩
      obtain ⟨new, hlines, hplain, _⟩ := (hstep hinside).lines
      exact { hstep hinside with lines :=
        ⟨new, hlines, hplain, fun h => absurd h (by simp)⟩ }
  | true =>
      refine ⟨fun s a s' hrun => ?_, fun hable _ => (h true).succeeds hable _⟩
      obtain ⟨_, mid, hemit, hrest⟩ := Script.exec_bind_eq_ok hrun
      obtain rfl :
          { s with lines := s.lines.push ⟨s.depth, .declareLocal names⟩ } =
            mid :=
        (Prod.mk.inj hemit).2
      obtain ⟨hstep, ha⟩ := (h true).enters _ a s' hrest
      refine ⟨fun hinside => ?_, ha⟩
      obtain ⟨new, hlines, hplain, hlocal⟩ := (hstep hinside).lines
      have hother : (Command.declareLocal names).IsOther :=
        Command.isOther_of_fronted (fronted_append (by decide) _)
      exact { hstep hinside with lines :=
        ⟨.declareLocal names :: new, by simp [hlines],
        List.forall_mem_cons.mpr ⟨⟨hother, rfl⟩, hplain⟩,
        fun _ => .line (by simp) (hlocal rfl)⟩ }

/-- A helper is made and filled by one line. -/
theorem helper_filled {result : String → α} (command : String → Bool → Command)
    (hlocal : ∀ name, (command name true).assigned ⊆
      (command name true).declared)
    (hcommand : ∀ name isLocal, Fronted name → (command name isLocal).IsOther)
    (hplain : ∀ name isLocal, (command name isLocal).isPlain = true)
    (hQ : ∀ name, IsHelper name → Q (result name)) :
    Straight scope (do
      let name ← helper
      emit (command name (← isLocal))
      return result name : Write State α) Q :=
  helper_straight.after fun name hname => isLocal_bind fun isLocal =>
    (emit_own (command name) (hcommand name isLocal hname.fronted)
      (hplain name isLocal)
      (hlocal name)).after fun _ _ => .pure (hQ name hname)

theorem store_straight : Straight scope (store value) IsHelper :=
  helper_filled (fun name isLocal => .assign isLocal name value)
    (fun _ => List.Subset.refl _)
    (fun _ isLocal hname => assign_isOther hname isLocal value)
    (fun _ _ => rfl) fun _ => id

theorem isWord_of_plainName? {name : String}
    (h : plainName? fragment = some name) : isWord name.toList = true := by
  unfold plainName? at h
  split at h
  · split at h
    · next hword =>
        obtain rfl := Option.some.inj h
        rw [String.toList_ofList]
        exact (Bool.and_eq_true_iff.mp hword).2
    · cases h
  · cases h

theorem variableFor_straight :
    Straight scope (variableFor fragment)
      fun name => isWord name.toList = true := by
  unfold variableFor
  cases hname : plainName? fragment with
  | some name => exact .pure (isWord_of_plainName? hname)
  | none => exact store_straight.weaken fun _ => IsHelper.isWord

theorem fronted_variable (name : String) : Fronted (variableName name) :=
  fronted_append (by decide) name

/-- The line declares a variable and sets it. -/
theorem emit_define (h : command.IsOther) (hplain : command.isPlain = true)
    (hassigned : command.assigned = [variableName name])
    (hdeclared : scope.inside = true → command.declared = [variableName name]) :
    Does True scope [.define name] (emit command) fun _ => True := by
  refine emit_does h hplain fun hinside => .line
    (fun other hother => ?_) (.define ?_ .nil)
  · rw [hassigned] at hother
    rw [hdeclared hinside]
    exact .inl (List.mem_append_left _ hother)
  · rw [hdeclared hinside]
    exact List.mem_append_left _ List.mem_cons_self

theorem defineVariable_does {value : Option String} :
    Does True scope [.define name] (defineVariable name ty value)
      fun _ => True := by
  have hfront := fronted_variable name
  refine isLocal_bind fun isLocal => .ite (fun _ => ?_) fun _ =>
    emit_define (assign_isOther hfront isLocal _) rfl rfl (by rintro rfl; rfl)
  cases value with
  | some source =>
      exact emit_define (copyList_isOther hfront isLocal source) rfl rfl
        (by rintro rfl; rfl)
  | none =>
      exact emit_define (fillList_isOther hfront isLocal []) rfl rfl
        (by rintro rfl; rfl)

theorem assignVariable_does :
    Does True scope [.assign name] (assignVariable name ty value)
      fun _ => True :=
  .ite (fun _ =>
    emit_does (copyList_isOther (fronted_variable name) false value) rfl
      fun _ => .assign rfl .nil) fun _ =>
    emit_does (assign_isOther (fronted_variable name) false value) rfl
      fun _ => .assign rfl .nil

theorem storeElement_does {element : ValueType} :
    Does True scope [.assign name] (storeElement name element index value)
      fun _ => True :=
  .after (Q := fun _ => True) (modify_straight
    fun _ => .of_eq rfl rfl rfl rfl rfl) fun _ _ =>
    emit_does (Command.isOther_of_fronted
      ((fronted_append (by decide) _).append _)) rfl fun _ => .assign rfl .nil

theorem bindParameters_does {params : List Binding} {scalars : Nat} :
    Does True scope (params.map fun param => .define param.name)
      (bindParameters place scalars params) fun _ => True := by
  induction params generalizing place scalars with
  | nil => exact .pure trivial
  | cons param params ih =>
      have hfront := fronted_variable param.name
      exact .ite
        (fun _ => (emit_define (copyList_isOther hfront true _) rfl rfl
          fun _ => rfl).bind fun _ _ => ih)
        fun _ => (emit_define (assign_isOther hfront true _) rfl rfl
          fun _ => rfl).bind fun _ _ => ih

theorem setResults_straight :
    Straight scope (setResults place values) fun _ => True := by
  induction values generalizing place with
  | nil => exact .pure trivial
  | cons value values ih =>
      refine .ite
        (fun _ => (emit_straight ?_ rfl fun _ => ?_).after fun _ _ => ih)
          fun _ => (emit_straight ?_ rfl fun _ => ?_).after fun _ _ => ih
      · exact copyList_isOther (fronted_append (by decide) _) false value.1
      · exact List.forall_mem_singleton.mpr (.inr (.listResult place))
      · exact assign_isOther (fronted_append (by decide) _) false value.1
      · exact List.forall_mem_singleton.mpr (.inr (.result place))

theorem giveBack_straight : Straight scope (giveBack values) fun _ => True :=
  setResults_straight.after fun _ _ => emit_word (by decide) rfl rfl

theorem unary_straight {op : UnaryOp} {operand : String} {Q : String → Prop}
    (hneg : Q (arithmetic ("-" ++ parenthesized operand)))
    (hnot : Q (arithmetic ("!" ++ parenthesized operand))) :
    Does (ty = op.operand) scope [] (unary op operand ty) Q := by
  unfold unary
  split
  · exact .pure hneg
  · exact .pure hnot
  · next hother hother' =>
      refine .throw ?_
      rintro rfl
      cases op with
      | neg => exact hother rfl rfl
      | not => exact hother' rfl rfl

theorem binary_straight {op : BinaryOp} {left right : String}
    {Q : String → Prop}
    (hint : ty = .int → Q (arithmeticOperation left op.symbol right))
    (hstring : ty = .string → Q (left ++ right)) :
    Does (op.DefinedOn ty) scope [] (binary op left right ty) Q := by
  unfold binary
  split
  · exact .pure (hint rfl)
  · exact .pure (hstring rfl)
  · next hother hother' =>
      refine .throw ?_
      rintro (rfl | ⟨rfl, rfl⟩)
      · exact hother rfl
      · exact hother' rfl rfl

theorem compare_straight {op : CompareOp} {left right : String}
    {Q : String → Prop}
    (hnumber : ty = .int ∨ ty = .bool → Q (arithmeticOperation left op.symbol
      right))
    (hequal : ty = .string → Q (testResult (inQuotes left ++ " = " ++ inQuotes
      right)))
    (hunequal : ty = .string → Q (testResult (inQuotes left ++ " != " ++
      inQuotes right))) :
    Does (op.DefinedOn ty) scope [] (compare op left right ty) Q := by
  unfold compare
  split
  · exact .pure (hnumber (.inl rfl))
  · exact .pure (hnumber (.inr rfl))
  · exact .pure (hnumber (.inr rfl))
  · exact .pure (hequal rfl)
  · exact .pure (hunequal rfl)
  · next hint heqBool hneBool heqString hneString =>
      refine .throw ?_
      rintro ⟨hscalar, hordering⟩
      obtain ⟨base, isList⟩ := ty
      cases isList with
      | true => cases hscalar
      | false =>
          cases base with
          | int => exact hint rfl
          | unknown | void => cases hscalar
          | bool =>
              cases op with
              | eq => exact heqBool rfl rfl
              | notEq => exact hneBool rfl rfl
              | lt | le | gt | ge => cases hordering rfl
          | string =>
              cases op with
              | eq => exact heqString rfl rfl
              | notEq => exact hneString rfl rfl
              | lt | le | gt | ge => cases hordering rfl

theorem print_straight :
    Does (ty.isScalar = true) scope [] (print value ty) fun _ => True := by
  refine .ite (fun hlist => .throw fun hscalar => ?_) fun _ =>
    (emit_front "printf '%s\\n' " (by decide) rfl rfl rfl).given
  simp [ValueType.isScalar, hlist] at hscalar

theorem panic_straight {message : String} : Straight scope (panic message)
    fun _ => True :=
  (emit_front "printf 'panic: %s\\n' " (by decide) rfl rfl rfl).after fun _ _ =>
    emit_word (by decide) rfl rfl

theorem writeFile_straight {content : String} {append : Bool} :
    Straight scope (emit (.writeFile content append path)) fun _ => True :=
  emit_straight (Command.isOther_of_fronted
    (((fronted_append (by decide) (inQuotes content)).append _).append
      (inQuotes path))) rfl
    (by simp)

theorem nothing_straight : Straight scope (emit .nothing) fun _ => True :=
  emit_word (by decide) rfl rfl

theorem readVariable_unflagged :
    Unflagged (if ty.isList then variableName name
      else expand (variableName name)) := by
  by_cases hlist : ty.isList = true
  · rw [if_pos hlist]
    exact unflagged_append "v_" (by decide)
  · rw [if_neg hlist]
    exact unflagged_expand "v_" (by decide)

theorem readElement_straight :
    Straight scope (readElement list index) Unflagged := by
  refine .pure ?_
  rw [String.append_assoc]
  exact unflagged_separated (c := '[') (by decide) list (index ++ "]")

theorem listLength_straight : Straight scope (listLength list) Unflagged := by
  refine .pure ?_
  rw [String.append_assoc]
  exact unflagged_expand "#" (by decide)

theorem listLiteral_straight {values : List String} :
    Straight scope (listLiteral values used) fun name =>
      Unflagged name ∧ (used = true → isWord name.toList = true) :=
  .ite (fun hunused => .pure ⟨unflagged_empty,
    fun hused => by simp [hused] at hunused⟩) fun _ =>
    helper_filled (fun name isLocal => .fillList isLocal name values)
      (fun _ => List.Subset.refl _)
      (fun _ isLocal hname => fillList_isOther hname isLocal values)
        (fun _ _ => rfl)
      fun _ hname => ⟨hname.unflagged, fun _ => hname.isWord⟩

theorem copyList_straight :
    Straight scope (copyList list used) fun name =>
      Unflagged name ∧ (used = true → isWord name.toList = true) :=
  .ite (fun hunused => .pure ⟨unflagged_empty,
    fun hused => by simp [hused] at hunused⟩) fun _ =>
    helper_filled (fun name isLocal => .copyList isLocal name list)
      (fun _ => List.Subset.refl _)
      (fun _ isLocal hname => copyList_isOther hname isLocal list)
        (fun _ _ => rfl)
      fun _ hname => ⟨hname.unflagged, fun _ => hname.isWord⟩

theorem substring_straight {start : String} {stop : Option String} :
    Straight scope (substring value start stop used) Unflagged := by
  refine .ite (fun _ => .pure unflagged_empty)
    fun _ => variableFor_straight.after fun name _ => .pure ?_
  have hseparated := unflagged_separated (c := ':') (by decide) name
  simp only [String.append_assoc] at hseparated ⊢
  exact hseparated _

theorem stringLength_straight :
    Straight scope (stringLength value used) Unflagged :=
  .ite (fun _ => .pure unflagged_empty) fun _ => variableFor_straight.after
    fun _ _ => .pure (unflagged_expand "#" (by decide))

theorem passLists_straight :
    Straight scope (passLists place args) fun _ => True := by
  induction args generalizing place with
  | nil => exact .pure trivial
  | cons arg args ih =>
      refine .ite
        (fun _ => (emit_straight ?_ rfl fun _ => ?_).after fun _ _ => ih)
          fun _ => ih.after fun _ _ => .pure trivial
      · exact copyList_isOther (fronted_append (by decide) _) false arg.1
      · exact List.forall_mem_singleton.mpr (.inr (.argument place))

/-- What a call yields: the helper of a list or the value of one. -/
def IsResult (text : String) (ty : ValueType) : Prop :=
  ∃ name, IsHelper name ∧ text = if ty.isList then name else expand name

theorem unflagged_of_results {results : List String}
    (h : List.Forall₂ IsResult results returns) :
    ∀ part ∈ results, Unflagged part := by
  induction h with
  | nil => simp
  | cons hresult _ ih =>
      refine List.forall_mem_cons.mpr ⟨?_, ih⟩
      obtain ⟨name, hname, rfl⟩ := hresult
      split
      · exact hname.unflagged
      · exact hname.expand_unflagged

theorem fetchResults_straight :
    Straight scope (fetchResults place returns) fun results =>
      List.Forall₂ IsResult results returns := by
  induction returns generalizing place scope with
  | nil => exact .pure .nil
  | cons ty returns ih =>
      refine helper_straight.after fun name hname => .ite (fun hlist => ?_)
        fun hlist => ?_
      · exact isLocal_bind fun isLocal =>
          (emit_own (.copyList · name _)
            (copyList_isOther hname.fronted isLocal _) rfl
            (List.Subset.refl _)).after fun _ _ => ih.after fun _ hrest =>
              .pure (.cons ⟨name, hname, (if_pos hlist).symm⟩ hrest)
      · exact isLocal_bind fun isLocal =>
          (emit_own (.assign · name _)
            (assign_isOther hname.fronted isLocal _) rfl
            (List.Subset.refl _)).after fun _ _ => ih.after fun _ hrest =>
              .pure (.cons ⟨name, hname, (if_neg hlist).symm⟩ hrest)

theorem callFunction_straight :
    Straight scope (callFunction name args returns used) fun results =>
      List.Forall₂ IsResult results (if used then returns else []) := by
  refine passLists_straight.after fun _ _ =>
    (emit_front "__sb_fn_" (by decide) String.append_assoc rfl rfl).after
      fun _ _ => .ite (fun hused => ?_) fun hunused => ?_
  · exact fetchResults_straight.weaken fun _ hresults => by rwa [if_pos hused]
  · exact .pure (by rw [if_neg hunused]; exact .nil)

/-- The part of a captured pipeline that follows the choice of its helpers. -/
def captureInto (line output errors : String) (code : Option String) :
    Write State (List String) := do
  if ← isLocal then
    emit (.declareLocal ([output, errors] ++ code.toList))
  emit (.assign false output
    (substitution ("( " ++ line ++ " ) 2>" ++ inQuotes capturedErrors)))
  if let some code := code then
    emit (.setWord false code "$?")
  emit (.assign false errors (catOf capturedErrors))
  return ([output, errors] ++ code.toList).map expand

theorem captureInto_straight {output errors : String} {code : Option String}
    (hnames : ∀ name ∈ [output, errors] ++ code.toList, IsHelper name) :
    Straight scope (captureInto line output errors code)
      (HelperValues ([output, errors] ++ code.toList).length) := by
  have houtput : IsHelper output := hnames output (by simp)
  have herrors : IsHelper errors := hnames errors (by simp)
  refine declared_bind fun isLocal => ?_
  have hlocal : ∀ name ∈ [output, errors] ++ code.toList, isLocal = true →
      ∀ other ∈ [name], other ∈ [output, errors] ++ code.toList ++ scope.known ∨
        IsShared other := by
    rintro name hname _ _ (_ | ⟨_, ⟨⟩⟩)
    exact .inl (List.mem_append_left _ hname)
  have hread : Straight ⟨isLocal, [output, errors] ++ code.toList ++
      scope.known⟩ (do
      emit (.assign false errors (catOf capturedErrors))
      return ([output, errors] ++ code.toList).map expand :
        Write State (List String))
      (HelperValues ([output, errors] ++ code.toList).length) :=
    (emit_straight (assign_isOther herrors.fronted false _) rfl
      (hlocal errors (by simp))).after fun _ _ => .pure ⟨_, rfl, hnames, rfl⟩
  refine (emit_straight (assign_isOther houtput.fronted false _) rfl
    (hlocal output (by simp))).after fun _ _ => ?_
  cases code with
  | none => exact hread
  | some code =>
      have hcode : IsHelper code := hnames code (by simp)
      exact (emit_straight (setWord_isOther hcode.fronted false _) rfl
        (hlocal code (by simp))).after fun _ _ => hread

theorem captureAll_straight {wantsCode : Bool} :
    Straight scope (captureAll line wantsCode)
      (HelperValues (if wantsCode then 3 else 2)) := by
  refine .after (Q := fun _ => True)
    (modify_straight fun _ => .of_eq rfl rfl rfl rfl rfl) fun _ _ => ?_
  refine helper_straight.after fun output houtput => helper_straight.after
    fun errors herrors => .ite (fun hcode => ?_) fun hcode => ?_
  · rw [map_eq_pure_bind, bind_assoc, if_pos hcode]
    refine helper_straight.after fun code hname => ?_
    rw [pure_bind]
    exact captureInto_straight (by simp [houtput, herrors, hname])
  · rw [if_neg hcode, pure_bind]
    exact captureInto_straight (by simp [houtput, herrors])

/-- A pipeline without a stage is an empty line. -/
theorem run_isOther (stages : List Invocation) :
    (Command.run (commandLine stages)).IsOther := by
  cases stages with
  | nil =>
      have hhead : (Command.run "").text.toList.head? ≠ some ' ' := nofun
      exact readClause_line hhead
  | cons stage stages =>
      have hstage : Fronted ("command " ++ inQuotes (escape stage.program) ++
          quotedArguments stage.args) :=
        (fronted_append (by decide) _).append _
      have hline : Fronted (commandLine (stage :: stages)) := by
        rw [commandLine, List.map_cons]
        cases stages.map fun stage =>
            "command " ++ inQuotes (escape stage.program) ++
              quotedArguments stage.args with
        | nil =>
            rw [String.intercalate_singleton]
            exact hstage
        | cons next rest =>
            rw [String.intercalate_cons_cons]
            exact (hstage.append _).append _
      exact Command.isOther_of_fronted hline

/-- A pipeline has three results to offer. -/
theorem runProcess_straight {stages : List Invocation} {count : Nat} :
    Straight scope (runProcess stages count) (HelperValues (min count 3)) := by
  unfold runProcess
  split
  · exact (emit_straight (run_isOther stages) rfl (by simp)).after fun _ _ =>
      .pure ⟨[], rfl, by simp, rfl⟩
  · exact helper_filled (fun name isLocal => .assign isLocal name _)
      (fun _ => List.Subset.refl _)
      (fun _ isLocal hname => assign_isOther hname isLocal _) (fun _ _ => rfl)
        fun name hname => ⟨[name], rfl, by simpa using hname, rfl⟩
  · next hzero hone =>
      have hmany : 2 ≤ count := Nat.two_le_iff count |>.mpr ⟨hzero, hone⟩
      have hcount : (if decide (count > 2) = true then 3 else 2) =
          min count 3 := by
        simp only [decide_eq_true_eq]
        split <;> omega
      rw [← hcount]
      exact captureAll_straight

theorem inputLine_straight {prompt : Option String} :
    Straight scope (inputLine prompt used) fun text =>
      Unflagged text ∧ (used = true → HelperValues 1 [text]) := by
  have hread : ∀ name, (Command.readLine name).IsOther := fun name =>
    Command.isOther_of_fronted (fronted_append (by decide) name)
  have hline : Straight scope (inputLine none used) fun text =>
      Unflagged text ∧ (used = true → HelperValues 1 [text]) := by
    refine .ite (fun hunused => ?_) fun _ => helper_straight.after
      fun name hname => ?_
    · exact (emit_straight (hread "_") rfl (by simp [IsShared.unused])).after
        fun _ _ =>
        .pure ⟨unflagged_empty, fun hused => by simp [hused] at hunused⟩
    · exact declared_bind
        fun _ => (emit_straight (hread name) rfl (by simp)).after fun _ _ =>
        .pure ⟨hname.expand_unflagged,
          fun _ => ⟨[name], rfl, by simpa using hname, rfl⟩⟩
  cases prompt with
  | none => exact hline
  | some prompt =>
      exact (emit_front "printf '%s' " (by decide) rfl rfl rfl).after
        fun _ _ => hline

theorem fileContent_straight :
    Straight scope (fileContent path used) fun text =>
      Unflagged text ∧ (used = true → HelperValues 1 [text]) :=
  .ite (fun hunused =>
    (emit_front "cat " (by decide) String.append_assoc rfl rfl).after fun _ _ =>
      .pure ⟨unflagged_empty, fun hused => by simp [hused] at hunused⟩) fun _ =>
    helper_filled (fun name isLocal => .assign isLocal name (catOf path))
      (fun _ => List.Subset.refl _)
      (fun _ isLocal hname => assign_isOther hname isLocal _) (fun _ _ => rfl)
        fun name hname =>
        ⟨hname.expand_unflagged,
          fun _ => ⟨[name], rfl, by simpa using hname, rfl⟩⟩

theorem stringToInt_straight :
    Straight scope (stringToInt value used) Unflagged :=
  .ite (fun _ => .pure unflagged_empty) fun _ => store_straight.after fun _ _ =>
    .pure (unflagged_arithmetic _)

/-! Trees. -/

/-- A journal that has room for such lines. -/
structure Roomy (j : Journal State) : Prop where
  fragment : j.fragment = Unflagged
  step : ∀ {mentions s s'}, (∀ scope : Scope, s.inFunction = scope.inside →
    s.Continues scope mentions s') → j.step mentions s s'

theorem Roomy.enters {able : Prop} (hj : Roomy j)
    (h : ∀ scope, Does able scope mentions p Q) : j.Enters mentions p Q :=
  fun s a s' hrun => ⟨hj.step fun scope => ((h scope).enters s a s' hrun).1,
    ((h ⟨false, []⟩).enters s a s' hrun).2⟩

theorem Roomy.actions (hj : Roomy j) : j.Actions := by
  obtain ⟨step, fragment, hrefl, htrans⟩ := j
  obtain rfl : fragment = Unflagged := hj.fragment
  exact {
    boolLiteral := .pure (unflagged_boolean _)
    intLiteral := .pure (unflagged_integer _)
    stringLiteral := .pure (unflagged_escape _)
    readVariable :=
      hj.enters fun _ => straight_skip (.pure readVariable_unflagged) (by simp)
    readElement := hj.enters fun _ => readElement_straight
    unary := hj.enters fun _ => unary_straight (unflagged_arithmetic _)
      (unflagged_arithmetic _)
    binary hleft hright := hj.enters fun _ => binary_straight
      (fun _ => unflagged_arithmetic _) fun _ => hleft.append hright
    compare := hj.enters fun _ => compare_straight
      (fun _ => unflagged_arithmetic _)
      (fun _ => unflagged_testResult _) fun _ => unflagged_testResult _
    logical := .pure (unflagged_arithmetic _)
    listLiteral := hj.enters fun _ => listLiteral_straight.weaken
      fun _ => And.left
    listLength := hj.enters fun _ => listLength_straight
    substring := hj.enters fun _ => substring_straight
    stringLength := hj.enters fun _ => stringLength_straight
    group h := .pure h
    callFunction := hj.enters fun _ => straight_skip
      (callFunction_straight.weaken fun _ => unflagged_of_results) (by simp)
    runProcess := hj.enters fun _ => straight_skip
      (runProcess_straight.weaken fun _ => HelperValues.unflagged) (by simp)
    inputLine := hj.enters fun _ => inputLine_straight.weaken fun _ => And.left
    copyList := hj.enters fun _ => copyList_straight.weaken fun _ => And.left
    fileExists := .pure (unflagged_testResult _)
    fileContent := hj.enters fun _ => fileContent_straight.weaken
      fun _ => And.left
    intToString h := .pure h
    stringToInt := hj.enters fun _ => stringToInt_straight
    nothing := unflagged_empty
    defineVariable := hj.enters fun _ => defineVariable_does
    assignVariable := hj.enters fun _ => assignVariable_does
    storeElement := hj.enters fun _ => storeElement_does
    print := hj.enters fun _ => print_straight
    writeFile := hj.enters fun _ => writeFile_straight
    noOp := hj.enters fun _ => nothing_straight }

theorem steady_actions : (steady scope).Actions :=
  Roomy.actions ⟨rfl, fun h => h scope⟩

end Operations

end Bash

end Shellwright
