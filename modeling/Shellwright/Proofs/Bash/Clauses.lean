/-
The lines of a bash script as its control flow sees them.  A line opens, divides
or closes a compound command, leaves a loop, raises or lowers the flag of one,
or does something else.  Indentation says nothing.
-/
import Mathlib
import Shellwright.Bash.Dialect

namespace Shellwright

namespace Bash

variable {fragment front : String} {command : Command} {chars : List Char}

/-- What a condition looks at. -/
inductive Check where
  | flag (name : String)
  | fragment (text : String)
deriving DecidableEq, Repr

inductive Clause where
  | ifTrue (check : Check)
  | elseIfTrue (check : Check)
  | otherwise
  | endIf
  | whileTrue
  | endWhile
  | leaveUnless (check : Check)
  | leaveLoop
  | nextRound
  | set (flag : String) (raised : Bool)
  | other (text : String)
deriving DecidableEq, Repr

theorem toList_numbered (text : String) (number : Nat) :
    (text ++ toString number).toList = text.toList ++
      Nat.toDigits 10 number := by
  rw [String.toList_append, Nat.toString_eq_repr, Nat.toList_repr]

theorem isDigit_of_mem_digits {number : Nat} :
    ∀ c ∈ Nat.toDigits 10 number, c.isDigit = true :=
  fun _ => Nat.isDigit_of_mem_toDigits (by decide) (by decide)

/-- The flag of a loop. -/
def flagName (number : Nat) : String := "__sb_loop" ++ toString number

/-- What stands between a front and a back. -/
def between? (front back chars : List Char) : Option (List Char) :=
  (front.isPrefixOf? chars).bind back.isSuffixOf?

theorem between?_eq_some_iff {front back inner : List Char} :
    between? front back chars = some inner ↔
      chars = front ++ (inner ++ back) := by
  simp only [between?, Option.bind_eq_some_iff,
    List.isPrefixOf?_eq_some_iff_append_eq,
    List.isSuffixOf?_eq_some_iff_append_eq]
  constructor
  · rintro ⟨rest, rfl, rfl⟩
    rfl
  · rintro rfl
    exact ⟨inner ++ back, rfl, rfl⟩

/-- The flag with the given number. -/
def flagOf? (digits : List Char) : Option String :=
  if digits.all Char.isDigit then some ("__sb_loop" ++ String.ofList digits)
  else none

def readCheck (fragment : List Char) : Check :=
  match (between? "$\x7b__sb_loop".toList "\x7d".toList fragment).bind
    flagOf? with
  | some flag => .flag flag
  | none => .fragment (String.ofList fragment)

/-- Lines between a front and a back, and what is seen in one of them. -/
structure Form where
  front : String
  back : String
  clause : List Char → Option Clause

namespace Form

/-- A line that is always the same. -/
def word (text : String) (clause : Clause) : Form :=
  ⟨text, "", fun inner => if inner.isEmpty then some clause else none⟩

/-- An assignment to a flag. -/
def setting (value : String) (raised : Bool) : Form :=
  ⟨"__sb_loop", "=" ++ value, fun digits => (flagOf? digits).map
    fun flag => .set flag raised⟩

def read (form : Form) (chars : List Char) : Option Clause :=
  (between? form.front.toList form.back.toList chars).bind form.clause

end Form

def forms : List Form :=
  [.word "else" .otherwise, .word "fi" .endIf,
    .word "while true; do" .whileTrue, .word "done" .endWhile,
    .word "break" .leaveLoop, .word "continue" .nextRound,
    ⟨"if [ \"", "\" = 1 ]; then",
      fun fragment => some (.ifTrue (readCheck fragment))⟩,
    ⟨"elif [ \"", "\" = 1 ]; then",
      fun fragment => some (.elseIfTrue (readCheck fragment))⟩,
    ⟨"if [ \"", "\" != 1 ]; then break; fi",
      fun fragment => some (.leaveUnless (readCheck fragment))⟩,
    .setting "1" true, .setting "0" false]

def clause? (chars : List Char) : Option Clause :=
  forms.findSome? fun form => form.read chars

def readClause (text : String) : Clause :=
  (clause? (text.toList.dropWhile fun c => c == ' ')).getD (.other text)

/-! Lines that mean something to control flow. -/

variable {form : Form}

theorem Form.front_prefix {clause : Clause}
    (h : form.read chars = some clause) : form.front.toList <+: chars := by
  obtain ⟨inner, hinner, _⟩ := Option.bind_eq_some_iff.mp h
  rw [between?_eq_some_iff.mp hinner]
  exact List.prefix_append _ _

theorem front_prefix_of_clause? {clause : Clause}
    (h : clause? chars = some clause) :
    ∃ form ∈ forms, form.front.toList <+: chars := by
  obtain ⟨form, hform, hread⟩ := List.exists_of_findSome?_eq_some h
  exact ⟨form, hform, form.front_prefix hread⟩

theorem dropWhile_indented (h : chars.head? ≠ some ' ') (depth : Nat) :
    (List.replicate depth ' ' ++ chars).dropWhile
    (fun c => c == ' ') = chars := by
  rw [List.dropWhile_append_of_pos (by simp)]
  cases chars with
  | nil => rfl
  | cons c rest =>
      have hc : (c == ' ') = false := by simpa using h
      rw [List.dropWhile_cons_of_neg (by simp [hc])]

theorem readClause_line (h : command.text.toList.head? ≠ some ' ')
    (depth : Nat) :
    readClause (Line.text ⟨depth, command⟩) =
      (clause? command.text.toList).getD
        (.other (Line.text ⟨depth, command⟩)) := by
  have htext : (Line.text ⟨depth, command⟩).toList =
      List.replicate (2 * depth) ' ' ++ command.text.toList := by
    simp [Line.text]
  rw [readClause, htext, dropWhile_indented h]

/-- A command that is seen is seen at every depth. -/
theorem readClause_of_clause? {clause : Clause}
    (h : clause? command.text.toList = some clause) (depth : Nat) :
    readClause (Line.text ⟨depth, command⟩) = clause := by
  obtain ⟨form, hform, hfront⟩ := front_prefix_of_clause? h
  have hhead : command.text.toList.head? ≠ some ' ' := by
    obtain ⟨rest, hrest⟩ := hfront
    have hstarts : ∀ form ∈ forms, form.front.toList.head?.isSome ∧
        form.front.toList.head? ≠ some ' ' := by
      decide
    obtain ⟨hsome, hne⟩ := hstarts form hform
    rw [← hrest, List.head?_append_of_ne_nil _ (by simpa using hsome)]
    exact hne
  rw [readClause_line hhead, h, Option.getD_some]

/-- What the form reads has another front, or ends with another character. -/
def Form.Misses (form : Form) (front back : String) : Prop :=
  (¬form.front.toList <+: front.toList ∧ ¬front.toList <+: form.front.toList) ∨
    (back.toList ≠ [] ∧ form.back.toList ≠ [] ∧
      back.toList.getLast? ≠ form.back.toList.getLast?)

instance (form : Form) (front back : String) :
    Decidable (form.Misses front back) :=
  inferInstanceAs (Decidable (_ ∨ _))

theorem Form.Misses.read_eq_none {back : String} (h : form.Misses front back)
    (inner : List Char) :
    form.read (front.toList ++ (inner ++ back.toList)) = none := by
  by_contra hread
  obtain ⟨clause, hclause⟩ := Option.ne_none_iff_exists'.mp hread
  rcases h with ⟨hfront, hother⟩ | ⟨hback, hform, hlast⟩
  · rcases List.prefix_or_prefix_of_prefix (form.front_prefix hclause)
      (List.prefix_append _ _) with hsame | hsame
    · exact hfront hsame
    · exact hother hsame
  · obtain ⟨between, hbetween, _⟩ := Option.bind_eq_some_iff.mp hclause
    have hsame := congrArg List.getLast? (between?_eq_some_iff.mp hbetween)
    rw [List.getLast?_append_of_ne_nil _ (by simp [hback]),
      List.getLast?_append_of_ne_nil _ hback,
      List.getLast?_append_of_ne_nil _ (by simp [hform]),
      List.getLast?_append_of_ne_nil _ hform] at hsame
    exact hlast hsame

/-- The forms before it miss what a form reads. -/
theorem clause?_of_form (place : Nat) {form : Form}
    (hform : forms[place]? = some form)
    (hmisses : ∀ other ∈ forms.take place, other.Misses form.front form.back)
    {inner : List Char} {clause : Clause}
    (hclause : form.clause inner = some clause) :
    clause? (form.front.toList ++ (inner ++ form.back.toList)) =
      some clause := by
  obtain ⟨hplace, hget⟩ := List.getElem?_eq_some_iff.mp hform
  have hread : form.read (form.front.toList ++ (inner ++ form.back.toList)) =
      some clause := by
    rw [Form.read, between?_eq_some_iff.mpr rfl]
    exact hclause
  rw [clause?, ← List.take_append_drop place forms, List.findSome?_append,
    List.findSome?_eq_none_iff.mpr fun other hother =>
      (hmisses other hother).read_eq_none inner,
    Option.none_or, List.drop_eq_getElem_cons hplace, hget,
    List.findSome?_cons_of_isSome (by rw [hread]; rfl), hread]

theorem toList_condition (front condition back : String) :
    (front ++ inQuotes condition ++ back).toList =
      (front ++ "\"").toList ++
        (condition.toList ++ ("\"" ++ back).toList) := by
  simp only [inQuotes, String.toList_append, List.append_assoc]

theorem clause?_ifTrue (condition : String) :
    clause? (Command.ifTrue condition).text.toList =
      some (.ifTrue (readCheck condition.toList)) :=
  (congrArg clause? (toList_condition "if [ " condition " = 1 ]; then")).trans
    (clause?_of_form 6 rfl (by decide) rfl)

theorem clause?_elseIfTrue (condition : String) :
    clause? (Command.elseIfTrue condition).text.toList =
      some (.elseIfTrue (readCheck condition.toList)) :=
  (congrArg clause? (toList_condition "elif [ " condition " = 1 ]; then")).trans
    (clause?_of_form 7 rfl (by decide) rfl)

theorem clause?_leaveUnless (condition : String) :
    clause? (Command.leaveUnless condition).text.toList =
      some (.leaveUnless (readCheck condition.toList)) :=
  (congrArg clause? (toList_condition "if [ " condition
    " != 1 ]; then break; fi")).trans (clause?_of_form 8 rfl (by decide) rfl)

theorem flagOf?_digits (number : Nat) :
    flagOf? (Nat.toDigits 10 number) = some (flagName number) := by
  rw [flagOf?, if_pos (List.all_eq_true.mpr isDigit_of_mem_digits), flagName,
    Nat.toString_eq_repr, Nat.repr]

theorem toList_setFlag (number : Nat) (word : String) :
    (Command.setWord false (flagName number) word).text.toList =
      "__sb_loop".toList ++
        (Nat.toDigits 10 number ++ ("=" ++ word).toList) := by
  have htext : (Command.setWord false (flagName number) word).text =
      "" ++ flagName number ++ "=" ++ word := rfl
  rw [htext, String.empty_append, String.append_assoc, String.toList_append,
    flagName, toList_numbered, List.append_assoc]

theorem clause?_setFlag (number : Nat) (raised : Bool) :
    clause? (Command.setWord false (flagName number)
      (if raised then "1" else "0")).text.toList =
      some (.set (flagName number) raised) := by
  rw [toList_setFlag]
  cases raised with
  | true =>
      exact clause?_of_form 9 rfl (by decide)
        (congrArg (Option.map fun flag => Clause.set flag true)
          (flagOf?_digits number))
  | false =>
      exact clause?_of_form 10 rfl (by decide)
        (congrArg (Option.map fun flag => Clause.set flag false)
          (flagOf?_digits number))

theorem readCheck_flag (number : Nat) :
    readCheck (expand (flagName number)).toList = .flag (flagName number) := by
  have htext : (expand (flagName number)).toList =
      "$\x7b__sb_loop".toList ++ (Nat.toDigits 10 number ++ "\x7d".toList) := by
    rw [expand, String.toList_append, String.toList_append, flagName,
      toList_numbered]
    rfl
  rw [readCheck, between?_eq_some_iff.mpr htext, Option.bind_some,
    flagOf?_digits]

/-! Lines that mean nothing to it. -/

/-- How such a line starts. -/
def otherFronts : List String :=
  ["v_", "__sb_h", "__sb_arg_", "__sb_ret_", "__sb_retl_", "__sb_fn_",
    "__sb_list_set ", "printf '%s\\n' ", "printf '%s' ",
    "printf 'panic: %s\\n' ", "command ", "IFS= read -r ", "cat ", ":",
    "local ", "return 0", "exit 1"]

def Fronted (text : String) : Prop := ∃ front ∈ otherFronts, front.toList <+:
    text.toList

theorem fronted_append (h : front ∈ otherFronts) (rest : String) :
    Fronted (front ++ rest) :=
  ⟨front, h, by rw [String.toList_append]; exact List.prefix_append _ _⟩

theorem Fronted.append {text : String} (h : Fronted text) (rest : String) :
    Fronted (text ++ rest) := by
  obtain ⟨front, hfront, hbegins⟩ := h
  refine ⟨front, hfront, hbegins.trans ?_⟩
  rw [String.toList_append]
  exact List.prefix_append _ _

/-- Control flow does not see the command. -/
def Command.IsOther (command : Command) : Prop :=
  ∀ depth, readClause (Line.text ⟨depth, command⟩) =
    .other (Line.text ⟨depth, command⟩)

theorem Command.isOther_of_fronted (h : Fronted command.text) :
    command.IsOther := by
  obtain ⟨front, hfront, rest, hrest⟩ := h
  have hfronts : ∀ front ∈ otherFronts,
    (front.toList ≠ [] ∧ front.toList.head? ≠ some ' ') ∧
      ∀ form ∈ forms, form.Misses front "" := by
    decide
  obtain ⟨⟨hne, hhead⟩, hmisses⟩ := hfronts front hfront
  have hnone : clause? command.text.toList = none := by
    rw [← hrest]
    refine List.findSome?_eq_none_iff.mpr fun form hform => ?_
    have hread := (hmisses form hform).read_eq_none rest
    rwa [String.toList_empty, List.append_nil] at hread
  intro depth
  rw [readClause_line _ depth, hnone, Option.getD_none]
  rw [← hrest, List.head?_append_of_ne_nil _ hne]
  exact hhead

/-! What is set is none of the flags. -/

section Assignments

variable {name : String} (hname : Fronted name) (isLocal : Bool)

include hname

theorem fronted_local : Fronted (localWord isLocal ++ name) := by
  cases isLocal with
  | true => exact fronted_append (by decide) name
  | false =>
      have hempty : localWord false ++ name = name := String.empty_append
      rw [hempty]
      exact hname

theorem fronted_localArray : Fronted (localArrayWord isLocal ++ name) := by
  cases isLocal with
  | true =>
      have hsplit : localArrayWord true = "local " ++ "-a " := rfl
      rw [hsplit]
      exact (fronted_append (by decide) "-a ").append name
  | false =>
      have hempty : localArrayWord false ++ name = name := String.empty_append
      rw [hempty]
      exact hname

theorem assign_isOther (value : String) :
    (Command.assign isLocal name value).IsOther :=
  Command.isOther_of_fronted
    (((fronted_local hname isLocal).append "=").append _)

theorem setWord_isOther (word : String) :
    (Command.setWord isLocal name word).IsOther :=
  Command.isOther_of_fronted
    (((fronted_local hname isLocal).append "=").append word)

theorem copyList_isOther (source : String) :
    (Command.copyList isLocal name source).IsOther :=
  Command.isOther_of_fronted
    ((((fronted_localArray hname isLocal).append "=( ").append _).append " )")

theorem fillList_isOther (items : List String) :
    (Command.fillList isLocal name items).IsOther := by
  apply Command.isOther_of_fronted
  cases items with
  | nil => exact (fronted_localArray hname isLocal).append "=()"
  | cons item items =>
      exact (((fronted_localArray hname isLocal).append "=( ").append _).append
        " )"

end Assignments

/-! Fragments that are no flags. -/

/-- A test of a flag, as it stands between the quotes. -/
def flagTest (digits : List Char) : List Char :=
  "$\x7b__sb_loop".toList ++ (digits ++ "\x7d".toList)

/-- No test of a flag begins like the fragment, unless there is nothing of it.
So fragments can be joined. -/
def Unflagged (fragment : String) : Prop :=
  ∀ ⦃digits⦄, digits.all Char.isDigit = true →
    fragment.toList <+: flagTest digits → fragment.toList = []

theorem Unflagged.readCheck (h : Unflagged fragment) :
    readCheck fragment.toList = .fragment fragment := by
  have hnone :
    (between? "$\x7b__sb_loop".toList "\x7d".toList fragment.toList).bind
      flagOf? = none := by
    by_contra hflag
    obtain ⟨flag, hsome⟩ := Option.ne_none_iff_exists'.mp hflag
    obtain ⟨digits, hdigits, hall⟩ := Option.bind_eq_some_iff.mp hsome
    have htext := between?_eq_some_iff.mp hdigits
    have hdigit : digits.all Char.isDigit = true := by
      by_contra hother
      rw [flagOf?, if_neg hother] at hall
      cases hall
    have hempty := h hdigit (htext ▸ List.prefix_rfl)
    rw [hempty] at htext
    cases htext
  rw [Bash.readCheck, hnone, String.ofList_toList]

theorem unflagged_empty : Unflagged "" := fun _ _ _ => rfl

theorem Unflagged.append {first second : String} (hfirst : Unflagged first)
    (hsecond : Unflagged second) : Unflagged (first ++ second) := by
  intro digits hdigits hbegins
  rw [String.toList_append] at hbegins ⊢
  have hempty := hfirst hdigits ((List.prefix_append _ _).trans hbegins)
  rw [hempty, List.nil_append] at hbegins ⊢
  exact hsecond hdigits hbegins

/-- The first characters tell. -/
theorem unflagged_of_front (front : String)
    (hfront : ¬front.toList <+: "$\x7b__sb_loop".toList ∧
      ¬"$\x7b__sb_loop".toList <+: front.toList)
    (h : front.toList <+: fragment.toList) : Unflagged fragment := by
  intro digits _ hbegins
  rcases List.prefix_or_prefix_of_prefix (h.trans hbegins)
    (List.prefix_append _ _) with hsame | hsame
  · exact absurd hsame hfront.1
  · exact absurd hsame hfront.2

/-- A flag is a word. -/
theorem unflagged_of_mem {c : Char} (hc : c ∈ fragment.toList)
    (hword : c ∉ "$\x7b__sb_loop\x7d".toList ∧ c.isDigit = false) :
    Unflagged fragment := by
  intro digits hdigits hbegins
  have hsplit : "$\x7b__sb_loop\x7d".toList =
    "$\x7b__sb_loop".toList ++ "\x7d".toList := by decide
  rw [hsplit] at hword
  rcases List.mem_append.mp (hbegins.subset hc) with hmem | hmem
  · exact absurd (List.mem_append_left _ hmem) hword.1
  rcases List.mem_append.mp hmem with hmem | hmem
  · have hdigit := List.all_eq_true.mp hdigits c hmem
    exact absurd (hdigit.symm.trans hword.2) (by decide)
  · exact absurd (List.mem_append_right _ hmem) hword.1

end Bash

end Shellwright
