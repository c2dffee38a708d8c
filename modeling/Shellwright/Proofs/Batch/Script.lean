/-
The lines of a whole batch script: the header, the program and the subroutines,
indented.  Indentation does not change what a line says.
-/
import Shellwright.Proofs.Batch.Reading
import Shellwright.Proofs.Batch.Sound

namespace Shellwright

/-! Blanks in front. -/

theorem dropLeadingBlanks_of_head {text : String}
    (h : ∀ c ∈ text.toList.head?, isBlank c = false) :
    dropLeadingBlanks text = text := by
  unfold dropLeadingBlanks
  have hsame : text.toList.dropWhile isBlank = text.toList := by
    cases htext : text.toList with
    | nil => rfl
    | cons c rest =>
        have hblank : isBlank c = false := h c (by simp [htext])
        rw [List.dropWhile_cons_of_neg (by simp [hblank])]
  rw [hsame, String.ofList_toList]

@[simp] theorem dropLeadingBlanks_idem (text : String) :
    dropLeadingBlanks (dropLeadingBlanks text) = dropLeadingBlanks text := by
  unfold dropLeadingBlanks
  rw [String.toList_ofList, List.dropWhile_idempotent]

theorem dropLeadingBlanks_spaces (count : Nat) (text : String) :
    dropLeadingBlanks (String.ofList (List.replicate count ' ') ++ text) =
      dropLeadingBlanks text := by
  have hblank : ∀ c ∈ List.replicate count ' ', isBlank c = true := by
    intro c hc
    rw [List.eq_of_mem_replicate hc]
    rfl
  unfold dropLeadingBlanks
  rw [String.toList_append, String.toList_ofList,
    List.dropWhile_append_of_pos hblank]

namespace Batch

variable {condition : Bool} {needs : Needs} {command : Command}
  {routine : List Command}

/-- Indenting lines changes the blanks in front of them only. -/
theorem indentFrom_dropLeadingBlanks (width depth : Nat) (lines : List String) :
    (indentFrom width depth lines).map dropLeadingBlanks =
      lines.map dropLeadingBlanks := by
  induction lines generalizing depth with
  | nil => rfl
  | cons line lines ih =>
      unfold indentFrom
      dsimp only
      by_cases hblank : dropLeadingBlanks line = ""
      · rw [if_pos hblank, List.map_cons, List.map_cons, ih, hblank]
        rfl
      · rw [if_neg hblank, List.map_cons, List.map_cons, ih,
          dropLeadingBlanks_spaces, dropLeadingBlanks_idem]

/-! What a line of a script says. -/

/-- The subroutine called by a line `call :label arguments`. -/
def calledLabel? (text : String) : Option String :=
  ("call :".toList.isPrefixOf? text.toList).map fun rest =>
    String.ofList (rest.takeWhile (· != ' '))

/-- The label a line of a script is. -/
def definedLabel? (line : String) : Option String :=
  (readLine (dropLeadingBlanks line)).label?

/-- The label a line of a script goes to, by a jump or a call. -/
def namedLabel? (line : String) : Option String :=
  (readLine (dropLeadingBlanks line)).target?.or
    (calledLabel? (dropLeadingBlanks line))

/-- The label a command goes to. -/
def Command.named? : Command → Option String
  | .flow (.jump target) | .flow (.jumpUnless _ target) => some target
  | .call label _ => some label
  | .comeBack => some ":eof"
  | _ => none

/-- A command that can be told from the text of its line. -/
def Command.isRegular : Command → Bool
  | .flow (.jumpUnless _ target) => target.toList.all isWordChar
  | .call label _ => label.toList.all isWordChar
  | .run _ => false
  | .verbatim text => (definedLabel? text).isNone && (namedLabel? text).isNone
  | _ => true

/-- What control flow sees in the line of a command. -/
def Command.line : Command → Line
  | .flow instruction => instruction.line
  | .comeBack => .jump ":eof"
  | command => .other command.text

theorem Command.text_dropLeadingBlanks (hrun : ∀ line, command ≠ .run line)
    (hverbatim : ∀ text, command ≠ .verbatim text) :
    dropLeadingBlanks command.text = command.text := by
  apply dropLeadingBlanks_of_head
  cases command with
  | flow instruction =>
      cases instruction <;> simp [Command.text, Instruction.text] <;> rfl
  | run line => exact absurd rfl (hrun line)
  | verbatim text => exact absurd rfl (hverbatim text)
  | writeFile path content append =>
      cases append <;> simp [Command.text] <;> rfl
  | _ => simp [Command.text]; rfl

theorem readLine_text (h : command.isRegular = true)
    (hverbatim : ∀ text, command ≠ .verbatim text) :
    readLine command.text = command.line := by
  cases command with
  | flow instruction =>
      cases instruction with
      | label name => exact readLine_label name
      | jump target => exact readLine_jump target
      | jumpUnless condition target =>
          exact readLine_jumpUnless condition (List.all_eq_true.mp h)
  | comeBack => exact readLine_jump ":eof"
  | run line => cases h
  | verbatim text => exact absurd rfl (hverbatim text)
  | quit | exit _ | call _ _ | removeCaptured =>
      exact readLine_of_head (by simp [Command.text])
  | _ => exact readLine_of_allowed (show Command.Allowed straightOn {} _
      from trivial)

theorem calledLabel?_of_head {text : String}
    (h : ∀ c ∈ text.toList.head?, c ≠ 'c') : calledLabel? text = none := by
  unfold calledLabel?
  cases htext : text.toList with
  | nil => rfl
  | cons c rest =>
      have hne : c ≠ 'c' := h c (by simp [htext])
      simp [List.isPrefixOf?, hne.symm]

theorem calledLabel?_call {label : String} (args : List String)
    (h : label.toList.all isWordChar = true) :
    calledLabel? (Command.call label args).text = some label := by
  have htext : (Command.call label args).text.toList =
      "call :".toList ++
        (label.toList ++ (String.join (args.map (" " ++ ·))).toList) := by
    simp [Command.text]
  have hlabel :
    (label.toList ++ (String.join (args.map (" " ++ ·))).toList).takeWhile
      (fun c => c != ' ') = label.toList := by
    rw [List.takeWhile_append_of_pos]
    · cases args with
      | nil => simp
      | cons arg args => simp
    · intro c hc
      have hword := List.all_eq_true.mp h c hc
      rw [bne_iff_ne]
      rintro rfl
      exact absurd hword (by decide)
  unfold calledLabel?
  rw [htext, List.isPrefixOf?_eq_some_iff_append_eq.mpr rfl,
    Option.map_some, hlabel]
  simp

theorem definedLabel?_text (h : command.isRegular = true) :
    definedLabel? command.text = command.label? := by
  by_cases hverbatim : ∃ text, command = .verbatim text
  · obtain ⟨text, rfl⟩ := hverbatim
    exact Option.isNone_iff_eq_none.mp (Bool.and_eq_true_iff.mp h).1
  · have hne : ∀ text, command ≠ .verbatim text :=
      fun text heq => hverbatim ⟨text, heq⟩
    unfold definedLabel?
    rw [Command.text_dropLeadingBlanks (by rintro _ rfl; cases h) hne,
      readLine_text h hne]
    cases command with
    | flow instruction => cases instruction <;> rfl
    | _ => rfl

theorem namedLabel?_text (h : command.isRegular = true) :
    namedLabel? command.text = command.named? := by
  by_cases hverbatim : ∃ text, command = .verbatim text
  · obtain ⟨text, rfl⟩ := hverbatim
    exact Option.isNone_iff_eq_none.mp (Bool.and_eq_true_iff.mp h).2
  · have hne : ∀ text, command ≠ .verbatim text :=
      fun text heq => hverbatim ⟨text, heq⟩
    unfold namedLabel?
    rw [Command.text_dropLeadingBlanks (by rintro _ rfl; cases h) hne,
      readLine_text h hne]
    cases command with
    | flow instruction =>
        cases instruction with
        | label name =>
            exact calledLabel?_of_head
              (by simp [Command.text, Instruction.text])
        | _ => rfl
    | comeBack => rfl
    | call label args =>
        rw [calledLabel?_call args h]
        rfl
    | verbatim text => exact absurd rfl (hne text)
    | run line => cases h
    | writeFile path content append =>
        cases append <;> exact calledLabel?_of_head (by simp [Command.text])
    | _ => exact calledLabel?_of_head (by simp [Command.text])

/-! The subroutines. -/

/-- All labels there can be behind a program. -/
def routineLabels : List String :=
  ["__sb_list_len", "__sb_list_set", "__sb_list_copy", "__sb_strlen",
    "__sb_strlen_loop", "__sb_substr", "__sb_read_file"]

/-- The commands behind a program. -/
def Needs.tail (needs : Needs) : List Command :=
  needs.routines.flatMap fun routine => .verbatim "" :: routine

theorem flatMap_ite :
    (if condition then [routine] else []).flatMap
    (fun routine => .verbatim "" :: routine) =
      if condition then Command.verbatim "" :: routine else [] := by
  cases condition <;> simp

theorem placed_ite {commands : List Command} :
    placed (if condition then commands else []) =
      if condition then placed commands else [] := by
  cases condition <;> rfl

theorem placed_tail (needs : Needs) :
    placed needs.tail =
      (if needs.listLen then ["__sb_list_len"] else []) ++
        (if needs.listSet then ["__sb_list_set"] else []) ++
        (if needs.listCopy then ["__sb_list_copy"] else []) ++
        (if needs.strlen then ["__sb_strlen", "__sb_strlen_loop"] else []) ++
        (if needs.substr then ["__sb_substr"] else []) ++
        (if needs.fileContent then ["__sb_read_file"] else []) := by
  unfold Needs.tail Needs.routines
  simp only [List.flatMap_append, placed_append, flatMap_ite, placed_ite]
  rfl

theorem sublist_ite {α : Type} {items : List α} :
    (if condition then items else []).Sublist items := by
  cases condition <;> simp

theorem placed_tail_sublist (needs : Needs) :
    (placed needs.tail).Sublist routineLabels := by
  rw [placed_tail]
  exact ((((sublist_ite.append sublist_ite).append sublist_ite).append
    sublist_ite).append sublist_ite).append sublist_ite

theorem labels_subset_placed_tail (needs : Needs) :
    needs.labels ⊆ placed needs.tail := by
  intro label hlabel
  rw [placed_tail]
  simp only [Needs.labels, List.mem_append, List.mem_ite_nil_right,
    List.mem_cons, List.not_mem_nil, or_false] at hlabel ⊢
  tauto

/-- A subroutine whose lines can be told from their texts, and that jumps inside
itself only. -/
def isSelfContained (routine : List Command) : Bool :=
  routine.all fun command => command.isRegular &&
    command.named?.all fun label => label == ":eof" ||
      (placed routine).contains label

theorem routines_sublist (needs : Needs) :
    needs.routines.Sublist [listLenRoutine, listSetRoutine, listCopyRoutine,
      strlenRoutine, substrRoutine, readFileRoutine] :=
  ((((sublist_ite.append sublist_ite).append sublist_ite).append
    sublist_ite).append sublist_ite).append sublist_ite

theorem isSelfContained_of_mem_routines (h : routine ∈ needs.routines) :
    isSelfContained routine = true := by
  have hall : [listLenRoutine, listSetRoutine, listCopyRoutine, strlenRoutine,
    substrRoutine,
      readFileRoutine].all isSelfContained = true := by
    decide +kernel
  exact List.all_eq_true.mp hall routine ((routines_sublist needs).subset h)

theorem placed_subset_tail (h : routine ∈ needs.routines) :
    placed routine ⊆ placed needs.tail := by
  intro label hlabel
  obtain ⟨command, hcommand, hname⟩ := List.mem_filterMap.mp hlabel
  refine List.mem_filterMap.mpr ⟨command, ?_, hname⟩
  exact List.mem_flatMap.mpr ⟨routine, h, List.mem_cons_of_mem _ hcommand⟩

theorem tail_lands (h : command ∈ needs.tail) :
    command.isRegular = true ∧
      ∀ label, command.named? = some label →
        label = ":eof" ∨ label ∈ placed needs.tail := by
  obtain ⟨routine, hroutine, hcommand⟩ := List.mem_flatMap.mp h
  rcases List.mem_cons.mp hcommand with rfl | hcommand
  · exact ⟨by decide +kernel, fun label hlabel => by cases hlabel⟩
  · have hself := List.all_eq_true.mp (isSelfContained_of_mem_routines hroutine)
      command hcommand
    obtain ⟨hregular, hnamed⟩ := Bool.and_eq_true_iff.mp hself
    refine ⟨hregular, fun label hlabel => ?_⟩
    rw [hlabel] at hnamed
    simp only [Option.all_some, Bool.or_eq_true, beq_iff_eq,
      List.contains_iff_mem] at hnamed
    exact hnamed.imp id fun hin => placed_subset_tail hroutine hin

end Batch

end Shellwright
