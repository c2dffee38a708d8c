/-
Reading the lines of a batch script.  A line is a label, a jump, a jump that
depends on a condition, or something else.
-/
import Shellwright.Proofs.Batch.Flow
import Shellwright.Proofs.Batch.Extends

namespace Shellwright

namespace Batch

/-- What control flow sees in a line. -/
inductive Line where
  | label (name : String)
  | jump (target : String)
  | jumpUnless (condition target : String)
  | other (text : String)
deriving DecidableEq, Repr

def Line.label? : Line → Option String
  | .label name => some name
  | _ => none

def Line.target? : Line → Option String
  | .jump target | .jumpUnless _ target => some target
  | _ => none

/-- The condition and the target of a line `if not "condition"=="1" goto
target`, whose target is a word. -/
def readConditional? (chars : List Char) : Option (List Char × List Char) := do
  let rest ← "if not \"".toList.isPrefixOf? chars
  let back := rest.reverse
  let condition ← "\"==\"1\" goto ".toList.reverse.isPrefixOf?
    (back.dropWhile isWordChar)
  return (condition.reverse, (back.takeWhile isWordChar).reverse)

def readLine (text : String) : Line :=
  match ":".toList.isPrefixOf? text.toList with
  | some name => .label (String.ofList name)
  | none =>
      match "goto ".toList.isPrefixOf? text.toList with
      | some target => .jump (String.ofList target)
      | none =>
          match readConditional? text.toList with
          | some (condition, target) =>
              .jumpUnless (String.ofList condition) (String.ofList target)
          | none => .other text

/-- The line of an instruction. -/
def Instruction.line : Instruction → Line
  | .label name => .label name
  | .jump target => .jump target
  | .jumpUnless condition target => .jumpUnless condition target

theorem readLine_label (name : String) :
    readLine (Instruction.label name).text = .label name := by
  have hname : ":".toList.isPrefixOf? (Instruction.label name).text.toList =
      some name.toList :=
    List.isPrefixOf?_eq_some_iff_append_eq.mpr String.toList_append.symm
  unfold readLine
  rw [hname]
  simp

theorem readLine_jump (target : String) :
    readLine (Instruction.jump target).text = .jump target := by
  have hlabel : ":".toList.isPrefixOf? (Instruction.jump target).text.toList =
      none := by
    simp [Instruction.text, List.isPrefixOf?]
  have htarget :
    "goto ".toList.isPrefixOf? (Instruction.jump target).text.toList =
      some target.toList :=
    List.isPrefixOf?_eq_some_iff_append_eq.mpr String.toList_append.symm
  unfold readLine
  rw [hlabel, htarget]
  simp

/-- The target is the longest word at the end, so whatever stands in the
condition does not matter. -/
theorem readConditional?_of_word {condition target : List Char}
    (htarget : ∀ c ∈ target, isWordChar c = true) :
    readConditional? ("if not \"".toList ++
      (condition ++ ("\"==\"1\" goto ".toList ++ target))) =
      some (condition, target) := by
  have hword : ∀ c ∈ target.reverse, isWordChar c = true :=
    fun c hc => htarget c (List.mem_reverse.mp hc)
  have hback : (condition ++ ("\"==\"1\" goto ".toList ++ target)).reverse =
      target.reverse ++ ("\"==\"1\" goto ".toList.reverse ++
        condition.reverse) := by
    simp
  have hdrop :
    (target.reverse ++ ("\"==\"1\" goto ".toList.reverse ++
      condition.reverse)).dropWhile
      isWordChar = "\"==\"1\" goto ".toList.reverse ++ condition.reverse := by
    rw [List.dropWhile_append_of_pos hword]
    rfl
  have htake :
    (target.reverse ++ ("\"==\"1\" goto ".toList.reverse ++
      condition.reverse)).takeWhile isWordChar = target.reverse := by
    rw [List.takeWhile_append_of_pos hword]
    exact List.append_nil _
  unfold readConditional?
  rw [List.isPrefixOf?_eq_some_iff_append_eq.mpr rfl]
  simp only [Option.bind_eq_bind, Option.bind_some]
  rw [hback, hdrop, htake, List.isPrefixOf?_eq_some_iff_append_eq.mpr rfl]
  simp

theorem readLine_jumpUnless (condition : String) {target : String}
    (htarget : ∀ c ∈ target.toList, isWordChar c = true) :
    readLine (Instruction.jumpUnless condition target).text =
      .jumpUnless condition target := by
  have htext : (Instruction.jumpUnless condition target).text.toList =
      "if not \"".toList ++
        (condition.toList ++ ("\"==\"1\" goto ".toList ++ target.toList)) := by
    simp [Instruction.text]
  have hlabel : ":".toList.isPrefixOf?
    (Instruction.jumpUnless condition target).text.toList =
      none := by
    simp [Instruction.text, List.isPrefixOf?]
  have hjump : "goto ".toList.isPrefixOf?
    (Instruction.jumpUnless condition target).text.toList =
      none := by
    simp [Instruction.text, List.isPrefixOf?]
  unfold readLine
  rw [hlabel, hjump, htext, readConditional?_of_word htarget]
  simp

/-- A line that ends in a quote does not depend on a condition. -/
theorem readConditional?_of_quote (chars : List Char) :
    readConditional? (chars ++ ['"']) = none := by
  unfold readConditional?
  cases hrest : "if not \"".toList.isPrefixOf? (chars ++ ['"']) with
  | none => rfl
  | some rest =>
      have hsplit := List.isPrefixOf?_eq_some_iff_append_eq.mp hrest
      cases hback : rest.reverse with
      | nil => simp [hback, List.isPrefixOf?]
      | cons c back =>
          have hlast := congrArg List.reverse hsplit
          rw [List.reverse_append, hback] at hlast
          rw [List.reverse_append, List.cons_append] at hlast
          obtain rfl : c = '"' := (List.cons.inj hlast).1
          have hquote : isWordChar '"' = false := rfl
          simp [hback, List.isPrefixOf?, hquote]

/-- The first character of a line tells that it jumps nowhere. -/
theorem readLine_of_head {text : String}
    (h : ∀ c ∈ text.toList.head?, c ≠ ':' ∧ c ≠ 'g' ∧ c ≠ 'i') :
    readLine text = .other text := by
  unfold readLine readConditional?
  cases htext : text.toList with
  | nil => rfl
  | cons c rest =>
      obtain ⟨hlabel, hjump, hif⟩ := h c (by simp [htext])
      simp [List.isPrefixOf?, hlabel.symm, hjump.symm, hif.symm]

theorem readLine_setIf (test name value : String) :
    readLine (Command.setIf test name value).text =
      .other (Command.setIf test name value).text := by
  have htext : (Command.setIf test name value).text.toList =
      ("if " ++ test ++ " set \"" ++ name ++ "=" ++ value).toList ++ ['"'] := by
    simp [Command.text, Command.setting]
  have hlabel :
      ":".toList.isPrefixOf? (Command.setIf test name value).text.toList =
        none := by
    simp [Command.text, List.isPrefixOf?]
  have hjump :
      "goto ".toList.isPrefixOf? (Command.setIf test name value).text.toList =
        none := by
    simp [Command.text, List.isPrefixOf?]
  unfold readLine
  rw [hlabel, hjump, htext, readConditional?_of_quote]

/-- Whatever goes on to the next line is no label and no jump. -/
theorem readLine_of_allowed {needs : Needs} {command : Command}
    (h : command.Allowed straightOn needs) :
    readLine command.text = .other command.text := by
  cases command with
  | flow _ | verbatim _ | removeCaptured | comeBack | run _ | quit | exit _ =>
      exact h.elim
  | setIf test name value => exact readLine_setIf test name value
  | writeFile path content append =>
      cases append <;> exact readLine_of_head (by simp [Command.text])
  | _ => exact readLine_of_head (by simp [Command.text])

end Batch

end Shellwright
