/-
Literals inside double quotes.  Reading what stands between double quotes undoes
the escaping of a text.  Escaping goes character by character, so fragments of
literals that are pasted together are read as the texts one behind the other.
-/
import Shellwright.Bash.Dialect
import Shellwright.Proofs.Script.Run

namespace Shellwright

namespace Bash

open Script (exec exec_bind_ok evaluate)

/-- The text that the inside of double quotes stands for.  A backslash makes a
special character stand for itself and vanishes together with a line feed; in
front of anything else it is a character like others.  A quote, a dollar sign or
a backquote without a backslash would end the word or start an expansion, and
there is no text then. -/
def unquote? : List Char → Option (List Char)
  | [] => some []
  | '\\' :: c :: rest =>
      if isSpecial c then (unquote? rest).map (c :: ·)
      else if c = '\n' then unquote? rest
      else (unquote? rest).map ('\\' :: c :: ·)
  | c :: rest =>
      if c = '"' ∨ c = '$' ∨ c = '\x60' then none
      else (unquote? rest).map (c :: ·)

theorem unquote?_cons {c : Char} (h : ¬isSpecial c = true) (rest : List Char) :
    unquote? (c :: rest) = (unquote? rest).map (c :: ·) := by
  simp only [isSpecial, Bool.or_eq_true, beq_iff_eq, not_or] at h
  obtain ⟨⟨⟨hbackslash, hquote⟩, hdollar⟩, hbackquote⟩ := h
  rw [unquote?, if_neg (by simp [hquote, hdollar, hbackquote])]
  exact fun _ _ heq => absurd heq hbackslash

/-- An escaped text is read as the text, whatever stands behind it. -/
theorem unquote?_escapeChars (text rest : List Char) :
    unquote? (escapeChars text ++ rest) = (unquote? rest).map (text ++ ·) := by
  induction text with
  | nil => simp [escapeChars]
  | cons c text ih =>
      unfold escapeChars
      split
      · next hspecial =>
          rw [List.cons_append, List.cons_append, unquote?, if_pos hspecial, ih,
            Option.map_map]
          rfl
      · next hplain =>
          rw [List.cons_append, unquote?_cons hplain, ih, Option.map_map]
          rfl

theorem unquote?_escape (text : String) : unquote? (escape text).toList =
    some text.toList := by
  have h := unquote?_escapeChars text.toList []
  simpa [escape, unquote?] using h

theorem escapeChars_append (first second : List Char) :
    escapeChars (first ++ second) = escapeChars first ++
      escapeChars second := by
  induction first with
  | nil => rfl
  | cons c first ih =>
      rw [List.cons_append, escapeChars, escapeChars, ih]
      split <;> rfl

theorem escape_append (first second : String) :
    escape (first ++ second) = escape first ++ escape second := by
  unfold escape
  rw [String.toList_append, escapeChars_append, String.ofList_append]

/-- An expression that only puts literals together, and the text it stands
for. -/
inductive Joins : Expr → String → Prop where
  | literal (text : String) : Joins (.string text [.string]) text
  | join {left right : Expr} {first second : String} : Joins left first →
      Joins right second →
      Joins (.binary .add left right [.string]) (first ++ second)
  | group {inner : Expr} {text : String} : Joins inner text →
      Joins (.group inner [.string]) text

theorem Joins.ty_eq {e : Expr} {text : String} (h : Joins e text) :
    e.ty = .string := by
  cases h <;> rfl

/-- The fragment of literals put together is the fragment of the whole text. -/
theorem exec_evaluate_joins {e : Expr} {text : String} (h : Joins e text)
    (used : Bool) (s : State) : exec (evaluate e used) s =
      (.ok (escape text), s) := by
  induction h generalizing used with
  | literal text => rfl
  | @join left right first second hleft _ ihleft ihright =>
      unfold evaluate
      rw [exec_bind_ok (ihleft true), exec_bind_ok (ihright true), hleft.ty_eq,
        escape_append]
      rfl
  | group _ ih =>
      unfold evaluate
      rw [exec_bind_ok (ih used)]
      rfl

/-- Inside double quotes an escaped text meets no special character and is read
as the text.  A text escaped in two parts is the same as escaped at once, and so
the fragment of literals put together is read as their texts one behind the
other. -/
theorem bash_literals_read_back (text : String) :
    unquote? (escape text).toList = some text.toList ∧
    (∀ more : String, escape (text ++ more) = escape text ++ escape more) ∧
    ∀ e : Expr, Joins e text → ∀ (used : Bool) (s : State),
      ∃ fragment, exec (evaluate e used) s = (.ok fragment, s) ∧
        unquote? fragment.toList = some text.toList := by
  refine ⟨unquote?_escape text, escape_append text, fun e h used s => ?_⟩
  exact ⟨escape text, exec_evaluate_joins h used s, unquote?_escape text⟩

/-- A backslash at the end of one literal, and a quote at the start of the
next. -/
theorem bash_literals_read_back_seam :
    Joins (.binary .add (.string "\\" [.string]) (.string "\"$" [.string])
      [.string]) "\\\"$" ∧
    ∃ fragment,
      exec (evaluate (.binary .add (.string "\\" [.string])
        (.string "\"$" [.string]) [.string]) true) State.fresh =
          (.ok fragment, State.fresh) ∧
      unquote? fragment.toList = some "\\\"$".toList := by
  have hjoins :
    Joins (.binary .add (.string "\\" [.string]) (.string "\"$" [.string])
      [.string]) "\\\"$" := .join (.literal "\\") (.literal "\"$")
  exact ⟨hjoins, (bash_literals_read_back _).2.2 _ hjoins true .fresh⟩

end Bash

end Shellwright
