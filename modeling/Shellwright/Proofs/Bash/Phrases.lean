/-
Phrases of bash.  A scalar stands in a script as content of double quotes:
ordinary characters, escaped ones and expansions, of which there are a few fixed
forms.  The forms suffice for every expression, and whatever has them passes the
reader.
-/
import Shellwright.Proofs.Bash.Quoting
import Shellwright.Proofs.Hidden.Words
import Shellwright.Proofs.Script.WriteExpr

namespace Shellwright

namespace Bash

open Script

/-! Contents of double quotes. -/

/-- The operators that stand in arithmetic. -/
def operatorSymbols : List String :=
  ["+", "-", "*", "/", "%", "==", "!=", "<", "<=", ">", ">=", "&&", "||"]

mutual

/-- A text to stand between double quotes. -/
inductive Content : String → Prop where
  | empty : Content ""
  | plain {c : Char} {rest : String} : isSpecial c = false → Content rest →
      Content (String.singleton c ++ rest)
  | escaped {c : Char} {rest : String} : isSpecial c = true → Content rest →
      Content ("\\" ++ String.singleton c ++ rest)
  | expansion {text rest : String} : Expansion text → Content rest →
      Content (text ++ rest)

/-- What bash replaces by a value. -/
inductive Expansion : String → Prop where
  | value {x : String} : isWord x.toList = true →
      Expansion ("$\x7b" ++ x ++ "\x7d")
  | length {x : String} : isWord x.toList = true →
      Expansion ("$\x7b#" ++ x ++ "\x7d")
  | count {x : String} : isWord x.toList = true →
      Expansion ("$\x7b#" ++ x ++ "[@]\x7d")
  | element {x index : String} : isWord x.toList = true → Content index →
      Expansion ("$\x7b" ++ x ++ "[" ++ index ++ "]\x7d")
  | character {x start : String} : isWord x.toList = true → Content start →
      Expansion ("$\x7b" ++ x ++ ":(" ++ start ++ "):1\x7d")
  | slice {x start stop first : String} : isWord x.toList = true →
      Content start → Content stop → Content first →
      Expansion ("$\x7b" ++ x ++ ":(" ++ start ++ "):(" ++ stop ++ ")-(" ++
        first ++ ")\x7d")
  | negation {operand : String} : Content operand →
      Expansion ("$(( -(" ++ operand ++ ") ))")
  | inversion {operand : String} : Content operand →
      Expansion ("$(( !(" ++ operand ++ ") ))")
  | operation {left symbol right : String} : Content left →
      symbol ∈ operatorSymbols →
      Content right →
        Expansion ("$(( (" ++ left ++ ") " ++ symbol ++ " (" ++ right ++ ") ))")
  | conversion {x : String} : isWord x.toList = true →
      Expansion ("$(( " ++ x ++ " ))")
  | equality {left right : String} : Content left → Content right →
      Expansion ("$( [ \"" ++ left ++ "\" = \"" ++ right ++
        "\" ] && echo 1 || echo 0 )")
  | inequality {left right : String} : Content left → Content right →
      Expansion ("$( [ \"" ++ left ++ "\" != \"" ++ right ++
        "\" ] && echo 1 || echo 0 )")
  | existence {path : String} : Content path →
      Expansion ("$( [ -e \"" ++ path ++ "\" ] && echo 1 || echo 0 )")

end

theorem Content.append {first second : String} (hfirst : Content first)
    (hsecond : Content second) : Content (first ++ second) := by
  match hfirst with
  | .empty => exact String.empty_append.symm ▸ hsecond
  | .plain hc hrest =>
      exact String.append_assoc .. ▸ .plain hc (hrest.append hsecond)
  | .escaped hc hrest =>
      exact String.append_assoc .. ▸ .escaped hc (hrest.append hsecond)
  | .expansion htext hrest =>
      exact String.append_assoc .. ▸ .expansion htext (hrest.append hsecond)

/-- An expansion, however its parts are put together. -/
theorem Expansion.content {text part : String} (h : Expansion text)
    (hpart : part.toList = text.toList) : Content part := by
  obtain rfl := String.toList_inj.mp hpart
  exact String.append_empty (s := part) ▸ .expansion h .empty

theorem content_escape (value : String) : Content (escape value) := by
  unfold escape
  induction value.toList with
  | nil => exact .empty
  | cons c chars ih =>
      unfold escapeChars
      split
      · next hspecial =>
          have htext : String.ofList ('\\' :: c :: escapeChars chars) =
              "\\" ++ String.singleton c ++ String.ofList
                (escapeChars chars) := by
            rw [← String.toList_inj]
            simp
          exact htext ▸ .escaped hspecial ih
      · next hspecial =>
          have htext : String.ofList (c :: escapeChars chars) =
              String.singleton c ++ String.ofList (escapeChars chars) := by
            rw [← String.toList_inj]
            simp
          exact htext ▸ .plain (Bool.eq_false_iff.mpr hspecial) ih

theorem content_of_plain {text : String}
    (h : ∀ c ∈ text.toList, isSpecial c = false) : Content text := by
  have hescape : escape text = text := by
    unfold escape
    rw [← String.toList_inj, String.toList_ofList]
    generalize text.toList = chars at h
    induction chars with
    | nil => rfl
    | cons c chars ih =>
        obtain ⟨hc, hchars⟩ := List.forall_mem_cons.mp h
        simp [escapeChars, hc, ih hchars]
  exact hescape ▸ content_escape text

/-! The forms a dialect needs. -/

/-- Texts that may stand between quotes and texts that may stand in arithmetic
as well, closed under everything that expressions are made into. -/
structure Phrasing (text number : String → Prop) : Prop where
  of_number : ∀ {part}, number part → text part
  literal : ∀ value, text (escape value)
  append : ∀ {first second}, text first → text second → text (first ++ second)
  digits : ∀ {part : String}, (∀ c ∈ part.toList, c.isDigit = true ∨ c = '-') →
    number part
  value : ∀ {x : String}, isWord x.toList = true → number (expand x)
  length : ∀ {x : String}, isWord x.toList = true → number (expand ("#" ++ x))
  count : ∀ {x : String}, isWord x.toList = true →
    number (expand ("#" ++ x ++ "[@]"))
  element : ∀ {x index : String}, isWord x.toList = true → number index →
    number (expand (x ++ "[" ++ index ++ "]"))
  character : ∀ {x start : String}, isWord x.toList = true → number start →
    number (expand (x ++ ":" ++ parenthesized start ++ ":" ++ "1"))
  slice : ∀ {x start stop : String}, isWord x.toList = true → number start →
    number stop → number (expand (x ++ ":" ++ parenthesized start ++ ":" ++
      (parenthesized stop ++ "-" ++ parenthesized start)))
  negation : ∀ {operand}, number operand →
    number (arithmetic ("-" ++ parenthesized operand))
  inversion : ∀ {operand}, number operand →
    number (arithmetic ("!" ++ parenthesized operand))
  operation : ∀ {left symbol right}, number left → symbol ∈ operatorSymbols →
    number right → number (arithmeticOperation left symbol right)
  conversion : ∀ {x : String}, isWord x.toList = true → number (arithmetic x)
  equality : ∀ {left right}, text left → text right →
    number (testResult (inQuotes left ++ " = " ++ inQuotes right))
  inequality : ∀ {left right}, text left → text right →
    number (testResult (inQuotes left ++ " != " ++ inQuotes right))
  existence : ∀ {path}, text path → number (testResult ("-e " ++ inQuotes path))

theorem not_isSpecial_of_isDigit {c : Char} (h : c.isDigit = true) :
    isSpecial c = false := by
  have hne : ∀ other, other.isDigit = false → c ≠ other := by
    rintro other hother rfl
    exact absurd h (Bool.eq_false_iff.mp hother)
  simp [isSpecial, hne '\\' rfl, hne '"' rfl, hne '$' rfl, hne '\x60' rfl]

/-- Contents do not tell texts from numbers. -/
theorem content_phrasing : Phrasing Content Content where
  of_number := id
  literal := content_escape
  append := .append
  digits h := by
    refine content_of_plain fun c hc => ?_
    rcases h c hc with hdigit | rfl
    · exact not_isSpecial_of_isDigit hdigit
    · rfl
  value h := (Expansion.value h).content rfl
  length h := (Expansion.length h).content (by simp [expand])
  count h := (Expansion.count h).content (by simp [expand])
  element h hindex := (Expansion.element h hindex).content (by simp [expand])
  character h hstart := (Expansion.character h hstart).content
    (by simp [expand, parenthesized])
  slice h hstart hstop :=
    (Expansion.slice h hstart hstop hstart).content
    (by simp [expand, parenthesized])
  negation h := (Expansion.negation h).content
    (by simp [arithmetic, parenthesized])
  inversion h := (Expansion.inversion h).content
    (by simp [arithmetic, parenthesized])
  operation hleft hsymbol hright :=
    (Expansion.operation hleft hsymbol hright).content
    (by simp [arithmeticOperation, arithmetic, parenthesized])
  conversion h := (Expansion.conversion h).content rfl
  equality hleft hright :=
    (Expansion.equality hleft hright).content (by simp [testResult, inQuotes])
  inequality hleft hright :=
    (Expansion.inequality hleft hright).content (by simp [testResult, inQuotes])
  existence h := (Expansion.existence h).content
    (by simp [testResult, inQuotes])

theorem passes_fixed {region : Region} {text : String}
    (h : text.toList.all region.ignores = true) : Passes region text :=
  passes_of_ignores (List.all_eq_true.mp h)

theorem passes_parenthesized {text : String} (h : ∀ region, Passes region text)
    (region : Region) : Passes region (parenthesized text) := by
  cases region with
  | quotes => exact ((passes_fixed rfl).append (h _)).append (passes_fixed rfl)
  | braces => exact ((passes_fixed rfl).append (h _)).append (passes_fixed rfl)
  | parens => exact .enclosed [] (fun _ => rfl) (h .parens) fun _ => rfl

theorem passes_symbol {symbol : String} (h : symbol ∈ operatorSymbols) :
    Passes .parens symbol := by
  have hall : operatorSymbols.all fun symbol =>
    symbol.toList.all Region.parens.ignores := rfl
  exact passes_fixed (List.all_eq_true.mp hall symbol h)

/-- Whatever stands between quotes passes there, and what stands in arithmetic
passes everywhere. -/
theorem passing_phrasing :
    Phrasing (Passes .quotes) fun text => ∀ region, Passes region text where
  of_number h := h .quotes
  literal := passes_escape
  append := .append
  digits h region := by
    refine passes_of_ignores fun c hc => ?_
    rcases h c hc with hdigit | rfl
    · exact ignores_of_isWordChar
        (by simp [isWordChar, Char.isAlphanum, hdigit]) region
    · cases region <;> rfl
  value h := passes_expand (passes_of_isWord h _)
  length h := passes_expand ((passes_fixed rfl).append (passes_of_isWord h _))
  count h := passes_expand
    (((passes_fixed rfl).append (passes_of_isWord h _)).append
      (passes_fixed rfl))
  element h hindex := passes_expand
    ((((passes_of_isWord h _).append (passes_fixed rfl)).append
      (hindex _)).append (passes_fixed rfl))
  character h hstart := passes_expand
    (((((passes_of_isWord h _).append (passes_fixed rfl)).append
      (passes_parenthesized hstart _)).append (passes_fixed rfl)).append
        (passes_fixed rfl))
  slice h hstart hstop := passes_expand
    (((((passes_of_isWord h _).append (passes_fixed rfl)).append
      (passes_parenthesized hstart _)).append (passes_fixed rfl)).append
      (((passes_parenthesized hstop _).append (passes_fixed rfl)).append
        (passes_parenthesized hstart _)))
  negation h :=
    passes_arithmetic ((passes_fixed rfl).append (passes_parenthesized h _))
  inversion h :=
    passes_arithmetic ((passes_fixed rfl).append (passes_parenthesized h _))
  operation hleft hsymbol hright := passes_arithmetic
    (((((passes_parenthesized hleft _).append (passes_fixed rfl)).append
      (passes_symbol hsymbol)).append (passes_fixed rfl)).append
        (passes_parenthesized hright _))
  conversion h := passes_arithmetic (passes_of_isWord h _)
  equality hleft hright := passes_testResult
    (((passes_inQuotes hleft).append (passes_fixed rfl)).append
      (passes_inQuotes hright))
  inequality hleft hright := passes_testResult
    (((passes_inQuotes hleft).append (passes_fixed rfl)).append
      (passes_inQuotes hright))
  existence h :=
    passes_testResult ((passes_fixed rfl).append (passes_inQuotes h))

end Bash

end Shellwright
