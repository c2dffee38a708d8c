/-
The labels of a batch script.  They come in three kinds: counted labels of the
control flow, labels of functions, and labels behind functions.  No two of them
are the same, whatever the kind, and none is a label of a subroutine.
-/
import Shellwright.Batch.Dialect
import Mathlib

namespace Shellwright

namespace Batch

variable {number : Nat} {c : Char} {label name other stem : String}

/-- What a counted label can be made of. -/
def stems : List String := ["else", "endif", "next", "cond", "done"]

/-- The label the graph makes from a stem when it has made `number` labels. -/
def countedLabel (stem : String) (number : Nat) : String :=
  "__sb_" ++ stem ++ "_" ++ toString number

theorem toString_nat_ne_nil (number : Nat) : (toString number).toList ≠ [] := by
  rw [Nat.toString_eq_repr, Nat.toList_repr]
  exact Nat.toDigits_ne_nil

theorem isDigit_of_mem_toString (h : c ∈ (toString number).toList) :
    c.isDigit = true := by
  rw [Nat.toString_eq_repr, Nat.toList_repr] at h
  exact Nat.isDigit_of_mem_toDigits (by decide) (by decide) h

theorem toString_nat_inj {other : Nat} (h : toString number = toString other) :
    number = other :=
  Nat.repr_inj.mp h

/-- The number is what stands behind the last underscore. -/
theorem countedLabel_inj {number' : Nat}
    (h : countedLabel stem number = countedLabel other number') :
    number = number' := by
  have hread : ∀ (stem : String) (number : Nat),
      (countedLabel stem number).toList.reverse.takeWhile (· ≠ '_') =
        (toString number).toList.reverse := by
    intro stem number
    have hdigits : ∀ c ∈ (toString number).toList.reverse, decide (c ≠ '_') =
        true := by
      intro c hc
      refine decide_eq_true ?_
      rintro rfl
      exact absurd (isDigit_of_mem_toString (List.mem_reverse.mp hc))
        (by decide)
    unfold countedLabel
    rw [String.toList_append, List.reverse_append,
      List.takeWhile_append_of_pos hdigits]
    simp
  have hsame := hread stem number
  rw [h, hread] at hsame
  exact (toString_nat_inj
    (String.toList_inj.mp (List.reverse_inj.mp hsame))).symm

theorem countedLabel_ne_functionLabel (hstem : stem ∈ stems) (number : Nat)
    (name : String) : countedLabel stem number ≠ functionLabel name := by
  intro h
  have hchars := congrArg String.toList h
  unfold countedLabel functionLabel at hchars
  simp only [stems, List.mem_cons, List.not_mem_nil, or_false] at hstem
  rcases hstem with rfl | rfl | rfl | rfl | rfl <;> simp at hchars

theorem countedLabel_ne_endLabel (hstem : stem ∈ stems) (number other : Nat) :
    countedLabel stem number ≠ endLabel other := by
  intro h
  have hchars := congrArg String.toList h
  unfold countedLabel endLabel at hchars
  simp only [stems, List.mem_cons, List.not_mem_nil, or_false] at hstem
  rcases hstem with rfl | rfl | rfl | rfl | rfl <;> simp at hchars

/-- A digit follows the letter in one label, another letter in the other. -/
theorem functionLabel_ne_endLabel (name : String) (number : Nat) :
    functionLabel name ≠ endLabel number := by
  intro h
  have hchars := congrArg String.toList h
  unfold functionLabel endLabel at hchars
  obtain ⟨digit, digits, hdigits⟩ :=
    List.exists_cons_of_ne_nil (toString_nat_ne_nil number)
  have hdigit : digit.isDigit = true :=
    isDigit_of_mem_toString (hdigits ▸ List.mem_cons_self)
  simp only [String.toList_append, hdigits] at hchars
  simp at hchars
  rw [← hchars.1] at hdigit
  exact absurd hdigit (by decide)

theorem endLabel_inj {other : Nat} (h : endLabel number = endLabel other) :
    number = other := by
  apply toString_nat_inj
  apply String.toList_inj.mp
  have hchars := congrArg String.toList h
  unfold endLabel at hchars
  simpa using hchars

/-! Mangled names can be read back. -/

/-- The small letter of a capital is a letter, and the capital can be told from
it. -/
theorem toLower_of_isUpper (h : c.isUpper = true) :
    c.toLower.isUpper = false ∧ isWordChar c.toLower = true ∧ c.toLower ≠ '_' ∧
      c.toLower.toUpper = c := by
  have hbounds : 65 ≤ c.toNat ∧ c.toNat ≤ 90 := by
    simpa [Char.isUpper, UInt32.le_iff_toNat_le] using h
  obtain ⟨hlow, hhigh⟩ := hbounds
  rw [← Char.ofNat_toNat c]
  generalize c.toNat = code at hlow hhigh
  interval_cases code <;> decide

/-- The name behind mangled characters. -/
def unmangleChars : List Char → List Char
  | '_' :: '_' :: rest => '_' :: unmangleChars rest
  | '_' :: c :: rest => c.toUpper :: unmangleChars rest
  | c :: rest => c :: unmangleChars rest
  | [] => []

theorem unmangleChars_mangleChars (chars : List Char) :
    unmangleChars (mangleChars chars) = chars := by
  induction chars with
  | nil => rfl
  | cons c rest ih =>
      unfold mangleChars
      by_cases hunderscore : c = '_'
      · rw [if_pos hunderscore, unmangleChars, ih, hunderscore]
      · rw [if_neg hunderscore]
        by_cases hupper : c.isUpper = true
        · obtain ⟨_, _, hne, hback⟩ := toLower_of_isUpper hupper
          rw [if_pos hupper, unmangleChars, ih, hback]
          exact hne
        · rw [if_neg hupper, unmangleChars, ih]
          · intro _ hc
            exact absurd hc hunderscore
          · intro _ _ hc
            exact absurd hc hunderscore

theorem mangle_inj (h : mangle name = mangle other) : name = other := by
  have hchars : mangleChars name.toList = mangleChars other.toList := by
    simpa [mangle] using congrArg String.toList h
  apply String.toList_inj.mp
  rw [← unmangleChars_mangleChars name.toList, hchars,
    unmangleChars_mangleChars]

theorem functionLabel_inj (h : functionLabel name = functionLabel other) :
    name = other := by
  apply mangle_inj
  apply String.toList_inj.mp
  simpa [functionLabel] using congrArg String.toList h

/-! All labels are words without capitals. -/

def isLabelChar (c : Char) : Bool := isWordChar c && !c.isUpper

/-- Letters, digits and underscores only, and no capitals. -/
def IsPlainLabel (label : String) : Prop := label.toList.all isLabelChar = true

theorem IsPlainLabel.append {first second : String}
    (hfirst : IsPlainLabel first) (hsecond : IsPlainLabel second) :
    IsPlainLabel (first ++ second) := by
  unfold IsPlainLabel
  rw [String.toList_append, List.all_append, hfirst, hsecond]
  rfl

theorem isLabelChar_of_isDigit (h : c.isDigit = true) :
    isLabelChar c = true := by
  have hbounds : 48 ≤ c.toNat ∧ c.toNat ≤ 57 := by
    simpa [Char.isDigit, UInt32.le_iff_toNat_le] using h
  obtain ⟨hlow, hhigh⟩ := hbounds
  rw [← Char.ofNat_toNat c]
  generalize c.toNat = code at hlow hhigh
  interval_cases code <;> decide

theorem isPlainLabel_toString (number : Nat) : IsPlainLabel (toString number) :=
  List.all_eq_true.mpr fun _ hc => isLabelChar_of_isDigit
    (isDigit_of_mem_toString hc)

theorem isPlainLabel_countedLabel (hstem : stem ∈ stems) (number : Nat) :
    IsPlainLabel (countedLabel stem number) := by
  have hplain : IsPlainLabel stem := by
    simp only [stems, List.mem_cons, List.not_mem_nil, or_false] at hstem
    rcases hstem with rfl | rfl | rfl | rfl | rfl <;> rfl
  have hstart : IsPlainLabel "__sb_" := rfl
  have hmiddle : IsPlainLabel "_" := rfl
  exact ((hstart.append hplain).append hmiddle).append
    (isPlainLabel_toString number)

theorem isPlainLabel_endLabel (number : Nat) :
    IsPlainLabel (endLabel number) := by
  have hstart : IsPlainLabel "__sb_f" := rfl
  have hstop : IsPlainLabel "_end" := rfl
  exact (hstart.append (isPlainLabel_toString number)).append hstop

theorem all_isLabelChar_mangleChars {chars : List Char}
    (h : chars.all isWordChar = true) :
    (mangleChars chars).all isLabelChar = true := by
  induction chars with
  | nil => rfl
  | cons c rest ih =>
      rw [List.all_cons, Bool.and_eq_true] at h
      obtain ⟨hc, hrest⟩ := h
      have hunder : isLabelChar '_' = true := rfl
      unfold mangleChars
      split
      · simp [hunder, ih hrest]
      · split
        · next hupper =>
            obtain ⟨hlower, hword, _, _⟩ := toLower_of_isUpper hupper
            have hlabel : isLabelChar c.toLower = true := by
              simp [isLabelChar, hlower, hword]
            simp [hunder, hlabel, ih hrest]
        · next hupper => simp [isLabelChar, hc, hupper, ih hrest]

theorem isPlainLabel_mangle (h : isWord name.toList = true) :
    IsPlainLabel (mangle name) := by
  have hchars : name.toList.all isWordChar = true := by
    cases hname : name.toList with
    | nil => rfl
    | cons c rest =>
        rw [hname, isWord, Bool.and_eq_true] at h
        have hc : isWordChar c = true := by
          have hstart := h.1
          simp only [isWordStart, isWordChar, Char.isAlphanum, Bool.or_eq_true]
            at hstart ⊢
          tauto
        rw [List.all_cons, hc, h.2]
        rfl
  unfold IsPlainLabel mangle
  rw [String.toList_ofList]
  exact all_isLabelChar_mangleChars hchars

theorem isPlainLabel_functionLabel (h : isWord name.toList = true) :
    IsPlainLabel (functionLabel name) := by
  have hstart : IsPlainLabel "__sb_fn_" := rfl
  exact hstart.append (isPlainLabel_mangle h)

theorem IsPlainLabel.toLower (h : IsPlainLabel label) :
    label.toLower = label := by
  have hsame : ∀ c ∈ label.toList, c.toLower = id c := by
    intro c hc
    have hchar := List.all_eq_true.mp h c hc
    have hupper : c.isUpper = false := by
      simpa using (Bool.and_eq_true_iff.mp hchar).2
    exact dif_neg (of_decide_eq_false hupper)
  apply String.toList_inj.mp
  rw [String.toLower, String.toList_map, List.map_congr_left hsame, List.map_id]

theorem IsPlainLabel.isWordChar (h : IsPlainLabel label) :
    ∀ c ∈ label.toList, isWordChar c = true :=
  fun c hc => (Bool.and_eq_true_iff.mp (List.all_eq_true.mp h c hc)).1

end Batch

end Shellwright
