/-
The cells of a batch script.  All variables of a script live in one space that
ignores capitals; the cells of two variables of the program never meet there,
nor do they meet those the script keeps for itself.
-/
import Shellwright.Proofs.Batch.Labels

namespace Shellwright

namespace Batch

variable {isList : Bool} {cell : String}

/-- A variable of the program: the number of the function it belongs to, zero
outside of functions, its name, and whether it holds a list. -/
structure StoredVariable where
  number : Nat
  name : String
  isList : Bool
deriving DecidableEq, Repr

/-- What the script sets for a value under the name `base`: that name, or a
counter and the elements of a list. -/
inductive IsCell (base : String) : Bool → String → Prop where
  | scalar : IsCell base false base
  | length : IsCell base true (base ++ "_len")
  | element (index : Int) : IsCell base true (base ++ "_" ++ toString index)

def StoredVariable.Owns (var : StoredVariable) (cell : String) : Prop :=
  IsCell (storageName var.number var.name var.isList) var.isList cell

/-- Names the header and the subroutines use. -/
def fixedCells : List String :=
  ["__sb_lf", "__sb_cap", "__sb_set_value", "__sb_set_default", "__sb_lc_last",
    "__sb_sl_s", "__sb_ss_len", "__sb_rf_first", "__sb_rf_line"]

/-- The cells the script keeps for itself: helpers, the slots of arguments and
results, and the fixed names. -/
inductive IsReserved : String → Prop where
  | helper {number : Nat} {isList : Bool} {cell : String} :
      IsCell ("__sb_h" ++ toString number) isList cell → IsReserved cell
  | argument {place : Nat} {isList : Bool} {cell : String} :
      IsCell (argumentSlot place) isList cell → IsReserved cell
  | result {place : Nat} {isList : Bool} {cell : String} :
      IsCell (resultSlot place) isList cell → IsReserved cell
  | fixed {cell : String} : cell ∈ fixedCells → IsReserved cell

/-! No cell is written with capitals. -/

def IsSmall (text : String) : Prop :=
  text.toList.all (fun c => !c.isUpper) = true

theorem IsSmall.append {first second : String} (hfirst : IsSmall first)
    (hsecond : IsSmall second) : IsSmall (first ++ second) := by
  unfold IsSmall
  rw [String.toList_append, List.all_append, hfirst, hsecond]
  rfl

theorem IsSmall.toLower {text : String} (h : IsSmall text) :
    text.toLower = text := by
  have hsame : ∀ c ∈ text.toList, c.toLower = id c := by
    intro c hc
    have hupper : c.isUpper = false := by simpa using List.all_eq_true.mp h c hc
    exact dif_neg (of_decide_eq_false hupper)
  apply String.toList_inj.mp
  rw [String.toLower, String.toList_map, List.map_congr_left hsame, List.map_id]

theorem IsPlainLabel.isSmall {label : String} (h : IsPlainLabel label) :
    IsSmall label := by
  refine List.all_eq_true.mpr fun c hc => ?_
  exact (Bool.and_eq_true_iff.mp (List.all_eq_true.mp h c hc)).2

theorem isSmall_toString (number : Nat) : IsSmall (toString number) :=
  (isPlainLabel_toString number).isSmall

theorem isSmall_toString_int (index : Int) : IsSmall (toString index) := by
  cases index with
  | ofNat number => exact isSmall_toString number
  | negSucc number =>
      have hsign : IsSmall "-" := rfl
      exact hsign.append (isSmall_toString (number + 1))

theorem IsCell.isSmall {base : String} (h : IsCell base isList cell)
    (hbase : IsSmall base) : IsSmall cell := by
  have hmark : IsSmall "_" := rfl
  have hlength : IsSmall "_len" := rfl
  cases h with
  | scalar => exact hbase
  | length => exact hbase.append hlength
  | element index =>
      exact (hbase.append hmark).append (isSmall_toString_int index)

theorem isSmall_mangle {name : String} (h : isWord name.toList = true) :
    IsSmall (mangle name) :=
  (isPlainLabel_mangle h).isSmall

variable {var : StoredVariable}

theorem StoredVariable.Owns.isSmall (h : var.Owns cell)
    (hname : isWord var.name.toList = true) : IsSmall cell := by
  have hkind : IsSmall ("__sb_" ++ if var.isList then "l" else "f") := by
    cases var.isList <;> rfl
  have hmark : IsSmall "_" := rfl
  exact IsCell.isSmall h
    (((hkind.append (isSmall_toString _)).append hmark).append
      (isSmall_mangle hname))

theorem IsReserved.isSmall (h : IsReserved cell) : IsSmall cell := by
  have hhelper : IsSmall "__sb_h" := rfl
  have hargument : IsSmall "__sb_arg_" := rfl
  have hresult : IsSmall "__sb_ret_" := rfl
  cases h with
  | helper hcell => exact hcell.isSmall (hhelper.append (isSmall_toString _))
  | argument hcell =>
      exact hcell.isSmall (hargument.append (isSmall_toString _))
  | result hcell => exact hcell.isSmall (hresult.append (isSmall_toString _))
  | fixed hcell =>
      have hall : ∀ cell ∈ fixedCells, cell.toList.all (fun c => !c.isUpper) =
        true := by decide
      exact hall cell hcell

/-! A cell tells whose it is. -/

/-- What stands before the first underscore, and what after it. -/
theorem split_at_first {front front' back back' : List Char}
    (hfront : '_' ∉ front) (hfront' : '_' ∉ front')
    (h : front ++ '_' :: back = front' ++ '_' :: back') :
    front = front' ∧ back = back' := by
  have hbefore : ∀ {front : List Char} (back : List Char), '_' ∉ front →
      (front ++ '_' :: back).takeWhile (· != '_') = front := by
    intro front back hfront
    have hpass : ∀ c ∈ front, (c != '_') = true := by
      intro c hc
      simpa using fun heq : c = '_' => hfront (heq ▸ hc)
    rw [List.takeWhile_append_of_pos hpass,
      List.takeWhile_cons_of_neg (by decide), List.append_nil]
  have hsame : front = front' := by
    rw [← hbefore back hfront, h, hbefore back' hfront']
  subst hsame
  exact ⟨rfl, (List.cons.inj (List.append_cancel_left h)).2⟩

theorem split_at_last {front front' back back' : List Char} (hback : '_' ∉ back)
    (hback' : '_' ∉ back') (h : front ++ '_' :: back = front' ++ '_' :: back') :
    front = front' ∧ back = back' := by
  have hreverse := congrArg List.reverse h
  simp only [List.reverse_append, List.reverse_cons, List.append_assoc,
    List.singleton_append] at hreverse
  obtain ⟨hlast, hfirst⟩ := split_at_first (by simpa using hback)
    (by simpa using hback') hreverse
  exact ⟨List.reverse_injective hfirst, List.reverse_injective hlast⟩

theorem underscore_not_mem_toString (number : Nat) :
    '_' ∉ (toString number).toList := by
  intro hmem
  exact absurd (isDigit_of_mem_toString hmem) (by decide)

theorem underscore_not_mem_toString_int (index : Int) :
    '_' ∉ (toString index).toList := by
  cases index with
  | ofNat number => exact underscore_not_mem_toString number
  | negSucc number =>
      have hsign : (toString (Int.negSucc number)).toList =
          '-' :: (toString (number + 1)).toList := String.toList_append
      rw [hsign]
      intro hmem
      rcases List.mem_cons.mp hmem with heq | hmem
      · exact absurd heq (by decide)
      · exact underscore_not_mem_toString _ hmem

/-- The letter for the kind of a variable. -/
def kindChar (isList : Bool) : Char := if isList then 'l' else 'f'

theorem toList_storageName (number : Nat) (name : String) (isList : Bool) :
    (storageName number name isList).toList =
      "__sb_".toList ++ kindChar isList :: ((toString number).toList ++ '_' ::
        mangleChars name.toList) := by
  cases isList <;> simp [storageName, mangle, kindChar]

/-- The cells of a list go on with an underscore and a mark that has none. -/
theorem IsCell.toList_eq {base : String} (h : IsCell base true cell) :
    ∃ mark, '_' ∉ mark ∧ cell.toList = base.toList ++ '_' :: mark := by
  cases h with
  | length => exact ⟨"len".toList, by decide, String.toList_append⟩
  | element index =>
      refine ⟨(toString index).toList,
        underscore_not_mem_toString_int index, ?_⟩
      rw [String.toList_append, String.toList_append, List.append_assoc]
      rfl

theorem IsCell.eq_base {base : String} (h : IsCell base false cell) :
    cell = base := by
  cases h
  rfl

/-- What follows the number in a cell. -/
theorem StoredVariable.Owns.toList_eq (h : var.Owns cell) :
    ∃ tail, cell.toList = "__sb_".toList ++ kindChar var.isList ::
        ((toString var.number).toList ++ '_' :: tail) ∧
      (var.isList = false → tail = mangleChars var.name.toList) ∧
      (var.isList = true → ∃ mark, '_' ∉ mark ∧
        tail = mangleChars var.name.toList ++ '_' :: mark) := by
  obtain ⟨number, name, isList⟩ := var
  cases isList with
  | false =>
      obtain rfl := IsCell.eq_base h
      exact ⟨_, toList_storageName number name false,
        fun _ => rfl, fun hlist => by cases hlist⟩
  | true =>
      obtain ⟨mark, hmark, hcell⟩ := IsCell.toList_eq h
      refine ⟨_, ?_, fun hscalar => (by cases hscalar),
        fun _ => ⟨mark, hmark, rfl⟩⟩
      rw [hcell, toList_storageName]
      simp

/-- No two variables own the same cell. -/
theorem StoredVariable.eq_of_owns {other : StoredVariable} (h : var.Owns cell)
    (hother : other.Owns cell) : var = other := by
  obtain ⟨tail, hcell, hscalar, hlist⟩ := h.toList_eq
  obtain ⟨tail', hcell', hscalar', hlist'⟩ := hother.toList_eq
  rw [hcell] at hcell'
  obtain ⟨hkind, hrest⟩ := List.cons.inj (List.append_cancel_left hcell')
  obtain ⟨hdigits, rfl⟩ := split_at_first (underscore_not_mem_toString _)
    (underscore_not_mem_toString _) hrest
  have hnumber : var.number = other.number :=
    toString_nat_inj (String.toList_inj.mp hdigits)
  have hsame : var.isList = other.isList := by
    revert hkind
    cases var.isList <;> cases other.isList <;> decide
  have hmangled : mangleChars var.name.toList =
      mangleChars other.name.toList := by
    cases hkind' : var.isList with
    | false => rw [← hscalar hkind', ← hscalar' (hsame ▸ hkind')]
    | true =>
        obtain ⟨mark, hmark, htail⟩ := hlist hkind'
        obtain ⟨mark', hmark', htail'⟩ := hlist' (hsame ▸ hkind')
        exact (split_at_last hmark hmark' (htail.symm.trans htail')).1
  have hname : var.name = other.name :=
    mangle_inj (congrArg String.ofList hmangled)
  obtain ⟨number, name, isList⟩ := var
  obtain ⟨number', name', isList'⟩ := other
  subst hnumber hname hsame
  rfl

/-- Whether a name has the form of a program variable's cell: after the common
start, the letter of a kind and a digit. -/
def isOwnedForm (chars : List Char) : Bool :=
  match chars.drop 5 with
  | kind :: digit :: _ => (kind == 'f' || kind == 'l') && digit.isDigit
  | _ => false

theorem StoredVariable.Owns.isOwnedForm (h : var.Owns cell) :
    isOwnedForm cell.toList = true := by
  obtain ⟨tail, hcell, _⟩ := h.toList_eq
  obtain ⟨digit, digits, hdigits⟩ :=
    List.exists_cons_of_ne_nil (toString_nat_ne_nil var.number)
  have hdigit : digit.isDigit = true :=
    isDigit_of_mem_toString (hdigits ▸ List.mem_cons_self)
  rw [hcell, hdigits]
  cases hkind : var.isList <;> simp [Batch.isOwnedForm, kindChar, hdigit]

/-- A cell starts as its base does. -/
theorem IsCell.exists_eq_append {base : String} (h : IsCell base isList cell) :
    ∃ rest, cell.toList = base.toList ++ rest := by
  cases isList with
  | false => exact ⟨[], by rw [h.eq_base, List.append_nil]⟩
  | true =>
      obtain ⟨mark, _, hcell⟩ := h.toList_eq
      exact ⟨_, hcell⟩

theorem IsReserved.not_isOwnedForm (h : IsReserved cell) :
    isOwnedForm cell.toList = false := by
  cases h with
  | helper hcell =>
      obtain ⟨rest, hrest⟩ := hcell.exists_eq_append
      rw [hrest]
      simp only [isOwnedForm, String.toList_append, List.append_assoc]
      split
      · next kind digit _ hdrop =>
          obtain rfl : kind = 'h' := (List.cons.inj hdrop).1.symm
          rfl
      · rfl
  | argument hcell =>
      obtain ⟨rest, hrest⟩ := hcell.exists_eq_append
      rw [hrest]
      simp [isOwnedForm, argumentSlot]
  | result hcell =>
      obtain ⟨rest, hrest⟩ := hcell.exists_eq_append
      rw [hrest]
      simp [isOwnedForm, resultSlot]
  | fixed hcell =>
      have hall : ∀ cell ∈ fixedCells, isOwnedForm cell.toList =
        false := by decide
      exact hall cell hcell

/-- Storage never aliases.  Two variables of the program have no cell in common,
whatever capitals they are written with, and none is a cell of the script's own;
mangled names can be told apart in the same way. -/
theorem batch_storage_never_aliases {var other : StoredVariable}
    (hname : isWord var.name.toList = true)
    (hother : isWord other.name.toList = true) :
    (var ≠ other → ∀ cell cell', var.Owns cell → other.Owns cell' →
      cell.toLower ≠ cell'.toLower) ∧
    (∀ cell reserved, var.Owns cell → IsReserved reserved →
      cell.toLower ≠ reserved.toLower) ∧
    ((mangle var.name).toLower = (mangle other.name).toLower →
      var.name = other.name) := by
  refine ⟨fun hne cell cell' hcell hcell' hsame => ?_,
    fun cell reserved hcell hreserved hsame => ?_,
    fun hsame => ?_⟩
  · rw [(hcell.isSmall hname).toLower, (hcell'.isSmall hother).toLower] at hsame
    subst hsame
    exact hne (StoredVariable.eq_of_owns hcell hcell')
  · rw [(hcell.isSmall hname).toLower, hreserved.isSmall.toLower] at hsame
    subst hsame
    have hform := hcell.isOwnedForm
    rw [hreserved.not_isOwnedForm] at hform
    cases hform
  · rw [(isSmall_mangle hname).toLower, (isSmall_mangle hother).toLower]
      at hsame
    exact mangle_inj hsame

/-- The length of the list `s` and the number `s_len` are apart. -/
theorem batch_storage_never_aliases_length :
    isWord "s".toList = true ∧ isWord "s_len".toList = true ∧
      (⟨0, "s", true⟩ : StoredVariable).Owns "__sb_l0_s_len" ∧
      (⟨0, "s_len", false⟩ : StoredVariable).Owns "__sb_f0_s__len" ∧
      "__sb_l0_s_len".toLower ≠ "__sb_f0_s__len".toLower := by
  have hlist : storageName 0 "s" true ++ "_len" = "__sb_l0_s_len" := by
    decide +kernel
  have hscalar : storageName 0 "s_len" false = "__sb_f0_s__len" := by
    decide +kernel
  have howns : (⟨0, "s", true⟩ : StoredVariable).Owns "__sb_l0_s_len" :=
    hlist ▸ IsCell.length
  have howns' : (⟨0, "s_len", false⟩ : StoredVariable).Owns "__sb_f0_s__len" :=
    hscalar ▸ IsCell.scalar
  have hwords : isWord "s".toList = true ∧
    isWord "s_len".toList = true := by decide
  exact ⟨hwords.1, hwords.2, howns, howns',
    (batch_storage_never_aliases hwords.1 hwords.2).1
    (by decide) _ _ howns howns'⟩

end Batch

end Shellwright
