/-
Texts of a batch script.  A safe text is made of harmless characters and of
reads of variables.  Here is the grammar of all lines a program can give rise
to: they are put together from fixed words, names and safe texts, but for two
places where any text may stand, the value of a literal and the programs of a
pipeline.
-/
import Shellwright.Proofs.Batch.Cells
import Shellwright.Proofs.Fragment.Recorded

namespace Shellwright

namespace Batch

variable {base cell : String} {command : Command} {operation : Operation}
  {own : Nat → Prop} {args : List String}

open Script (Operation)

/-- The helper variable with a number. -/
def helperName (number : Nat) : String := "__sb_h" ++ toString number

/-- A name for a variable of the script. -/
structure IsName (text : String) : Prop where
  nonempty : text.toList ≠ []
  word : ∀ c ∈ text.toList, isWordChar c = true

/-- Safe characters and reads of variables; `finished number isList` tells which
helpers may be among these, as values and as lists. -/
inductive IsSafe (finished : Nat → Bool → Prop) : List Char → Prop where
  | nil : IsSafe finished []
  | char {c rest} : isSafeChar c = true → IsSafe finished rest →
      IsSafe finished (c :: rest)
  | read {name rest} : IsName name →
      (∀ number, name = helperName number → finished number false) →
      IsSafe finished rest →
        IsSafe finished ('!' :: (name.toList ++ '!' :: rest))

/-- What may stand for a value, or for a list: a safe text, or the name of a
list. -/
def IsFragment (finished : Nat → Bool → Prop) (isList : Bool)
    (text : String) : Prop :=
  if isList then
    IsName text ∧ ∀ number, text = helperName number → finished number true
  else
    IsSafe finished text.toList

/-- A safe text that may read any helper. -/
def IsSafeText (text : String) : Prop := IsSafe (fun _ _ => True) text.toList

/-! The parts of lines. -/

/-- Under these names an operation puts values: its own helpers, variables of
the program, and the places where values are handed over. -/
inductive IsStorage (own : Nat → Prop) : String → Prop where
  | helper {number} : own number → IsStorage own (helperName number)
  | stored {number name isList} : isWord name.toList = true →
      IsStorage own (storageName number name isList)
  | argument (place) : IsStorage own (argumentSlot place)
  | result (place) : IsStorage own (resultSlot place)
  | element : IsStorage own "__sb_set_value"
  | default : IsStorage own "__sb_set_default"

/-- A single variable of the script that an operation sets. -/
def IsTarget (own : Nat → Prop) (cell : String) : Prop :=
  ∃ base isList, IsStorage own base ∧ IsCell base isList cell

/-- The condition of an `if`. -/
inductive IsTest : String → Prop where
  | truth {value} : IsSafeText value → IsTest (isTrue value)
  | both {left right} : IsSafeText left → IsSafeText right →
      IsTest (isTrue left ++ " if " ++ isTrue right)
  | order {left right} (op) : IsSafeText left → IsSafeText right →
      IsTest (left ++ " " ++ comparisonWord op ++ " " ++ right)
  | same {left right} : IsSafeText left → IsSafeText right →
      IsTest ("\"" ++ left ++ "\"==\"" ++ right ++ "\"")
  | differ {left right} : IsSafeText left → IsSafeText right →
      IsTest ("not " ++ ("\"" ++ left ++ "\"==\"" ++ right ++ "\""))
  | file {path} : IsSafeText path → IsTest ("exist \"" ++ path ++ "\"")

/-- The right side of a `set /a`. -/
inductive IsArithmetic : String → Prop where
  | value {text} : IsSafeText text → IsArithmetic text
  | negated {text} : IsSafeText text → IsArithmetic ("-(" ++ text ++ ")")
  | binary {left right} (op) : IsSafeText left → IsSafeText right →
      IsArithmetic ("(" ++ left ++ ")" ++ arithmeticSymbol op ++ "(" ++
        right ++ ")")
  | next {text} : IsSafeText text → IsArithmetic ("(" ++ text ++ ")+1")

/-- What a subroutine is called with. -/
inductive IsArgument : String → Prop where
  | value {text} : IsSafeText text → IsArgument text
  | quoted {text} : IsSafeText text → IsArgument ("\"" ++ text ++ "\"")

/-- The subroutines that put a value into their last argument. -/
def valueRoutines : List String :=
  ["__sb_list_len", "__sb_strlen", "__sb_substr", "__sb_read_file"]

/-- The arguments of a call. -/
inductive IsCall (own : Nat → Prop) : String → List String → Prop where
  | function {label} : IsCall own label []
  | value {label inputs target} : label ∈ valueRoutines →
      (∀ input ∈ inputs, IsArgument input) →
      IsStorage own target → IsCall own label (inputs ++ [target])
  | copy {source target} : IsSafeText source → IsStorage own target →
      IsCall own "__sb_list_copy" [source, target]
  | element {list index} : IsStorage own list → IsSafeText index →
      IsCall own "__sb_list_set" [list, index]

/-- An argument of a pipeline stage. -/
inductive IsStageWord : String → Prop where
  | plain {text} : isPlainWord text = true → IsStageWord text
  | read {name} : IsName name → IsStageWord ("\"%" ++ name ++ "%\"")

/-- A stage of a pipeline: the program and its arguments. -/
def IsStage (program text : String) : Prop :=
  ∃ words : List String, (∀ word ∈ words, IsStageWord word) ∧
    text = String.intercalate " " (programWord program :: words)

/-- A command line that runs the programs one behind the other. -/
def IsPipeline (programs : List String) (line : String) : Prop :=
  ∃ stages, List.Forall₂ IsStage programs stages ∧
    line = String.intercalate " | " stages

/-- The lines of an operation.  `own` are the numbers of the helpers it has
made. -/
def Command.IsClean (operation : Operation) (own : Nat → Prop) : Command → Prop
  | .flow (.label name) => IsPlainLabel name
  | .flow (.jump target) => IsPlainLabel target
  | .flow (.jumpUnless condition target) =>
      IsSafeText condition ∧ IsPlainLabel target
  | .call label args => IsPlainLabel label ∧ IsCall own label args
  | .set cell value =>
      IsTarget own cell ∧ IsSafeText value ∨
        ∃ literal number, operation = .literal literal ∧ own number ∧
          cell = helperName number ∧ value = escape literal
  | .setArithmetic cell expression =>
      IsTarget own cell ∧ IsArithmetic expression
  | .setIf test cell value => IsTest test ∧ IsTarget own cell ∧ IsSafeText value
  | .fetchElement cell list index =>
      IsTarget own cell ∧ IsName list ∧ IsSafeText index
  | .readLine cell prompt => IsTarget own cell ∧ IsSafeText prompt
  | .echo text => IsSafeText text
  | .writeFile path content _ => IsSafeText path ∧ IsSafeText content
  | .discardFile path => IsSafeText path
  | .run line | .capture line _ =>
      ∃ programs, operation = .pipeline programs ∧ IsPipeline programs line
  | .comeBack | .quit | .exit _ | .nothing => True
  | .removeCaptured | .verbatim _ => False

/-- The line gives a value to the variable `base`, or sets up a list of that
name. -/
def Command.Defines (base : String) (isList : Bool) : Command → Prop
  | .set cell _ => cell = if isList then base ++ "_len" else base
  | .setArithmetic cell _ | .fetchElement cell _ _ | .readLine cell _ =>
      isList = false ∧ cell = base
  | .call label args =>
      args.getLast? = some base ∧
        if isList then label = "__sb_list_copy" else label ∈ valueRoutines
  | _ => False

/-- The line puts something into the variable `base` or into the list of that
name. -/
def Command.Fills (base : String) : Command → Prop
  | .set cell _ | .setArithmetic cell _ | .setIf _ cell _
  | .fetchElement cell _ _ | .readLine cell _ =>
      ∃ isList, IsCell base isList cell
  | .call label args =>
      label ∈ "__sb_list_copy" :: valueRoutines ∧ args.getLast? = some base ∨
        label = "__sb_list_set" ∧ args.head? = some base
  | _ => False

/-! Safe texts. -/

section Safe

variable {finished wider : Nat → Bool → Prop} {text : String}
  {chars more : List Char}

theorem IsSafe.mono (h : IsSafe finished chars)
    (hwider : ∀ number isList, finished number isList → wider number isList) :
    IsSafe wider chars := by
  induction h with
  | nil => exact .nil
  | char hc _ ih => exact .char hc ih
  | read hname hfinished _ ih =>
      exact .read hname
        (fun number heq => hwider number false (hfinished number heq)) ih

theorem IsSafe.append (h : IsSafe finished chars)
    (hmore : IsSafe finished more) : IsSafe finished (chars ++ more) := by
  induction h with
  | nil => exact hmore
  | char hc _ ih => exact .char hc ih
  | @read name rest hname hfinished _ ih =>
      rw [List.cons_append, List.append_assoc, List.cons_append]
      exact .read hname hfinished ih

theorem IsSafe.of_all (h : ∀ c ∈ chars, isSafeChar c = true) :
    IsSafe finished chars := by
  induction chars with
  | nil => exact .nil
  | cons c rest ih =>
      obtain ⟨hc, hrest⟩ := List.forall_mem_cons.mp h
      exact .char hc (ih hrest)

theorem isSafeChar_of_isWordChar {c : Char} (h : isWordChar c = true) :
    isSafeChar c = true := by
  simp only [isWordChar, isSafeChar, Bool.or_eq_true, beq_iff_eq] at h ⊢
  rcases h with h | rfl
  · exact .inl h
  · exact .inr (by decide)

theorem IsFragment.mono {isList : Bool} (h : IsFragment finished isList text)
    (hwider : ∀ number isList, finished number isList → wider number isList) :
    IsFragment wider isList text := by
  cases isList with
  | true => exact ⟨h.1, fun number heq => hwider number true (h.2 number heq)⟩
  | false => exact IsSafe.mono h hwider

theorem IsName.isSafeText (h : IsName text) : IsSafeText text :=
  .of_all fun c hc => isSafeChar_of_isWordChar (h.word c hc)

/-- Whatever stands for a value or a list may be pasted into a line. -/
theorem IsFragment.isSafeText {isList : Bool}
    (h : IsFragment finished isList text) : IsSafeText text := by
  cases isList with
  | true => exact IsName.isSafeText h.1
  | false => exact IsSafe.mono h fun _ _ _ => trivial

theorem IsSafeText.append {other : String} (h : IsSafeText text)
    (hother : IsSafeText other) : IsSafeText (text ++ other) := by
  unfold IsSafeText
  rw [String.toList_append]
  exact IsSafe.append h hother

theorem isSafe_read {name : String} (hname : IsName name)
    (hfinished : ∀ number, name = helperName number → finished number false) :
    IsSafe finished (read name).toList := by
  unfold read
  rw [String.toList_append, String.toList_append, List.append_assoc]
  exact .read hname hfinished .nil

theorem isSafeText_read {name : String} (hname : IsName name) :
    IsSafeText (read name) :=
  isSafe_read hname fun _ _ => trivial

theorem isSafeChar_of_isDigit {c : Char} (h : c.isDigit = true) :
    isSafeChar c = true :=
  isSafeChar_of_isWordChar
    (Bool.and_eq_true_iff.mp (isLabelChar_of_isDigit h)).1

theorem isSafe_toString (number : Nat) :
    IsSafe finished (toString number).toList :=
  .of_all fun _ hc => isSafeChar_of_isDigit (isDigit_of_mem_toString hc)

theorem isSafe_toString_int (value : Int) :
    IsSafe finished (toString value).toList := by
  cases value with
  | ofNat number => exact isSafe_toString number
  | negSucc number =>
      have hsign : (toString (Int.negSucc number)).toList =
          '-' :: (toString (number + 1)).toList := String.toList_append
      rw [hsign]
      exact .char rfl (isSafe_toString _)

theorem isSafeText_of_all (h : text.toList.all isSafeChar = true) :
    IsSafeText text :=
  .of_all (List.all_eq_true.mp h)

theorem isSafeText_defaultText (ty : ValueType) :
    IsSafeText ty.defaultText := by
  unfold ValueType.defaultText
  split
  · exact .char rfl .nil
  · exact .char rfl .nil
  · exact .nil

end Safe

/-! Names. -/

theorem IsPlainLabel.isName {label : String} (h : IsPlainLabel label)
    (hne : label.toList ≠ []) : IsName label :=
  ⟨hne, h.isWordChar⟩

/-- A fixed start with something plain behind it. -/
theorem IsPlainLabel.isName_append {start rest : String}
    (hstart : IsPlainLabel start) (hne : start.toList ≠ [])
    (hrest : IsPlainLabel rest) : IsName (start ++ rest) :=
  (hstart.append hrest).isName (by simp [hne])

theorem isName_helperName (number : Nat) : IsName (helperName number) :=
  IsPlainLabel.isName_append rfl (by decide) (isPlainLabel_toString number)

theorem helperName_inj {number other : Nat}
    (h : helperName number = helperName other) : number = other := by
  apply toString_nat_inj
  apply String.toList_inj.mp
  simpa [helperName] using congrArg String.toList h

theorem isPlainLabel_storageName {number : Nat} {name : String} {isList : Bool}
    (h : isWord name.toList = true) :
    IsPlainLabel (storageName number name isList) := by
  have hkind : IsPlainLabel ("__sb_" ++ if isList then "l" else "f") := by
    cases isList <;> rfl
  have hmark : IsPlainLabel "_" := rfl
  exact ((hkind.append (isPlainLabel_toString number)).append hmark).append
    (isPlainLabel_mangle h)

theorem isName_storageName {number : Nat} {name : String} {isList : Bool}
    (h : isWord name.toList = true) : IsName (storageName number name isList) :=
  (isPlainLabel_storageName h).isName (by simp [storageName])

/-- No variable of the program is a helper. -/
theorem storageName_ne_helperName (number : Nat) (name : String) (isList : Bool)
    (other : Nat) : storageName number name isList ≠ helperName other := by
  intro h
  have hchars := congrArg String.toList h
  rw [toList_storageName] at hchars
  cases isList <;> simp [helperName, kindChar] at hchars

theorem isName_argumentSlot (place : Nat) : IsName (argumentSlot place) :=
  IsPlainLabel.isName_append rfl (by decide) (isPlainLabel_toString place)

theorem isName_resultSlot (place : Nat) : IsName (resultSlot place) :=
  IsPlainLabel.isName_append rfl (by decide) (isPlainLabel_toString place)

/-- The name in a fragment that is nothing but a read. -/
theorem isName_of_plainRead? {text name : String}
    (h : plainRead? text = some name) : IsName name := by
  unfold plainRead? at h
  dsimp only at h
  split at h
  · next rest _ =>
      split at h
      · next hread =>
          cases h
          simp only [Bool.and_eq_true, decide_eq_true_eq, Bool.not_eq_true',
            List.isEmpty_eq_false_iff] at hread
          refine ⟨by rw [String.toList_ofList]; exact hread.1.2, ?_⟩
          rw [String.toList_ofList]
          exact List.all_eq_true.mp hread.2
      · cases h
  · cases h

theorem isPlainLabel_of_mem_valueRoutines {label : String}
    (h : label ∈ valueRoutines) : IsPlainLabel label := by
  have hall : ∀ label ∈ valueRoutines, label.toList.all isLabelChar =
    true := by decide
  exact hall label h

/-! Helpers share their cells with nothing else. -/

theorem IsCell.base_isPrefix {isList : Bool} (h : IsCell base isList cell) :
    base.toList <+: cell.toList := by
  cases isList with
  | false => exact h.eq_base ▸ List.prefix_rfl
  | true =>
      obtain ⟨mark, _, hcell⟩ := h.toList_eq
      exact ⟨_, hcell.symm⟩

/-- The number of a helper ends at the first underscore, or with the cell. -/
theorem toList_helperName_cell {number : Nat} {isList : Bool}
    (h : IsCell (helperName number) isList cell) :
    ∃ back, cell.toList ++ ['_'] =
      "__sb_h".toList ++ ((toString number).toList ++ '_' :: back) := by
  cases isList with
  | false => exact ⟨[], by simp [h.eq_base, helperName]⟩
  | true =>
      obtain ⟨mark, _, hcell⟩ := h.toList_eq
      exact ⟨mark ++ ['_'], by simp [hcell, helperName]⟩

theorem number_eq_of_isCell {number other : Nat} {isList isList' : Bool}
    (h : IsCell (helperName number) isList cell)
    (h' : IsCell (helperName other) isList' cell) : number = other := by
  obtain ⟨back, hback⟩ := toList_helperName_cell h
  obtain ⟨back', hback'⟩ := toList_helperName_cell h'
  have hdigits := List.append_cancel_left (hback.symm.trans hback')
  obtain ⟨hsame, _⟩ := split_at_first (underscore_not_mem_toString number)
    (underscore_not_mem_toString other) hdigits
  exact toString_nat_inj (String.toList_inj.mp hsame)

/-- Only the helpers among the storages begin like one. -/
theorem IsStorage.own_of_isCell {number : Nat} {isList isList' : Bool}
    (h : IsStorage own base) (hcell : IsCell base isList cell)
    (hhelper : IsCell (helperName number) isList' cell) : own number := by
  obtain ⟨_, hrest⟩ := hcell.base_isPrefix
  obtain ⟨_, hrest'⟩ := hhelper.base_isPrefix
  rw [← hrest', helperName] at hrest
  cases h with
  | helper hown => exact number_eq_of_isCell hhelper hcell ▸ hown
  | @stored _ _ isList =>
      rw [toList_storageName] at hrest
      cases isList <;> simp [kindChar] at hrest
  | argument => simp [argumentSlot] at hrest
  | result => simp [resultSlot] at hrest
  | element => simp at hrest
  | default => simp at hrest

theorem IsTarget.own_of_isCell {number : Nat} {isList : Bool}
    (h : IsTarget own cell) (hcell : IsCell (helperName number) isList cell) :
    own number := by
  obtain ⟨base, isList', hbase, hcell'⟩ := h
  exact hbase.own_of_isCell hcell' hcell

theorem IsStorage.own_of_eq {number : Nat} (h : IsStorage own base)
    (heq : base = helperName number) : own number := by
  subst heq
  exact h.own_of_isCell .scalar .scalar

theorem IsCall.own_of_fills {label : String} {number : Nat}
    (h : IsCall own label args)
    (hfills : (Command.call label args).Fills (helperName number)) :
    own number := by
  cases h with
  | function => rcases hfills with ⟨_, hlast⟩ | ⟨_, hfirst⟩ <;> contradiction
  | @value _ inputs target hlabel _ htarget =>
      rcases hfills with ⟨_, hlast⟩ | ⟨rfl, _⟩
      · rw [List.getLast?_concat] at hlast
        exact htarget.own_of_eq (Option.some.inj hlast)
      · contradiction
  | copy _ htarget =>
      rcases hfills with ⟨_, hlast⟩ | ⟨hlabel, _⟩
      · exact htarget.own_of_eq (Option.some.inj hlast)
      · contradiction
  | element hlist =>
      rcases hfills with ⟨hlabel, _⟩ | ⟨_, hfirst⟩
      · contradiction
      · exact hlist.own_of_eq (Option.some.inj hfirst)

/-- A clean line fills no helper but those of its own operation. -/
theorem Command.IsClean.own_of_fills {number : Nat}
    (h : command.IsClean operation own)
    (hfills : command.Fills (helperName number)) : own number := by
  cases command with
  | call label args => exact h.2.own_of_fills hfills
  | set cell value =>
      obtain ⟨isList, hcell⟩ := hfills
      rcases h with ⟨htarget, _⟩ | ⟨_, other, _, hown, rfl, _⟩
      · exact htarget.own_of_isCell hcell
      · exact number_eq_of_isCell .scalar hcell ▸ hown
  | setArithmetic cell expression =>
      exact hfills.elim fun _ => h.1.own_of_isCell
  | setIf test cell value => exact hfills.elim fun _ => h.2.1.own_of_isCell
  | fetchElement cell list index => exact hfills.elim fun _ => h.1.own_of_isCell
  | readLine cell prompt => exact hfills.elim fun _ => h.1.own_of_isCell
  | _ => exact hfills.elim

/-! More helpers do not hurt a line. -/

section Mono

variable {own wider : Nat → Prop}

theorem IsStorage.mono (hwider : ∀ number, own number → wider number)
    (h : IsStorage own base) : IsStorage wider base := by
  cases h with
  | helper hown => exact .helper (hwider _ hown)
  | stored hname => exact .stored hname
  | argument place => exact .argument place
  | result place => exact .result place
  | element => exact .element
  | default => exact .default

theorem IsTarget.mono (hwider : ∀ number, own number → wider number)
    (h : IsTarget own cell) : IsTarget wider cell := by
  obtain ⟨base, isList, hbase, hcell⟩ := h
  exact ⟨base, isList, hbase.mono hwider, hcell⟩

theorem IsCall.mono (hwider : ∀ number, own number → wider number)
    {label : String} (h : IsCall own label args) : IsCall wider label args := by
  cases h with
  | function => exact .function
  | value hlabel hinputs htarget =>
      exact .value hlabel hinputs (htarget.mono hwider)
  | copy hsource htarget => exact .copy hsource (htarget.mono hwider)
  | element hlist hindex => exact .element (hlist.mono hwider) hindex

theorem Command.IsClean.mono (hwider : ∀ number, own number → wider number)
    (h : command.IsClean operation own) : command.IsClean operation wider := by
  cases command with
  | flow instruction => cases instruction <;> exact h
  | call label args => exact ⟨h.1, h.2.mono hwider⟩
  | set cell value =>
      rcases h with ⟨hcell, hvalue⟩ | ⟨literal, number, hoperation, hown,
        hcell, hvalue⟩
      · exact .inl ⟨hcell.mono hwider, hvalue⟩
      · exact .inr ⟨literal, number, hoperation, hwider number hown,
          hcell, hvalue⟩
  | setArithmetic cell expression => exact ⟨h.1.mono hwider, h.2⟩
  | setIf test cell value => exact ⟨h.1, h.2.1.mono hwider, h.2.2⟩
  | fetchElement cell list index => exact ⟨h.1.mono hwider, h.2⟩
  | readLine cell prompt => exact ⟨h.1.mono hwider, h.2⟩
  | _ => exact h

end Mono

end Batch

end Shellwright
