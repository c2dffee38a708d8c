/-
The operations of the batch dialect, one by one.  Given safe texts, each writes
clean lines only and returns fragments; it finishes the helpers they read before
it returns.
-/
import Shellwright.Proofs.Batch.Working

namespace Shellwright

namespace Batch

variable {count place : Nat} {used : Bool}
  {base first fragment index left list name path right value : String}
  {op : CompareOp} {ty : ValueType} {own : Nat → Prop} {params : List Binding}
  {returns : List ValueType} {stages : List Invocation}
  {values : List (String × ValueType)}

open Script (Contract Operation exec)

open State

variable {operation : Operation} {known : Nat → Bool → Prop}
  {start s s' : State}

/-! Parts of lines. -/

theorem IsStorage.isTarget (h : IsStorage own base) : IsTarget own base :=
  ⟨base, false, h, .scalar⟩

theorem IsStorage.isTarget_length (h : IsStorage own base) :
    IsTarget own (base ++ "_len") :=
  ⟨base, true, h, .length⟩

theorem IsStorage.isTarget_element (h : IsStorage own base) (place : Nat) :
    IsTarget own (base ++ "_" ++ toString place) :=
  ⟨base, true, h, .element place⟩

theorem set_isClean {cell : String} (hcell : IsTarget own cell)
    (hvalue : IsSafeText value) :
    (Command.set cell value).IsClean operation own :=
  .inl ⟨hcell, hvalue⟩

/-- A subroutine that puts its result into a helper. -/
theorem routine_gives (label : String) (inputs : List String)
    (hlabel : label ∈ valueRoutines)
    (hinputs : ∀ input ∈ inputs, IsArgument input) :
    (inOperation operation known start).Gives s false (do
      let name ← helper
      emit (.call label (inputs ++ [name]))
      return read name) := fun hs =>
  helper_read_working hs (fun _ _ _ hname =>
      ⟨isPlainLabel_of_mem_valueRoutines hlabel,
        .value hlabel hinputs hname.isStorage⟩)
    fun _ => ⟨List.getLast?_concat, hlabel⟩

/-! Literals and variables. -/

theorem boolLiteral_gives {value : Bool} :
    (inOperation operation known start).Gives s false
    (return if value then "1" else "0") := by
  intro hs
  cases value <;> exact .pure hs (.char rfl .nil)

theorem intLiteral_gives {value : Int} :
    (inOperation operation known start).Gives s false (return toString value) :=
  fun hs => .pure hs (isSafe_toString_int value)

/-- A text in a helper of its own.  What may be stored depends on the
operation. -/
theorem store_working (hs : Working operation start s)
    (hclean : ∀ number s', Allocated start s' number → (Command.set
      (helperName number) value).IsClean operation (Allocated start s')) :
    (inOperation operation known start).Ensures s (store value) fun name s' =>
      IsHelper start s' name ∧ Command.set name value ∈ since start s' := by
  refine .bind (helper_working hs) fun name s₁ hs₁ _ hname => ?_
  obtain ⟨number, hallocated, rfl⟩ := hname
  refine .bind (emit_working hs₁ (hclean number s₁ hallocated))
    fun _ s₂ hs₂ hgrows hcommand => ?_
  exact .pure hs₂ ⟨⟨number, hallocated.mono hgrows, rfl⟩, hcommand⟩

/-- The only line in which the text of a literal can stand. -/
theorem stringLiteral_gives :
    (inOperation (.literal value) known start).Gives s false
    (stringLiteral value) := by
  intro hs
  have hstored : ∀ {s}, Working (.literal value) start s →
      (inOperation (.literal value) known start).Ensures s
        (do return read (← store (escape value)))
        fun text s' => IsFragment (Finished known start s') false text :=
    fun hs =>
      .bind (store_working hs fun number _ hallocated =>
        .inr ⟨value, number, rfl, hallocated, rfl, rfl⟩) fun _ _ hs' _ hname =>
          .pure hs' (hname.1.isFragment_read hname.2 rfl)
  refine .ite (fun hsafe => .pure hs (.of_all (List.all_eq_true.mp hsafe)))
    fun _ => .ite ?_ ?_
  · exact fun _ => .bind (require_working hs) fun _ _ hs' _ _ => hstored hs'
  · exact fun _ => hstored hs

/-- Puts a value, or a copy of a list, into a storage. -/
theorem fill_keeps {isList : Bool} (hbase : IsStorage (Allocated start s) base)
    (hvalue : IsSafeText value) :
    (inOperation operation known start).Keeps s
      (if isList then copyListTo value base else emit (.set base value)) :=
  fun hs =>
    .ite (fun _ => (copyListTo_working hs hvalue hbase).weaken
      fun _ _ _ _ => trivial)
      fun _ => emit_keeps (set_isClean hbase.isTarget hvalue) hs

theorem defineVariable_keeps {value : Option String}
    (hname : isWord name.toList = true)
    (hvalue : ∀ text ∈ value, IsSafeText text) :
    (inOperation operation known start).Keeps s
    (defineVariable name ty value) := by
  intro hs
  refine .bind (declareLocal_working hs) fun _ s₁ hs₁ _ _ => ?_
  refine .bind (variableName_working hs₁) fun var s₂ hs₂ _ hvar => ?_
  obtain ⟨number, rfl⟩ := hvar
  have hstorage : IsStorage (Allocated start s₂)
      (storageName number name ty.isList) :=
    .stored hname
  cases value with
  | some source => exact fill_keeps hstorage (hvalue source rfl) hs₂
  | none =>
      refine .ite (fun _ => ?_) fun _ => ?_
      · exact emit_keeps (set_isClean hstorage.isTarget_length
          (isSafeText_of_all (by decide))) hs₂
      · exact emit_keeps (set_isClean hstorage.isTarget
          (isSafeText_defaultText ty)) hs₂

theorem assignVariable_keeps (hname : isWord name.toList = true)
    (hvalue : IsSafeText value) :
    (inOperation operation known start).Keeps s
    (assignVariable name ty value) := by
  intro hs
  refine .bind (variableName_working hs) fun var s₁ hs₁ _ hvar => ?_
  obtain ⟨number, rfl⟩ := hvar
  exact fill_keeps (.stored hname) hvalue hs₁

theorem storeElement_keeps {element : ValueType}
    (hname : isWord name.toList = true) (hindex : IsSafeText index)
    (hvalue : IsSafeText value) :
    (inOperation operation known start).Keeps s
    (storeElement name element index value) := by
  intro hs
  refine .bind (require_working hs) fun _ s₁ hs₁ _ _ => ?_
  refine .bind (variableName_working hs₁) fun var s₂ hs₂ _ hvar => ?_
  obtain ⟨number, rfl⟩ := hvar
  refine .bind (emit_keeps (set_isClean IsStorage.element.isTarget hvalue) hs₂)
    fun _ s₃ hs₃ _ _ => ?_
  refine .bind (emit_keeps (set_isClean IsStorage.default.isTarget
    (isSafeText_defaultText element)) hs₃) fun _ s₄ hs₄ _ _ => ?_
  exact emit_keeps ⟨rfl, .element (.stored hname) hindex⟩ hs₄

theorem readVariable_gives (hname : isWord name.toList = true) :
    (inOperation operation known start).Gives s ty.isList
    (readVariable name ty) := by
  intro hs
  refine .bind (variableName_working hs) fun var s₁ hs₁ _ hvar => .pure hs₁ ?_
  obtain ⟨number, rfl⟩ := hvar
  have hfree : ∀ other, storageName number name ty.isList ≠ helperName other :=
    storageName_ne_helperName number name ty.isList
  cases hlist : ty.isList with
  | true =>
      rw [hlist] at hfree
      exact ⟨isName_storageName hname,
        fun other heq => absurd heq (hfree other)⟩
  | false =>
      rw [hlist] at hfree
      exact isSafe_read (isName_storageName hname)
        fun other heq => absurd heq (hfree other)

theorem readElement_gives (hlist : IsName list) (hindex : IsSafeText index) :
    (inOperation operation known start).Gives s false
    (readElement list index) := fun hs =>
  helper_read_working hs (fun _ _ _ hname => ⟨hname.isTarget, hlist, hindex⟩)
    fun _ => ⟨rfl, rfl⟩

/-! Functions. -/

theorem bindParameters_keeps
    (hparams : ∀ param ∈ params, isWord param.name.toList = true) :
    (inOperation operation known start).Keeps s
    (bindParameters place params) := by
  intro hs
  induction params generalizing s place with
  | nil => exact .pure hs trivial
  | cons param params ih =>
      obtain ⟨hname, hparams⟩ := List.forall_mem_cons.mp hparams
      have hslot := isName_argumentSlot place
      refine .bind (variableName_working hs) fun var s₁ hs₁ _ hvar => ?_
      obtain ⟨number, rfl⟩ := hvar
      refine .ite (fun _ => ?_) fun _ => ?_
      · exact .bind (copyListTo_working hs₁ hslot.isSafeText (.stored hname))
          fun _ _ hs₂ _ _ => ih hparams hs₂
      · exact .bind (emit_keeps (set_isClean (IsStorage.stored hname).isTarget
          (isSafeText_read hslot)) hs₁) fun _ _ hs₂ _ _ => ih hparams hs₂

theorem functionStart_keeps (hname : isWord name.toList = true)
    (hparams : ∀ param ∈ params, isWord param.name.toList = true) :
    (inOperation operation known start).Keeps s
    (functionStart name params) := by
  intro hs
  refine .get (.check hs ?_)
  refine .bind (set_working hs rfl rfl rfl) fun _ s₁ hs₁ _ _ => ?_
  refine .bind (emit_keeps (isPlainLabel_endLabel _) hs₁) fun _ s₂ hs₂ _ _ => ?_
  refine .bind (emit_keeps (isPlainLabel_functionLabel hname) hs₂)
    fun _ s₃ hs₃ _ _ => ?_
  exact .bind (modify_working hs₃ rfl rfl rfl)
    fun _ s₄ hs₄ _ _ => bindParameters_keeps hparams hs₄

theorem functionEnd_keeps :
    (inOperation operation known start).Keeps s
    functionEnd := by
  intro hs
  refine .get ?_
  split
  · exact .throw hs
  · refine .bind (set_working hs rfl rfl rfl) fun _ s₁ hs₁ _ _ => .check hs₁ ?_
    refine .bind (emit_keeps trivial hs₁) fun _ s₂ hs₂ _ _ => ?_
    exact emit_keeps (isPlainLabel_endLabel _) hs₂

theorem fillSlots_keeps {slot : Nat → String}
    (hslot : ∀ own place, IsStorage own (slot place))
    (hvalues : ∀ value ∈ values, IsSafeText value.1) :
    (inOperation operation known start).Keeps s
    (fillSlots slot place values) := by
  intro hs
  induction values generalizing s place with
  | nil => exact .pure hs trivial
  | cons value values ih =>
      obtain ⟨hvalue, hvalues⟩ := List.forall_mem_cons.mp hvalues
      refine .ite (fun _ => ?_) fun _ => ?_
      · exact .bind (copyListTo_working hs hvalue (hslot _ place))
          fun _ _ hs' _ _ => ih hvalues hs'
      · exact .bind
          (emit_keeps (set_isClean (hslot _ place).isTarget hvalue) hs)
          fun _ _ hs' _ _ => ih hvalues hs'

theorem giveBack_keeps (hvalues : ∀ value ∈ values, IsSafeText value.1) :
    (inOperation operation known start).Keeps s (giveBack values) := fun hs =>
  .bind (fillSlots_keeps (fun _ => .result) hvalues hs)
    fun _ _ hs' _ _ => emit_keeps trivial hs'

theorem fetchResults_gives (hs : Working operation start s) :
    (inOperation operation known start).Ensures s
    (fetchResults place returns) fun results s' =>
      (inOperation operation known start).Values s' (results.zip returns) := by
  induction returns generalizing s place with
  | nil => exact .pure hs fun _ hvalue => nomatch hvalue
  | cons ty returns ih =>
      have hslot := isName_resultSlot place
      refine .bind (helper_working hs) fun name s₁ hs₁ _ hname => ?_
      cases hlist : ty.isList with
      | true =>
          refine .bind (copyListTo_working hs₁ hslot.isSafeText hname.isStorage)
            fun _ s₂ hs₂ hgrows hcommand => .bind (ih hs₂)
              fun results s₃ hs₃ hgrows' hresults => ?_
          have hfirst : IsFragment (Finished known start s₂) true name :=
            (hname.mono hgrows).isFragment_list hcommand ⟨rfl, rfl⟩
          refine .pure hs₃ (List.forall_mem_cons.mpr ⟨?_, hresults⟩)
          exact hlist.symm ▸ hfirst.mono fun _ _ => Finished.mono hgrows'
      | false =>
          refine .bind
            (emit_working hs₁
              (set_isClean hname.isTarget (isSafeText_read hslot)))
            fun _ s₂ hs₂ hgrows hcommand => .bind (ih hs₂)
              fun results s₃ hs₃ hgrows' hresults => ?_
          have hfirst : IsFragment (Finished known start s₂) false
              (read name) :=
            (hname.mono hgrows).isFragment_read hcommand rfl
          refine .pure hs₃ (List.forall_mem_cons.mpr ⟨?_, hresults⟩)
          exact hlist.symm ▸ hfirst.mono fun _ _ => Finished.mono hgrows'

theorem callFunction_gives {args : List (String × ValueType)}
    (hname : isWord name.toList = true) (hargs : ∀ arg ∈ args, IsSafeText arg.1)
    (hs : Working operation start s) :
    (inOperation operation known start).Ensures s
    (callFunction name args returns used)
      fun results s' => (inOperation operation known start).Values s'
        (results.zip returns) := by
  refine .get (.check hs ?_)
  refine .bind (fillSlots_keeps (fun _ => .argument) hargs hs)
    fun _ s₁ hs₁ _ _ => ?_
  refine .bind (emit_keeps ⟨isPlainLabel_functionLabel hname, .function⟩ hs₁)
    fun _ s₂ hs₂ _ _ => ?_
  exact .ite (fun _ => fetchResults_gives hs₂)
    fun _ => .pure hs₂ fun _ hvalue => nomatch hvalue

/-! Operators. -/

theorem unary_gives {op : UnaryOp} {operand : String}
    (hoperand : IsSafeText operand) :
    (inOperation operation known start).Gives s false
    (unary op operand ty) := by
  intro hs
  refine .bind (helper_working hs) fun name s₁ hs₁ _ hname => ?_
  split
  · exact emit_read_working hs₁ hname ⟨hname.isTarget, .negated hoperand⟩
      ⟨rfl, rfl⟩
  · refine .bind
      (emit_working hs₁ (set_isClean hname.isTarget
        (isSafeText_of_all (by decide))))
      fun _ s₂ hs₂ hgrows hcommand => ?_
    have hname := hname.mono hgrows
    refine .bind (emit_keeps ⟨.truth hoperand, hname.isTarget,
      isSafeText_of_all (by decide)⟩ hs₂) fun _ s₃ hs₃ hgrows' _ => .pure hs₃ ?_
    exact (hname.mono hgrows').isFragment_read
      (hgrows'.since_subset hcommand) rfl
  · exact .throw_bind hs₁

theorem binary_gives {op : BinaryOp}
    (hleft : IsFragment (Finished known start s) false left)
    (hright : IsFragment (Finished known start s) false right) :
    (inOperation operation known start).Gives s false
    (binary op left right ty) := by
  intro hs
  unfold binary
  split
  · exact helper_read_working hs
      (fun _ _ _ hname =>
        ⟨hname.isTarget, .binary op hleft.isSafeText hright.isSafeText⟩)
      fun _ => ⟨rfl, rfl⟩
  · refine .pure hs ?_
    show IsSafe _ (left ++ right).toList
    rw [String.toList_append]
    exact IsSafe.append hleft hright
  · exact .throw hs

theorem anyHolds_gives {tests : List String}
    (htests : ∀ test ∈ tests, IsTest test) :
    (inOperation operation known start).Gives s false (anyHolds tests) := by
  intro hs
  refine .bind (helper_working hs) fun name s₁ hs₁ _ hname => ?_
  refine .bind
    (emit_working hs₁ (set_isClean hname.isTarget
      (isSafeText_of_all (by decide))))
    fun _ s₂ hs₂ hgrows hcommand => ?_
  have hname := hname.mono hgrows
  refine .bind (.forM hs₂ fun test htest s' hs' hgrows' => emit_keeps
    ⟨htests test htest, (hname.mono hgrows').isTarget,
      isSafeText_of_all (by decide)⟩ hs')
    fun _ s₃ hs₃ hgrows' _ => .pure hs₃ ?_
  exact (hname.mono hgrows').isFragment_read (hgrows'.since_subset hcommand) rfl

theorem isTest_comparisonTest? {test : String} (hleft : IsSafeText left)
    (hright : IsSafeText right)
    (h : comparisonTest? op left right ty = some test) : IsTest test := by
  unfold comparisonTest? at h
  dsimp only at h
  split at h
  · cases h
    exact .order op hleft hright
  · cases h
    exact .same hleft hright
  · cases h
    exact .same hleft hright
  · cases h
    exact .differ hleft hright
  · cases h
    exact .differ hleft hright
  · cases h

theorem compare_gives (hleft : IsSafeText left) (hright : IsSafeText right) :
    (inOperation operation known start).Gives s false
    (compare op left right ty) := by
  intro hs
  unfold compare
  split
  · next htest =>
      exact anyHolds_gives
        (List.forall_mem_singleton.mpr
          (isTest_comparisonTest? hleft hright htest)) hs
  · exact .throw hs

theorem logical_gives {op : LogicalOp} (hleft : IsSafeText left)
    (hright : IsSafeText right) :
    (inOperation operation known start).Gives s false
    (logical op left right) := by
  cases op with
  | and => exact anyHolds_gives (List.forall_mem_singleton.mpr
      (.both hleft hright))
  | or =>
      exact anyHolds_gives (List.forall_mem_cons.mpr
        ⟨.truth hleft, List.forall_mem_singleton.mpr (.truth hright)⟩)

theorem fileExists_gives (hpath : IsSafeText path) :
    (inOperation operation known start).Gives s false
    (anyHolds ["exist \"" ++ path ++ "\""]) :=
  anyHolds_gives (List.forall_mem_singleton.mpr (.file hpath))

theorem stringToInt_gives (hvalue : IsSafeText value) :
    (inOperation operation known start).Gives s false
    (stringToInt value true) := fun hs =>
  helper_read_working hs (fun _ _ _ hname => ⟨hname.isTarget, .value hvalue⟩)
    fun _ => ⟨rfl, rfl⟩

/-! Output and files. -/

theorem print_keeps (hvalue : IsSafeText value) :
    (inOperation operation known start).Keeps s (print value ty) := fun hs =>
  .ite (fun _ => .throw hs) fun _ => emit_keeps hvalue hs

theorem panic_keeps {message : String} (hmessage : IsSafeText message) :
    (inOperation operation known start).Keeps s (panic message) := by
  intro hs
  have htext : IsSafeText ("panic: " ++ message) :=
    (isSafeText_of_all (by decide)).append hmessage
  refine .bind (emit_keeps htext hs) fun _ s₁ hs₁ _ _ => ?_
  refine .bind (modify_working hs₁ rfl rfl rfl) fun _ s₂ hs₂ _ _ => .get ?_
  refine emit_keeps ?_ hs₂
  split <;> trivial

theorem inputLine_gives {prompt : Option String}
    (hprompt : ∀ text ∈ prompt, IsSafeText text)
    (hs : Working operation start s) :
    (inOperation operation known start).Ensures s
    (inputLine prompt used) fun text s' =>
      used = true → IsFragment (Finished known start s') false text := by
  have htext : IsSafeText (prompt.getD "") := by
    cases prompt with
    | none => exact .nil
    | some text => exact hprompt text rfl
  refine .bind (helper_working hs) fun name s₁ hs₁ _ hname => ?_
  refine .bind (emit_keeps (set_isClean hname.isTarget .nil) hs₁)
    fun _ s₂ hs₂ hgrows _ => ?_
  have hname := hname.mono hgrows
  refine .bind (emit_working hs₂ ⟨hname.isTarget, htext⟩)
    fun _ s₃ hs₃ hgrows' hcommand => ?_
  refine .pure hs₃ ?_
  rintro rfl
  exact (hname.mono hgrows').isFragment_read hcommand ⟨rfl, rfl⟩

theorem fileContent_gives (hpath : IsSafeText path) :
    (inOperation operation known start).Gives s false (fileContent path true) :=
  fun hs =>
    .bind (require_working hs) fun _ _ hs' _ _ =>
      routine_gives "__sb_read_file" [_] (by decide)
      (List.forall_mem_singleton.mpr (.quoted hpath)) hs'

/-! Strings and lists. -/

theorem setElements_keeps {values : List String} (hname : IsHelper start s name)
    (hvalues : ∀ value ∈ values, IsSafeText value) :
    (inOperation operation known start).Keeps s
    (setElements name place values) := by
  intro hs
  induction values generalizing s place with
  | nil => exact .pure hs trivial
  | cons value values ih =>
      obtain ⟨hvalue, hvalues⟩ := List.forall_mem_cons.mp hvalues
      refine .bind
        (emit_keeps (set_isClean (hname.isStorage.isTarget_element place)
          hvalue) hs)
        fun _ s' hs' hgrows _ => ?_
      exact ih (hname.mono hgrows) hvalues hs'

theorem listLiteral_gives {values : List String}
    (hvalues : ∀ value ∈ values, IsSafeText value) :
    (inOperation operation known start).Gives s true
    (listLiteral values true) := by
  intro hs
  refine .bind (helper_working hs) fun name s₁ hs₁ _ hname => ?_
  refine .bind (emit_working hs₁ (set_isClean hname.isStorage.isTarget_length
    (isSafe_toString values.length))) fun _ s₂ hs₂ hgrows hcommand => ?_
  have hname := hname.mono hgrows
  refine .bind (setElements_keeps hname hvalues hs₂)
    fun _ s₃ hs₃ hgrows' _ => .pure hs₃ ?_
  exact (hname.mono hgrows').isFragment_list (hgrows'.since_subset hcommand) rfl

theorem listLength_gives (hlist : IsSafeText list) :
    (inOperation operation known start).Gives s false (listLength list) :=
  fun hs =>
    .bind (require_working hs) fun _ _ hs' _ _ =>
      routine_gives "__sb_list_len" [_] (by decide)
      (List.forall_mem_singleton.mpr (.value hlist)) hs'

theorem copyList_gives (hlist : IsSafeText list) :
    (inOperation operation known start).Gives s true (copyList list true) := by
  intro hs
  refine .bind (helper_working hs) fun name s₁ hs₁ _ hname => ?_
  refine .bind (copyListTo_working hs₁ hlist hname.isStorage)
    fun _ s₂ hs₂ hgrows hcommand => ?_
  exact .pure hs₂ ((hname.mono hgrows).isFragment_list hcommand ⟨rfl, rfl⟩)

theorem variableFor_working (hs : Working operation start s)
    (hfragment : IsSafeText fragment) :
    (inOperation operation known start).Ensures s
    (variableFor fragment) fun name _ => IsName name := by
  unfold variableFor
  split
  · next hread => exact .pure hs (isName_of_plainRead? hread)
  · refine (store_working hs fun number _ hallocated =>
      set_isClean (IsStorage.helper hallocated).isTarget hfragment).weaken ?_
    rintro name s' _ ⟨⟨number, _, rfl⟩, _⟩
    exact isName_helperName number

theorem stringLength_gives (hvalue : IsSafeText value) :
    (inOperation operation known start).Gives s false
    (stringLength value true) := fun hs =>
  .bind (require_working hs) fun _ _ hs₁ _ _ =>
    .bind (variableFor_working hs₁ hvalue)
    fun _ _ hs₂ _ hsource => routine_gives "__sb_strlen" [_] (by decide)
      (List.forall_mem_singleton.mpr (.value hsource.isSafeText)) hs₂

/-- The call of the subroutine once it is known where the part of a string
ends. -/
theorem substringTo_gives {source stop : String} (hsource : IsName source)
    (hfirst : IsSafeText first) (hstop : IsSafeText stop) :
    (inOperation operation known start).Gives s false (do
      let name ← helper
      emit (.call "__sb_substr" [source, first, stop, name])
      return read name) := by
  refine routine_gives "__sb_substr" [source, first, stop] (by decide) ?_
  simp only [List.forall_mem_cons]
  exact ⟨.value hsource.isSafeText, .value hfirst, .value hstop,
    fun _ h => nomatch h⟩

theorem substring_gives {stop : Option String} (hvalue : IsSafeText value)
    (hfirst : IsSafeText first) (hstop : ∀ text ∈ stop, IsSafeText text) :
    (inOperation operation known start).Gives s false
    (substring value first stop true) := by
  intro hs
  refine .bind (require_working hs) fun _ s₁ hs₁ _ _ => ?_
  refine .bind (variableFor_working hs₁ hvalue)
    fun source s₂ hs₂ _ hsource => ?_
  cases stop with
  | some stop =>
      exact .pure_bind (substringTo_gives hsource hfirst (hstop stop rfl) hs₂)
  | none =>
      refine .bind (helper_working hs₂) fun name s₃ hs₃ _ hname => ?_
      refine .bind (emit_keeps ⟨hname.isTarget, .next hfirst⟩ hs₃)
        fun _ s₄ hs₄ _ _ => ?_
      obtain ⟨number, _, rfl⟩ := hname
      exact .pure_bind (substringTo_gives hsource hfirst
        (isSafeText_read (isName_helperName number)) hs₄)

/-! Pipelines. -/

theorem commandWord_working (hs : Working operation start s)
    (hfragment : IsSafeText fragment) :
    (inOperation operation known start).Ensures s
    (commandWord fragment) fun word _ => IsStageWord word :=
  .ite (fun hplain => .pure hs (.plain hplain)) fun _ =>
    .bind (variableFor_working hs hfragment)
      fun _ _ hs' _ hname => .pure hs' (.read hname)

theorem stageWords_working
    (hstages : ∀ stage ∈ stages, ∀ arg ∈ stage.args, IsSafeText arg)
    (hs : Working operation start s) :
    (inOperation operation known start).Ensures s
    (stageWords stages) fun texts _ =>
      List.Forall₂ IsStage (stages.map Invocation.program) texts := by
  induction stages generalizing s with
  | nil => exact .pure hs .nil
  | cons stage stages ih =>
      obtain ⟨hstage, hstages⟩ := List.forall_mem_cons.mp hstages
      refine .bind (.mapM hs fun arg harg s' hs' _ =>
        commandWord_working hs' (hstage arg harg))
        fun words s₁ hs₁ _ hwords => ?_
      exact .bind (ih hstages hs₁) fun rest s₂ hs₂ _ hrest =>
        .pure hs₂ (.cons ⟨words, hwords, rfl⟩ hrest)

theorem readCaptured_gives {suffix : String} (hsuffix : IsSafeText suffix) :
    (inOperation operation known start).Gives s false
    (readCaptured suffix) := by
  have hpath : IsSafeText ("!__sb_cap!" ++ suffix) :=
    (isSafeText_read (IsPlainLabel.isName rfl (by decide)) :
      IsSafeText (read "__sb_cap")).append hsuffix
  have harguments : ∀ input ∈ ["\"!__sb_cap!" ++ suffix ++ "\""],
      IsArgument input := by
    rw [List.forall_mem_singleton, show "\"!__sb_cap!" ++ suffix ++ "\"" =
      "\"" ++ ("!__sb_cap!" ++ suffix) ++ "\"" by
        rw [← String.append_assoc]; rfl]
    exact .quoted hpath
  exact routine_gives "__sb_read_file" _ (by decide) harguments

/-- The captured output, the error output if it is wanted, and `code`. -/
theorem capturedResults_gives {code : List String}
    (hs : Working operation start s)
    (hcode : (inOperation operation known start).Scalars s code) :
    (inOperation operation known start).Ensures s
    (capturedResults count code) fun results s' =>
      (inOperation operation known start).Scalars s' results := by
  refine .bind (readCaptured_gives (isSafeText_of_all (by decide)) hs)
    fun output s₁ hs₁ hgrows houtput => ?_
  have hcode : (inOperation operation known start).Scalars s₁ code :=
    fun text htext => Contract.mono _ hgrows (hcode text htext)
  refine .ite (fun _ => ?_) fun _ => ?_
  · refine .bind (readCaptured_gives (isSafeText_of_all (by decide)) hs₁)
      fun errors s₂ hs₂ hgrows' herrors => .pure_bind ?_
    refine .pure hs₂ (List.forall_mem_cons.mpr
      ⟨Contract.mono _ hgrows' houtput, ?_⟩)
    exact List.forall_mem_cons.mpr
      ⟨herrors, fun text htext => Contract.mono _ hgrows' (hcode text htext)⟩
  · exact .pure_bind (.pure hs₁ (List.forall_mem_cons.mpr ⟨houtput, hcode⟩))

theorem capturePipeline_gives {line : String} (hs : Working operation start s)
    (hline : ∃ programs, operation = .pipeline programs ∧ IsPipeline programs
      line) :
    (inOperation operation known start).Ensures s
    (capturePipeline line count) fun results s' =>
      (inOperation operation known start).Scalars s' results := by
  refine .bind (emit_keeps hline hs) fun _ s₁ hs₁ _ _ => .ite (fun _ => ?_)
    fun _ => ?_
  · refine .bind (helper_working hs₁) fun name s₂ hs₂ _ hname => ?_
    have hvalue : IsSafeText (read "errorlevel") :=
      isSafeText_read (IsPlainLabel.isName rfl (by decide))
    refine .bind (emit_working hs₂ (set_isClean hname.isTarget hvalue))
      fun _ s₃ hs₃ hgrows hcommand => .pure_bind ?_
    exact capturedResults_gives hs₃ (List.forall_mem_singleton.mpr
      ((hname.mono hgrows).isFragment_read hcommand rfl))
  · exact .pure_bind (capturedResults_gives hs₁ fun _ htext => nomatch htext)

theorem runProcess_gives
    (hstages : ∀ stage ∈ stages, ∀ arg ∈ stage.args, IsSafeText arg)
    (hs : Working (.pipeline (stages.map Invocation.program)) start s) :
    (inOperation (.pipeline (stages.map Invocation.program)) known
      start).Ensures s (runProcess stages count) fun results s' =>
        (inOperation (.pipeline (stages.map Invocation.program)) known
          start).Scalars s' results := by
  rw [runProcess_eq]
  refine .bind (stageWords_working hstages hs) fun texts s₁ hs₁ _ htexts =>
    .ite (fun _ => ?_) fun _ => ?_
  · exact .bind (emit_keeps ⟨_, rfl, _, htexts, rfl⟩ hs₁) fun _ _ hs₂ _ _ =>
      .pure hs₂ fun _ htext => nomatch htext
  · exact .bind (require_working hs₁) fun _ _ hs₂ _ _ =>
      capturePipeline_gives hs₂ ⟨_, rfl, _, htexts, rfl⟩

end Batch

end Shellwright
