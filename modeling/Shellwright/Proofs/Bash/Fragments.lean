/-
Fragments of bash scripts.  Every operation of the dialect makes phrases out of
phrases, so that what an expression stands for has one of the fixed forms.
Inside the quotes around it nothing of it ends them, however deep a literal of
the source may stand.
-/
import Shellwright.Proofs.Bash.Lawful
import Shellwright.Proofs.Bash.Phrases
import Shellwright.Proofs.Fragment.Recorded
import Shellwright.Proofs.Script.WriteProgram

namespace Shellwright

namespace Bash

variable {count : Nat} {isList used : Bool} {e : Expr} {α : Type}
  {fragment name : String} {ty : ValueType} {results : List String}
  {prompt : Option String} {types : List ValueType} {stages : List Invocation}
  {args : List (String × ValueType)}

open Script (Contract Course Lawful Note Progress Recorded exec evaluate
  evaluateAll evaluateOption evaluateStages operations silent valued)

/-- Whenever the writer succeeds, its value has the property. -/
def Returns {α : Type} (p : Write State α) (Q : α → Prop) : Prop :=
  ∀ ⦃s a s'⦄, exec p s = (.ok a, s') → Q a

namespace Returns

variable {α β : Type} {p : Write State α} {f : α → Write State β} {Q : α → Prop}
  {Q' : β → Prop}

theorem weaken {Q' : α → Prop} (h : Returns p Q) (hQ : ∀ a, Q a → Q' a) :
    Returns p Q' :=
  fun _ a _ hrun => hQ a (h hrun)

theorem any : Returns p fun _ => True := fun _ _ _ _ => trivial

theorem pure {a : α} (ha : Q a) : Returns (Pure.pure a) Q := by
  intro s b s' hrun
  obtain rfl : a = b := Except.ok.inj (Prod.mk.inj hrun).1
  exact ha

theorem throw {error : ScriptError} : Returns (MonadExcept.throw error) Q := by
  intro s a s' hrun
  cases hrun

theorem bind (hp : Returns p Q) (hf : ∀ a, Q a → Returns (f a) Q') :
    Returns (p >>= f) Q' := by
  intro s b s' hrun
  obtain ⟨a, mid, hfirst, hsecond⟩ := Script.exec_bind_eq_ok hrun
  exact hf a (hp hfirst) hsecond

/-- A part whose value does not matter. -/
theorem after (hf : ∀ a, Returns (f a) Q') : Returns (p >>= f) Q' :=
  any.bind fun a _ => hf a

end Returns

/-! The operations. -/

theorem Does.returns {able : Prop} {mentions : List Mention} {p : Write State α}
    {Q : α → Prop} (h : Does able ⟨false, []⟩ mentions p Q) : Returns p Q :=
  fun s a s' hrun => (h.enters s a s' hrun).2

theorem binary_symbol_mem (op : BinaryOp) : op.symbol ∈ operatorSymbols := by
  cases op <;> decide

theorem compare_symbol_mem (op : CompareOp) : op.symbol ∈ operatorSymbols := by
  cases op <;> decide

theorem logical_symbol_mem (op : LogicalOp) : op.symbol ∈ operatorSymbols := by
  cases op <;> decide

section Phrases

variable {text number : String → Prop} (law : Phrasing text number)
  {value : String}

include law

theorem intLiteral_number (value : Int) : number (toString value) := by
  have hdigits : ∀ n : Nat, ∀ c ∈ (toString n).toList, c.isDigit = true := by
    intro n c hc
    rw [Nat.toString_eq_repr, Nat.toList_repr] at hc
    exact Nat.isDigit_of_mem_toDigits (by decide) (by decide) hc
  refine law.digits fun c hc => ?_
  cases value with
  | ofNat n => exact .inl (hdigits n c hc)
  | negSucc n =>
      have hsign : (toString (Int.negSucc n)).toList =
          '-' :: (toString (n + 1)).toList :=
        String.toList_append
      rw [hsign] at hc
      rcases List.mem_cons.mp hc with rfl | hc
      · exact .inr rfl
      · exact .inl (hdigits (n + 1) c hc)

theorem boolLiteral_number (value : Bool) :
    number (if value then "1" else "0") := by
  refine law.digits fun c hc => .inl ?_
  cases value <;> simp at hc <;> subst hc <;> rfl

theorem substring_returns {start : String} {stop : Option String}
    (hstart : number start) (hstop : ∀ part ∈ stop, number part) :
    Returns (substring value start stop true) number := by
  refine variableFor_straight.returns.bind fun name hname => .pure ?_
  cases stop with
  | none => exact law.character hname hstart
  | some part => exact law.slice hname hstart (hstop part rfl)

theorem stringLength_returns : Returns (stringLength value true) number :=
  variableFor_straight.returns.bind fun _ hname => .pure (law.length hname)

theorem stringToInt_returns : Returns (stringToInt value true) number :=
  store_straight.returns.bind fun _ hname => .pure (law.conversion hname.isWord)

theorem number_of_values (h : HelperValues count results) :
    ∀ part ∈ results, number part := by
  obtain ⟨names, _, hnames, rfl⟩ := h
  exact List.forall_mem_map.mpr fun name hname =>
    law.value (hnames name hname).isWord

theorem fileContent_returns {path : String} :
    Returns (fileContent path true) number :=
  fileContent_straight.returns.weaken fun _ h =>
    number_of_values law (h.2 rfl) _ List.mem_cons_self

theorem inputLine_returns : Returns (inputLine prompt true) number :=
  inputLine_straight.returns.weaken fun _ h =>
    number_of_values law (h.2 rfl) _ List.mem_cons_self

theorem runProcess_returns :
    Returns (runProcess stages count) fun results =>
      ∀ part ∈ results, number part :=
  runProcess_straight.returns.weaken fun _ => number_of_values law

end Phrases

/-! Expressions. -/

/-- A fragment for a value of the type: a name for a list, a text for a string
and a number for any other scalar. -/
def Phrased (text number : String → Prop) : ValueType → String → Prop
  | ⟨_, true⟩, fragment => isWord fragment.toList = true
  | ⟨.string, false⟩, fragment => text fragment
  | ⟨_, false⟩, fragment => number fragment

section Expressions

variable {text number : String → Prop}

theorem phrased_list (hty : ty.isList = true) :
    Phrased text number ty fragment ↔ isWord fragment.toList = true := by
  obtain ⟨base, isList⟩ := ty
  obtain rfl : isList = true := hty
  exact Iff.rfl

variable (law : Phrasing text number)

include law

theorem phrased_of_number (hty : ty.isList = false) (h : number fragment) :
    Phrased text number ty fragment := by
  obtain ⟨base, isList⟩ := ty
  obtain rfl : isList = false := hty
  cases base with
  | string => exact law.of_number h
  | unknown | bool | int | void => exact h

theorem text_of_phrased (hty : ty.isList = false)
    (h : Phrased text number ty fragment) : text fragment := by
  obtain ⟨base, isList⟩ := ty
  obtain rfl : isList = false := hty
  cases base with
  | string => exact h
  | unknown | bool | int | void => exact law.of_number h

theorem readVariable_returns (hname : isWord name.toList = true) :
    Returns (readVariable name ty) (Phrased text number ty) := by
  obtain ⟨base, isList⟩ := ty
  cases isList with
  | true => exact .pure (isWord_variableName hname)
  | false =>
      exact .pure (phrased_of_number law rfl
        (law.value (isWord_variableName hname)))

theorem phrased_of_result {result : String} (h : IsResult result ty) :
    Phrased text number ty result := by
  obtain ⟨name, hname, rfl⟩ := h
  split
  · next hlist => exact (phrased_list hlist).mpr hname.isWord
  · next hlist =>
      exact phrased_of_number law (Bool.eq_false_iff.mpr hlist)
        (law.value hname.isWord)

theorem callFunction_returns :
    Returns (callFunction name args types used) fun results =>
      ∀ value ∈ results.zip types, Phrased text number value.2 value.1 := by
  refine callFunction_straight.returns.weaken
    fun results hresults value hvalue => ?_
  cases used with
  | true =>
      exact phrased_of_result law ((List.forall₂_iff_zip.mp hresults).2 hvalue)
  | false =>
      obtain rfl := List.forall₂_nil_right_iff.mp hresults
      exact absurd hvalue List.not_mem_nil

/-- What the expression stands for is a phrase wherever it is used. -/
def ExprPhrased (text number : String → Prop) (e : Expr) : Prop :=
  e.types ≠ [] → Returns (evaluate e true) (Phrased text number e.ty)

omit law in
theorem ExprPhrased.of_yields (h : ExprPhrased text number e)
    (hyields : e.Yields ty) :
    Returns (evaluate e true) (Phrased text number ty) := by
  rw [← hyields.ty_eq]
  exact h (Script.types_ne_nil hyields)

omit law in
theorem evaluateOption_returns {part : Option Expr}
    (hpart : ∀ e ∈ part, ExprPhrased text number e)
    (hyields : ∀ e ∈ part, e.Yields ty) :
    Returns (evaluateOption part) fun value =>
      ∀ fragment ∈ value, Phrased text number ty fragment := by
  cases part with
  | none =>
      exact .pure fun _ hfragment => absurd hfragment (Option.not_mem_none _)
  | some e =>
      refine ((hpart e rfl).of_yields (hyields e rfl)).bind
        fun value hvalue => .pure ?_
      rintro _ ⟨⟩
      exact hvalue

/-- A typed expression whose names are words stands for a phrase of its type. -/
theorem evaluate_phrased {tables : Tables} (htyped : e.Typed tables)
    (hwords : Words e.mentions) : ExprPhrased text number e := by
  induction htyped with
  | bool =>
      intro _
      unfold evaluate
      exact .pure (boolLiteral_number law _)
  | int =>
      intro _
      unfold evaluate
      exact .pure (intLiteral_number law _)
  | string =>
      intro _
      unfold evaluate
      exact .pure (law.literal _)
  | @unary op operand _ hyields ih =>
      intro _
      unfold evaluate
      refine ((ih hwords).of_yields hyields).bind fun fragment hfragment => ?_
      have hnumber : number fragment := by cases op <;> exact hfragment
      have hresult : ∀ part, number part →
          Phrased text number op.operand part :=
        fun part => phrased_of_number law op.operand_isList
      exact (unary_straight (hresult _ (law.negation hnumber))
        (hresult _ (law.inversion hnumber))).returns
  | @binary op left right ty _ _ hleft hright hop ihl ihr =>
      intro _
      obtain ⟨hl, hr⟩ := words_append.mp hwords
      unfold evaluate
      refine ((ihl hl).of_yields hleft).bind
        fun l hl => ((ihr hr).of_yields hright).bind fun r hr => ?_
      rw [hleft.ty_eq]
      refine (binary_straight ?_ ?_).returns
      · rintro rfl
        exact law.operation hl (binary_symbol_mem op) hr
      · rintro rfl
        exact law.append hl hr
  | @compare op left right ty _ _ hleft hright hop ihl ihr =>
      intro _
      obtain ⟨hl, hr⟩ := words_append.mp hwords
      unfold evaluate
      refine ((ihl hl).of_yields hleft).bind
        fun l hl => ((ihr hr).of_yields hright).bind fun r hr => ?_
      rw [hleft.ty_eq]
      refine (compare_straight ?_ ?_ ?_).returns
      · rintro (rfl | rfl)
        · exact law.operation hl (compare_symbol_mem op) hr
        · exact law.operation hl (compare_symbol_mem op) hr
      · rintro rfl
        exact law.equality hl hr
      · rintro rfl
        exact law.inequality hl hr
  | @logical op _ _ _ _ hleft hright ihl ihr =>
      intro _
      obtain ⟨hl, hr⟩ := words_append.mp hwords
      unfold evaluate
      exact ((ihl hl).of_yields hleft).bind
        fun l hl => ((ihr hr).of_yields hright).bind
        fun r hr => .pure (law.operation hl (logical_symbol_mem op) hr)
  | var _ =>
      intro _
      unfold evaluate
      exact readVariable_returns law (words_cons.mp hwords).1
  | @listLiteral items ty hlist =>
      intro _
      unfold evaluate
      exact .after fun _ => listLiteral_straight.returns.weaken fun _ hname =>
        (phrased_list hlist).mpr (hname.2 rfl)
  | listElement _ _ hyields hlist hindex ihl ihi =>
      intro _
      obtain ⟨hl, hi⟩ := words_append.mp hwords
      unfold evaluate
      refine ((ihl hl).of_yields hyields).bind
        fun l hl => ((ihi hi).of_yields hindex).bind fun i hi => .pure ?_
      exact phrased_of_number law rfl
        (law.element ((phrased_list hlist).mp hl) hi)
  | listLength _ hyields hlist ih =>
      intro _
      unfold evaluate
      exact ((ih hwords).of_yields hyields).bind fun l hl =>
        .pure (law.count ((phrased_list hlist).mp hl))
  | substring _ _ _ hvalue hstart hstop _ ihs ihe =>
      intro _
      obtain ⟨_, hrest⟩ := words_append.mp hwords
      obtain ⟨hs, he⟩ := words_append.mp hrest
      have hstops := words_mentionsOfOption.mp he
      unfold evaluate
      refine .after fun _ => ((ihs hs).of_yields hstart).bind
        fun start hstart => ?_
      refine (evaluateOption_returns (fun e he => ihe e he (hstops e he))
        hstop).bind fun stop hstop => ?_
      exact (substring_returns law hstart hstop).weaken fun _ => law.of_number
  | stringLength =>
      intro _
      unfold evaluate
      exact .after fun _ => stringLength_returns law
  | group _ hyields ih =>
      intro _
      unfold evaluate
      exact ((ih hwords).of_yields hyields).bind
        fun _ hfragment => .pure hfragment
  | @call name args signature =>
      intro hne
      unfold evaluate
      refine .after fun _ => (callFunction_returns law).bind
        fun results hresults => ?_
      cases results with
      | nil => exact .throw
      | cons result results =>
          refine .pure ?_
          show Phrased text number (signature.returns.headD .void) result
          cases hreturns : signature.returns with
          | nil => exact absurd hreturns hne
          | cons ty types =>
              rw [hreturns] at hresults
              exact hresults (result, ty) List.mem_cons_self
  | process =>
      intro _
      unfold evaluate
      refine .after fun _ => (runProcess_returns law).bind
        fun results hresults => .pure ?_
      cases results with
      | nil => exact law.literal ""
      | cons result results =>
          exact law.of_number (hresults result List.mem_cons_self)
  | input =>
      intro _
      unfold evaluate
      exact .after fun _ => (inputLine_returns law).weaken
        fun _ => law.of_number
  | copy _ _ hlist =>
      intro _
      unfold evaluate
      exact .after fun _ => copyList_straight.returns.weaken fun _ hname =>
        (phrased_list hlist).mpr (hname.2 rfl)
  | fileExists _ hyields ih =>
      intro _
      unfold evaluate
      exact ((ih hwords).of_yields hyields).bind
        fun _ hpath => .pure (law.existence hpath)
  | fileContent =>
      intro _
      unfold evaluate
      exact .after fun _ => (fileContent_returns law).weaken
        fun _ => law.of_number
  | intToString _ hyields ih =>
      intro _
      unfold evaluate
      exact ((ih hwords).of_yields hyields).bind
        fun _ hvalue => .pure (law.of_number hvalue)
  | stringToInt =>
      intro _
      unfold evaluate
      exact .after fun _ => stringToInt_returns law

end Expressions

/-! The recorded dialect. -/

/-- What an operation may return: the name of a list, or the content of
quotes. -/
def IsFragment : Bool → String → Prop
  | true, text => isWord text.toList = true
  | false, text => Content text

theorem isFragment_of_phrased (h : Phrased Content Content ty fragment) :
    IsFragment ty.isList fragment := by
  obtain ⟨base, isList⟩ := ty
  cases isList with
  | true => exact h
  | false => exact text_of_phrased content_phrasing rfl h

/-- Whatever has been returned is a fragment. -/
def recording : Contract (Recorded State) where
  holds r := ∀ note ∈ r.notes, ∀ fragment ∈ note.fragments,
    IsFragment fragment.2 fragment.1
  grows _ _ := True
  fragment _ := IsFragment
  refl _ := trivial
  trans _ _ := trivial
  mono _ := id

section Recording

variable {r : Recorded State} {operation : Script.Operation}
  {p : Write State String}

theorem recorded_ensures {fragments : α → List (String × Bool)}
    {p : Write State α}
    (h : Returns p fun a => ∀ fragment ∈ fragments a, IsFragment fragment.2
      fragment.1) (hr : recording.holds r) :
    recording.Ensures r (Script.recorded operation fragments p) fun a _ =>
      ∀ fragment ∈ fragments a, IsFragment fragment.2 fragment.1 := by
  have hrun := Script.exec_recorded operation fragments p r
  have hvalue : ∀ a, (exec p r.writer).1 = .ok a →
      ∀ fragment ∈ fragments a, IsFragment fragment.2 fragment.1 :=
    fun a ha => h (Prod.ext ha rfl)
  refine ⟨?_, trivial, by rw [hrun]; exact hvalue⟩
  rw [hrun]
  refine List.forall_mem_append.mpr ⟨hr, List.forall_mem_singleton.mpr ?_⟩
  dsimp only
  cases hresult : (exec p r.writer).1 with
  | error error => exact fun _ hfragment => nomatch hfragment
  | ok a => exact hvalue a hresult

theorem silent_moves {p : Write State Unit} {before after : Progress} :
    recording.course.Moves r before after (silent p) :=
  fun hr =>
    ((recorded_ensures (fun _ _ _ _ _ h => absurd h List.not_mem_nil) hr).weaken
    fun _ _ _ _ => trivial).course

theorem text_gives (h : Returns p (IsFragment isList)) :
    recording.Gives r isList (Script.recorded operation
      (fun text => [(text, isList)]) p) := by
  intro hr
  refine (recorded_ensures (h.weaken ?_) hr).weaken ?_
  · intro text htext fragment hfragment
    obtain rfl := List.mem_singleton.mp hfragment
    exact htext
  · exact fun text _ _ htext => htext (text, isList) (List.mem_singleton_self _)

theorem valued_gives {here : Progress} (h : Returns p (IsFragment isList)) :
    recording.course.Gives r here isList (valued isList true p) :=
  fun hr => (text_gives h hr).course

theorem inputLine_recorded (hr : recording.holds r) :
    recording.Ensures r (Dialect.inputLine prompt used) fun text _ =>
      used = true → IsFragment false text := by
  cases used with
  | true =>
      refine Contract.Ensures.weaken (text_gives ?_ hr) fun _ _ _ h _ => h
      exact inputLine_returns content_phrasing
  | false =>
      refine (recorded_ensures (fun _ _ _ _ _ h => absurd h List.not_mem_nil)
        hr).weaken ?_
      exact fun _ _ _ _ h => absurd h Bool.false_ne_true

theorem callFunction_recorded (hr : recording.holds r) :
    recording.Ensures r (Dialect.callFunction name args types used)
      fun results r' => recording.Values r' (results.zip types) := by
  refine (recorded_ensures ((callFunction_returns content_phrasing).weaken ?_)
    hr).weaken ?_
  · intro results hresults
    rw [List.zip_map_right, List.forall_mem_map]
    exact fun value hvalue => isFragment_of_phrased (hresults value hvalue)
  · intro results _ _ hresults
    rw [List.zip_map_right, List.forall_mem_map] at hresults
    exact hresults

theorem runProcess_recorded (hr : recording.holds r) :
    recording.Ensures r (Dialect.runProcess stages count) fun results r' =>
      recording.Scalars r' results := by
  refine (recorded_ensures ((runProcess_returns content_phrasing).weaken ?_)
    hr).weaken ?_
  · exact fun results hresults => List.forall_mem_map.mpr hresults
  · intro results _ _ hresults
    rw [List.forall_mem_map] at hresults
    exact hresults

end Recording

theorem recording_lawful : Lawful recording.course where
  fresh := fun _ hnote => nomatch hnote
  programStart := silent_moves
  boolLiteral := valued_gives (.pure (boolLiteral_number content_phrasing _))
  intLiteral := valued_gives (.pure (intLiteral_number content_phrasing _))
  stringLiteral hr := Contract.Ensures.course
    (text_gives (.pure (content_escape _)) hr)
  defineVariable _ _ := silent_moves
  assignVariable _ _ := silent_moves
  storeElement _ _ _ := silent_moves
  readVariable hname := valued_gives
    ((readVariable_returns content_phrasing hname).weaken
      fun _ => isFragment_of_phrased)
  readElement hlist hindex :=
    valued_gives (.pure (content_phrasing.element hlist hindex))
  ifStart _ := silent_moves
  elseIfStart _ := silent_moves
  elseStart := silent_moves
  ifEnd _ := silent_moves
  loopStart := silent_moves
  postStart := silent_moves
  postEnd := silent_moves
  loopCondition _ := silent_moves
  loopEnd := silent_moves
  leaveLoop _ := silent_moves
  nextRound _ := silent_moves
  functionStart _ _ _ := silent_moves
  functionEnd := silent_moves
  giveBack _ := silent_moves
  unary hoperand := valued_gives
    (unary_straight (content_phrasing.negation hoperand)
      (content_phrasing.inversion hoperand)).returns
  binary _ hleft hright := valued_gives (binary_straight
    (fun _ => content_phrasing.operation hleft (binary_symbol_mem _) hright)
    fun _ => content_phrasing.append hleft hright).returns
  compare _ hleft hright := valued_gives (compare_straight
    (fun _ => content_phrasing.operation hleft (compare_symbol_mem _) hright)
    (fun _ => content_phrasing.equality hleft hright)
    fun _ => content_phrasing.inequality hleft hright).returns
  logical hleft hright := valued_gives
    (.pure (content_phrasing.operation hleft (logical_symbol_mem _) hright))
  print _ _ := silent_moves
  panic _ := silent_moves
  listLiteral _ :=
    valued_gives (listLiteral_straight.returns.weaken
      fun _ hname => hname.2 rfl)
  listLength hlist := valued_gives (.pure (content_phrasing.count hlist))
  substring _ hstart hstop :=
    valued_gives (substring_returns content_phrasing hstart hstop)
  stringLength _ := valued_gives (stringLength_returns content_phrasing)
  group hinner := valued_gives (.pure hinner)
  callFunction _ _ _ hr :=
    ((callFunction_recorded hr).weaken fun _ _ _ hresults =>
      ⟨hresults, False.elim⟩).course
  runProcess _ _ hr :=
    ((runProcess_recorded hr).weaken fun _ _ _ hresults =>
      ⟨hresults, False.elim⟩).course
  inputLine _ hr := (inputLine_recorded hr).course
  copyList _ := valued_gives (copyList_straight.returns.weaken
    fun _ hname => hname.2 rfl)
  fileExists hpath := valued_gives (.pure (content_phrasing.existence hpath))
  fileContent _ := valued_gives (fileContent_returns content_phrasing)
  writeFile _ _ := silent_moves
  intToString hvalue := valued_gives (.pure hvalue)
  stringToInt _ := valued_gives (stringToInt_returns content_phrasing)
  noOp := silent_moves
  nothing := .empty

theorem runProcess_ne_nil {s s' : State}
    (h : exec (runProcess stages 1) s = (.ok results, s')) : results ≠ [] := by
  have hone : Returns (runProcess stages 1) fun results => results ≠ [] :=
    .after fun _ => .after fun _ => .after fun _ => .pure (List.cons_ne_nil _ _)
  exact hone h

/-- While the script of an accepted source is written, every expression stands
for the content of quotes or for the name of a list.  A reader inside quotes
goes through such a content and is in the same quotes after it, with nothing
left open; while it is in a literal of the source, however deep, it does not
leave the quotes around that literal and enters nothing.  An evaluation belongs
to the program if its record begins that of the program. -/
theorem bash_fragments_stay_in_quotes {source : String} {program : Program}
    (h : parseSource source = .ok program) :
    (∀ note ∈ operations State program, ∀ fragment ∈ note.fragments,
        IsFragment fragment.2 fragment.1) ∧
      (∀ {tables : Tables} {e : Expr} {r r' : Recorded State} {text : String},
        e.Typed tables → e.types ≠ [] →
          exec (evaluate e true) r = (.ok text, r') →
        r'.notes <+: operations State program → IsFragment e.ty.isList text) ∧
      (∀ {tables : Tables} {e : Expr} {s s' : State} {text : String},
        e.Typed tables → e.types ≠ [] →
        e.mentions ⊆ Stmt.mentionsOfBlock program.statements →
        exec (evaluate e true) s = (.ok text, s') →
          IsFragment e.ty.isList text ∧
            (e.ty.isList = false → Passes .quotes text)) ∧
      ∀ {value part : String} (outer : List Region),
        part.toList <+: (escape value).toList → ∃ pending,
          (Reader.inside (.quotes :: outer)).read part =
            some ⟨.quotes :: outer, pending⟩ := by
  have hwords := parseSource_words h
  obtain ⟨_, hchecked, hfunctions⟩ := parseSource_checked h
  have hnotes : ∀ note ∈ operations State program, ∀ fragment ∈ note.fragments,
      IsFragment fragment.2 fragment.1 :=
    (Script.program_meets recording_lawful hchecked hfunctions
      hwords).ensures.holds
  refine ⟨hnotes, ?_, ?_, fun outer hpart => read_literal_part hpart outer⟩
  · intro tables e r r' text htyped hne hrun hpart
    obtain ⟨earlier, note, hlast, _, hfragment⟩ :=
      Script.evaluate_returned runProcess_ne_nil htyped hne hrun
    refine hnotes note (hpart.subset ?_) _ hfragment
    rw [hlast]
    exact List.mem_append_right _ (List.mem_singleton_self note)
  · intro tables e s s' text htyped hne hnames hrun
    have hwords : Words e.mentions :=
      fun mention hmention => hwords mention (hnames hmention)
    have hcontent := evaluate_phrased content_phrasing htyped hwords hne hrun
    have hpasses := evaluate_phrased passing_phrasing htyped hwords hne hrun
    exact ⟨isFragment_of_phrased hcontent,
      fun hty => text_of_phrased passing_phrasing hty hpasses⟩

/-- Two literals full of special characters, inside the quotes of a test. -/
theorem bash_fragments_stay_in_quotes_test :
    ∃ (program : Program) (e : Expr) (s' : State) (text : String),
      parseSource "print(\"say \\\"$HOME\\\"\" == \"`ls`\")\n" = .ok program ∧
        program.statements = [.print e] ∧
        text = "$( [ \"say \\\"\\$HOME\\\"\" = \"\\`ls\\`\" ] && echo 1 || echo 0 )" ∧
        exec (evaluate e true) State.fresh = (.ok text, s') ∧
        IsFragment false text ∧ Passes .quotes text := by
  obtain ⟨program, e, hsource, hprogram, htyped, htypes, hnames, hrun⟩ :
      ∃ (program : Program) (e : Expr),
        parseSource "print(\"say \\\"$HOME\\\"\" == \"`ls`\")\n" = .ok program ∧
          program.statements = [.print e] ∧ e.Typed .empty ∧ e.types = [.bool] ∧
          e.mentions = [] ∧ exec (evaluate e true) State.fresh =
            (.ok "$( [ \"say \\\"\\$HOME\\\"\" = \"\\`ls\\`\" ] && echo 1 || echo 0 )",
              State.fresh) := by
    refine ⟨⟨[.print (.compare .eq (.string "say \"$HOME\"" [.string])
      (.string "`ls`" [.string])
      [.bool])]⟩, _, by
        cbv, rfl, ?_, rfl, rfl, Prod.ext (by decide +kernel) rfl⟩
    exact .compare .string .string (.inl rfl) (.inl rfl)
      ⟨rfl, fun h => absurd h (by decide)⟩
  have hty : e.ty.isList = false := by rw [Expr.ty, htypes]; rfl
  obtain ⟨hfragment, hpasses⟩ :=
    (bash_fragments_stay_in_quotes hsource).2.2.1 htyped
    (htypes ▸ List.cons_ne_nil _ _) (hnames ▸ List.nil_subset _) hrun
  rw [hty] at hfragment
  exact ⟨program, e, State.fresh, _, hsource, hprogram, rfl, hrun, hfragment,
    hpasses hty⟩

end Bash

end Shellwright
