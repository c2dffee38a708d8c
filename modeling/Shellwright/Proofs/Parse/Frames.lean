/-
What one part of a program may leave of the scope it starts in.  Names come and
go, but the open blocks, the tables set aside by functions, the enclosing
function's results and every name known before are the same behind it.  The
frame carries along any condition on the state that the parser's own steps keep.
-/
import Shellwright.Proofs.Parse.Ensures
import Shellwright.Proofs.Parse.Stmt

namespace Shellwright

variable {pos : Position} {kind : BlockKind} {names : List String}

namespace Scope

/-- Everything known in `before` is known in `after`, in the same blocks. -/
structure Retains (before after : Scope) : Prop where
  blocks : after.blocks = before.blocks
  saved : after.saved = before.saved
  returns : after.returns = before.returns
  vars : ∀ {name var}, before.lookupVariable? name = some var →
    after.lookupVariable? name = some var
  functions : ∀ {name signature}, before.lookupFunction? name = some signature →
    after.lookupFunction? name = some signature

/-- Some block is open, nothing has to be returned outside of functions, and no
function is named like a builtin one. -/
structure Sound (scope : Scope) : Prop where
  nonempty : scope.blocks ≠ []
  top : scope.current = .program → scope.returns = none
  named : ∀ entry ∈ scope.functions, Builtin.ofName? entry.1 = none

/-- The scope in which the body of a new function is read. -/
def inFunction (scope : Scope) (name : String)
    (signature : Signature) : Scope :=
  enterFunction signature.returns
    { scope with functions := (name, signature) :: scope.functions }

/-- A program may bind the name, as far as the functions of the scope go. -/
structure Free (scope : Scope) (name : String) : Prop where
  plain : isHiddenName name = false
  builtin : Builtin.ofName? name = none
  base : BaseType.ofName? name = none
  unused : scope.lookupFunction? name = none

end Scope

theorem Parse.checkNewName_iff {st st' : ParserState} {name : String}
    {pos : Position} {u : Unit} :
    checkNewName name pos st = .ok (u, st') ↔
      st.scope.Free name ∧ st' = st := by
  simp only [checkNewName, ite_ok, bind_ok, fail_ok, false_and, exists_false,
    and_false, false_or, lookupFunction?_bind, pure_ok, true_and,
    Bool.not_eq_true, Option.isSome_eq_false_iff, Option.isNone_iff_eq_none]
  constructor
  · rintro ⟨hplain, hbuiltin, hbase, hunused, hst⟩
    exact ⟨⟨hplain, hbuiltin, hbase, hunused⟩, hst⟩
  · rintro ⟨hfree, hst⟩
    exact ⟨hfree.plain, hfree.builtin, hfree.base, hfree.unused, hst⟩

namespace ParserState

/-- One change that the parser makes to its state, under the guard it has for
it.  The lists hold the hidden names made so far, the latest first; a hidden
name is entered right after it has been made. -/
inductive Step : ParserState → List String → ParserState → List String →
    Prop where
  | read {st st' : ParserState} {made : List String} :
      st.Reads st' → Step st made st' made
  | declared {st st' : ParserState} {made : List String} {name : String}
      {pos : Position} {var : Variable} :
      Parse.declare name pos var st = .ok ((), st') → Step st made st' made
  | made {st st' : ParserState} {made : List String} {stem name : String} :
      stem = "idx" ∨ stem = "sw" → Parse.hiddenName stem st = .ok (name, st') →
      Step st made st' (name :: made)
  | hidden {st st' : ParserState} {made : List String} {name : String}
      {pos : Position} {var : Variable} :
      Parse.enterVariable name pos var st = .ok ((), st') →
      Step st (name :: made) st' (name :: made)
  | opened {st : ParserState} {made : List String} {kind : BlockKind} :
      kind ≠ .program → kind ≠ .function →
      Step st made { st with scope := st.scope.push kind } made
  | closed {st : ParserState} {made : List String} :
      st.scope.current ≠ .program → st.scope.current ≠ .function →
      Step st made { st with scope := st.scope.pop } made
  | known {st : ParserState} {made : List String} {name : String}
      {pos : Position} {signature : Signature} {scope : Scope} :
      st.scope.current = .program →
      Parse.checkNewName name pos st = .ok ((), st) →
      st.scope.lookupVariable? name = none →
      st.scope.declareFunction name signature = .ok scope →
      Step st made { st with scope := scope } made
  | entered {st : ParserState} {made : List String} {returns : List ValueType} :
      st.scope.current = .program →
      Step st made { st with scope := st.scope.enterFunction returns } made
  | left {st : ParserState} {made : List String} :
      st.scope.current = .function →
      Step st made { st with scope := st.scope.exitFunction } made
  | dropped {st st' : ParserState} {made names : List String} :
      Parse.removeVariables names st = .ok ((), st') → Step st made st' made

/-- Any number of changes, one after the other. -/
inductive Steps (st : ParserState) (made : List String) :
    ParserState → List String → Prop where
  | refl : Steps st made st made
  | tail {mid st' : ParserState} {before after : List String} :
      Steps st made mid before → Step mid before st' after →
      Steps st made st' after

variable {st mid st' : ParserState} {made before after : List String}

theorem Steps.trans (h : Steps st made mid before)
    (h' : Steps mid before st' after) : Steps st made st' after := by
  induction h' with
  | refl => exact h
  | tail _ hstep ih => exact ih.tail hstep

/-- A hidden variable: its name is made and entered. -/
theorem Steps.hidden {stem : String} {pos : Position} {var : Variable}
    (hstem : stem = "idx" ∨ stem = "sw")
    (h : Parse.enterVariable (hiddenNameAt stem st.hidden) pos var
      { st with hidden := st.hidden + 1 } = .ok ((), st')) :
    Steps st made st' (hiddenNameAt stem st.hidden :: made) :=
  (Steps.refl.tail (.made hstem rfl)).tail (.hidden h)

/-- The start of a function: it is known by the time its body is entered. -/
theorem Steps.inFunction {name : String} {signature : Signature}
    (htop : st.scope.current = .program)
    (hcheck : Parse.checkNewName name pos st = .ok ((), st))
    (hvariable : st.scope.lookupVariable? name = none) :
    Steps st made { st with scope := st.scope.inFunction name signature }
      made := by
  have hknown : st.scope.declareFunction name signature =
      .ok { st.scope with functions :=
        (name, signature) :: st.scope.functions } := by
    rw [Scope.declareFunction, (Parse.checkNewName_iff.mp hcheck).1.unused]
    rfl
  exact (Steps.refl.tail (.known htop hcheck hvariable hknown)).tail
    (.entered htop)

end ParserState

/-- Blocks of this kind can be opened and closed where `P` holds. -/
structure Opens (P : ParserState → Prop) (kind : BlockKind) : Prop where
  inner : kind ≠ .program
  opened : ∀ {st}, P st → P { st with scope := st.scope.push kind }
  closed : ∀ {st}, P st → st.scope.current = kind →
    P { st with scope := st.scope.pop }

/-- A condition that outlasts every change the parser makes to its state,
whatever names have been made before.  The frame of a statement carries any such
condition through it. -/
class Steady (P : ParserState → Prop) : Prop where
  steps : ∀ {st st'} more, P st →
    (∀ made, st.Steps made st' (more ++ made)) → P st'

instance Steady.always : Steady fun _ => True := ⟨fun _ _ _ => trivial⟩

namespace Steady

variable {P : ParserState → Prop} [Steady P] {st st' : ParserState}

theorem step (hst : P st) (h : ∀ made, st.Step made st' made) : P st' :=
  steps [] hst fun made => .tail .refl (h made)

theorem read (hst : P st) (h : st.Reads st') : P st' :=
  step hst fun _ => .read h

theorem declared {name : String} {var : Variable} (hst : P st)
    (h : Parse.declare name pos var st = .ok ((), st')) : P st' :=
  step hst fun _ => .declared h

theorem hidden {stem : String} {pos : Position} {var : Variable} (hst : P st)
    (hstem : stem = "idx" ∨ stem = "sw")
    (h : Parse.enterVariable (hiddenNameAt stem st.hidden) pos var
      { st with hidden := st.hidden + 1 } = .ok ((), st')) : P st' :=
  steps [hiddenNameAt stem st.hidden] hst fun _ => .hidden hstem h

theorem opens (hprogram : kind ≠ .program) (hfunction : kind ≠ .function) :
    Opens P kind := by
  refine ⟨hprogram, fun hst => step hst fun _ => .opened hprogram hfunction, ?_⟩
  rintro st hst rfl
  exact step hst fun _ => .closed hprogram hfunction

theorem entered {name : String} {pos : Position} {signature : Signature}
    (hst : P st) (htop : st.scope.current = .program)
    (hcheck : Parse.checkNewName name pos st = .ok ((), st))
    (hvariable : st.scope.lookupVariable? name = none) :
    P { st with scope := st.scope.inFunction name signature } :=
  steps [] hst fun _ => .inFunction htop hcheck hvariable

theorem left (hst : P st) (h : st.scope.current = .function) :
    P { st with scope := st.scope.exitFunction } :=
  step hst fun _ => .left h

theorem dropped (hst : P st) : P (st.without names) :=
  step hst fun _ => .dropped (Parse.removeVariables_eq names)

end Steady

/-- The parser can set out from here: the scope is sound and the condition
holds. -/
structure Ready (P : ParserState → Prop) (st : ParserState) : Prop where
  sound : st.scope.Sound
  kept : P st

/-- The state is ready again and knows everything known in `start`. -/
structure Scope.Frames (start : Scope) (P : ParserState → Prop)
    (st : ParserState) : Prop extends Ready P st where
  retains : start.Retains st.scope

namespace Scope

variable {P : ParserState → Prop} {start before mid after : Scope}
  {st st' : ParserState} {scope : Scope} {name : String}
  {outer : List BlockKind}

theorem Retains.refl (scope : Scope) : scope.Retains scope :=
  ⟨rfl, rfl, rfl, id, id⟩

theorem Retains.trans (hfirst : before.Retains mid)
    (hsecond : mid.Retains after) : before.Retains after :=
  ⟨hsecond.blocks.trans hfirst.blocks, hsecond.saved.trans hfirst.saved,
    hsecond.returns.trans hfirst.returns, fun h => hsecond.vars (hfirst.vars h),
    fun h => hsecond.functions (hfirst.functions h)⟩

/-- What is not known later was not known before. -/
theorem Retains.unknown (h : before.Retains after)
    (hnone : after.lookupVariable? name = none) :
    before.lookupVariable? name = none := by
  cases hlookup : before.lookupVariable? name with
  | none => rfl
  | some var =>
      rw [h.vars hlookup] at hnone
      cases hnone

theorem Sound.frames (h : st.scope.Sound) : st.scope.Frames
    (fun _ => True) st :=
  ⟨⟨h, trivial⟩, .refl _⟩

theorem Frames.trans (hfirst : start.Frames P st)
    (hsecond : st.scope.Frames P st') : start.Frames P st' :=
  ⟨hsecond.toReady, hfirst.retains.trans hsecond.retains⟩

theorem Frames.of_scope (h : start.Frames P st) (hscope : st'.scope = st.scope)
    (hkept : P st') : start.Frames P st' :=
  ⟨⟨hscope ▸ h.sound, hkept⟩, hscope ▸ h.retains⟩

theorem Frames.read [Steady P] (h : start.Frames P st) (hreads : st.Reads st') :
    start.Frames P st' :=
  h.of_scope hreads.scope (Steady.read h.kept hreads)

/-- A new variable hides no old one. -/
theorem Frames.declared (h : start.Frames P st) (hscope : st'.scope = st.scope)
    {var : Variable} (hnew : st'.scope.lookupVariable? name = none)
    (hkept : P (st'.declared name var)) :
    start.Frames P (st'.declared name var) := by
  obtain ⟨ahead, last, scope, hidden⟩ := st'
  obtain rfl : scope = st.scope := hscope
  refine h.trans ⟨⟨⟨h.sound.nonempty, h.sound.top, h.sound.named⟩, hkept⟩,
    ⟨rfl, rfl, rfl, fun {other found} hlookup => ?_, id⟩⟩
  rw [Tables.lookupVariable?_declared, if_neg ?_]
  · exact hlookup
  · rintro rfl
    rw [hnew] at hlookup
    cases hlookup

/-- Names unknown at the start may be dropped. -/
theorem Frames.without [Steady P] (h : start.Frames P st)
    (hnames : ∀ name ∈ names, start.lookupVariable? name = none) :
    start.Frames P (st.without names) := by
  refine ⟨⟨⟨h.sound.nonempty, h.sound.top, h.sound.named⟩,
    Steady.dropped h.kept⟩, ⟨h.retains.blocks, h.retains.saved,
    h.retains.returns, fun {name var} hlookup => ?_,
      h.retains.functions⟩⟩
  rw [Tables.lookupVariable?_without, if_neg ?_]
  · exact h.retains.vars hlookup
  · intro hname
    rw [hnames name hname] at hlookup
    cases hlookup

theorem Sound.push (h : scope.Sound) (hkind : kind ≠ .program) :
    (scope.push kind).Sound :=
  ⟨List.cons_ne_nil _ _, fun hcurrent => absurd hcurrent hkind, h.named⟩

theorem pop_of_cons (hblocks : scope.blocks = kind :: outer)
    (houter : outer ≠ []) : scope.pop = { scope with blocks := outer } := by
  obtain ⟨next, rest, rfl⟩ := List.exists_cons_of_ne_nil houter
  unfold pop
  rw [hblocks]

/-- A block that has been opened in `scope` is closed again. -/
theorem Frames.popped (hkind : Opens P kind) (hscope : scope.Sound)
    (h : (scope.push kind).Frames P st) :
    scope.Frames P { st with scope := st.scope.pop } := by
  have hblocks : st.scope.blocks = kind :: scope.blocks := h.retains.blocks
  have hpop := pop_of_cons hblocks hscope.nonempty
  have hkept : P { st with scope := st.scope.pop } :=
    hkind.closed h.kept (by rw [current, hblocks, List.headD_cons])
  have hreturns : st.scope.returns = scope.returns := h.retains.returns
  rw [hpop] at hkept ⊢
  refine ⟨⟨⟨hscope.nonempty, fun hcurrent => ?_, h.sound.named⟩, hkept⟩,
    ⟨rfl, h.retains.saved, hreturns, h.retains.vars, h.retains.functions⟩⟩
  exact hreturns.trans (hscope.top hcurrent)

theorem exitFunction_of_cons {vars : VariableTable} {saved : List VariableTable}
    (hblocks : scope.blocks = kind :: outer) (houter : outer ≠ [])
    (hsaved : scope.saved = vars :: saved) :
    scope.exitFunction = ⟨outer, vars, saved, scope.functions, none⟩ := by
  unfold exitFunction
  rw [pop_of_cons hblocks houter]
  dsimp only
  rw [hsaved]

theorem Sound.inFunction (h : scope.Sound) (hname : Builtin.ofName? name = none)
    (signature : Signature) : (scope.inFunction name signature).Sound := by
  refine ⟨List.cons_ne_nil _ _, nofun, fun entry hentry => ?_⟩
  rcases List.mem_cons.mp hentry with rfl | hold
  · exact hname
  · exact h.named entry hold

/-- Behind a function the variables around it are back, and nothing else has
changed but that the function is known. -/
theorem Frames.exited [Steady P] {signature : Signature} (hscope : scope.Sound)
    (htop : scope.current = .program) (hnew : scope.lookupFunction? name = none)
    (h : (scope.inFunction name signature).Frames P st) :
    scope.Frames P { st with scope := st.scope.exitFunction } ∧
      st.scope.exitFunction.vars = scope.vars := by
  have hblocks : st.scope.blocks = .function :: scope.blocks := h.retains.blocks
  have hexit := exitFunction_of_cons hblocks hscope.nonempty h.retains.saved
  have hkept : P { st with scope := st.scope.exitFunction } :=
    Steady.left h.kept (by rw [current, hblocks, List.headD_cons])
  rw [hexit] at hkept ⊢
  refine ⟨⟨⟨⟨hscope.nonempty, fun _ => rfl, h.sound.named⟩, hkept⟩,
    ⟨rfl, rfl, (hscope.top htop).symm, id, fun {other found} hlookup => ?_⟩⟩,
    rfl⟩
  refine h.retains.functions ?_
  simp only [inFunction, enterFunction, push, lookupFunction?, List.lookup_cons]
  split
  · next heq =>
      rw [← beq_iff_eq.mp heq] at hnew
      exact absurd (hnew.symm.trans hlookup) (Option.some_ne_none _).symm
  · exact hlookup

end Scope

theorem Ready.frames {P : ParserState → Prop} {st : ParserState}
    (h : Ready P st) : st.scope.Frames P st :=
  ⟨h, .refl _⟩

theorem Ready.read {P : ParserState → Prop} [Steady P] {st st' : ParserState}
    (h : Ready P st) (hreads : st.Reads st') : Ready P st' :=
  (h.frames.read hreads).toReady

end Shellwright
