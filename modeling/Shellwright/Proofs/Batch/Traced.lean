/-
Batch scripts with a record of their variables.  The traced dialect looks a name
up, notes the variable of the script it stands for, and writes that variable.
Without the notes a traced run is the plain one.
-/
import Shellwright.Batch.Dialect
import Shellwright.Proofs.Batch.Extends
import Shellwright.Proofs.Script.Noted

namespace Shellwright

namespace Batch

open Script

/-- An occurrence of a variable: the function it is written in, with its number,
the name it has there, and the variable of the script. -/
structure Access where
  function : Option (Nat × String)
  name : String
  isList : Bool
  storage : String
deriving DecidableEq, Repr

/-- What has been written so far, with the occurrences in it. -/
abbrev Traced := Noted State Access

/-- Looks a name up and notes the occurrence. -/
def access (name : String) (ty : ValueType) : Write Traced String := do
  let storage ← quiet (variableName name ty)
  modify fun t =>
    { t with notes := t.notes ++
        [⟨t.writer.current.map FunctionFrame.key, name, ty.isList, storage⟩] }
  return storage

/-! What is written once a name has been looked up. -/

def fill (var : String) (ty : ValueType) (value : String) : Write State Unit :=
  if ty.isList then
    copyListTo value var
  else
    emit (.set var value)

def fillNew (var : String) (ty : ValueType) (value : Option String) :
    Write State Unit :=
  if ty.isList then
    match value with
    | some source => copyListTo source var
    | none => emit (.set (var ++ "_len") "0")
  else
    emit (.set var (value.getD ty.defaultText))

def fillElement (var : String) (element : ValueType) (index value : String) :
    Write State Unit := do
  emit (.set "__sb_set_value" value)
  emit (.set "__sb_set_default" element.defaultText)
  emit (.call "__sb_list_set" [var, index])

def fillParameter (var : String) (ty : ValueType) (place : Nat) :
    Write State Unit :=
  if ty.isList then
    copyListTo (argumentSlot place) var
  else
    emit (.set var (read (argumentSlot place)))

/-- The start of a function up to its parameters. -/
def enterFunction (name : String) (params : List Binding) :
    Write State Unit := do
  let s ← get
  if s.current.isSome ∨ s.graph.depth ≠ 0 then
    throw (.unbalanced .function)
  let number := s.functions + 1
  set { s with functions := number }
  emit (.flow (.jump (endLabel number)))
  emit (.flow (.label (functionLabel name)))
  modify fun s =>
    { s with current := some ⟨number, name, params.map Binding.name⟩ }

def accessParameters (place : Nat) : List Binding → Write Traced Unit
  | [] => return
  | param :: params => do
      let var ← access param.name param.ty
      quiet (fillParameter var param.ty place)
      accessParameters (place + 1) params

instance : Dialect Traced :=
  { Noted.dialect quiet fun _ _ => quiet with
    defineVariable name ty value := do
      quiet (declareLocal name)
      let var ← access name ty
      quiet (fillNew var ty value)
    assignVariable name ty value := do
      let var ← access name ty
      quiet (fill var ty value)
    storeElement name element index value := do
      quiet (require ({ · with listSet := true }))
      let var ← access name (.list element.base)
      quiet (fillElement var element index value)
    readVariable name ty := do
      let var ← access name ty
      return if ty.isList then var else read var
    functionStart name params _ := do
      quiet (enterFunction name params)
      accessParameters 0 params }

/-- The number of the function a name belongs to, while `current` is written. -/
def ownerIn (current : Option FunctionFrame) (name : String) : Nat :=
  match current with
  | some frame => if frame.locals.contains name then frame.number else 0
  | none => 0

/-- An occurrence of a variable, while `current` is written. -/
def accessIn (current : Option FunctionFrame) (name : String) (isList : Bool) :
    Access :=
  ⟨current.map FunctionFrame.key, name, isList,
    storageName (ownerIn current name) name isList⟩

theorem exec_access (name : String) (ty : ValueType) (t : Traced) :
    exec (access name ty) t =
      (.ok (storageName (ownerIn t.writer.current name) name ty.isList),
      { t with
        notes := t.notes ++ [accessIn t.writer.current name ty.isList] }) := by
  unfold access
  rw [exec_bind, exec_quiet]
  rfl

/-! Forgetting the notes. -/

theorem access_forgets (name : String) (ty : ValueType) :
    Forgets (access name ty) (variableName name ty) := by
  rintro before after Q hQ t s rfl
  rw [exec_access]
  exact .done (hQ _) rfl

theorem bindParameters_cons (place : Nat) (param : Binding)
    (params : List Binding) :
    bindParameters place (param :: params) =
      (variableName param.name param.ty >>= fun var =>
      fillParameter var param.ty place >>=
        fun _ => bindParameters (place + 1) params) := by
  rw [bindParameters]
  unfold fillParameter
  cases param.ty.isList <;> rfl

theorem accessParameters_forgets (params : List Binding) (place : Nat) :
    Forgets (accessParameters place params) (bindParameters place params) := by
  induction params generalizing place with
  | nil => exact .pure ()
  | cons param params ih =>
      rw [bindParameters_cons]
      exact (access_forgets _ _).bind fun _ => (quiet_forgets _).bind
        fun _ => ih _

theorem functionStart_eq (name : String) (params : List Binding) :
    functionStart name params = enterFunction name params >>=
      fun _ => bindParameters 0 params := by
  refine funext fun s => (?_ : exec (functionStart name params) s =
    exec (enterFunction name params >>= fun _ => bindParameters 0 params) s)
  unfold functionStart enterFunction
  rw [bind_assoc, exec_get_bind, exec_get_bind]
  split
  · rfl
  · rfl

theorem functionStart_forgets (name : String) (params : List Binding) :
    Forgets (quiet (enterFunction name params) >>=
      fun _ => accessParameters 0 params) (functionStart name params) := by
  rw [functionStart_eq]
  exact (quiet_forgets _).bind fun _ => accessParameters_forgets params 0

theorem defineVariable_forgets (name : String) (ty : ValueType)
    (value : Option String) :
    Forgets (Dialect.defineVariable name ty value : Write Traced Unit)
      (Dialect.defineVariable name ty value) :=
  (quiet_forgets _).bind fun _ => (access_forgets _ _).bind fun var =>
    quiet_forgets (fillNew var ty value)

theorem assignVariable_forgets (name : String) (ty : ValueType)
    (value : String) :
    Forgets (Dialect.assignVariable name ty value : Write Traced Unit)
      (Dialect.assignVariable name ty value) :=
  (access_forgets _ _).bind fun var => quiet_forgets (fill var ty value)

theorem storeElement_forgets (name : String) (element : ValueType)
    (index value : String) :
    Forgets (Dialect.storeElement name element index value : Write Traced Unit)
      (Dialect.storeElement name element index value) :=
  (quiet_forgets _).bind fun _ => (access_forgets _ _).bind fun var =>
    quiet_forgets (fillElement var element index value)

theorem readVariable_forgets (name : String) (ty : ValueType) :
    Forgets (Dialect.readVariable name ty : Write Traced String)
      (Dialect.readVariable name ty) :=
  (access_forgets _ _).bind fun _ => .pure _

theorem traced_coupled : Coupled (forgetting : Coupling Traced State) :=
  { Noted.coupled quiet_forgets fun _ _ => quiet_forgets with
    defineVariable := fun h _ => Coupling.text?_eq rfl h ▸
      defineVariable_forgets _ _ _ fun _ => trivial
    assignVariable := fun h _ => h ▸ assignVariable_forgets _ _ _
      fun _ => trivial
    storeElement := fun h h' _ => h ▸ h' ▸ storeElement_forgets _ _ _ _
      fun _ => trivial
    readVariable := fun _ => readVariable_forgets _ _ fun _ => rfl
    functionStart := functionStart_forgets _ _ fun _ => trivial }

/-- The traced script is the plain one. -/
theorem exec_traced {program : Program} (hnested : program.isNested = true)
    {script : String} {s : State}
    (h : exec (generate program) State.fresh = (.ok script, s)) :
    ∃ t : Traced, exec (generate program) Dialect.fresh = (.ok script, t) ∧
      t.writer = s := by
  obtain ⟨_, t, hrun, rfl, hwriter⟩ := exec_of_forgetting
    (generate_matches traced_coupled hnested)
    (n := (Dialect.fresh : Traced)) h
  exact ⟨t, hrun, hwriter⟩

end Batch

end Shellwright
