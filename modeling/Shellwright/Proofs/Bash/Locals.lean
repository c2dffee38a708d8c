/-
Names that bash lines assign.  What a function sets is declared local on the
line that sets it or before; variables of the program are the exception, which
are set where the tree mentions them.
-/
import Shellwright.Bash.Dialect
import Shellwright.Proofs.Names
import Shellwright.Proofs.Script.Coupling

namespace Shellwright

namespace Bash

namespace Command

/-- A body starts behind this line. -/
def opens : Command → Bool
  | ifTrue _ | elseIfTrue _ | otherwise | whileTrue | functionOpen _ => true
  | _ => false

/-- A body ends before this line. -/
def closes : Command → Bool
  | elseIfTrue _ | otherwise | endIf | endWhile | functionClose => true
  | _ => false

def isPlain (command : Command) : Bool := !command.opens && !command.closes

end Command

/-- The names a line sets. -/
@[simp] def Command.assigned : Command → List String
  | .assign _ name _ | .setWord _ name _ | .copyList _ name _
  | .fillList _ name _ | .storeElement name _ _ _ | .readLine name => [name]
  | _ => []

/-- The names a line declares local. -/
@[simp] def Command.declared : Command → List String
  | .assign true name _ | .setWord true name _ | .copyList true name _
  | .fillList true name _ =>
      [name]
  | .declareLocal names => names
  | _ => []

/-- The slots in which values travel between functions, and the name for an
unused line of input. -/
inductive IsShared : String → Prop where
  | result (place : Nat) : IsShared ("__sb_ret_" ++ toString place)
  | listResult (place : Nat) : IsShared ("__sb_retl_" ++ toString place)
  | argument (place : Nat) : IsShared ("__sb_arg_" ++ toString place)
  | unused : IsShared "_"

/-- The lines written for the mentions while the names `known` are local.  A
name that is set is local by then or shared, or it is a variable that is
mentioned there. -/
inductive Localized : List String → List Mention → List Command → Prop where
  | nil {known} : Localized known [] []
  | line {known mentions command commands} :
      (∀ name ∈ command.assigned, name ∈ command.declared ++ known ∨
        IsShared name) →
      Localized (command.declared ++ known) mentions commands →
      Localized known mentions (command :: commands)
  | assign {known name mentions command commands} :
      command.assigned = [variableName name] →
      Localized (command.declared ++ known) mentions commands →
      Localized known (.assign name :: mentions) (command :: commands)
  /-- A definition has been written by now. -/
  | define {known name mentions commands} : variableName name ∈ known →
      Localized known mentions commands →
      Localized known (.define name :: mentions) commands
  | skip {known mention mentions commands} : (∀ name, mention ≠ .define name) →
      Localized known mentions commands →
        Localized known (mention :: mentions) commands

namespace Localized

variable {known more : List String} {mentions first second : List Mention}
  {commands commands' : List Command}

theorem mono (h : Localized known mentions commands) (hmore : known ⊆ more) :
    Localized more mentions commands := by
  have hbehind : ∀ {front known more : List String}, known ⊆ more →
      front ++ known ⊆ front ++ more :=
    fun h => List.append_subset.mpr
      ⟨List.subset_append_left _ _, List.Subset.trans h
        (List.subset_append_right _ _)⟩
  induction h generalizing more with
  | nil => exact .nil
  | line hassigned _ ih =>
      exact .line
        (fun name hname => (hassigned name hname).imp_left
          fun h => hbehind hmore h)
        (ih (hbehind hmore))
  | assign hassigned _ ih => exact .assign hassigned (ih (hbehind hmore))
  | define hknown _ ih => exact .define (hmore hknown) (ih hmore)
  | skip hmention _ ih => exact .skip hmention (ih hmore)

theorem append (hfirst : Localized known first commands)
    (hsecond : Localized (commands.flatMap Command.declared ++ known) second
      commands') :
    Localized known (first ++ second) (commands ++ commands') := by
  have hcons :
    ∀ {known : List String} {command : Command} {commands : List Command},
      (command :: commands).flatMap Command.declared ++ known ⊆
        commands.flatMap Command.declared ++ (command.declared ++ known) := by
    intro known command commands name hname
    simpa [or_left_comm] using hname
  induction hfirst with
  | nil => exact hsecond
  | line hassigned _ ih => exact .line hassigned (ih (hsecond.mono hcons))
  | assign hassigned _ ih => exact .assign hassigned (ih (hsecond.mono hcons))
  | define hknown _ ih => exact .define hknown (ih hsecond)
  | skip hmention _ ih => exact .skip hmention (ih hsecond)

end Localized

end Bash

end Shellwright
