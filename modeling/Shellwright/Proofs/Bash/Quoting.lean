/-
Text between double quotes.  A reader goes through it as bash does: it keeps the
quotes, braces and parentheses that are open, the innermost first.  A text that
passes inside a region is read to its end without leaving that region and leaves
nothing open.
-/
import Shellwright.Bash.Dialect

namespace Shellwright

namespace Bash

variable {c : Char} {inner name text : String}

/-- What the reader is in: double quotes, the braces of an expansion, or the
parentheses of a command or of arithmetic. -/
inductive Region where
  | quotes
  | braces
  | parens
deriving DecidableEq, Repr

/-- What is left of a region after an ordinary character, the innermost first.
A single quote outside double quotes would start a text of another kind. -/
def Region.read? : Region → Char → Option (List Region)
  | quotes, c => some (if c = '"' then [] else [quotes])
  | braces, c =>
      if c = '\x7d' then some []
      else if c = '"' then some [quotes, braces]
      else if c = '\'' then none
      else some [braces]
  | parens, c =>
      if c = ')' then some []
      else if c = '(' then some [parens, parens]
      else if c = '"' then some [quotes, parens]
      else if c = '\'' then none
      else some [parens]

/-- The open regions, and a backslash or a dollar sign that waits for the next
character. -/
structure Reader where
  regions : List Region
  pending : Option Char
deriving DecidableEq, Repr

namespace Reader

/-- The reader inside the given regions. -/
def inside (regions : List Region) : Reader := ⟨regions, none⟩

/-- Reads a character.  Nothing is read outside all regions, a dollar sign has
to start an expansion, and a backquote is refused. -/
def step (r : Reader) (c : Char) : Option Reader :=
  match r.regions, r.pending with
  | [], _ => none
  | regions, some mark =>
      if mark = '\\' then some (inside regions)
      else if c = '(' then some (inside (.parens :: regions))
      else if c = '\x7b' then some (inside (.braces :: regions))
      else none
  | region :: outer, none =>
      if c = '\\' ∨ c = '$' then some ⟨region :: outer, some c⟩
      else if c = '\x60' then none
      else (region.read? c).map fun regions => inside (regions ++ outer)

def read (r : Reader) (text : String) : Option Reader :=
  text.toList.foldlM step r

theorem read_append (r : Reader) (first second : String) :
    r.read (first ++ second) = (r.read first).bind fun mid =>
      mid.read second := by
  unfold read
  rw [String.toList_append, List.foldlM_append]
  rfl

end Reader

/-- Reading the text inside the region leaves the reader as it was, whatever is
open around. -/
def Passes (region : Region) (text : String) : Prop :=
  ∀ outer, (Reader.inside (region :: outer)).read text =
    some (.inside (region :: outer))

variable {region : Region}

theorem Passes.append {first second : String} (hfirst : Passes region first)
    (hsecond : Passes region second) : Passes region (first ++ second) := by
  intro outer
  rw [Reader.read_append, hfirst, Option.bind_some, hsecond]

/-- A text around which regions are opened and closed again. -/
theorem Passes.enclosed {inner : Region} (opened : List Region)
    {first last : String}
    (hfirst : ∀ outer, (Reader.inside (region :: outer)).read first = some
      (.inside (inner :: (opened ++ region :: outer))))
    (htext : Passes inner text)
    (hlast : ∀ outer, (Reader.inside (inner :: (opened ++ outer))).read last
      = some (.inside outer)) : Passes region (first ++ text ++ last) := by
  intro outer
  rw [Reader.read_append, Reader.read_append, hfirst, Option.bind_some, htext,
    Option.bind_some, hlast]

/-- The character is an ordinary one in the region. -/
def Region.ignores (region : Region) (c : Char) : Bool :=
  c != '\\' && c != '$' && c != '\x60' && region.read? c == some [region]

theorem Reader.step_of_ignores (h : region.ignores c = true)
    (outer : List Region) :
    (inside (region :: outer)).step c = some (.inside (region :: outer)) := by
  simp only [Region.ignores, Bool.and_eq_true, bne_iff_ne, beq_iff_eq] at h
  obtain ⟨⟨⟨hbackslash, hdollar⟩, hbackquote⟩, hread⟩ := h
  simp [step, inside, hbackslash, hdollar, hbackquote, hread]

theorem passes_of_ignores (h : ∀ c ∈ text.toList, region.ignores c = true) :
    Passes region text := by
  intro outer
  unfold Reader.read
  generalize text.toList = chars at h
  induction chars with
  | nil => rfl
  | cons c chars ih =>
      obtain ⟨hc, hchars⟩ := List.forall_mem_cons.mp h
      rw [List.foldlM_cons, Reader.step_of_ignores hc]
      exact ih hchars

/-! Names. -/

theorem isWordChar_of_isWord {name : List Char} (h : isWord name = true)
    (hc : c ∈ name) : isWordChar c = true := by
  cases name with
  | nil => cases hc
  | cons first rest =>
      rw [isWord, Bool.and_eq_true] at h
      rcases List.mem_cons.mp hc with rfl | hc
      · have hstart := h.1
        simp only [isWordStart, isWordChar, Char.isAlphanum, Bool.or_eq_true]
          at hstart ⊢
        exact hstart.imp_left .inl
      · exact List.all_eq_true.mp h.2 c hc

theorem isWord_append {first second : String}
    (hfirst : isWord first.toList = true)
    (hsecond : ∀ c ∈ second.toList, isWordChar c = true) :
    isWord (first ++ second).toList = true := by
  rw [String.toList_append]
  cases hchars : first.toList with
  | nil => simp [hchars, isWord] at hfirst
  | cons c rest =>
      rw [hchars, isWord, Bool.and_eq_true] at hfirst
      rw [List.cons_append, isWord, List.all_append, hfirst.1, hfirst.2]
      simpa using hsecond

theorem isWordChar_of_mem_toString {number : Nat}
    (hc : c ∈ (toString number).toList) : isWordChar c = true := by
  rw [Nat.toString_eq_repr, Nat.toList_repr] at hc
  have hdigit : c.isDigit = true :=
    Nat.isDigit_of_mem_toDigits (by decide) (by decide) hc
  simp [isWordChar, Char.isAlphanum, hdigit]

theorem isWord_variableName (h : isWord name.toList = true) :
    isWord (variableName name).toList = true :=
  isWord_append rfl fun _ hc => isWordChar_of_isWord h hc

theorem ignores_of_isWordChar (h : isWordChar c = true) (region : Region) :
    region.ignores c = true := by
  have hne : ∀ other, isWordChar other = false → c ≠ other := by
    rintro other hother rfl
    exact absurd h (Bool.eq_false_iff.mp hother)
  have hc : c ≠ '\\' ∧ c ≠ '$' ∧ c ≠ '\x60' ∧ c ≠ '"' ∧ c ≠ '\'' ∧ c ≠ '(' ∧
    c ≠ ')' ∧
      c ≠ '\x7d' := by
    refine ⟨?_, ?_, ?_, ?_, ?_, ?_, ?_, ?_⟩ <;> exact hne _ rfl
  cases region <;> simp [Region.ignores, Region.read?, hc]

theorem passes_of_isWord (h : isWord name.toList = true) (region : Region) :
    Passes region name :=
  passes_of_ignores fun _ hc => ignores_of_isWordChar
    (isWordChar_of_isWord h hc) region

/-! What scripts put between quotes. -/

theorem passes_expand (h : Passes .braces inner) (region : Region) :
    Passes region (expand inner) :=
  .enclosed [] (fun _ => rfl) h fun _ => rfl

theorem passes_arithmetic (h : Passes .parens inner) (region : Region) :
    Passes region (arithmetic inner) :=
  .enclosed [.parens] (fun _ => rfl) h fun _ => rfl

theorem passes_testResult {test : String} (h : Passes .parens test)
    (region : Region) : Passes region (testResult test) :=
  .enclosed [] (fun _ => rfl) h fun _ => rfl

theorem passes_inQuotes (h : Passes .quotes text) :
    Passes .parens (inQuotes text) :=
  .enclosed [] (fun _ => rfl) h fun _ => rfl

/-! Literals. -/

theorem ignores_of_not_isSpecial (h : ¬isSpecial c = true) :
    Region.quotes.ignores c = true := by
  simp only [isSpecial, Bool.or_eq_true, beq_iff_eq, not_or] at h
  obtain ⟨⟨⟨hbackslash, hquote⟩, hdollar⟩, hbackquote⟩ := h
  simp [Region.ignores, Region.read?, hbackslash, hquote, hdollar, hbackquote]

theorem passes_escape (value : String) : Passes .quotes (escape value) := by
  intro outer
  unfold Reader.read escape
  rw [String.toList_ofList]
  induction value.toList with
  | nil => rfl
  | cons c chars ih =>
      unfold escapeChars
      split
      · exact ih
      · next hspecial =>
          rw [List.foldlM_cons, Reader.step_of_ignores
            (ignores_of_not_isSpecial hspecial)]
          exact ih

/-- While it reads a literal inside quotes the reader neither leaves them nor
enters anything. -/
theorem read_literal_part {value part : String}
    (hpart : part.toList <+: (escape value).toList) (outer : List Region) :
    ∃ pending, (Reader.inside (.quotes :: outer)).read part =
      some ⟨.quotes :: outer, pending⟩ := by
  unfold Reader.read
  unfold escape at hpart
  rw [String.toList_ofList] at hpart
  generalize part.toList = chars at hpart
  generalize value.toList = literal at hpart
  induction literal generalizing chars with
  | nil =>
      obtain rfl := List.prefix_nil.mp hpart
      exact ⟨none, rfl⟩
  | cons c rest ih =>
      unfold escapeChars at hpart
      split at hpart
      · rcases List.prefix_cons_iff.mp hpart with rfl | ⟨more, rfl, hmore⟩
        · exact ⟨none, rfl⟩
        · rcases List.prefix_cons_iff.mp hmore with rfl | ⟨others, rfl, hothers⟩
          · exact ⟨some '\\', rfl⟩
          · exact ih others hothers
      · next hspecial =>
          rcases List.prefix_cons_iff.mp hpart with rfl | ⟨more, rfl, hmore⟩
          · exact ⟨none, rfl⟩
          · rw [List.foldlM_cons, Reader.step_of_ignores
              (ignores_of_not_isSpecial hspecial)]
            exact ih more hmore

end Bash

end Shellwright
