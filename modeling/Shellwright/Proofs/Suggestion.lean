/-
Suggestions.  The edit distance, which is computed row by row, counts the fewest
edits that turn one word into another, and the hint for a misspelled name is the
least of the names it may offer: neither their order nor their number matters.
-/
import Shellwright.Suggestion
import Shellwright.Parse.Basic
import Mathlib

namespace Shellwright

namespace Suggestion

variable {input : String} {candidates : List String}

/-! Edits. -/

/-- One character is put in, taken out or replaced. -/
inductive Edit : List Char → List Char → Prop
  | insert (front back : List Char) (c : Char) :
      Edit (front ++ back) (front ++ c :: back)
  | delete (front back : List Char) (c : Char) :
      Edit (front ++ c :: back) (front ++ back)
  | replace (front back : List Char) (c d : Char) :
      Edit (front ++ c :: back) (front ++ d :: back)

/-- The first word is turned into the second by so many edits. -/
inductive Edits : Nat → List Char → List Char → Prop
  | refl (xs : List Char) : Edits 0 xs xs
  | step {count : Nat} {xs ys zs : List Char} (first : Edit xs ys)
      (rest : Edits count ys zs) : Edits (count + 1) xs zs

/-- The fewest edits between two words, by their first characters. -/
def distance : List Char → List Char → Nat
  | [], ys => ys.length
  | xs, [] => xs.length
  | x :: xs, y :: ys =>
      min (min (distance xs (y :: ys) + 1) (distance (x :: xs) ys + 1))
        (distance xs ys + if x = y then 0 else 1)

@[simp] theorem distance_nil_left (ys : List Char) :
    distance [] ys = ys.length := by
  rw [distance]

@[simp] theorem distance_nil_right (xs : List Char) :
    distance xs [] = xs.length := by
  cases xs <;> simp [distance]

theorem distance_cons (x y : Char) (xs ys : List Char) :
    distance (x :: xs) (y :: ys) =
      min (min (distance xs (y :: ys) + 1) (distance (x :: xs) ys + 1))
        (distance xs ys + if x = y then 0 else 1) := by
  rw [distance]

theorem Edit.cons {xs ys : List Char} (z : Char) (h : Edit xs ys) :
    Edit (z :: xs) (z :: ys) := by
  cases h with
  | insert front back c => exact .insert (z :: front) back c
  | delete front back c => exact .delete (z :: front) back c
  | replace front back c d => exact .replace (z :: front) back c d

theorem Edit.reverse {xs ys : List Char} (h : Edit xs ys) :
    Edit xs.reverse ys.reverse := by
  cases h with
  | insert front back c => simpa using Edit.insert back.reverse front.reverse c
  | delete front back c => simpa using Edit.delete back.reverse front.reverse c
  | replace front back c d =>
      simpa using Edit.replace back.reverse front.reverse c d

namespace Edits

variable {count : Nat} {xs ys : List Char}

theorem cons (z : Char) (h : Edits count xs ys) :
    Edits count (z :: xs) (z :: ys) := by
  induction h with
  | refl xs => exact .refl _
  | step first _ ih => exact .step (first.cons z) ih

theorem reverse (h : Edits count xs ys) :
    Edits count xs.reverse ys.reverse := by
  induction h with
  | refl xs => exact .refl _
  | step first _ ih => exact .step first.reverse ih

theorem reverse_iff : Edits count xs.reverse ys.reverse ↔ Edits count xs ys :=
  ⟨fun h => by simpa using h.reverse, reverse⟩

end Edits

/-- As many edits as the distance are enough. -/
theorem edits_distance (xs ys : List Char) : Edits (distance xs ys) xs ys := by
  induction xs generalizing ys with
  | nil =>
      rw [distance_nil_left]
      induction ys with
      | nil => exact .refl _
      | cons y ys ih => exact .step (.insert [] [] y) (ih.cons y)
  | cons x xs ihxs =>
      induction ys with
      | nil =>
          have hdelete := Edits.step (.delete [] xs x) (ihxs [])
          rwa [distance_nil_right] at hdelete ⊢
      | cons y ys ihys =>
          rw [distance_cons]
          refine min_rec' (Edits · _ _) (min_rec' (Edits · _ _) ?_ ?_) ?_
          · exact .step (.delete [] xs x) (ihxs (y :: ys))
          · exact .step (.insert [] (x :: xs) y) (ihys.cons y)
          · by_cases hsame : x = y
            · rw [if_pos hsame, hsame]
              exact (ihxs ys).cons y
            · rw [if_neg hsame]
              exact .step (.replace [] xs x y) ((ihxs ys).cons y)

/-! An edit changes the distance to any other word by one at most. -/

theorem distance_cons_left_le (x : Char) (xs zs : List Char) :
    distance (x :: xs) zs ≤ distance xs zs + 1 := by
  cases zs with
  | nil => simp
  | cons z zs =>
      rw [distance_cons]
      omega

theorem distance_cons_right_le (z : Char) (xs zs : List Char) :
    distance xs (z :: zs) ≤ distance xs zs + 1 := by
  cases xs with
  | nil => simp
  | cons x xs =>
      rw [distance_cons]
      omega

theorem distance_le_cons_left (x : Char) (xs zs : List Char) :
    distance xs zs ≤ distance (x :: xs) zs + 1 := by
  induction zs with
  | nil =>
      rw [distance_nil_right, distance_nil_right, List.length_cons]
      omega
  | cons z zs ih =>
      have hright := distance_cons_right_le z xs zs
      rw [distance_cons]
      omega

theorem distance_replace_le (x y : Char) (xs zs : List Char) :
    distance (x :: xs) zs ≤ distance (y :: xs) zs + 1 := by
  induction zs with
  | nil => simp
  | cons z zs ih =>
      rw [distance_cons, distance_cons]
      split_ifs <;> omega

theorem distance_append_le {xs ys : List Char}
    (h : ∀ zs, distance xs zs ≤ distance ys zs + 1) (front zs : List Char) :
    distance (front ++ xs) zs ≤ distance (front ++ ys) zs + 1 := by
  induction front generalizing zs with
  | nil => exact h zs
  | cons x front ih =>
      rw [List.cons_append, List.cons_append]
      induction zs with
      | nil => simpa using ih []
      | cons z zs ihzs =>
          have hskip := ih (z :: zs)
          have hboth := ih zs
          rw [distance_cons, distance_cons]
          omega

theorem Edit.distance_le {xs ys : List Char} (h : Edit xs ys) (zs : List Char) :
    distance xs zs ≤ distance ys zs + 1 := by
  cases h with
  | insert front back c =>
      exact distance_append_le (distance_le_cons_left c back) front zs
  | delete front back c =>
      exact distance_append_le (distance_cons_left_le c back) front zs
  | replace front back c d =>
      exact distance_append_le (distance_replace_le c d back) front zs

theorem distance_self (xs : List Char) : distance xs xs = 0 := by
  induction xs with
  | nil => rw [distance_nil_left, List.length_nil]
  | cons x xs ih => simp [distance_cons, ih]

/-- No fewer edits than the distance are enough. -/
theorem Edits.distance_le {count : Nat} {xs ys : List Char}
    (h : Edits count xs ys) : distance xs ys ≤ count := by
  induction h with
  | refl xs => rw [distance_self]
  | step first _ ih => exact (first.distance_le _).trans (Nat.succ_le_succ ih)

/-! Rows. -/

/-- The distances from `xs` to the words `ys` grows to as the characters are put
in front of it one after the other. -/
def distances (xs ys : List Char) : List Char → List Nat
  | [] => []
  | b :: bs => distance xs (b :: ys) :: distances xs (b :: ys) bs

/-- The row for `xs`, the characters read so far with the last one first. -/
def rowFor (bs xs : List Char) : List Nat :=
  distance xs [] :: distances xs [] bs

theorem length_rowFor (bs xs : List Char) :
    (rowFor bs xs).length = bs.length + 1 := by
  have hlength : ∀ ys, (distances xs ys bs).length = bs.length := by
    induction bs with
    | nil => exact fun _ => rfl
    | cons b bs ih => exact fun ys => congrArg (· + 1) (ih (b :: ys))
  exact congrArg (· + 1) (hlength [])

theorem fillRow_distances (a : Char) (xs ys bs : List Char) :
    fillRow a (distance (a :: xs) ys) (distance xs ys) bs (distances xs ys bs) =
      distances (a :: xs) ys bs := by
  induction bs generalizing ys with
  | nil => rfl
  | cons b bs ih =>
      rw [distances, distances, fillRow, ← distance_cons, ih]

theorem nextRow_rowFor (bs xs : List Char) (a : Char) :
    nextRow bs (rowFor bs xs) a = rowFor bs (a :: xs) := by
  have hfill := fillRow_distances a xs [] bs
  have hfirst : distance xs [] + 1 = distance (a :: xs) [] := by simp
  rw [rowFor, nextRow, hfirst, hfill]
  rfl

theorem range_eq_rowFor (bs : List Char) : List.range (bs.length + 1) =
    rowFor bs [] := by
  have hcount : ∀ ys, List.range' (ys.length + 1) bs.length =
      distances [] ys bs := by
    induction bs with
    | nil => exact fun _ => rfl
    | cons b bs ih =>
        intro ys
        rw [List.length_cons, List.range'_succ, distances, ← ih (b :: ys),
          distance_nil_left]
        rfl
  rw [List.range_eq_range', List.range'_succ, rowFor, ← hcount [],
    distance_nil_left]
  rfl

theorem foldl_nextRow (bs as xs : List Char) :
    as.foldl (nextRow bs) (rowFor bs xs) = rowFor bs (as.reverse ++ xs) := by
  induction as generalizing xs with
  | nil => rfl
  | cons a as ih => simp [nextRow_rowFor, ih]

theorem getLastD_rowFor (bs xs : List Char) :
    (rowFor bs xs).getLastD 0 = distance xs bs.reverse := by
  have hlast : ∀ ys, (distances xs ys bs).getLastD (distance xs ys) =
      distance xs (bs.reverse ++ ys) := by
    induction bs with
    | nil => exact fun _ => rfl
    | cons b bs ih =>
        intro ys
        rw [distances, List.getLastD_cons, ih]
        simp
  rw [rowFor, List.getLastD_cons, hlast, List.append_nil]

theorem editDistance_eq (a b : String) :
    editDistance a b = distance a.toList.reverse b.toList.reverse := by
  unfold editDistance
  dsimp only
  rw [range_eq_rowFor, foldl_nextRow, getLastD_rowFor, List.append_nil]

/-- The edit distance is the least number of edits that turn one word into the
other, it follows the recursion over the last characters, and every row on the
way has an entry for each place that is looked at. -/
theorem editDistance_fewest_edits (a b : String) :
    IsLeast {count | Edits count a.toList b.toList} (editDistance a b) ∧
      editDistance a "" = a.length ∧ editDistance "" b = b.length ∧
      (∀ x y, editDistance (a.push x) (b.push y) =
        min (min (editDistance a (b.push y) + 1)
          (editDistance (a.push x) b + 1))
          (editDistance a b + if x = y then 0 else 1)) ∧
      ∀ read, read <+: a.toList →
        (read.foldl (nextRow b.toList)
          (List.range (b.toList.length + 1))).length = b.toList.length + 1 := by
  refine ⟨⟨?_, ?_⟩, ?_, ?_, ?_, ?_⟩
  · rw [editDistance_eq]
    exact Edits.reverse_iff.mp (edits_distance _ _)
  · intro count hedits
    rw [editDistance_eq]
    exact (Edits.reverse hedits).distance_le
  · rw [editDistance_eq, String.toList_empty, List.reverse_nil,
      distance_nil_right, List.length_reverse, String.length_toList]
  · rw [editDistance_eq, String.toList_empty, List.reverse_nil,
      distance_nil_left, List.length_reverse, String.length_toList]
  · intro x y
    simp only [editDistance_eq, String.toList_push, List.reverse_append,
      List.reverse_cons, List.reverse_nil, List.nil_append, List.cons_append,
      distance_cons]
  · intro read _
    rw [range_eq_rowFor, foldl_nextRow, length_rowFor]

/-! Choice. -/

/-- A name a hint may offer: near enough to the input, but neither the input
itself nor one of the compiler's own. -/
def Eligible (input name : String) : Prop :=
  name ≠ input ∧ ¬"__".toList <+: name.toList ∧
    editDistance input name ≤ max 1 (min 2 (input.length / 2))

theorem isOffered_iff {name : String} :
    isOffered input name = true ↔ Eligible input name := by
  have hhidden : isHiddenName name = true ↔ "__".toList <+: name.toList := by
    rw [isHiddenName, beq_iff_eq, List.prefix_iff_eq_take]
    exact eq_comm
  rw [Eligible, ← hhidden]
  simp [isOffered, limit, and_assoc]

/-- Near names rank before far ones, and among equals the alphabet decides. -/
def rank (input name : String) : ℕ ×ₗ String :=
  toLex (editDistance input name, name)

theorem rank_injective (input : String) : Function.Injective (rank input) :=
  fun _ _ h => congrArg (fun place => (ofLex place).2) h

theorem better_eq (input best candidate : String) :
    better input best candidate =
      if rank input candidate < rank input best then candidate else best := by
  have hrank : rank input candidate < rank input best ↔
      editDistance input candidate < editDistance input best ∨
        editDistance input candidate = editDistance input best ∧
          candidate < best :=
    Prod.Lex.toLex_lt_toLex
  unfold better
  grind

theorem closest?_eq_argmin (input : String) (candidates : List String) :
    closest? input candidates =
      (candidates.filter (isOffered input)).argmin (rank input) := by
  unfold closest? List.argmin
  congr 1
  funext best candidate
  cases best with
  | none => rfl
  | some best =>
      change some (better input best candidate) =
        if rank input candidate < rank input best then some candidate
        else some best
      rw [better_eq, apply_ite some]

theorem closest?_eq_none_iff :
    closest? input candidates = none ↔
      ∀ name ∈ candidates, ¬Eligible input name := by
  rw [closest?_eq_argmin, List.argmin_eq_none, List.filter_eq_nil_iff]
  simp only [isOffered_iff]

theorem closest?_eq_some_iff {best : String} :
    closest? input candidates = some best ↔
      best ∈ candidates ∧ Eligible input best ∧
        ∀ name ∈ candidates, Eligible input name →
          rank input best ≤ rank input name := by
  rw [closest?_eq_argmin, List.argmin_eq_some_iff]
  simp only [List.mem_filter, isOffered_iff, and_imp, and_assoc]
  refine and_congr_right fun _ => and_congr_right
    fun _ => and_iff_left_of_imp fun hleast => ?_
  intro name hname heligible hle
  rw [rank_injective input ((hleast name hname heligible).antisymm hle)]

theorem closest?_congr (input : String) {others : List String}
    (h : ∀ name, name ∈ others ↔ name ∈ candidates) :
    closest? input others = closest? input candidates := by
  refine Option.ext fun best => ?_
  simp only [closest?_eq_some_iff, h]

/-- The hint is none if no name is eligible and else the least eligible one: the
nearest, and of the nearest the first in the alphabet.  It depends on the names
only, not on their order or number, and so does the help that goes with an
undeclared name, in whatever order the table lists what is declared. -/
theorem closest?_least_eligible {α : Type} (input : String)
    (candidates : List String) :
    (closest? input candidates = none ↔
      ∀ name ∈ candidates, ¬Eligible input name) ∧
      (∀ best, closest? input candidates = some best ↔
        best ∈ candidates ∧ Eligible input best ∧
          ∀ name ∈ candidates, Eligible input name →
            rank input best ≤ rank input name) ∧
      (∀ others : List String, (∀ name, name ∈ others ↔ name ∈ candidates) →
        closest? input others = closest? input candidates) ∧
      ∀ (st : ParserState) (pos : Position),
        ((∀ name, name ∈ st.scope.variableNames ↔ name ∈ candidates) →
          ∃ error, (Parse.undeclaredVariable input pos : Parse α) st =
            .error error ∧
            error.fault.help = (closest? input candidates).map didYouMean) ∧
        ((∀ name, name ∈ st.scope.functionNames ↔ name ∈ candidates) →
          ∃ error, (Parse.undeclaredFunction input pos : Parse α) st =
            .error error ∧
            error.fault.help = (closest? input candidates).map didYouMean) := by
  refine ⟨closest?_eq_none_iff, fun _ => closest?_eq_some_iff,
    fun _ => closest?_congr input, ?_⟩
  intro st pos
  constructor
  · intro hnames
    refine ⟨⟨.undeclaredVariable input (closest? input st.scope.variableNames),
      pos⟩, rfl, ?_⟩
    rw [SyntaxFault.help, closest?_congr input hnames]
  · intro hnames
    refine ⟨⟨.undeclaredFunction input (closest? input st.scope.functionNames),
      pos⟩, rfl, ?_⟩
    rw [SyntaxFault.help, closest?_congr input hnames]

/-- Of two names one edit away the first in the alphabet is offered, whichever
comes first and however often it comes. -/
theorem closest?_least_eligible_tie :
    closest? "aa" ["ac", "ab"] = some "ab" ∧
      closest? "aa" ["ab", "ac", "ab"] = some "ab" := by
  have hfirst : closest? "aa" ["ac", "ab"] = some "ab" := by decide +kernel
  have hsame := (@closest?_least_eligible Unit "aa" ["ac", "ab"]).2.2.1
    ["ab", "ac", "ab"]
  exact ⟨hfirst, (hsame (by simp [or_comm])).trans hfirst⟩

end Suggestion

end Shellwright
