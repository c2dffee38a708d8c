/-
Literals as the value of a quoted `set`.  The interpreter expands the line twice
before it stores the value, and both expansions together undo the escaping of
the literal.  It also looks for operators between commands, outside of double
quotes; the quotes of a literal are written as they are, and they decide whether
its operators are found.
-/
import Shellwright.Proofs.Batch.Text
import Shellwright.Proofs.Script.Run

namespace Shellwright

namespace Batch

variable {quotes : Nat} {delayed : Bool} {c : Char} {name : String}
  {text : List Char}

open Script (exec)

theorem toList_escape (value : String) :
    (escape value).toList = value.toList.flatMap
      (escapeChar (value.toList.contains '!' || value.toList.contains '\n')) :=
  String.toList_ofList

/-! The two expansions. -/

/-- The first expansion: two percent signs stand for one.  A single one would
start the name of a variable. -/
def expandPercents? : List Char → Option (List Char)
  | [] => some []
  | '%' :: '%' :: rest => (expandPercents? rest).map ('%' :: ·)
  | '%' :: _ => none
  | c :: rest => (expandPercents? rest).map (c :: ·)

/-- The delayed expansion: a caret makes the next character stand for itself,
and the variable of the line feed is read.  No other variable is, and no caret
is the last character. -/
def expandDelayed? : List Char → Option (List Char)
  | [] => some []
  | '^' :: c :: rest => (expandDelayed? rest).map (c :: ·)
  | ['^'] => none
  | '!' :: '_' :: '_' :: 's' :: 'b' :: '_' :: 'l' :: 'f' :: '!' :: rest =>
      (expandDelayed? rest).map ('\n' :: ·)
  | '!' :: _ => none
  | c :: rest => (expandDelayed? rest).map (c :: ·)

/-- The value that is stored for a text between the quotes of a `set`.  Carets
are only special in a line with an exclamation mark. -/
def storedValue? (text : List Char) : Option (List Char) :=
  (expandPercents? text).bind fun once =>
    if once.contains '!' then expandDelayed? once else some once

/-- A character of a literal after the first expansion. -/
def escapeOnce (delayed : Bool) (c : Char) : List Char :=
  if c = '%' then ['%'] else escapeChar delayed c

theorem expandPercents?_append {piece : List Char} (h : '%' ∉ piece)
    (rest : List Char) :
    expandPercents? (piece ++ rest) =
      (expandPercents? rest).map (piece ++ ·) := by
  induction piece with
  | nil => simp
  | cons c piece ih =>
      obtain ⟨hc, hpiece⟩ : '%' ≠ c ∧ '%' ∉ piece := by simpa using h
      rw [List.cons_append, expandPercents?, ih hpiece, Option.map_map]
      · rfl
      · exact fun _ heq => absurd heq.symm hc
      · exact fun heq => absurd heq.symm hc

theorem percent_not_mem_escapeChar (h : c ≠ '%') :
    '%' ∉ escapeChar delayed c := by
  unfold escapeChar
  rw [if_neg h]
  split_ifs
  · decide
  · decide
  · decide
  · simpa using h.symm

/-- After the first expansion percent signs are as they were. -/
theorem expandPercents?_escaped (delayed : Bool) (text : List Char) :
    expandPercents? (text.flatMap (escapeChar delayed)) =
      some (text.flatMap (escapeOnce delayed)) := by
  induction text with
  | nil => rfl
  | cons c text ih =>
      rw [List.flatMap_cons, List.flatMap_cons]
      by_cases hc : c = '%'
      · subst hc
        simp [escapeChar, escapeOnce, expandPercents?, ih]
      · rw [expandPercents?_append (percent_not_mem_escapeChar hc), ih,
          escapeOnce, if_neg hc]
        rfl

theorem expandDelayed?_cons (hcaret : c ≠ '^') (hmark : c ≠ '!')
    (rest : List Char) :
    expandDelayed? (c :: rest) = (expandDelayed? rest).map (c :: ·) := by
  rw [expandDelayed?]
  · exact fun _ _ heq => absurd heq hcaret
  · exact fun heq => absurd heq hcaret
  · exact fun _ heq => absurd heq hmark
  · exact fun heq => absurd heq hmark

/-- In a text that is expanded once more, what the first expansion has left is
the literal. -/
theorem expandDelayed?_escapeOnce (text : List Char) :
    expandDelayed? (text.flatMap (escapeOnce true)) = some text := by
  induction text with
  | nil => rfl
  | cons c text ih =>
      rw [List.flatMap_cons]
      by_cases hcaret : c = '^'
      · subst hcaret
        simp [escapeOnce, escapeChar, expandDelayed?, ih]
      by_cases hmark : c = '!'
      · subst hmark
        simp [escapeOnce, escapeChar, expandDelayed?, ih]
      by_cases hfeed : c = '\n'
      · subst hfeed
        simp [escapeOnce, escapeChar, lineFeed, expandDelayed?, ih]
      have hplain : escapeOnce true c = [c] := by
        simp +contextual [escapeOnce, escapeChar, hcaret, hmark, hfeed]
      rw [hplain, List.singleton_append, expandDelayed?_cons hcaret hmark, ih]
      rfl

/-- An exclamation mark or a line feed leaves an exclamation mark behind, so
that the line is expanded once more. -/
theorem contains_escapeOnce
    (h : (text.contains '!' || text.contains '\n') = true) :
    (text.flatMap (escapeOnce true)).contains '!' = true := by
  simp only [Bool.or_eq_true, List.contains_iff_mem, List.mem_flatMap] at h ⊢
  rcases h with hmark | hfeed
  · exact ⟨'!', hmark, by decide⟩
  · exact ⟨'\n', hfeed, by decide⟩

/-- Without both there is nothing left to undo. -/
theorem flatMap_escapeOnce
    (h : (text.contains '!' || text.contains '\n') = false) :
    text.flatMap (escapeOnce false) = text := by
  obtain ⟨hmark, hfeed⟩ : '!' ∉ text ∧ '\n' ∉ text := by simpa using h
  have hsingle : ∀ c ∈ text, escapeOnce false c = [c] := by
    intro c hc
    have hne : c ≠ '!' ∧ c ≠ '\n' :=
      ⟨fun heq => hmark (heq ▸ hc), fun heq => hfeed (heq ▸ hc)⟩
    simp +contextual [escapeOnce, escapeChar, hne]
  rw [List.flatMap_congr hsingle, List.flatMap_singleton']

/-- Both expansions undo the escaping of every literal, and neither meets a lone
percent sign, the name of another variable or a caret with nothing behind it. -/
theorem escaped_literals_are_stored (value : String) :
    storedValue? (escape value).toList = some value.toList := by
  rw [toList_escape, storedValue?]
  cases hdelayed : value.toList.contains '!' || value.toList.contains '\n' with
  | true =>
      rw [expandPercents?_escaped, Option.bind_some,
        if_pos (contains_escapeOnce hdelayed), expandDelayed?_escapeOnce]
  | false =>
      have hmark : ¬value.toList.contains '!' = true :=
        Bool.eq_false_iff.mp (Bool.or_eq_false_iff.mp hdelayed).1
      rw [expandPercents?_escaped, Option.bind_some,
        flatMap_escapeOnce hdelayed, if_neg hmark]

/-! Operators and quotes. -/

/-- Characters that start another command or redirect one. -/
def isOperatorChar (c : Char) : Bool := c == '&' || c == '|' ||
    c == '<' || c == '>'

/-- In a text behind `quotes` double quotes every operator is inside quotes: an
odd number of them stands before it. -/
def Sheltered (quotes : Nat) (text : List Char) : Prop :=
  ∀ front c back, text = front ++ c :: back → isOperatorChar c = true →
    Odd (quotes + front.count '"')

/-- A text without operators. -/
theorem sheltered_of_any (h : text.any isOperatorChar = false) (quotes : Nat) :
    Sheltered quotes text := by
  rintro front c back rfl hc
  simp [hc] at h

theorem sheltered_cons {rest : List Char} :
    Sheltered quotes (c :: rest) ↔
      (isOperatorChar c = true → Odd quotes) ∧
        Sheltered (quotes + [c].count '"') rest := by
  constructor
  · intro h
    refine ⟨fun hc => by
      simpa using h [] c rest rfl hc, fun front d back heq hd => ?_⟩
    have hodd := h (c :: front) d back (by rw [heq]; rfl) hd
    rwa [← List.singleton_append, List.count_append, ← Nat.add_assoc] at hodd
  · rintro ⟨hfirst, hrest⟩ front d back heq hd
    cases front with
    | nil =>
        obtain ⟨rfl, rfl⟩ := List.cons.inj heq
        simpa using hfirst hd
    | cons e front =>
        obtain ⟨rfl, rfl⟩ := List.cons.inj heq
        rw [← List.singleton_append, List.count_append, ← Nat.add_assoc]
        exact hrest front d back rfl hd

theorem sheltered_append {first second : List Char} :
    Sheltered quotes (first ++ second) ↔
      Sheltered quotes first ∧ Sheltered (quotes + first.count '"') second := by
  induction first generalizing quotes with
  | nil => simpa using fun _ => sheltered_of_any rfl quotes
  | cons c first ih =>
      have hcount : (c :: first).count '"' =
          [c].count '"' + first.count '"' := by
        rw [← List.count_append, List.singleton_append]
      rw [List.cons_append, sheltered_cons, sheltered_cons, ih, and_assoc,
        hcount, Nat.add_assoc]

/-- Escaping neither adds nor removes a quote or an operator. -/
theorem count_escapeChar (delayed : Bool) (c : Char) :
    (escapeChar delayed c).count '"' = [c].count '"' := by
  unfold escapeChar
  split_ifs with hpercent hcaret hmark hfeed
  · simp [hpercent]
  · simp_all
  · simp [hmark]
  · simp [hfeed, lineFeed]
  · rfl

theorem sheltered_escapeChar (quotes : Nat) (delayed : Bool) (c : Char) :
    Sheltered quotes (escapeChar delayed c) ↔
      (isOperatorChar c = true → Odd quotes) := by
  have hsign : ∀ sign piece, c = sign → isOperatorChar sign = false →
      piece.any isOperatorChar = false →
      (Sheltered quotes piece ↔ (isOperatorChar c = true → Odd quotes)) := by
    rintro sign piece rfl hsign hpiece
    exact iff_of_true (sheltered_of_any hpiece quotes)
      fun h => absurd h (by simp [hsign])
  unfold escapeChar
  split_ifs with hpercent hcaret hmark hfeed
  · exact hsign _ _ hpercent rfl rfl
  · exact hsign _ _ (by simpa using (Bool.and_eq_true_iff.mp hcaret).1) rfl rfl
  · exact hsign _ _ hmark rfl rfl
  · exact hsign _ _ hfeed rfl rfl
  · rw [sheltered_cons]
    exact and_iff_left (sheltered_of_any rfl _)

theorem sheltered_flatMap_escapeChar :
    Sheltered quotes (text.flatMap (escapeChar delayed)) ↔
      Sheltered quotes text := by
  induction text generalizing quotes with
  | nil => rfl
  | cons c text ih =>
      rw [List.flatMap_cons, sheltered_append, sheltered_escapeChar,
        count_escapeChar, ih, sheltered_cons]

/-- A name has neither. -/
theorem IsName.no_operator (h : IsName name) :
    name.toList.any isOperatorChar = false ∧ name.toList.count '"' = 0 := by
  have hne : ∀ other, isWordChar other = false → other ∉ name.toList :=
    fun other hother hmem => absurd (h.word other hmem) (by simp [hother])
  refine ⟨List.any_eq_false.mpr fun c hc hoperator => ?_,
    List.count_eq_zero_of_not_mem (hne _ rfl)⟩
  simp only [isOperatorChar, Bool.or_eq_true, beq_iff_eq] at hoperator
  rcases hoperator with ((rfl | rfl) | rfl) | rfl <;>
    exact absurd hc (hne _ rfl)

theorem Command.text_set (name value : String) :
    (Command.set name value).text = "set \"" ++ name ++ "=" ++ value ++
      "\"" := by
  have htext : (Command.set name value).text =
    "set " ++ Command.setting name value := rfl
  simp [htext, Command.setting, ← String.append_assoc]

/-- One quote stands before the value of a `set`. -/
theorem sheltered_set (hname : IsName name) (value : String) :
    Sheltered 0 (Command.set name value).text.toList ↔
      Sheltered 1 value.toList := by
  have hchars : (Command.set name value).text.toList =
      ['s', 'e', 't', ' ', '"'] ++
        (name.toList ++ (['='] ++ (value.toList ++ ['"']))) := by
    simp [Command.text_set]
  obtain ⟨hoperator, hcount⟩ := hname.no_operator
  have hfirst : Sheltered 0 ['s', 'e', 't', ' ', '"'] := sheltered_of_any rfl 0
  have hsign : ∀ quotes, Sheltered quotes ['='] := sheltered_of_any rfl
  have hlast : ∀ quotes, Sheltered quotes ['"'] := sheltered_of_any rfl
  rw [hchars, sheltered_append, sheltered_append, sheltered_append,
    sheltered_append, hcount]
  simp [hfirst, hsign, hlast, sheltered_of_any hoperator]

/-- Writing a literal with other than harmless characters: a helper is set to
it. -/
theorem exec_stringLiteral {value : String}
    (h : value.toList.all isSafeChar = false) (s : State) : ∃ s',
      exec (stringLiteral value) s =
        (.ok (read (helperName (s.helpers + 1))), s') ∧
      s'.lines = s.lines.push (.set (helperName (s.helpers + 1))
        (escape value)) := by
  unfold stringLiteral
  rw [if_neg (by simp [h])]
  split
  · exact ⟨_, rfl, rfl⟩
  · exact ⟨_, rfl, rfl⟩

/-- The line of a literal, and when it is a single command.  A literal of
harmless characters has no line.  For every other one a line is written, and its
operators are all inside quotes exactly if each has an even number of quotes
before it in the literal. -/
theorem literal_line_sheltered_iff (value : String) (s : State) :
    (value.toList.all isSafeChar = true →
      exec (stringLiteral value) s = (.ok value, s)) ∧
    (value.toList.all isSafeChar = false → ∃ line s',
      exec (stringLiteral value) s =
        (.ok (read (helperName (s.helpers + 1))), s') ∧
      s'.lines = s.lines.push line ∧
      line.text = "set \"" ++ helperName (s.helpers + 1) ++ "=" ++
        escape value ++ "\"" ∧
      (Sheltered 0 line.text.toList ↔
        ∀ front c back, value.toList = front ++ c :: back →
          isOperatorChar c = true → Even (front.count '"'))) := by
  refine ⟨fun hsafe => ?_, fun hspecial => ?_⟩
  · unfold stringLiteral
    rw [if_pos hsafe]
    rfl
  · obtain ⟨s', hexec, hlines⟩ := exec_stringLiteral hspecial s
    refine ⟨_, s', hexec, hlines, Command.text_set _ _, ?_⟩
    rw [sheltered_set (isName_helperName _), toList_escape,
      sheltered_flatMap_escapeChar]
    simp only [Sheltered, Nat.odd_add, odd_one, true_iff]

/-- Behind a word in quotes an ampersand does no harm. -/
theorem literal_line_sheltered_iff_word :
    "\"a\"&b".toList.all isSafeChar = false ∧ ∃ line s',
      exec (stringLiteral "\"a\"&b") .fresh = (.ok (read (helperName 1)), s') ∧
      s'.lines = #[line] ∧ line.text = "set \"__sb_h1=\"a\"&b\"" ∧
      Sheltered 0 line.text.toList := by
  have hspecial : "\"a\"&b".toList.all isSafeChar = false := by decide
  have hinside : Sheltered 1 "\"a\"&b".toList := by
    simp [sheltered_cons, sheltered_of_any, isOperatorChar, Nat.odd_iff]
  obtain ⟨line, s', hexec, hlines, htext, hiff⟩ :=
    (literal_line_sheltered_iff "\"a\"&b" .fresh).2 hspecial
  refine ⟨hspecial, line, s', hexec, hlines, htext,
    hiff.mpr fun front c back heq hc => ?_⟩
  simpa [Nat.odd_add] using hinside front c back heq hc

/-- Behind a single quote it ends the `set`, and the rest of the literal is
run. -/
theorem literal_runs_as_command :
    ∃ line s', exec (stringLiteral "\"&b") .fresh =
      (.ok (read (helperName 1)), s') ∧
      s'.lines = #[line] ∧ line.text = "set \"__sb_h1=\"&b\"" ∧
      ¬Sheltered 0 line.text.toList := by
  refine ⟨.set (helperName 1) (escape "\"&b"), _, rfl, rfl, by
    decide, fun h => ?_⟩
  have hodd := h "set \"__sb_h1=\"".toList '&' "b\"".toList (by decide) rfl
  exact absurd hodd (by decide)

end Batch

end Shellwright
