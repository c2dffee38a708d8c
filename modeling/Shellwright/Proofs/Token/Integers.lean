/-
Integers a program can print.  A number in a program has no sign, and a minus
sign in front of it belongs to the expression around it; so a program that
prints an integer is read unless the digits alone are too large a number, as
those of the smallest integer are.
-/
import Shellwright.Parse
import Shellwright.Proofs.Token.Spelling

namespace Shellwright

/-- A program that prints an integer. -/
def printingInt (n : Int) : String := "print(itoa(" ++ toString n ++ "))"

/-- The expression of an integer: a number, or the negation of one. -/
def Expr.ofInt (n : Int) : Expr :=
  if n < 0 then .unary .neg (.int (-n) [.int]) [.int] else .int n [.int]

/-- The place where the digits of an integer stand in the program that prints
it. -/
def digitsAt (n : Int) : Position := ⟨1, if n < 0 then 13 else 12⟩

/-! Tokens. -/

theorem lexFrom_printing (chars : List Char) :
    lexFrom 0 .start ("print(itoa(".toList ++ chars) =
      (lexFrom 0 ⟨1, 12⟩ chars).map
        ([⟨.keyword .printWord, "print", ⟨1, 1⟩⟩, ⟨.lparen, "(", ⟨1, 6⟩⟩,
          ⟨.ident "itoa", "itoa", ⟨1, 7⟩⟩, ⟨.lparen, "(", ⟨1, 11⟩⟩] ++ ·) := by
  have hsteps : lexFrom 0 .start ("print(itoa(".toList ++ chars) =
      ((((lexFrom 0 ⟨1, 12⟩ chars).map (⟨.lparen, "(", ⟨1, 11⟩⟩ :: ·)).map
        (⟨.ident "itoa", "itoa", ⟨1, 7⟩⟩ :: ·)).map
          (⟨.lparen, "(", ⟨1, 6⟩⟩ :: ·)).map
          (⟨.keyword .printWord, "print", ⟨1, 1⟩⟩ :: ·) := rfl
  rw [hsteps]
  cases lexFrom 0 ⟨1, 12⟩ chars <;> rfl

theorem Lexeme.scan_minus {c : Char} {rest : List Char}
    (hc : c.isDigit = true) :
    Lexeme.scan '-' (c :: rest) = .ok ⟨.binary .sub, "-", 0⟩ := by
  unfold Lexeme.scan
  split
  all_goals try rfl
  all_goals simp_all

section Digits

variable {value : Nat} (pos : Position)

/-- The digits of a number, then the brackets that close the program. -/
theorem lexFrom_digits (h : value ≤ Lexeme.largestNumber) :
    ∃ place place' last : Position,
      lexFrom 0 pos ((toString value).toList ++ [')', ')']) =
      .ok [⟨.number value, toString value, pos⟩, ⟨.rparen, ")", place⟩,
        ⟨.rparen, ")", place'⟩, ⟨.eof, "", last⟩] := by
  have hbracket : ∀ next ∈ [')', ')'].head?, next.isDigit = false := by simp
  obtain ⟨c, tail, hchars, hc, hscan⟩ := Lexeme.scan_toString value hbracket
  rw [if_pos h] at hscan
  rw [hchars, lexFrom_scan (Lexeme.isSeparator_of_keeps rfl rfl rfl hc) hscan]
  exact ⟨_, _, _, rfl⟩

theorem lexFrom_digits_large (h : Lexeme.largestNumber < value) :
    lexFrom 0 pos ((toString value).toList ++ [')', ')']) =
      .error ⟨.numberOutOfRange (toString value), pos⟩ := by
  have hbracket : ∀ next ∈ [')', ')'].head?, next.isDigit = false := by simp
  obtain ⟨c, tail, hchars, hc, hscan⟩ := Lexeme.scan_toString value hbracket
  have hseparator := Lexeme.isSeparator_of_keeps rfl rfl rfl hc
  rw [if_neg (Nat.not_le_of_lt h)] at hscan
  rw [hchars, List.cons_append, lexFrom, if_neg (by simp [hseparator]), hscan]

/-- A minus sign stands in front of the digits. -/
theorem lexFrom_minus (rest : List Char) :
    lexFrom 0 pos ('-' :: ((toString value).toList ++ rest)) =
      (lexFrom 0 (pos.step '-') ((toString value).toList ++ rest)).map
        (⟨.binary .sub, "-", pos⟩ :: ·) := by
  obtain ⟨c, tail, hchars, hc, _⟩ :=
    Lexeme.scan_toString value
      fun next (hnext : next ∈ ([] : List Char).head?) => by cases hnext
  rw [hchars, List.cons_append, lexFrom, if_neg (by decide),
    Lexeme.scan_minus hc]

end Digits

/-! Programs. -/

section Programs

variable {source : String} {value : Nat}

theorem parseSource_printing {chars : List Char}
    (h : source.toList = "print(itoa(".toList ++ chars) :
    parseSource source = ((lexFrom 0 ⟨1, 12⟩ chars).map
      ([⟨.keyword .printWord, "print", ⟨1, 1⟩⟩, ⟨.lparen, "(", ⟨1, 6⟩⟩,
        ⟨.ident "itoa", "itoa", ⟨1, 7⟩⟩, ⟨.lparen, "(", ⟨1, 11⟩⟩] ++ ·)) >>=
          parseTokens := by
  rw [parseSource, lex, h, lexFrom_printing]

theorem parseSource_number
    (h : source.toList = "print(itoa(".toList ++
      ((toString value).toList ++ [')', ')'])) :
    parseSource source =
      if value ≤ Lexeme.largestNumber then
        .ok ⟨[.print (.intToString (.int value [.int]) [.string])]⟩
      else .error ⟨.numberOutOfRange (toString value), ⟨1, 12⟩⟩ := by
  rw [parseSource_printing h]
  split
  · next hvalue =>
      obtain ⟨place, place', last, hlex⟩ := lexFrom_digits ⟨1, 12⟩ hvalue
      rw [hlex]
      cbv
  · next hvalue =>
      rw [lexFrom_digits_large ⟨1, 12⟩ (Nat.lt_of_not_le hvalue)]
      rfl

theorem parseSource_negation
    (h : source.toList = "print(itoa(".toList ++ '-' ::
      ((toString value).toList ++ [')', ')'])) :
    parseSource source =
      if value ≤ Lexeme.largestNumber then
        .ok ⟨[.print (.intToString (.unary .neg (.int value [.int]) [.int])
          [.string])]⟩
      else .error ⟨.numberOutOfRange (toString value), ⟨1, 13⟩⟩ := by
  rw [parseSource_printing h, lexFrom_minus]
  split
  · next hvalue =>
      obtain ⟨place, place', last, hlex⟩ :=
        lexFrom_digits (Position.step ⟨1, 12⟩ '-') hvalue
      rw [hlex]
      cbv
  · next hvalue =>
      rw [lexFrom_digits_large _ (Nat.lt_of_not_le hvalue)]
      rfl

end Programs

theorem parseSource_printingInt (n : Int) :
    parseSource (printingInt n) =
      if n.natAbs ≤ Lexeme.largestNumber then
        .ok ⟨[.print (.intToString (.ofInt n) [.string])]⟩
      else .error ⟨.numberOutOfRange (toString n.natAbs), digitsAt n⟩ := by
  cases n with
  | ofNat value =>
      have hchars : (printingInt (.ofNat value)).toList =
          "print(itoa(".toList ++ ((toString value).toList ++ [')', ')']) := by
        rw [printingInt, show toString (Int.ofNat value) =
          toString value from rfl]
        simp
      exact parseSource_number hchars
  | negSucc value =>
      have hchars : (printingInt (.negSucc value)).toList =
          "print(itoa(".toList ++ '-' ::
            ((toString (value + 1)).toList ++ [')', ')']) := by
        rw [printingInt, show toString (Int.negSucc value) =
          "-" ++ toString (value + 1) from rfl]
        simp
      rw [Expr.ofInt, digitsAt, if_pos (Int.negSucc_lt_zero value),
        if_pos (Int.negSucc_lt_zero value), Int.neg_negSucc]
      exact parseSource_negation hchars

/-- Of the integers from `-2 ^ 63` up to `2 ^ 63 - 1` every one can be printed
but the first: the program that prints it is accepted, and what it prints is the
integer, written as a number or as the negation of one.  The digits of the first
are refused. -/
theorem printed_unless_smallest (n : Int) (hlow : -2 ^ 63 ≤ n)
    (hhigh : n < 2 ^ 63) :
    (n ≠ -2 ^ 63 →
      parseSource (printingInt n) =
        .ok ⟨[.print (.intToString (.ofInt n) [.string])]⟩) ∧
    (n = -2 ^ 63 →
      parseSource (printingInt n) =
        .error ⟨.numberOutOfRange "9223372036854775808", ⟨1, 13⟩⟩) := by
  rw [parseSource_printingInt]
  refine ⟨fun hne => if_pos ?_, fun heq => ?_⟩
  · unfold Lexeme.largestNumber
    omega
  · subst heq
    rw [if_neg (by decide), show (-2 ^ 63 : Int).natAbs =
      9223372036854775808 by decide,
      show toString 9223372036854775808 = "9223372036854775808" by cbv]
    rfl

/-- The ends of the range that can be printed. -/
theorem printed_unless_smallest_ends :
    parseSource "print(itoa(9223372036854775807))" =
      .ok ⟨[.print (.intToString (.int 9223372036854775807 [.int])
        [.string])]⟩ ∧
    parseSource "print(itoa(-9223372036854775807))" =
      .ok ⟨[.print
        (.intToString (.unary .neg (.int 9223372036854775807 [.int]) [.int])
        [.string])]⟩ := by
  have hlargest : printingInt 9223372036854775807 =
    "print(itoa(9223372036854775807))" := by cbv
  have hleast : printingInt (-9223372036854775807) =
    "print(itoa(-9223372036854775807))" := by cbv
  rw [← hlargest, ← hleast]
  exact ⟨(printed_unless_smallest 9223372036854775807 (by decide) (by decide)).1
    (by decide),
    (printed_unless_smallest (-9223372036854775807) (by decide) (by decide)).1
    (by decide)⟩

/-- The smallest integer has no spelling. -/
theorem smallest_integer_refused :
    parseSource "print(itoa(-9223372036854775808))" =
      .error ⟨.numberOutOfRange "9223372036854775808", ⟨1, 13⟩⟩ := by
  cbv

end Shellwright
