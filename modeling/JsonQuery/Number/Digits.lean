/-!
# Reading decimal digits

The number that a run of decimal digits stands for. Taking the digits in from the left,
one at a time, multiplies an ever longer number by ten at every digit, which takes time
quadratic in the length of the run. `JsonQuery.numberOfDigits` reads a long run by halves
instead, and shifts the front half past the back half with a single multiplication.

It is the same number: `JsonQuery.numberOfDigits_eq` says so.
-/

namespace JsonQuery

/-- Runs of digits up to this length are read from left to right. -/
def shortRun : Nat := 256

/-- **The number that decimal digits stand for**, the most significant one first. -/
def numberOfDigits (digits : List Char) : Nat :=
  if digits.length ≤ shortRun then Nat.ofDigitChars 10 digits 0
  else
    let front := digits.take (digits.length / 2)
    let back := digits.drop (digits.length / 2)
    Nat.pow 10 back.length * numberOfDigits front + numberOfDigits back
termination_by digits.length
decreasing_by
  all_goals
    have hlong : 256 < digits.length := Nat.lt_of_not_le ‹_›
    simp only [List.length_take, List.length_drop]
    omega

/-- Reading by halves gives the number that is read from left to right. -/
theorem numberOfDigits_eq (digits : List Char) :
    numberOfDigits digits = Nat.ofDigitChars 10 digits 0 := by
  induction hn : digits.length using Nat.strongRecOn generalizing digits with
  | ind n ih =>
    rw [numberOfDigits]
    split
    · rfl
    · next h =>
      have hlong : 256 < digits.length := Nat.lt_of_not_le h
      have hfront := ih (digits.take (digits.length / 2)).length
        (by rw [List.length_take]; omega) _ rfl
      have hback := ih (digits.drop (digits.length / 2)).length
        (by rw [List.length_drop]; omega) _ rfl
      simp only [hfront, hback, Nat.pow_eq]
      rw [← Nat.ofDigitChars_eq_ofDigitChars_zero, ← Nat.ofDigitChars_append,
        List.take_append_drop]

end JsonQuery
