import JsonQuery.Number.Decimal

/-!
# The layout of a decimal

The digits of a number do not say how it is written: `1500` and `1.5e+3` have the same.
A `JsonQuery.Layout` says which of the two it is. Numbers whose leading digit counts a
power of ten between its two bounds are written **positionally**, always with a digit
after the point; all others are written with an **exponent**, whose sign is always
there and whose digits are never padded, behind a mantissa that has a point only if it
has more than one digit.
-/

namespace JsonQuery

/-- The powers of ten of the leading digit for which a number is written out. -/
structure Layout where
  /-- The least power that is written positionally. -/
  least : Int
  /-- The greatest power that is written positionally. -/
  greatest : Int
  deriving DecidableEq, Repr

namespace Layout

/-- Digits with the point before the first: zeros go in between. -/
def belowOne (digits : List Char) (zeros : Nat) : List Char :=
  '0' :: '.' :: (List.replicate zeros '0' ++ digits)

/-- Digits with the point after the first `whole` of them; where the digits stop short
of the point or just at it, zeros fill up to one place behind it. -/
def around (digits : List Char) (whole : Nat) : List Char :=
  if digits.length ≤ whole then
    digits ++ List.replicate (whole - digits.length) '0' ++ ['.', '0']
  else digits.take whole ++ '.' :: digits.drop whole

/-- A digit, a point with the remaining digits if there are any, and the exponent with
its sign. -/
def withExponent (digits : List Char) (exponent : Int) : List Char :=
  let mantissa := if digits.length ≤ 1 then digits else digits.take 1 ++ '.' :: digits.drop 1
  let sign := if exponent < 0 then '-' else '+'
  mantissa ++ 'e' :: sign :: Nat.toDigits 10 exponent.natAbs

/-- A decimal as it is written in a layout. -/
def text (layout : Layout) (d : Decimal) : List Char :=
  let digits := Nat.toDigits 10 d.coefficient
  let lead := d.leading
  let magnitude :=
    if lead < layout.least ∨ layout.greatest < lead then withExponent digits lead
    else if lead < 0 then belowOne digits (-lead - 1).toNat
    else around digits (lead + 1).toNat
  if d.negative then '-' :: magnitude else magnitude

end Layout

end JsonQuery
