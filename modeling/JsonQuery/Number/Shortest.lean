import JsonQuery.Number.Decimal

/-!
# The shortest digits of a double

Many decimals read back as one double: all those that are nearer to it than to its
neighbours. Among them `JsonQuery.Double.shortest` takes one with the fewest digits,
and of those the nearest.

The search asks the decimal **grids** in turn, from one digit up to seventeen. On a grid
only the two points on either side of the double need to be looked at, for if any point
of the grid reads back then one of these two does. A point reads back when it is within
half a spacing of the double, ends included exactly if the mantissa is even, because
that is how a tie is rounded. Below a power of two the neighbour is nearer, at half the
spacing (`JsonQuery.Double.spacingBelow`), so the two sides are measured separately.
Everything is compared in quarters of a spacing, which keeps the numbers whole.
-/

namespace JsonQuery

namespace Double

/-- The distance from a magnitude to the double before it. -/
def spacingBelow (units : Nat) : Nat :=
  let step := spacing units
  if 1 < step ∧ units = Nat.pow 2 52 * step then step / 2 else step

/-- The power of ten that the leading digit of a positive magnitude counts. -/
def leadingPower (units : Nat) : Int :=
  if one ≤ units then decimalLength (units / one) - 1
  else -(decimalLength ((one + units - 1) / units - 1))

/-- The point of the grid `10 ^ power` that is nearest to a positive magnitude among
those next to it that read back as it, if there is one. -/
def gridPoint? (units : Nat) (power : Int) : Option Nat :=
  let scale := Nat.pow 10 (-power).toNat
  let num := units * scale
  let den := one * Nat.pow 10 power.toNat
  let point := num / den
  let rest := num % den
  let reach := 2 * spacing units * scale
  let reachBelow := 2 * spacingBelow units * scale
  let even := units / spacing units % 2 == 0
  let takesBelow := if even then decide (4 * rest ≤ reachBelow) else decide (4 * rest < reachBelow)
  let takesAbove :=
    if even then decide (4 * (den - rest) ≤ reach) else decide (4 * (den - rest) < reach)
  if takesBelow && takesAbove then
    if 2 * rest < den then some point
    else if den < 2 * rest then some (point + 1)
    else some (point + point % 2)
  else if takesBelow then some point
  else if takesAbove then some (point + 1)
  else none

/-- **The shortest decimal** that reads back as a double, and of the shortest the
nearest. Should no grid of at most seventeen digits have one, the exact decimal is
taken: a unit is `5 ^ 1074 * 10 ^ (-1074)`. -/
def shortest (x : Double) : Decimal :=
  if x.units = 0 then ⟨x.negative, 0, 0⟩
  else
    let lead := leadingPower x.units
    let found := (List.range 17).findSome? fun (i : Nat) =>
      (gridPoint? x.units (lead - i)).map fun point => (point, lead - i)
    match found with
    | some (point, power) => Decimal.normalize x.negative point power
    | none => Decimal.normalize x.negative (x.units * Nat.pow 5 1074) (-1074)

end Double

end JsonQuery
