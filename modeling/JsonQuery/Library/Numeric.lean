import JsonQuery.Function.Basic

/-!
# Numeric functions

Functions from numbers to numbers. All of them but `abs` on integers work with doubles, and
give an integer back if the result is one (`JsonQuery.Number.ofDouble`). A sum is taken
from left to right; one that grows too large for a double has no value, nor has anything
that is made of it, and the result is `null`.
-/

namespace JsonQuery.Library

/-- A double as a value, or `null` if there is none. -/
def doubleValue : Option Double → Json
  | some x => .number (.ofDouble x)
  | none => .null

/-- The numbers among some values, as doubles. -/
def doubles (vs : List Json) : List Double :=
  vs.filterMap fun
    | .number n => some n.toDouble
    | _ => none

/-- The sum of some doubles from left to right. -/
def sumDoubles (xs : List Double) : Option Double :=
  xs.foldlM Double.add? (Double.zero false)

/-- The magnitude of a number: exact as long as it is an integer that fits sixty-four
signed bits. -/
def magnitude (n : Number) : Number :=
  match n.signed? with
  | some i => if Number.fitsSigned i.natAbs then .int i.natAbs else .ofDouble n.toDouble.abs
  | none => .ofDouble n.toDouble.abs

/-- The magnitude of a number. -/
def abs : Function where
  name := "abs"
  signature := .fixed [[.number]]
  body args := do
    let n ← Argument.number? args 0
    return .number (magnitude n)

/-- The mean of some numbers; of none it is `null`. -/
def avg : Function where
  name := "avg"
  signature := .fixed [[.arrayOf .number]]
  body args := do
    let items ← Argument.array? args 0
    if items.isEmpty then return .null
    else
      let mean := (sumDoubles (doubles items)).bind fun total => total.divNat? items.length
      return doubleValue mean

/-- The least whole number that is not below a number. -/
def ceil : Function where
  name := "ceil"
  signature := .fixed [[.number]]
  body args := do
    let n ← Argument.number? args 0
    return .number (.ofDouble (.ofInt n.toDouble.ceil))

/-- The greatest whole number that is not above a number. -/
def floor : Function where
  name := "floor"
  signature := .fixed [[.number]]
  body args := do
    let n ← Argument.number? args 0
    return .number (.ofDouble (.ofInt n.toDouble.floor))

/-- The sum of some numbers. -/
def sum : Function where
  name := "sum"
  signature := .fixed [[.arrayOf .number]]
  body args := do
    let items ← Argument.array? args 0
    return doubleValue (sumDoubles (doubles items))

/-- The numeric functions. -/
def numeric : List Function :=
  [abs, avg, ceil, floor, sum]

end JsonQuery.Library
