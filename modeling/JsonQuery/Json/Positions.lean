import JsonQuery.Number.Basic

/-!
# Positions in a list

How an index and a slice pick items. A **position** counts from zero, and a negative one
counts from the end, so `-1` is the last item.

A slice runs from one bound to another in steps. A bound that is given is first counted
from the front, and then brought into the range of places where a run in the direction of
the step can begin or end: from `0` to the length going forward, and from `-1` to the last
item going backward. A bound that is not given is the end of that range from which, or
towards which, the run goes. After that every place of the run holds an item, and the
number of places is known before the first step (`JsonQuery.Positions.count`).

A step is taken from the last place as well, only to find that the run is over. That may be
too far: places are words of sixty-four signed bits, and a sum that is none is an **overflow**
(`JsonQuery.Positions.overflow?`).
-/

namespace JsonQuery.Positions

variable {α : Type}

/-- A position counted from the front, in a list of a given length. -/
def fromFront (length : Nat) (position : Int) : Int :=
  if position < 0 then position + length else position

/-- The item at a position. -/
def item? (items : List α) (position : Int) : Option α :=
  let place := fromFront items.length position
  if 0 ≤ place then items[place.toNat]? else none

/-- The first place of the range of a run. -/
def lowest (step : Int) : Int :=
  if step < 0 then -1 else 0

/-- The last place of the range of a run. -/
def highest (length : Nat) (step : Int) : Int :=
  if step < 0 then (length : Int) - 1 else length

/-- A bound that is given, brought into the range of a run. -/
def clamp (length : Nat) (step position : Int) : Int :=
  max (lowest step) (min (highest length step) (fromFront length position))

/-- Where a run begins. -/
def first (length : Nat) (step : Int) : Option Int → Int
  | some position => clamp length step position
  | none => if step < 0 then highest length step else lowest step

/-- Before which place a run ends. -/
def last (length : Nat) (step : Int) : Option Int → Int
  | some position => clamp length step position
  | none => if step < 0 then lowest step else highest length step

/-- How many steps lead from one place to before another. -/
def count (start stop step : Int) : Nat :=
  if 0 < step then ((stop - start + step - 1) / step).toNat
  else ((start - stop - step - 1) / -step).toNat

/-- The places of a run, in order. -/
def run (start stop step : Int) : List Int :=
  (List.range (count start stop step)).map fun (i : Nat) => start + i * step

/-- Whether the step from a place of a list **overflows**: the sum is no word. Up to the end of
a list all places are words. -/
def overflows (length : Nat) (step place : Int) : Bool :=
  decide (length < place + step) && !Number.fitsSigned (place + step)

/-- The place of a slice from which the step overflows, if there is one. -/
def overflow? (length : Nat) (start stop : Option Int) (step : Int) : Option Int :=
  (run (first length step start) (last length step stop) step).find? (overflows length step)

/-- **The items of a slice.** -/
def slice (items : List α) (start stop : Option Int) (step : Int) : List α :=
  (run (first items.length step start) (last items.length step stop) step).filterMap
    fun place => items[place.toNat]?

end JsonQuery.Positions
