import JsonQuery.Json.Positions
import JsonQuery.Number.Basic

/-!
# Walking along a list

Slices once more, as a program that **walks** along the list. The bounds are capped one case
after the other. Then, as long as its place lies before the place to stop at, the walk picks
up the item at its place and moves on by the step.

`JsonQuery.Positions.slice` knows how many places there are before it takes a step, adds
without a limit and passes over places where there is no item. Here nothing of that is taken
for granted. Places are words of sixty-four signed bits, and a sum that does not fit them is
an **overflow**. A place where there is no item is **off the list**. And a walk goes on until
its place is not before the stop, so it has to be given **fuel**: it is cut off, and has no
result, if there are more rounds than that. A walk that is not cut off has not noticed its
fuel.
-/

namespace JsonQuery

/-- Where a **walk** along a list is, and what it has picked up. -/
structure Walk (α : Type) where
  /-- The place that it is at. -/
  place : Int
  /-- What it has picked up, in order. -/
  taken : List α

namespace Walk

variable {α : Type}

/-- Why a walk stops short. -/
inductive Halt where
  /-- The step is zero. -/
  | zeroStep
  /-- A sum does not fit sixty-four signed bits. -/
  | overflow
  /-- There is no item at a place. -/
  | offList (place : Int)
  deriving DecidableEq, Repr

/-- The sum of two words. -/
def sum (a b : Int) : Except Halt Int :=
  if Number.fitsSigned (a + b) then .ok (a + b) else .error .overflow

/-- The item at a place. There has to be one. -/
def item (items : List α) (place : Int) : Except Halt α :=
  if 0 ≤ place then
    match items[place.toNat]? with
    | some a => .ok a
    | none => .error (.offList place)
  else .error (.offList place)

/-! ### Bounds -/

/-- A bound that is given, capped. -/
def cap (length step bound : Int) : Except Halt Int :=
  if bound < 0 then do
    let place ← sum bound length
    return if place < 0 then (if step < 0 then -1 else 0) else place
  else if length ≤ bound then
    if step < 0 then sum length (-1) else .ok length
  else .ok bound

/-- Where a walk begins. -/
def first (length step : Int) : Option Int → Except Halt Int
  | some bound => cap length step bound
  | none => if step < 0 then sum length (-1) else .ok 0

/-- Where a walk has to stop. -/
def last (length step : Int) : Option Int → Except Halt Int
  | some bound => cap length step bound
  | none => .ok (if step < 0 then -1 else length)

/-- Where a walk begins and where it has to stop. -/
def bounds (length step : Int) (start stop : Option Int) : Except Halt (Int × Int) := do
  let start ← first length step start
  let stop ← last length step stop
  return (start, stop)

/-! ### The walk -/

/-- Whether a place lies **before** another in the direction of a step. -/
def isBefore (step stop place : Int) : Bool :=
  (decide (0 < step) && decide (place < stop)) || (decide (step < 0) && decide (stop < place))

/-- A **round**: the item at the place is picked up, and the place moves on by the step. -/
def round (items : List α) (step : Int) (w : Walk α) : Except Halt (Walk α) := do
  let picked ← item items w.place
  let place ← sum w.place step
  return ⟨place, w.taken ++ [picked]⟩

/-- Rounds until the place is not before the stop. -/
def loop (items : List α) (step stop : Int) : Nat → Walk α → Option (Except Halt (List α))
  | 0, _ => none
  | fuel + 1, w =>
    if isBefore step stop w.place then
      match round items step w with
      | .ok w' => loop items step stop fuel w'
      | .error halt => some (.error halt)
    else some (.ok w.taken)

/-- **A slice by walking**: nothing if the walk is cut off, and otherwise what it stops short
for, or what it has picked up. A step that is not given is one. -/
def slice (items : List α) (start stop step : Option Int) (fuel : Nat) :
    Option (Except Halt (List α)) :=
  let step := step.getD 1
  if step = 0 then some (.error .zeroStep)
  else
    match bounds items.length step start stop with
    | .ok (start, stop) => loop items step stop fuel ⟨start, []⟩
    | .error halt => some (.error halt)

end Walk

end JsonQuery
