import JsonQuery.Expr.Basic
import JsonQuery.Function.Basic
import JsonQuery.Json.Equality
import JsonQuery.Json.Positions

/-!
# Evaluating expressions

`JsonQuery.Expr.evaluate` yields the value of an expression on a value, with a table of the
functions that it may call. Where a value is not of the shape that an expression asks for
the result is `null`: a field of something that is no object, a projection of something
that is no array. So only two things can fail, a call and a slice: one that does not move, or
one whose step leads so far beyond the end of the array that the sum overflows.

A projection evaluates its right side on one value after the other and keeps the results
that are not `null` (`JsonQuery.Expr.gather`). The first failure, in the order of the
values, is the failure of the whole.

A call evaluates its arguments from left to right *before* the function is looked up, so a
fault in an argument is found even in a call of a function that does not exist. An argument
that is an expression reference is not evaluated; its body is passed on, with what it
evaluates to under the same table.
-/

namespace JsonQuery

namespace Expr

/-- The results of a projection that are kept: those that are not `null`. -/
def dropNulls (vs : List Json) : List Json :=
  vs.filter fun v => !v.isNull

/-- What a projection makes of some values: the right side on each, without the `null`s. -/
def gather (right : Json → Except Fault Json) (vs : List Json) : Except Fault Json := do
  let results ← vs.mapM right
  return .array (dropNulls results)

/-- The values on which a condition is true, in their order. -/
def keep (condition : Json → Except Fault Json) : List Json → Except Fault (List Json)
  | [] => .ok []
  | v :: rest => do
    let verdict ← condition v
    let kept ← keep condition rest
    return if verdict.isTruthy then v :: kept else kept

/-- Arrays among some values are replaced by their items. -/
def spliceArrays (vs : List Json) : List Json :=
  vs.flatMap fun
    | .array items => items
    | v => [v]

/-- A truth value, or `null` if there is none. -/
def verdict : Option Bool → Json
  | some b => .bool b
  | none => .null

/-- **The value of a comparison.** Only numbers can be less or greater. -/
def compareValues (op : Comparison) (left right : Json) : Json :=
  match op with
  | .eq => .bool (left.same right)
  | .ne => .bool (!left.same right)
  | .lt => verdict ((left.order? right).map Ordering.isLT)
  | .lte => verdict ((left.order? right).map Ordering.isLE)
  | .gt => verdict ((left.order? right).map Ordering.isGT)
  | .gte => verdict ((left.order? right).map Ordering.isGE)

/-- The field of a value. -/
def fieldOf (name : String) : Json → Json
  | .object entries => (entries.lookup name).getD .null
  | _ => .null

/-- The item of a value at a position. -/
def itemOf (position : Int) : Json → Json
  | .array items => (Positions.item? items position).getD .null
  | _ => .null

/-- The slice of a value. -/
def sliceOf (start stop step : Option Int) : Json → Except Fault Json
  | .array items =>
    let step := step.getD 1
    if step = 0 then .error .zeroStep
    else
      match Positions.overflow? items.length start stop step with
      | some place => .error (.overflow place step)
      | none => .ok (.array (Positions.slice items start stop step))
  | _ => .ok .null

/-- What a table does with a call whose arguments are known. -/
def callIn (table : Registry) (name : String) (args : List Argument) : Except Fault Json :=
  match table.get? name with
  | none => .error (.unknownFunction name)
  | some f =>
    match f.invoke args with
    | .ok v => .ok v
    | .error failure => .error (failure.named name)

mutual

/-- **The value of an expression** on a value, with a table of functions. -/
def evaluate (table : Registry) : Expr → Json → Except Fault Json
  | identity, v => .ok v
  | current, v => .ok v
  | field name, v => .ok (fieldOf name v)
  | literal value, _ => .ok value
  | path steps, v => evaluateSteps table steps v
  | indexing steps, v => evaluateSteps table steps v
  | index position, v => .ok (itemOf position v)
  | slice start stop step, v => sliceOf start stop step v
  | pipe left right, v => do
    let v ← evaluate table left v
    evaluate table right v
  | compare op left right, v => do
    let l ← evaluate table left v
    let r ← evaluate table right v
    return compareValues op l r
  | or left right, v => do
    let l ← evaluate table left v
    if l.isTruthy then return l else evaluate table right v
  | and left right, v => do
    let l ← evaluate table left v
    if l.isTruthy then evaluate table right v else return l
  | not body, v => do
    let b ← evaluate table body v
    return b.negation
  | flatten body, v => do
    match ← evaluate table body v with
    | .array items => return .array (spliceArrays items)
    | _ => return .null
  | project left right, v => do
    match ← evaluate table left v with
    | .array items => gather (evaluate table right) items
    | _ => return .null
  | projectValues left right, v => do
    match ← evaluate table left v with
    | .object entries => gather (evaluate table right) (entries.map Prod.snd)
    | _ => return .null
  | projectWhere left right condition, v => do
    match ← evaluate table left v with
    | .array items =>
      let kept ← keep (evaluate table condition) items
      gather (evaluate table right) kept
    | _ => return .null
  | list items, v =>
    if v.isNull then .ok .null
    else do
      let values ← evaluateAll table items v
      return .array values
  | hash entries, v =>
    if v.isNull then .ok .null
    else do
      let values ← evaluateEntries table entries v
      return .object (Entries.insertAll [] values)
  | call name args, v => do
    let args ← evaluateArguments table args v
    callIn table name args
  | reference _, _ => .ok .null

/-- The value that some steps lead to, each starting from where the one before it led. -/
def evaluateSteps (table : Registry) : List Expr → Json → Except Fault Json
  | [], v => .ok v
  | e :: es, v => do
    let v ← evaluate table e v
    evaluateSteps table es v

/-- The values of some expressions on one value. -/
def evaluateAll (table : Registry) : List Expr → Json → Except Fault (List Json)
  | [], _ => .ok []
  | e :: es, v => do
    let first ← evaluate table e v
    let rest ← evaluateAll table es v
    return first :: rest

/-- The values of some keyed expressions on one value, under their keys. -/
def evaluateEntries (table : Registry) :
    List (String × Expr) → Json → Except Fault (List (String × Json))
  | [], _ => .ok []
  | (key, e) :: es, v => do
    let first ← evaluate table e v
    let rest ← evaluateEntries table es v
    return (key, first) :: rest

/-- The arguments of a call. -/
def evaluateArguments (table : Registry) : List Expr → Json → Except Fault (List Argument)
  | [], _ => .ok []
  | reference body :: es, v => do
    let rest ← evaluateArguments table es v
    return .reference ⟨body, evaluate table body⟩ :: rest
  | e :: es, v => do
    let first ← evaluate table e v
    let rest ← evaluateArguments table es v
    return .value first :: rest

end

/-- What is no reference is an argument by its value. -/
theorem evaluateArguments_cons {table : Registry} {e : Expr} (he : ∀ body, e ≠ reference body)
    (es : List Expr) (v : Json) : evaluateArguments table (e :: es) v = (do
      let first ← evaluate table e v
      let rest ← evaluateArguments table es v
      return .value first :: rest) := by
  cases e with
  | reference body => exact absurd rfl (he body)
  | _ => rfl

end Expr

end JsonQuery
