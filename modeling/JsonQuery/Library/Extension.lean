import JsonQuery.Function.Basic

/-!
# Functions beyond the standard ones

A table can be extended by any functions, and a function that has the name of a standard one
takes its place. The functions here are small ones to extend a table with: one on strings,
one that evaluates an expression, two that accept any number of arguments of whatever type,
one of which always complains, and one that takes the place of a standard function.
-/

namespace JsonQuery.Library

/-- A string in capital letters, as far as they are among the first hundred and
twenty-eight characters. -/
def upper : Function where
  name := "upper"
  signature := .fixed [[.string]]
  body args := do
    let text ← Argument.string? args 0
    return .string (String.ofList (text.toList.map Char.toUpper))

/-- Whether a value is the truth value *true*, and not only counts as true. -/
def isTrue : Json → Bool
  | .bool b => b
  | _ => false

/-- For how many items of an array an expression yields *true*. -/
def countIf : Function where
  name := "count_if"
  signature := .fixed [[.array], [.expression]]
  body args := do
    let items ← Argument.array? args 0
    let reference ← Argument.reference? args 1
    let results ← items.mapM (Argument.run reference.evaluate)
    return .int (results.countP isTrue)

/-- A complaint, whatever the arguments are. -/
def fails : Function where
  name := "fails"
  signature := .variadicOf []
  body _ := .error (.complaint (.custom "always fails"))

/-- The names of the types of the arguments. -/
def types : Function where
  name := "types"
  signature := .variadicOf []
  body args := .ok (.array (args.map fun arg => .string arg.typeName))

/-- A function in the place of the one that counts items. -/
def overridden : Function where
  name := "length"
  signature := .fixed [[.any]]
  body _ := .ok (.string "overridden")

/-- The functions that add to the standard ones. -/
def extension : List Function :=
  [upper, countIf, fails, types]

end JsonQuery.Library
