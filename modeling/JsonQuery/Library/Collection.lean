import JsonQuery.Library.Textual
import JsonQuery.Json.Equality

/-!
# Functions on collections

Functions on arrays and objects, some of which take a string for a collection of
characters as well.
-/

namespace JsonQuery.Library

/-- Whether a string is part of another, or a value is the same as an item of an array. -/
def contains : Function where
  name := "contains"
  signature := .fixed [[.array, .string], [.any]]
  body args := do
    let needle ← Argument.value? args 1
    match ← Argument.value? args 0 with
    | .array items => return .bool (items.any fun item => item.same needle)
    | .string haystack =>
      match needle with
      | .string part => return .bool (isPartOf part.toList haystack.toList)
      | _ => return .bool false
    | other => .error (Argument.mismatch ["array", "string"] other)

/-- The keys of an object, in order. -/
def keys : Function where
  name := "keys"
  signature := .fixed [[.object]]
  body args := do
    let entries ← Argument.object? args 0
    return .array (entries.map fun entry => .string entry.1)

/-- The values of an object, in order. -/
def values : Function where
  name := "values"
  signature := .fixed [[.object]]
  body args := do
    let entries ← Argument.object? args 0
    return .array (entries.map fun entry => entry.2)

/-- The number of items, characters or entries. -/
def length : Function where
  name := "length"
  signature := .fixed [[.array, .string, .object]]
  body args := do
    match ← Argument.value? args 0 with
    | .array items => return .int items.length
    | .string text => return .int text.length
    | .object entries => return .int entries.length
    | other => .error (Argument.mismatch ["array", "string", "object"] other)

/-- An expression on every item of an array; results that are `null` stay. -/
def map : Function where
  name := "map"
  signature := .fixed [[.expression], [.array]]
  body args := do
    let reference ← Argument.reference? args 0
    let items ← Argument.array? args 1
    let results ← items.mapM (Argument.run reference.evaluate)
    return .array results

/-- The entries of some objects in one: every key where it first came, with the value that
came last. -/
def mergeEntries (entries : List (String × Json)) : List Argument → Except Failure (List (String × Json))
  | [] => .ok entries
  | arg :: rest =>
    match arg.toJson with
    | .object more => mergeEntries (Entries.insertAll entries more) rest
    | other => .error (Argument.mismatch ["object"] other)

/-- Some objects in one. -/
def merge : Function where
  name := "merge"
  signature := .variadicOf [[.object]]
  body args := do
    let entries ← mergeEntries [] args
    return .object entries

/-- The first argument that is not `null`. -/
def notNull : Function where
  name := "not_null"
  signature := .variadicOf [[]]
  body args := .ok (((args.map Argument.toJson).find? fun v => !v.isNull).getD .null)

/-- The items of an array or the characters of a string in reverse order. -/
def reverse : Function where
  name := "reverse"
  signature := .fixed [[.string, .array]]
  body args := do
    match ← Argument.value? args 0 with
    | .array items => return .array items.reverse
    | .string text => return .string (String.ofList text.toList.reverse)
    | other => .error (Argument.mismatch ["string", "array"] other)

/-- The functions on collections. -/
def collection : List Function :=
  [contains, keys, length, map, merge, notNull, reverse, values]

end JsonQuery.Library
