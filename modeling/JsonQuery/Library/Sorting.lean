import JsonQuery.Function.Basic

/-!
# Sorting and extrema

Numbers are ordered by their doubles and strings by the code points of their characters;
between values of different types there is no order, and they count as equal
(`JsonQuery.Library.compareKeys`). The signatures see to it that such values do not come
together: the items of an array that is sorted are all numbers or all strings, and so are
the **keys** that an expression yields for them (`JsonQuery.Library.keyed`).

Sorting is stable, and of several least or greatest items the first one is taken.
-/

namespace JsonQuery.Library

/-- The order of two numbers or two strings; any other two values count as equal. -/
def compareKeys : Json → Json → Ordering
  | .number a, .number b => a.compare b
  | .string a, .string b => Ord.compare a b
  | _, _ => .eq

/-- Items in the order of their keys; items of equal keys stay in their order. -/
def sortByKey {α : Type} (key : α → Json) (items : List α) : List α :=
  items.mergeSort fun a b => compareKeys (key a) (key b) != .gt

/-- The first item whose key is beyond the keys of all items before it and not behind one
after it, in a given direction. -/
def extremum {α : Type} (key : α → Json) (wanted : Ordering) (items : List α) : Option α :=
  items.foldl (fun best item => match best with
    | none => some item
    | some b => if compareKeys (key item) (key b) = wanted then some item else some b) none

/-- Whether values of a type of this name can be keys. -/
def isKeyType (name : String) : Bool :=
  name == "number" || name == "string"

/-- Items with their keys. The first key fixes the type of all of them, by its name; it
has to be a number or a string. -/
def keyedAs (evaluate : Json → Except Fault Json) (type? : Option String) :
    List Json → Except Failure (List (Json × Json))
  | [] => .ok []
  | item :: rest => do
    let key ← Argument.run evaluate item
    let actual := key.typeName
    let expected := type?.getD actual
    if isKeyType actual && actual == expected then
      let more ← keyedAs evaluate (some expected) rest
      return (key, item) :: more
    else .error (Argument.mismatch [if isKeyType expected then expected else "string"] key)

/-- The items of the array at the first position, with the keys that the expression at
the second one yields for them. -/
def keyed (args : List Argument) : Except Failure (List (Json × Json)) := do
  let items ← Argument.array? args 0
  let reference ← Argument.reference? args 1
  keyedAs reference.evaluate none items

/-- Some numbers or some strings in order. -/
def sort : Function where
  name := "sort"
  signature := .fixed [[.arrayOf .number, .arrayOf .string]]
  body args := do
    let items ← Argument.array? args 0
    return .array (sortByKey id items)

/-- The items of an array in the order of what an expression yields for them. -/
def sortBy : Function where
  name := "sort_by"
  signature := .fixed [[.array], [.expression]]
  body args := do
    let pairs ← keyed args
    return .array ((sortByKey Prod.fst pairs).map Prod.snd)

/-- The first of the items that are greatest or least, of some numbers or some strings. -/
def extreme (name : String) (wanted : Ordering) : Function where
  name := name
  signature := .fixed [[.arrayOf .number, .arrayOf .string]]
  body args := do
    let items ← Argument.array? args 0
    return (extremum id wanted items).getD .null

/-- The first of the items for which what an expression yields is greatest or least. -/
def extremeBy (name : String) (wanted : Ordering) : Function where
  name := name
  signature := .fixed [[.array], [.expression]]
  body args := do
    let pairs ← keyed args
    return ((extremum Prod.fst wanted pairs).map Prod.snd).getD .null

/-- The greatest of some numbers or some strings. -/
def max : Function :=
  extreme "max" .gt

/-- The least of some numbers or some strings. -/
def min : Function :=
  extreme "min" .lt

/-- The item for which what an expression yields is greatest. -/
def maxBy : Function :=
  extremeBy "max_by" .gt

/-- The item for which what an expression yields is least. -/
def minBy : Function :=
  extremeBy "min_by" .lt

/-- The functions that sort and pick extrema. -/
def sorting : List Function :=
  [max, maxBy, min, minBy, sort, sortBy]

end JsonQuery.Library
