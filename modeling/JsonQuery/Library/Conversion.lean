import JsonQuery.Function.Basic
import JsonQuery.Number.Notation

/-!
# Conversions

Functions from anything to a given type. None of them takes an expression, though
their signatures accept anything.
-/

namespace JsonQuery.Library

/-- An array as it is, and anything else as an array of one item. -/
def toArray : Function where
  name := "to_array"
  signature := .fixed [[.any]]
  body args := do
    match ← Argument.value? args 0 with
    | .array items => return .array items
    | v => return .array [v]

/-- The number that a text is in free notation; `null` if it is none or none that a double
is near to. -/
def numberOfText (text : List Char) : Json :=
  match (Decimal.ofText? text).bind Decimal.toDouble? with
  | some x => .number (.ofDouble x)
  | none => .null

/-- A number as it is, a string as the number that it is the text of, and anything else
as `null`. -/
def toNumber : Function where
  name := "to_number"
  signature := .fixed [[.any]]
  body args := do
    match ← Argument.value? args 0 with
    | .number n => return .number n
    | .string text => return numberOfText text.toList
    | _ => return .null

/-- A string as it is, and anything else as its text. -/
def toText : Function where
  name := "to_string"
  signature := .fixed [[.any]]
  body args := do
    match ← Argument.value? args 0 with
    | .string text => return .string text
    | v => return .string v.text

/-- The name of the type of a value. -/
def type : Function where
  name := "type"
  signature := .fixed [[.any]]
  body args := do
    let v ← Argument.value? args 0
    return .string v.typeName

/-- The conversions. -/
def conversion : List Function :=
  [toArray, toNumber, toText, type]

end JsonQuery.Library
