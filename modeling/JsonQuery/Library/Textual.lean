import JsonQuery.Function.Basic

/-!
# Functions on strings

Strings are sequences of characters, and one string is part of another as a sequence.
-/

namespace JsonQuery.Library

/-- Whether one sequence of characters is a part of another without gaps. -/
def isPartOf (needle : List Char) : List Char → Bool
  | [] => needle.isEmpty
  | c :: rest => needle.isPrefixOf (c :: rest) || isPartOf needle rest

theorem isPartOf_iff_infix (needle haystack : List Char) :
    isPartOf needle haystack = true ↔ needle <:+: haystack := by
  induction haystack with
  | nil => simp [isPartOf]
  | cons c rest ih => simp [isPartOf, ih, List.infix_cons_iff]

/-- Whether a string ends with another. -/
def endsWith : Function where
  name := "ends_with"
  signature := .fixed [[.string], [.string]]
  body args := do
    let text ← Argument.string? args 0
    let ending ← Argument.string? args 1
    return .bool (ending.toList.isSuffixOf text.toList)

/-- Whether a string starts with another. -/
def startsWith : Function where
  name := "starts_with"
  signature := .fixed [[.string], [.string]]
  body args := do
    let text ← Argument.string? args 0
    let start ← Argument.string? args 1
    return .bool (start.toList.isPrefixOf text.toList)

/-- The strings among some values. -/
def strings (vs : List Json) : List String :=
  vs.filterMap fun
    | .string text => some text
    | _ => none

/-- Some strings in one, with another between two of them. -/
def join : Function where
  name := "join"
  signature := .fixed [[.string], [.arrayOf .string]]
  body args := do
    let glue ← Argument.string? args 0
    let items ← Argument.array? args 1
    return .string (String.intercalate glue (strings items))

/-- The functions on strings. -/
def textual : List Function :=
  [endsWith, join, startsWith]

end JsonQuery.Library
