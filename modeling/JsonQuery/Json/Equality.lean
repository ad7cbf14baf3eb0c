import JsonQuery.Json.Basic

/-!
# Equality of values

`JsonQuery.Json.same` compares two values by what they stand for. Numbers are compared as
numbers, so `1` is the same as `1.0` (`JsonQuery.Number.same`); arrays are compared item
by item; and two objects are the same if they have as many entries and every entry of the
one has its match in the other, in whatever order the keys stand.
-/

namespace JsonQuery.Json

mutual

/-- Whether two values stand for the same, to any depth. -/
def same : Json → Json → Bool
  | null, null => true
  | bool a, bool b => a == b
  | number a, number b => a.same b
  | string a, string b => a == b
  | array a, array b => sameItems a b
  | object a, object b => a.length == b.length && sameEntries a b
  | _, _ => false

/-- Whether two lists are as long as each other and the same item by item. -/
def sameItems : List Json → List Json → Bool
  | [], [] => true
  | a :: as, b :: bs => same a b && sameItems as bs
  | _, _ => false

/-- Whether each of some entries has its match among others. -/
def sameEntries : List (String × Json) → List (String × Json) → Bool
  | [], _ => true
  | (key, value) :: rest, others =>
    (match others.lookup key with
      | some other => same value other
      | none => false) && sameEntries rest others

end

/-- The order of two values: only numbers have one. -/
def order? : Json → Json → Option Ordering
  | number a, number b => some (a.compare b)
  | _, _ => none

end JsonQuery.Json
