import JsonQuery.Expr.Basic

/-!
# Expressions as values

An expression can be shown as a JSON value, `JsonQuery.Expr.encode`. Every expression
becomes an object: under `type` the name of its form, and under `value` what it is made
of. The two forms that are made of nothing have no `value`. A form with one part has that
part for its value, a form whose parts are told apart by their place has an array, and a
form whose parts have names has an object.
-/

namespace JsonQuery

namespace Expr

/-- An object with the name of a form and what an expression of that form is made of. -/
def tagged (kind : String) (value : Json) : Json :=
  .object [("type", .string kind), ("value", value)]

/-- A bound of a slice as a value. -/
def encodeBound : Option Int → Json
  | none => .null
  | some n => .int n

mutual

/-- **An expression as a value.** -/
def encode : Expr → Json
  | identity => .object [("type", .string "identity")]
  | current => .object [("type", .string "current")]
  | field name => tagged "field" (.string name)
  | literal value => tagged "literal" value
  | path steps => tagged "subexpression" (.array (encodeAll steps))
  | indexing steps => tagged "index_expression" (.array (encodeAll steps))
  | index position => tagged "index" (.int position)
  | slice start stop step =>
    tagged "slice" (.object
      [("start", encodeBound start), ("stop", encodeBound stop), ("step", encodeBound step)])
  | pipe l r => tagged "pipe" (.array [encode l, encode r])
  | compare op l r =>
    tagged "comparator" (.object
      [("op", .string op.name), ("left", encode l), ("right", encode r)])
  | or l r => tagged "or_expression" (.array [encode l, encode r])
  | and l r => tagged "and_expression" (.array [encode l, encode r])
  | not e => tagged "not_expression" (encode e)
  | flatten e => tagged "flatten" (encode e)
  | project l r => tagged "projection" (.object [("left", encode l), ("right", encode r)])
  | projectValues l r =>
    tagged "value_projection" (.object [("left", encode l), ("right", encode r)])
  | projectWhere l r c =>
    tagged "filter_projection" (.object
      [("left", encode l), ("right", encode r), ("condition", encode c)])
  | list items => tagged "multi_select_list" (.array (encodeAll items))
  | hash entries => tagged "multi_select_dict" (.array (encodeEntries entries))
  | call name args =>
    tagged "function_expression" (.object
      [("name", .string name), ("args", .array (encodeAll args))])
  | reference e => tagged "expref" (encode e)

/-- Some expressions as values. -/
def encodeAll : List Expr → List Json
  | [] => []
  | e :: es => encode e :: encodeAll es

/-- Some keyed expressions as values, each an object with its key and its expression. -/
def encodeEntries : List (String × Expr) → List Json
  | [] => []
  | (key, e) :: es => .object [("key", .string key), ("value", encode e)] :: encodeEntries es

end

end Expr

end JsonQuery
