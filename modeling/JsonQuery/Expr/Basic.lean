import JsonQuery.Token.Basic
import JsonQuery.Tree

/-!
# Expressions

The trees that queries are made of. Most of them say how to get from the value at hand to
another value: to a field, to an item, through a chain of steps. A **projection** has a
left side that yields many values and a right side that is applied to each of them.

Two of the constructors hold a **chain**, a list of steps that are taken one after the
other: `JsonQuery.Expr.path`, whose steps are separated by dots, and
`JsonQuery.Expr.indexing`, whose steps are given in brackets. Chains are built from the
left by `JsonQuery.Expr.dotted` and `JsonQuery.Expr.indexed`, which put a step at the end
of a chain of their own kind instead of starting a chain inside a chain.
-/

namespace JsonQuery

/-- An **expression**. -/
inductive Expr where
  /-- The value at hand, where nothing is written. -/
  | identity
  /-- The value at hand, written as an at sign. -/
  | current
  /-- The value under a key. -/
  | field (name : String)
  /-- A value that stands for itself. -/
  | literal (value : Json)
  /-- Steps that are taken one after the other, separated by dots. -/
  | path (steps : List Expr)
  /-- A value and the indices that are applied to it one after the other. -/
  | indexing (steps : List Expr)
  /-- The item at a position; a negative position counts from the end. -/
  | index (position : Int)
  /-- The items from a position up to another, in steps. -/
  | slice (start stop step : Option Int)
  /-- The right side, evaluated on the value of the left one. -/
  | pipe (left right : Expr)
  /-- A comparison of two values. -/
  | compare (op : Comparison) (left right : Expr)
  /-- The left value if it is true, and otherwise the right one. -/
  | or (left right : Expr)
  /-- The left value if it is false, and otherwise the right one. -/
  | and (left right : Expr)
  /-- Whether a value is false. -/
  | not (body : Expr)
  /-- An array whose items that are arrays are replaced by their items. -/
  | flatten (body : Expr)
  /-- The right side on every item of an array. -/
  | project (left right : Expr)
  /-- The right side on every value of an object. -/
  | projectValues (left right : Expr)
  /-- The right side on every item of an array on which a condition is true. -/
  | projectWhere (left right condition : Expr)
  /-- An array of several values. -/
  | list (items : List Expr)
  /-- An object of several values under given keys. -/
  | hash (entries : List (String × Expr))
  /-- A call of a function. -/
  | call (name : String) (args : List Expr)
  /-- An expression that is not evaluated but handed to a function. -/
  | reference (body : Expr)

namespace Expr

instance : Inhabited Expr := ⟨identity⟩

/-! ### Chains -/

/-- A step behind a dot: it goes to the end of a path if there is one on the left. -/
def dotted : Expr → Expr → Expr
  | path steps, right => path (steps ++ [right])
  | left, right => path [left, right]

/-- An index behind an expression: it goes to the end of a chain of indices if there is
one on the left. -/
def indexed : Expr → Expr → Expr
  | indexing steps, right => indexing (steps ++ [right])
  | left, right => indexing [left, right]

/-! ### The shape of an expression -/

/-- The name of the form of an expression. -/
def kind : Expr → String
  | identity => "identity"
  | current => "current"
  | field _ => "field"
  | literal _ => "literal"
  | path _ => "subexpression"
  | indexing _ => "index_expression"
  | index _ => "index"
  | slice .. => "slice"
  | pipe .. => "pipe"
  | compare .. => "comparator"
  | or .. => "or_expression"
  | and .. => "and_expression"
  | not _ => "not_expression"
  | flatten _ => "flatten"
  | project .. => "projection"
  | projectValues .. => "value_projection"
  | projectWhere .. => "filter_projection"
  | list _ => "multi_select_list"
  | hash _ => "multi_select_dict"
  | call .. => "function_expression"
  | reference _ => "expref"

/-- The expressions directly below an expression; the condition of a projection comes
last. -/
def children : Expr → List Expr
  | identity | current | field _ | literal _ | index _ | slice .. => []
  | path steps | indexing steps => steps
  | pipe l r | compare _ l r | or l r | and l r | project l r | projectValues l r => [l, r]
  | projectWhere l r c => [l, r, c]
  | not e | flatten e | reference e => [e]
  | list items => items
  | hash entries => entries.map Prod.snd
  | call _ args => args

/-- A bound of a slice in words; a bound that is not given is empty. -/
def boundLabel : Option Int → String
  | none => ""
  | some n => toString n

/-- An expression in words: its form, and what it carries besides its children. -/
def label : Expr → String
  | field name => s!"field({name})"
  | literal value => s!"literal({value.text})"
  | index position => s!"index({position})"
  | slice start stop step =>
    s!"slice({boundLabel start}:{boundLabel stop}:{boundLabel step})"
  | compare op .. => s!"comparator({op.name})"
  | call name _ => s!"function_expression({name})"
  | hash entries =>
    let keys := String.intercalate ", " (entries.map Prod.fst)
    s!"multi_select_dict({keys})"
  | e => e.kind

mutual

/-- An expression as the tree of the expressions in it. -/
def tree : Expr → Tree Expr
  | path steps => .node (path steps) (trees steps)
  | indexing steps => .node (indexing steps) (trees steps)
  | pipe l r => .node (pipe l r) [tree l, tree r]
  | compare op l r => .node (compare op l r) [tree l, tree r]
  | or l r => .node (or l r) [tree l, tree r]
  | and l r => .node (and l r) [tree l, tree r]
  | not e => .node (not e) [tree e]
  | flatten e => .node (flatten e) [tree e]
  | project l r => .node (project l r) [tree l, tree r]
  | projectValues l r => .node (projectValues l r) [tree l, tree r]
  | projectWhere l r c => .node (projectWhere l r c) [tree l, tree r, tree c]
  | list items => .node (list items) (trees items)
  | hash entries => .node (hash entries) (entryTrees entries)
  | call name args => .node (call name args) (trees args)
  | reference e => .node (reference e) [tree e]
  | e => .node e []

/-- The trees of some expressions. -/
def trees : List Expr → List (Tree Expr)
  | [] => []
  | e :: es => tree e :: trees es

/-- The trees of the expressions under some keys. -/
def entryTrees : List (String × Expr) → List (Tree Expr)
  | [] => []
  | (_, e) :: es => tree e :: entryTrees es

end

theorem trees_eq_map (es : List Expr) : trees es = es.map tree := by
  induction es with
  | nil => rfl
  | cons e es ih => rw [trees, ih, List.map_cons]

theorem entryTrees_eq_map (es : List (String × Expr)) :
    entryTrees es = (es.map Prod.snd).map tree := by
  induction es with
  | nil => rfl
  | cons e es ih =>
    obtain ⟨k, e⟩ := e
    rw [entryTrees, ih]
    rfl

/-- **The tree of an expression** has the expression at its root and the trees of its
children below. -/
theorem tree_eq (e : Expr) : e.tree = .node e (e.children.map tree) := by
  cases e <;> simp [tree, children, trees_eq_map, entryTrees_eq_map]

/-- An expression as a text that shows the form of every expression in it. -/
def outline (e : Expr) : String :=
  (e.tree.map kind).outline

/-- The height of an expression: that of its tree. -/
def height (e : Expr) : Nat :=
  e.tree.height

end Expr

end JsonQuery
