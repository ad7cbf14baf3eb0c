import JsonQuery.Expr.Basic

/-!
# Drawing expressions

An expression can be drawn as a graph in the language DOT. The drawing is a list of
**statements**, `JsonQuery.Drawing.ofTree`: one for each node of the tree and one for each
edge. Nodes are numbered as they are come to, from zero on: every node takes the number that
comes next, and whatever is drawn below it says which number comes next after that. The
statement of an edge comes after everything that is drawn of the child.

A label stands between quotation marks, so quotation marks and backslashes inside it are
escaped (`JsonQuery.Drawing.escape`).
-/

namespace JsonQuery

namespace Drawing

/-- One statement of a drawing. -/
inductive Statement where
  /-- A node with its number and its label. -/
  | node (id : Nat) (label : String)
  /-- An edge from a node to one of its children. -/
  | edge (source target : Nat)
  deriving DecidableEq, Repr

mutual

/-- The statements of a tree whose root takes the next number, and the number that is next
after them. -/
def ofTreeAt (next : Nat) : Tree String → List Statement × Nat
  | .node label children =>
    let (below, after) := ofChildrenAt next (next + 1) children
    (.node next label :: below, after)

/-- The statements of the children of the node `parent`, of which the first takes the next
number, and the number that is next after them. -/
def ofChildrenAt (parent next : Nat) : List (Tree String) → List Statement × Nat
  | [] => ([], next)
  | child :: rest =>
    let (drawn, behind) := ofTreeAt next child
    let (others, after) := ofChildrenAt parent behind rest
    (drawn ++ .edge parent next :: others, after)

end

/-- **The statements of a tree**, its root being number zero. -/
def ofTree (t : Tree String) : List Statement :=
  (ofTreeAt 0 t).1

/-- A text with a backslash before every occurrence of a character. -/
def escapeAll (special : Char) (cs : List Char) : List Char :=
  cs.flatMap fun c => if c = special then ['\\', c] else [c]

/-- A label as it stands between quotation marks. The backslashes of the label come first, so
that those before quotation marks are not taken for them. -/
def escape (cs : List Char) : List Char :=
  escapeAll '"' (escapeAll '\\' cs)

/-- A statement on a line of its own. -/
def Statement.text : Statement → String
  | node id label =>
    let escaped := String.ofList (escape label.toList)
    s!"  node{id} [label=\"{escaped}\"];\n"
  | edge source target => s!"  node{source} -> node{target};\n"

/-- The text of a drawing. -/
def text (statements : List Statement) : String :=
  "digraph AST \x7b\n" ++ String.join (statements.map Statement.text) ++ "\x7d\n"

end Drawing

/-- The drawing of an expression. -/
def Expr.drawing (e : Expr) : String :=
  Drawing.text (Drawing.ofTree (e.tree.map Expr.label))

end JsonQuery
