/-!
# Trees

Trees whose nodes carry a label and any number of children in order. They are the bare
shape of an expression: how high it is, how many nodes it has, and how it looks as an
outline can be asked of the shape alone.
-/

namespace JsonQuery

/-- A **tree**: a label and the trees below it, in order. -/
inductive Tree (α : Type) where
  /-- A node. -/
  | node (label : α) (children : List (Tree α))

namespace Tree

variable {α β : Type}

/-- The label at the root. -/
def label : Tree α → α
  | node a _ => a

/-- The trees below the root. -/
def children : Tree α → List (Tree α)
  | node _ cs => cs

mutual

/-- The tree of the same shape with every label replaced. -/
def map (f : α → β) : Tree α → Tree β
  | node a cs => node (f a) (mapAll f cs)

/-- Some trees with every label replaced. -/
def mapAll (f : α → β) : List (Tree α) → List (Tree β)
  | [] => []
  | c :: cs => map f c :: mapAll f cs

end

mutual

/-- The number of nodes. -/
def size : Tree α → Nat
  | node _ cs => sizeAll cs + 1

/-- The number of nodes of some trees. -/
def sizeAll : List (Tree α) → Nat
  | [] => 0
  | c :: cs => size c + sizeAll cs

end

mutual

/-- The number of nodes on the longest way from the root to a leaf. -/
def height : Tree α → Nat
  | node _ cs => heightAll cs + 1

/-- The height of the highest of some trees. -/
def heightAll : List (Tree α) → Nat
  | [] => 0
  | c :: cs => max (height c) (heightAll cs)

end

mutual

/-- The labels in **preorder**: a node before its children, the children in order. -/
def preorder : Tree α → List α
  | node a cs => a :: preorderAll cs

/-- The labels of some trees in preorder. -/
def preorderAll : List (Tree α) → List α
  | [] => []
  | c :: cs => preorder c ++ preorderAll cs

end

mutual

/-- A tree of texts as one text: the label, and behind it the children between
parentheses if there are any. -/
def outline : Tree String → String
  | node a [] => a
  | node a cs => a ++ "(" ++ String.intercalate "," (outlineAll cs) ++ ")"

/-- The outlines of some trees. -/
def outlineAll : List (Tree String) → List String
  | [] => []
  | c :: cs => outline c :: outlineAll cs

end

theorem mapAll_eq_map (f : α → β) (cs : List (Tree α)) : mapAll f cs = cs.map (map f) := by
  induction cs with
  | nil => rfl
  | cons c cs ih => rw [mapAll, ih, List.map_cons]

end Tree

end JsonQuery
