import JsonQuery.Expr.Basic

/-!
# Expressions inside expressions

The **nodes** of an expression (`JsonQuery.Expr.nodes`): the expression itself, the ones
directly below it, the ones below those, and so on. What is shown of an expression by means
of its children alone is shown by `JsonQuery.Expr.children_induction`.
-/

namespace JsonQuery

namespace Tree

variable {α : Type}

theorem preorderAll_eq_flatMap (cs : List (Tree α)) : preorderAll cs = cs.flatMap preorder := by
  induction cs with
  | nil => rfl
  | cons c cs ih => rw [preorderAll, ih, List.flatMap_cons]

theorem size_le_sizeAll {c : Tree α} {cs : List (Tree α)} (h : c ∈ cs) :
    c.size ≤ sizeAll cs := by
  induction cs with
  | nil => exact absurd h List.not_mem_nil
  | cons d cs ih =>
    rw [sizeAll]
    rcases List.mem_cons.mp h with rfl | h
    · exact Nat.le_add_right _ _
    · exact Nat.le_trans (ih h) (Nat.le_add_left _ _)

end Tree

namespace Expr

/-- **The expressions in an expression**, itself included: a node before its children, and
the children in order. -/
def nodes (e : Expr) : List Expr :=
  e.tree.preorder

theorem nodes_eq (e : Expr) : e.nodes = e :: e.children.flatMap nodes := by
  rw [nodes, tree_eq, Tree.preorder, Tree.preorderAll_eq_flatMap, List.flatMap_map]
  rfl

theorem mem_nodes_self (e : Expr) : e ∈ e.nodes := by
  rw [nodes_eq]
  exact List.mem_cons_self

theorem mem_nodes_of_mem_children {e c x : Expr} (hc : c ∈ e.children) (hx : x ∈ c.nodes) :
    x ∈ e.nodes := by
  rw [nodes_eq]
  exact List.mem_cons_of_mem e (List.mem_flatMap.mpr ⟨c, hc, hx⟩)

/-- A node is the expression itself or a node of a child. -/
theorem mem_nodes_iff {e x : Expr} : x ∈ e.nodes ↔ x = e ∨ ∃ c ∈ e.children, x ∈ c.nodes := by
  rw [nodes_eq, List.mem_cons, List.mem_flatMap]

theorem size_tree_lt_of_mem_children {e c : Expr} (h : c ∈ e.children) :
    c.tree.size < e.tree.size := by
  rw [tree_eq e, Tree.size]
  exact Nat.lt_succ_of_le (Tree.size_le_sizeAll (List.mem_map_of_mem h))

/-- **Induction on expressions** by way of their children. -/
theorem children_induction {P : Expr → Prop} (h : ∀ e, (∀ c ∈ e.children, P c) → P e)
    (e : Expr) : P e :=
  h e fun c _ => children_induction h c
termination_by e.tree.size
decreasing_by exact size_tree_lt_of_mem_children ‹_›

end Expr

end JsonQuery
