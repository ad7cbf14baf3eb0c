import JsonQuery.Proofs.ProjectionComposition

/-!
# Negation

Whether a value is true is asked in four places: by a conjunction and by a disjunction of the
value on their left, by a negation, and by a filter of what its condition yields. The negation
asks one thing more, whether the value is zero, and the other three do not. They are in accord
all the same (`JsonQuery.Json.negation_eq`), so the laws of De Morgan hold, and they hold as
equations between all that the two sides can yield: faults are the same faults, and where the
left side settles the matter the right side is not looked at
(`JsonQuery.Expr.evaluate_not_and`, `JsonQuery.Expr.evaluate_not_or`). What a conjunction
yields is no truth value but one of its operands. It takes the negation around it, or those
inside, to make a truth value of it.

A filter by a condition and a filter by its negation share out the items between them
(`JsonQuery.Expr.Shares`), provided that the condition has a value on every item. The `null`s
are not shared out: the condition is asked about them, but no projection keeps them.
-/

namespace JsonQuery

namespace Expr

variable {table : Registry}

/-! ### Conjunctions and disjunctions -/

/-- A negation fails with what its body fails with. -/
theorem evaluate_not (c : Expr) (v : Json) : evaluate table (.not c) v =
    (evaluate table c v).map fun w => .bool !w.isTruthy := by
  rw [evaluate]
  rcases evaluate table c v with f | w
  · rfl
  · exact congrArg Except.ok w.negation_eq

section DeMorgan

variable (table) (c d : Expr) (v : Json)

/-- **The negation of a conjunction** is the disjunction of the negations. -/
theorem evaluate_not_and : evaluate table (.not (.and c d)) v =
    evaluate table (.or (.not c) (.not d)) v := by
  rw [evaluate_not, evaluate, evaluate, evaluate_not, evaluate_not]
  rcases evaluate table c v with f | w
  · rfl
  · -- both sides look at `d` if `w` is true, and neither does if it is not
    have hnot : (Json.bool !w.isTruthy).isTruthy = !w.isTruthy := rfl
    simp only [bind, Except.bind, Except.map, hnot]
    cases hw : w.isTruthy with
    | true => rfl
    | false => exact congrArg (fun b : Bool => Except.ok (Json.bool !b)) hw

/-- **The negation of a disjunction** is the conjunction of the negations. -/
theorem evaluate_not_or : evaluate table (.not (.or c d)) v =
    evaluate table (.and (.not c) (.not d)) v := by
  rw [evaluate_not, evaluate, evaluate, evaluate_not, evaluate_not]
  rcases evaluate table c v with f | w
  · rfl
  · have hnot : (Json.bool !w.isTruthy).isTruthy = !w.isTruthy := rfl
    simp only [bind, Except.bind, Except.map, hnot]
    cases hw : w.isTruthy with
    | true => exact congrArg (fun b : Bool => Except.ok (Json.bool !b)) hw
    | false => rfl

end DeMorgan

/-! ### Filters -/

/-- Whether a condition is true on a value; where it fails it is not. -/
def holdsOn (condition : Json → Except Fault Json) (v : Json) : Bool :=
  match condition v with
  | .ok w => w.isTruthy
  | .error _ => false

theorem holdsOn_eq {condition : Json → Except Fault Json} {v w : Json} (h : condition v = .ok w) :
    holdsOn condition v = w.isTruthy := by
  rw [holdsOn, h]

/-- Where a condition has a value its negation has the other truth value. -/
theorem holdsOn_not {c : Expr} {v w : Json} (h : evaluate table c v = .ok w) :
    holdsOn (evaluate table (.not c)) v = !holdsOn (evaluate table c) v := by
  have hnot : evaluate table (.not c) v = .ok (.bool !w.isTruthy) := by
    rw [evaluate_not, h]
    rfl
  rw [holdsOn_eq h, holdsOn_eq hnot]
  rfl

/-- A condition that fails on none of some values keeps those on which it is true. -/
theorem keep_eq_filter {condition : Json → Except Fault Json} {vs : List Json}
    (h : ∀ v ∈ vs, ∃ w, condition v = .ok w) :
    keep condition vs = .ok (vs.filter (holdsOn condition)) := by
  induction vs with
  | nil => rfl
  | cons v vs ih =>
    obtain ⟨⟨w, hw⟩, hvs⟩ := List.forall_mem_cons.mp h
    rw [keep, hw, ih hvs, List.filter_cons, holdsOn_eq hw]
    rfl

/-- A right side that is the value at hand only drops the `null`s. -/
theorem gather_identity (vs : List Json) :
    gather (evaluate table identity) vs = .ok (.array (dropNulls vs)) := by
  have hmap : vs.mapM (evaluate table identity) = .ok vs := by
    induction vs with
    | nil => rfl
    | cons v vs ih =>
      rw [List.mapM_cons, ih]
      rfl
  rw [gather, hmap]
  rfl

/-- **A filter** whose condition fails on no item keeps what is not `null` and makes it true. -/
theorem evaluate_projectWhere_identity {c l : Expr} {v : Json} {items : List Json}
    (hl : evaluate table l v = .ok (.array items))
    (hc : ∀ item ∈ items, ∃ w, evaluate table c item = .ok w) :
    evaluate table (.projectWhere l identity c) v =
      .ok (.array ((dropNulls items).filter (holdsOn (evaluate table c)))) := by
  rw [evaluate, hl]
  simp only [bind, Except.bind, keep_eq_filter hc]
  rw [gather_identity, dropNulls, dropNulls, List.filter_filter, List.filter_filter]
  simp only [Bool.and_comm]

/-- That two lists **share out** the items of a third between them: each item goes to one of
them and not to the other, and they keep its order. -/
structure Shares (whole left right : List Json) : Prop where
  /-- The items on the left stand in the order of the whole. -/
  left_sublist : left.Sublist whole
  /-- So do those on the right. -/
  right_sublist : right.Sublist whole
  /-- Together they are as many times there as in the whole. -/
  perm : (left ++ right).Perm whole
  /-- No item is on both sides. -/
  disjoint : ∀ v ∈ left, v ∉ right

theorem shares_filter (p : Json → Bool) (vs : List Json) :
    Shares vs (vs.filter p) (vs.filter fun v => !p v) where
  left_sublist := List.filter_sublist
  right_sublist := List.filter_sublist
  perm := List.filter_append_perm p vs
  disjoint v hleft hright := by
    have hp := (List.mem_filter.mp hleft).2
    have hnot := (List.mem_filter.mp hright).2
    rw [hp] at hnot
    cases hnot

/-- **Negation is the complement of truth.** De Morgan's laws hold for expressions of every kind,
whatever they yield and wherever they fail. And where a condition fails on no item of an array,
the filter by it and the filter by its negation share out the items that are not `null`: the
first has those on which the condition is true, and the second has the others. -/
theorem negation_complements (table : Registry) (c d l : Expr) (v : Json) :
    evaluate table (.not (.and c d)) v = evaluate table (.or (.not c) (.not d)) v ∧
    evaluate table (.not (.or c d)) v = evaluate table (.and (.not c) (.not d)) v ∧
    ∀ items, evaluate table l v = .ok (.array items) →
      (∀ item ∈ items, ∃ w, evaluate table c item = .ok w) →
      ∃ kept rejected, evaluate table (.projectWhere l identity c) v = .ok (.array kept) ∧
        evaluate table (.projectWhere l identity (.not c)) v = .ok (.array rejected) ∧
        Shares (items.filter fun item => !item.isNull) kept rejected ∧
        (∀ item ∈ kept, ∃ w, evaluate table c item = .ok w ∧ w.isTruthy = true) ∧
        ∀ item ∈ rejected, ∃ w, evaluate table c item = .ok w ∧ w.isTruthy = false := by
  refine ⟨evaluate_not_and table c d v, evaluate_not_or table c d v, fun items hl hc => ?_⟩
  have hvalue : ∀ item ∈ dropNulls items, ∃ w, evaluate table c item = .ok w :=
    fun item hitem => hc item (List.mem_filter.mp hitem).1
  have hrejects : (dropNulls items).filter (holdsOn (evaluate table (.not c))) =
      (dropNulls items).filter fun item => !holdsOn (evaluate table c) item := by
    refine List.filter_congr fun item hitem => ?_
    obtain ⟨w, hw⟩ := hvalue item hitem
    exact holdsOn_not hw
  have hnot : ∀ item ∈ items, ∃ w, evaluate table (.not c) item = .ok w := by
    intro item hitem
    obtain ⟨w, hw⟩ := hc item hitem
    exact ⟨_, by rw [evaluate_not, hw]; rfl⟩
  refine ⟨_, _, evaluate_projectWhere_identity hl hc,
    hrejects ▸ evaluate_projectWhere_identity hl hnot, shares_filter _ _, ?_, ?_⟩
  · intro item hitem
    obtain ⟨hmem, hholds⟩ := List.mem_filter.mp hitem
    obtain ⟨w, hw⟩ := hvalue item hmem
    exact ⟨w, hw, holdsOn_eq hw ▸ hholds⟩
  · intro item hitem
    obtain ⟨hmem, hholds⟩ := List.mem_filter.mp hitem
    obtain ⟨w, hw⟩ := hvalue item hmem
    rw [holdsOn_eq hw, Bool.not_eq_true'] at hholds
    exact ⟨w, hw, hholds⟩

/-- Items of every type, true ones and false ones, and some of them twice. -/
def mixedItems : List Json :=
  [.int 0, .null, .object [], .string "", .int 0, .array [.null], .bool false, .object [],
    .object [("a", .null)]]

/-- Which of them a filter keeps that asks for the items themselves, and which it does not. -/
theorem negation_complements_of_mixed :
    evaluate .standard current (.array mixedItems) = .ok (.array mixedItems) ∧
    (∀ item ∈ mixedItems, ∃ w, evaluate .standard current item = .ok w) ∧
    Shares (mixedItems.filter fun item => !item.isNull)
      [.int 0, .int 0, .array [.null], .object [("a", .null)]]
      [.object [], .string "", .bool false, .object []] := by
  have hnever : ∀ item ∈ mixedItems, ∃ w, evaluate .standard current item = .ok w :=
    fun item _ => ⟨item, rfl⟩
  obtain ⟨-, -, hshares⟩ :=
    negation_complements .standard current current current (.array mixedItems)
  obtain ⟨kept, rejected, hkept, hrejected, hshares, -⟩ := hshares mixedItems rfl hnever
  obtain rfl := Json.array.inj (Except.ok.inj hkept)
  obtain rfl := Json.array.inj (Except.ok.inj hrejected)
  exact ⟨rfl, hnever, hshares⟩

end Expr

end JsonQuery
