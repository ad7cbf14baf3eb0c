import JsonQuery.Library.Sorting
import JsonQuery.Proofs.Equality
import JsonQuery.Proofs.Rounding

/-!
# The order of integers

Integers are exact in a document, but they are ordered by their doubles: when two of them are
compared, when an array of them is sorted, and when the greatest or the least one is picked.
That these three ways agree is one statement here, made about any value that integers may be
ordered by (`JsonQuery.Json.OrderedBy`), so that going from the doubles to the integers
themselves is a change of that value and nothing else (`JsonQuery.Json.OrderedBy.congr`).

The doubles are the nearest ones, and rounding to them never turns an order around. So what
the order of integers says about two of them is either right or that they are equally large;
and it is right whenever doubles **tell apart** the integers at hand
(`JsonQuery.Json.ToldApart`), as they do up to `2 ^ 53`. All of that is
`JsonQuery.Json.order_of_integers`. Beyond, there are integers that differ and none of which
is the less (`JsonQuery.Json.not_lt_or_eq_or_gt`).
-/

namespace JsonQuery

/-! ### Comparing numbers -/

namespace Number

theorem isLT_compare {m n : Number} :
    (m.compare n).isLT = true ↔ m.toDouble.value < n.toDouble.value := by
  rw [Ordering.isLT_iff_eq_lt, compare, Double.compare, Int.compare_eq_lt]

theorem isLE_compare {m n : Number} :
    (m.compare n).isLE = true ↔ m.toDouble.value ≤ n.toDouble.value := by
  rw [compare, Double.compare, Int.isLE_compare]

theorem isGT_compare {m n : Number} :
    (m.compare n).isGT = true ↔ n.toDouble.value < m.toDouble.value := by
  rw [Ordering.isGT_iff_eq_gt, compare, Double.compare, Int.compare_eq_gt]

theorem isGE_compare {m n : Number} :
    (m.compare n).isGE = true ↔ n.toDouble.value ≤ m.toDouble.value := by
  rw [compare, Double.compare, Std.isGE_compare]

end Number

/-! ### Sorting and extrema -/

namespace Library

section Keys

variable {α β : Type} (key : α → Json) (f : β → α) (items : List β)

theorem sortByKey_map :
    sortByKey key (items.map f) = (sortByKey (key ∘ f) items).map f := by
  rw [sortByKey, sortByKey, List.map_mergeSort]
  intros
  rfl

theorem extremum_map (wanted : Ordering) :
    extremum key wanted (items.map f) = (extremum (key ∘ f) wanted items).map f := by
  rw [extremum, extremum, ← Option.map_none (f := f)]
  generalize (none : Option β) = best
  induction items generalizing best with
  | nil => rfl
  | cons item rest ih =>
    rw [List.map_cons, List.foldl_cons, List.foldl_cons, ← ih]
    congr 1
    cases best with
    | none => rfl
    | some b =>
      simp only [Option.map_some, Function.comp_apply]
      split <;> rfl

end Keys

variable {α : Type}

/-- Sorting by numbers puts their doubles in order. -/
theorem sortByKey_number (number : α → Number) (items : List α) :
    (sortByKey (fun a => .number (number a)) items).Perm items ∧
      (sortByKey (fun a => .number (number a)) items).Pairwise fun a b =>
        (number a).toDouble.value ≤ (number b).toDouble.value := by
  have hle {a b : α} : (compareKeys (.number (number a)) (.number (number b)) != .gt) = true ↔
      (number a).toDouble.value ≤ (number b).toDouble.value := by
    rw [bne_iff_ne]
    exact Ordering.isLE_iff_ne_gt.symm.trans Number.isLE_compare
  refine ⟨List.mergeSort_perm .., ?_⟩
  refine (List.pairwise_mergeSort (fun a b c => ?_) (fun a b => ?_) items).imp fun h => hle.mp h
  · rw [hle, hle, hle]
    exact Int.le_trans
  · rw [Bool.or_eq_true, hle, hle]
    exact Int.le_total _ _

/-- The first two items leave the one that is ahead. -/
theorem extremum_cons_cons (key : α → Json) (wanted : Ordering) (a b : α) (rest : List α) :
    extremum key wanted (a :: b :: rest) =
      extremum key wanted ((if compareKeys (key b) (key a) = wanted then b else a) :: rest) := by
  rw [extremum, extremum, List.foldl_cons, List.foldl_cons, List.foldl_cons]
  congr 1
  exact (apply_ite some _ b a).symm

/-- **An extremum is one**: going by a measure that grows in the wanted direction, no item is
beyond the one that is picked. -/
theorem exists_extremum {key : α → Json} {wanted : Ordering} {measure : α → Int}
    (hmeasure : ∀ a b, compareKeys (key a) (key b) = wanted ↔ measure b < measure a)
    (a : α) (items : List α) : ∃ m ∈ a :: items, extremum key wanted (a :: items) = some m ∧
      ∀ item ∈ a :: items, measure item ≤ measure m := by
  -- the first item is the best of those that were passed
  induction items generalizing a with
  | nil => exact ⟨a, List.mem_singleton_self a, rfl, by simp⟩
  | cons b rest ih =>
    rw [extremum_cons_cons]
    split
    · next hahead =>
      obtain ⟨m, hm, hpick, hbest⟩ := ih b
      have hlt := (hmeasure b a).mp hahead
      have hb := hbest b List.mem_cons_self
      refine ⟨m, List.mem_cons_of_mem a hm, hpick, List.forall_mem_cons.mpr ⟨?_, hbest⟩⟩
      omega
    · next hbehind =>
      obtain ⟨m, hm, hpick, hbest⟩ := ih a
      have hle : measure b ≤ measure a := Int.not_lt.mp fun h => hbehind ((hmeasure b a).mpr h)
      obtain ⟨ha, hrest⟩ := List.forall_mem_cons.mp hbest
      refine ⟨m, ?_, hpick, ?_⟩
      · rcases List.mem_cons.mp hm with rfl | hm
        · exact List.mem_cons_self
        · exact List.mem_cons_of_mem a (List.mem_cons_of_mem b hm)
      · rw [List.forall_mem_cons, List.forall_mem_cons]
        exact ⟨ha, Int.le_trans hle ha, hrest⟩

end Library

/-! ### Calls -/

theorem Function.invoke_of_admits {f : Function} {types : List ArgumentType} {arg : Argument}
    (hf : f.signature = .fixed [types]) (harg : Signature.admits types arg = true) :
    f.invoke [arg] = f.body [arg] := by
  simp [invoke, hf, Signature.checkArity, Signature.fixed, Signature.checkTypes,
    Signature.checkTypesFrom, Signature.typesAt?, harg]

theorem admits_integers {types : List ArgumentType} (h : .arrayOf .number ∈ types)
    (ns : List Int) : Signature.admits types (.value (.array (ns.map Json.int))) = true := by
  rw [Signature.admits, Bool.or_eq_true, List.any_eq_true]
  refine Or.inr ⟨_, h, ?_⟩
  show ((ns.map Json.int).all (ArgumentType.number.hasValue)) = true
  rw [List.all_eq_true]
  intro v hv
  obtain ⟨n, -, rfl⟩ := List.mem_map.mp hv
  rfl

/-! ### Integers -/

/-- That a comparison of two values **decides** whether something holds. -/
def Expr.Decides (op : Comparison) (a b : Json) (p : Prop) : Prop :=
  ∃ t, compareValues op a b = .bool t ∧ (t = true ↔ p)

namespace Json

/-- That some integers are **ordered by** a value that they have: the comparisons go by it,
sorting puts it in order, and the extrema are those of it. -/
structure OrderedBy (value : Int → Int) (ns : List Int) : Prop where
  /-- Being less. -/
  lt {a b : Int} (ha : a ∈ ns) (hb : b ∈ ns) :
    Expr.Decides .lt (int a) (int b) (value a < value b)
  /-- Being less or equal. -/
  lte {a b : Int} (ha : a ∈ ns) (hb : b ∈ ns) :
    Expr.Decides .lte (int a) (int b) (value a ≤ value b)
  /-- Being greater. -/
  gt {a b : Int} (ha : a ∈ ns) (hb : b ∈ ns) :
    Expr.Decides .gt (int a) (int b) (value b < value a)
  /-- Being greater or equal. -/
  gte {a b : Int} (ha : a ∈ ns) (hb : b ∈ ns) :
    Expr.Decides .gte (int a) (int b) (value b ≤ value a)
  /-- Sorting. -/
  sort : ∃ ms : List Int, ms.Perm ns ∧ (ms.Pairwise fun a b => value a ≤ value b) ∧
    Library.sort.invoke [.value (.array (ns.map int))] = .ok (.array (ms.map int))
  /-- The greatest integer. -/
  max (hne : ns ≠ []) : ∃ m ∈ ns, (∀ n ∈ ns, value n ≤ value m) ∧
    Library.max.invoke [.value (.array (ns.map int))] = .ok (int m)
  /-- The least integer. -/
  min (hne : ns ≠ []) : ∃ m ∈ ns, (∀ n ∈ ns, value m ≤ value n) ∧
    Library.min.invoke [.value (.array (ns.map int))] = .ok (int m)

/-- A value in the same order will do as well. -/
theorem OrderedBy.congr {v w : Int → Int} {ns : List Int} (h : OrderedBy v ns)
    (hle : ∀ a ∈ ns, ∀ b ∈ ns, (v a ≤ v b ↔ w a ≤ w b)) : OrderedBy w ns := by
  have hlt {a b : Int} (ha : a ∈ ns) (hb : b ∈ ns) : v a < v b ↔ w a < w b := by
    have hba := hle b hb a ha
    omega
  constructor
  · intro a b ha hb
    rw [← hlt ha hb]
    exact h.lt ha hb
  · intro a b ha hb
    rw [← hle a ha b hb]
    exact h.lte ha hb
  · intro a b ha hb
    rw [← hlt hb ha]
    exact h.gt ha hb
  · intro a b ha hb
    rw [← hle b hb a ha]
    exact h.gte ha hb
  · obtain ⟨ms, hperm, hpairs, hsort⟩ := h.sort
    refine ⟨ms, hperm, hpairs.imp_of_mem fun ha hb => ?_, hsort⟩
    exact (hle _ (hperm.mem_iff.mp ha) _ (hperm.mem_iff.mp hb)).mp
  · intro hne
    obtain ⟨m, hm, hbest, hmax⟩ := h.max hne
    exact ⟨m, hm, fun n hn => (hle n hn m hm).mp (hbest n hn), hmax⟩
  · intro hne
    obtain ⟨m, hm, hbest, hmin⟩ := h.min hne
    exact ⟨m, hm, fun n hn => (hle m hm n hn).mp (hbest n hn), hmin⟩

/-- Integers are ordered by their doubles. -/
theorem orderedBy_double (ns : List Int) : OrderedBy (fun n => (Double.ofInt n).value) ns := by
  have hextremum {wanted : Ordering} {v : Int → Int}
      (hmeasure : ∀ a b, Library.compareKeys (int a) (int b) = wanted ↔ v b < v a)
      (hne : ns ≠ []) : ∃ m ∈ ns, Library.extremum id wanted (ns.map int) = some (int m) ∧
        ∀ n ∈ ns, v n ≤ v m := by
    obtain ⟨n, rest, rfl⟩ := List.exists_cons_of_ne_nil hne
    obtain ⟨m, hm, hpick, hbest⟩ := Library.exists_extremum hmeasure n rest
    refine ⟨m, hm, ?_, hbest⟩
    rw [Library.extremum_map]
    exact congrArg (Option.map int) hpick
  constructor
  · intro a b _ _
    exact ⟨_, rfl, Number.isLT_compare⟩
  · intro a b _ _
    exact ⟨_, rfl, Number.isLE_compare⟩
  · intro a b _ _
    exact ⟨_, rfl, Number.isGT_compare⟩
  · intro a b _ _
    exact ⟨_, rfl, Number.isGE_compare⟩
  · obtain ⟨hperm, hpairs⟩ := Library.sortByKey_number Number.int ns
    refine ⟨_, hperm, hpairs, ?_⟩
    rw [Function.invoke_of_admits rfl (admits_integers List.mem_cons_self ns)]
    exact congrArg (fun items => Except.ok (array items)) (Library.sortByKey_map id int ns)
  · intro hne
    obtain ⟨m, hm, hpick, hbest⟩ := hextremum (v := fun n => (Double.ofInt n).value)
      (fun _ _ => Int.compare_eq_gt) hne
    refine ⟨m, hm, hbest, ?_⟩
    rw [Function.invoke_of_admits rfl (admits_integers List.mem_cons_self ns)]
    exact congrArg (fun item => Except.ok (item.getD null)) hpick
  · intro hne
    obtain ⟨m, hm, hpick, hbest⟩ := hextremum (v := fun n => -(Double.ofInt n).value)
      (fun _ _ => Int.compare_eq_lt.trans Int.neg_lt_neg_iff.symm) hne
    refine ⟨m, hm, fun n hn => Int.neg_le_neg_iff.mp (hbest n hn), ?_⟩
    rw [Function.invoke_of_admits rfl (admits_integers List.mem_cons_self ns)]
    exact congrArg (fun item => Except.ok (item.getD null)) hpick

/-! ### Where the order is exact -/

/-- That doubles **tell apart** two integers, unless they are the same. -/
def ToldApart (a b : Int) : Prop :=
  (Double.ofInt a).value = (Double.ofInt b).value → a = b

theorem toldApart_of_natAbs_le {a b : Int} (ha : a.natAbs ≤ 9007199254740992)
    (hb : b.natAbs ≤ 9007199254740992) : ToldApart a b := by
  intro h
  rw [Double.value_ofInt_of_natAbs_le ha, Double.value_ofInt_of_natAbs_le hb] at h
  exact Double.unitsOf_inj.mp h

theorem ToldApart.value_le_iff {a b : Int} (h : ToldApart b a) :
    (Double.ofInt a).value ≤ (Double.ofInt b).value ↔ a ≤ b := by
  constructor
  · intro hle
    by_contra hlt
    have hge : (Double.ofInt b).value ≤ (Double.ofInt a).value :=
      Double.value_ofInt_mono (Int.le_of_lt (Int.not_le.mp hlt))
    exact hlt (Int.le_of_eq (h (Int.le_antisymm hge hle)).symm)
  · exact Double.value_ofInt_mono

theorem decides_eq_alike (a b : Int) :
    Expr.Decides .eq (int a) (int b) ((Number.int a).Alike (Number.int b)) :=
  ⟨_, rfl, Number.same_iff_alike⟩

theorem ToldApart.alike_iff {a b : Int} (h : ToldApart a b) :
    (Number.int a).Alike (.int b) ↔ a = b := by
  constructor
  · intro halike
    exact h halike.value_eq
  · rintro rfl
    exact Or.inl rfl

/-- Integers of sixty-four signed bits are alike only if they are the same. -/
theorem alike_iff_of_fitsSigned {a b : Int} (ha : Number.fitsSigned a = true)
    (hb : Number.fitsSigned b = true) : (Number.int a).Alike (.int b) ↔ a = b := by
  have hsigned {n : Int} (hn : Number.fitsSigned n = true) :
      (Number.int n).signed?.isSome = true := by
    rw [Number.signed?, if_pos hn]
    rfl
  constructor
  · intro halike
    exact Number.int.inj (halike.eq_of_signed? (hsigned ha) (hsigned hb))
  · rintro rfl
    exact Or.inl rfl

/-- **The order of integers** is that of the doubles nearest to them. It never contradicts
the exact order, nor does equality; and it is the exact order wherever doubles tell the
integers apart, which they do up to `2 ^ 53`. Equality is exact on all integers of sixty-four
signed bits. -/
theorem order_of_integers (ns : List Int) :
    OrderedBy (fun n => (Double.ofInt n).value) ns ∧
    (∀ n, (Double.ofInt n).IsNearest (Double.unitsOf n)) ∧
    (∀ a b : Int, a ≤ b → (Double.ofInt a).value ≤ (Double.ofInt b).value) ∧
    (∀ a b : Int, Expr.compareValues .eq (int a) (int b) = .bool true →
      (Double.ofInt a).value = (Double.ofInt b).value) ∧
    ((∀ a ∈ ns, ∀ b ∈ ns, ToldApart a b) →
      OrderedBy id ns ∧ ∀ a ∈ ns, ∀ b ∈ ns, Expr.Decides .eq (int a) (int b) (a = b)) ∧
    (∀ a b : Int, a.natAbs ≤ 9007199254740992 → b.natAbs ≤ 9007199254740992 → ToldApart a b) ∧
    ∀ a b : Int, Number.fitsSigned a = true → Number.fitsSigned b = true →
      Expr.Decides .eq (int a) (int b) (a = b) := by
  refine ⟨orderedBy_double ns, Double.isNearest_ofInt, fun _ _ => Double.value_ofInt_mono,
    fun a b h => ?_, fun htold => ⟨?_, fun a ha b hb => ?_⟩, fun _ _ => toldApart_of_natAbs_le,
    fun a b ha hb => ?_⟩
  · exact (Number.same_iff_alike.mp (Json.bool.inj h)).value_eq
  · exact (orderedBy_double ns).congr fun a ha b hb => (htold b hb a ha).value_le_iff
  · rw [← (htold a ha b hb).alike_iff]
    exact decides_eq_alike a b
  · rw [← alike_iff_of_fitsSigned ha hb]
    exact decides_eq_alike a b

/-- The largest integers up to which the order is exact on all. -/
theorem ordered_of_large :
    OrderedBy id [9007199254740992, -9007199254740992, 9007199254740991] := by
  refine ((order_of_integers _).2.2.2.2.1 fun a ha b hb => ?_).1
  refine toldApart_of_natAbs_le ?_ ?_
  · revert a
    decide
  · revert b
    decide

/-- **Integers are not compared exactly**: of two that have the same double none is less,
though they differ. -/
theorem not_lt_or_eq_or_gt :
    ¬∀ {a b : Int}, Number.fitsDocument a = true → Number.fitsDocument b = true →
      Expr.compareValues .lt (int a) (int b) = .bool true ∨
        Expr.compareValues .eq (int a) (int b) = .bool true ∨
          Expr.compareValues .gt (int a) (int b) = .bool true := by
  intro h
  have hsome := h (a := 9007199254740992) (b := 9007199254740993) (by decide) (by decide)
  rcases hsome with hlt | heq | hgt
  · exact absurd (Json.bool.inj hlt) (by decide +kernel)
  · exact absurd (Json.bool.inj heq) (by decide +kernel)
  · exact absurd (Json.bool.inj hgt) (by decide +kernel)

end Json

end JsonQuery
