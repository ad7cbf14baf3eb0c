import JsonQuery.Library.Collection
import JsonQuery.Proofs.StableSorting

/-!
# Extrema are the ends of sorted arrays

The least item of an array is picked by going through the array once and keeping an item until
one comes that is ahead of it. That is the first of the least items
(`JsonQuery.Library.exists_isFirst_extremum`), and it is what sorting puts in front, because
sorting is stable: of the group of all least items it keeps the order
(`JsonQuery.StablySorts.head?_eq`).

For the greatest item the same is true the other way round, and that takes some care. The last
item of the sorted array is the *last* of the greatest ones. To get at the first one the array
has to be turned round before it is sorted, and then turning what is sorted round once more
sorts the array stably by the opposite order (`JsonQuery.StablySorts.reverse`). So there is
nothing to be shown about greatest items that is not shown about least ones.

The functions that pick extrema look at the keys as sorting does, so they fail if and only if
sorting fails, and in the same way (`JsonQuery.Library.extrema_of_sorting`).
-/

namespace JsonQuery

variable {α : Type}

/-! ### The first of the least items -/

/-- That an item is the **first** of the least among some items: none of the items before it
stands in the relation to it, and it stands in the relation to all items behind it. -/
def IsFirst (le : α → α → Prop) (items : List α) (m : α) : Prop :=
  ∃ before after, items = before ++ m :: after ∧ (∀ a ∈ before, ¬le a m) ∧ ∀ a ∈ after, le m a

/-- The first of the least items is one of the items. -/
theorem IsFirst.mem {le : α → α → Prop} {items : List α} {m : α} (h : IsFirst le items m) :
    m ∈ items := by
  obtain ⟨before, after, rfl, -, -⟩ := h
  exact List.mem_append_right _ List.mem_cons_self

/-- The first of the least items is a least one. -/
theorem IsFirst.least {le : α → α → Prop} {items : List α} {m : α} (h : IsFirst le items m)
    (htotal : ∀ a ∈ items, ∀ b ∈ items, le a b ∨ le b a) : ∀ a ∈ items, le m a := by
  intro a ha
  have hm := h.mem
  obtain ⟨before, after, rfl, hbefore, hafter⟩ := h
  rcases List.mem_append.mp ha with hb | hb
  · exact (htotal a ha m hm).resolve_left (hbefore a hb)
  · rcases List.mem_cons.mp hb with rfl | hb
    · exact (htotal a ha a ha).elim id id
    · exact hafter a hb

/-- The first of the least items is the first item of any group that it is in and that consists
of least items only. -/
theorem IsFirst.exists_filter_eq_cons {le : α → α → Prop} {items : List α} {m : α}
    (h : IsFirst le items m) {group : α → Bool} (hm : group m = true)
    (hgroup : ∀ a, group a = true → le a m) : ∃ rest, items.filter group = m :: rest := by
  obtain ⟨before, after, rfl, hbefore, -⟩ := h
  have hnone : before.filter group = [] :=
    List.filter_eq_nil_iff.mpr fun a ha hin => hbefore a ha (hgroup a hin)
  rw [List.filter_append, hnone, List.nil_append, List.filter_cons_of_pos hm]
  exact ⟨_, rfl⟩

/-- The first of the least items stays it when an item that does not stand in the relation to it
comes in front. -/
theorem IsFirst.cons {le : α → α → Prop} {items : List α} {a m : α} (h : IsFirst le items m)
    (ham : ¬le a m) : IsFirst le (a :: items) m := by
  obtain ⟨before, after, rfl, hbefore, hafter⟩ := h
  exact ⟨a :: before, after, rfl, List.forall_mem_cons.mpr ⟨ham, hbefore⟩, hafter⟩

/-- The first of the least items stays it when behind the very first item one comes in to which
that one stands in the relation. -/
theorem IsFirst.insert_second {le : α → α → Prop} (htrans : ∀ a b c, le a b → le b c → le a c)
    {items : List α} {a b m : α} (h : IsFirst le (a :: items) m) (hab : le a b) :
    IsFirst le (a :: b :: items) m := by
  obtain ⟨before, after, hsplit, hbefore, hafter⟩ := h
  cases before with
  | nil =>
    obtain ⟨rfl, rfl⟩ := List.cons.inj hsplit
    exact ⟨[], b :: items, rfl, List.forall_mem_nil _, List.forall_mem_cons.mpr ⟨hab, hafter⟩⟩
  | cons a' before =>
    obtain ⟨rfl, rfl⟩ := List.cons.inj hsplit
    obtain ⟨ham, hbefore⟩ := List.forall_mem_cons.mp hbefore
    have hbm : ¬le b m := fun hbm => ham (htrans a b m hab hbm)
    exact ⟨a :: b :: before, after, rfl,
      List.forall_mem_cons.mpr ⟨ham, List.forall_mem_cons.mpr ⟨hbm, hbefore⟩⟩, hafter⟩

namespace StablySorts

variable {le : α → α → Prop} {items sorted : List α}

/-- **Stable sorting puts the first of the least items in front.** -/
theorem head?_eq (h : StablySorts le items sorted)
    (htrans : ∀ a b c, le a b → le b c → le a c)
    (htotal : ∀ a ∈ items, ∀ b ∈ items, le a b ∨ le b a) {m : α} (hm : IsFirst le items m) :
    sorted.head? = some m := by
  classical
  have hleast := hm.least htotal
  have hself := hleast m hm.mem
  -- the group of the least items, of which `m` is the first
  obtain ⟨group, hin⟩ : ∃ group : α → Bool, ∀ a, group a = true ↔ le a m :=
    ⟨fun a => decide (le a m), fun a => decide_eq_true_iff⟩
  have hgroup := h.stable group fun a _ b hb ha _ => htrans a m b ((hin a).mp ha) (hleast b hb)
  obtain ⟨rest, hitems⟩ := hm.exists_filter_eq_cons ((hin m).mpr hself) fun a => (hin a).mp
  have hsorted := h.perm.mem_iff.mpr hm.mem
  have hordered := h.ordered
  cases sorted with
  | nil => exact absurd hsorted List.not_mem_nil
  | cons first others =>
    have hfirst : le first m := by
      rcases List.mem_cons.mp hsorted with rfl | hothers
      · exact hself
      · exact List.rel_of_pairwise_cons hordered hothers
    rw [hitems, List.filter_cons_of_pos ((hin first).mpr hfirst)] at hgroup
    rw [List.head?_cons, (List.cons.inj hgroup).1]

/-- **Turned round twice**: if what is turned round is sorted stably, then what is sorted, turned
round, is sorted stably by the opposite order. -/
theorem reverse (h : StablySorts le items.reverse sorted) :
    StablySorts (fun a b => le b a) items sorted.reverse where
  perm := (List.reverse_perm sorted).trans (h.perm.trans (List.reverse_perm items))
  ordered := List.pairwise_reverse.mpr h.ordered
  stable group hgroup := by
    have hkept := h.stable group fun a ha b hb hga hgb =>
      hgroup b (List.mem_reverse.mp hb) a (List.mem_reverse.mp ha) hgb hga
    rw [List.filter_reverse, hkept, List.filter_reverse, List.reverse_reverse]

end StablySorts

namespace Library

/-- **An extremum is the first of its kind**, going by a total preorder that fails between two
items just if the second one is beyond the first one in the wanted direction. -/
theorem exists_isFirst_extremum {key : α → Json} {wanted : Ordering} {le : α → α → Prop}
    (htrans : ∀ a b c, le a b → le b c → le a c) {a : α} {items : List α}
    (htotal : ∀ b ∈ a :: items, ∀ c ∈ a :: items, le b c ∨ le c b)
    (hbeyond : ∀ b ∈ a :: items, ∀ c ∈ a :: items,
      (compareKeys (key c) (key b) = wanted ↔ ¬le b c)) :
    ∃ m, extremum key wanted (a :: items) = some m ∧ IsFirst le (a :: items) m := by
  -- the first item is the best of those that were passed
  induction items generalizing a with
  | nil => exact ⟨a, rfl, [], [], rfl, List.forall_mem_nil _, List.forall_mem_nil _⟩
  | cons b rest ih =>
    have hab := hbeyond a List.mem_cons_self b (List.mem_cons_of_mem a List.mem_cons_self)
    rw [extremum_cons_cons]
    split
    · next hahead =>
      have hsub {c : α} (hc : c ∈ b :: rest) : c ∈ a :: b :: rest := List.mem_cons_of_mem a hc
      have hrest : ∀ c ∈ b :: rest, ∀ d ∈ b :: rest, le c d ∨ le d c :=
        fun c hc d hd => htotal c (hsub hc) d (hsub hd)
      obtain ⟨m, hpick, hm⟩ := ih hrest fun c hc d hd => hbeyond c (hsub hc) d (hsub hd)
      have hmb : le m b := hm.least hrest b List.mem_cons_self
      exact ⟨m, hpick, hm.cons fun ham => hab.mp hahead (htrans a m b ham hmb)⟩
    · next hbehind =>
      have hle : le a b := Classical.not_not.mp fun h => hbehind (hab.mpr h)
      have hsub {c : α} (hc : c ∈ a :: rest) : c ∈ a :: b :: rest := by
        rcases List.mem_cons.mp hc with rfl | hc
        · exact List.mem_cons_self
        · exact List.mem_cons_of_mem a (List.mem_cons_of_mem b hc)
      obtain ⟨m, hpick, hm⟩ :=
        ih (fun c hc d hd => htotal c (hsub hc) d (hsub hd))
          fun c hc d hd => hbeyond c (hsub hc) d (hsub hd)
      exact ⟨m, hpick, hm.insert_second htrans hle⟩

/-! ### The functions that pick extrema -/

/-- That two functions on arrays **pick the ends** of what a third one sorts by a relation. All
of them fail alike. Of an array that is not empty, the one picks the first item of what is
sorted, which is the first of the least items; and the other picks the last item of what is
sorted after the array was turned round, which is the first of the greatest items. Of the empty
array both make `null`. -/
structure PicksEnds (sorting least greatest : List Json → Except Failure Json)
    (le : Json → Json → Prop) (items : List Json) : Prop where
  /-- The one fails as sorting does. -/
  least_error (e : Failure) : least items = .error e ↔ sorting items = .error e
  /-- The other fails as sorting does. -/
  greatest_error (e : Failure) : greatest items = .error e ↔ sorting items = .error e
  /-- The one picks the first item. -/
  least_eq {v : Json} (h : sorting items = .ok v) (hne : items ≠ []) :
    ∃ sorted m, v = .array sorted ∧ sorted.head? = some m ∧ least items = .ok m ∧
      IsFirst le items m
  /-- The other picks the last item, after the array was turned round. -/
  greatest_eq {v : Json} (h : sorting items = .ok v) (hne : items ≠ []) :
    ∃ back sorted m, reverse.invoke [.value (.array items)] = .ok (.array back) ∧
      sorting back = .ok (.array sorted) ∧ sorted.getLast? = some m ∧ greatest items = .ok m ∧
      IsFirst (fun a b => le b a) items m
  /-- Of the empty array there is nothing to pick. -/
  empty (h : items = []) : least items = .ok .null ∧ greatest items = .ok .null

section Keys

variable {key : α → Json} {items : List α}

/-- The first of the items with the least key is the first item after sorting. -/
theorem exists_least (h : ∀ a ∈ items, ∀ b ∈ items, OfOneKind (key a) (key b))
    (hne : items ≠ []) : ∃ m, extremum key .lt items = some m ∧
      (sortByKey key items).head? = some m ∧
      IsFirst (fun a b => KeyLE (key a) (key b)) items m := by
  have htrans (a b c : α) (hab : KeyLE (key a) (key b)) (hbc : KeyLE (key b) (key c)) :
      KeyLE (key a) (key c) := hab.trans hbc
  have htotal : ∀ a ∈ items, ∀ b ∈ items, KeyLE (key a) (key b) ∨ KeyLE (key b) (key a) :=
    fun a ha b hb => (h a ha b hb).total
  obtain ⟨a, rest, rfl⟩ := List.exists_cons_of_ne_nil hne
  obtain ⟨m, hpick, hm⟩ := exists_isFirst_extremum htrans htotal
    fun b hb c hc => (h c hc b hb).compareKeys_eq_lt
  exact ⟨m, hpick, (stablySorts_sortByKey h).head?_eq htrans htotal hm, hm⟩

/-- The first of the items with the greatest key is the last item after turning round and
sorting. -/
theorem exists_greatest (h : ∀ a ∈ items, ∀ b ∈ items, OfOneKind (key a) (key b))
    (hne : items ≠ []) : ∃ m, extremum key .gt items = some m ∧
      (sortByKey key items.reverse).getLast? = some m ∧
      IsFirst (fun a b => KeyLE (key b) (key a)) items m := by
  have htrans (a b c : α) (hba : KeyLE (key b) (key a)) (hcb : KeyLE (key c) (key b)) :
      KeyLE (key c) (key a) := hcb.trans hba
  have htotal : ∀ a ∈ items, ∀ b ∈ items, KeyLE (key b) (key a) ∨ KeyLE (key a) (key b) :=
    fun a ha b hb => (h b hb a ha).total
  have hsorts : StablySorts (fun a b => KeyLE (key a) (key b)) items.reverse
      (sortByKey key items.reverse) :=
    stablySorts_sortByKey fun a ha b hb => h a (List.mem_reverse.mp ha) b (List.mem_reverse.mp hb)
  obtain ⟨a, rest, rfl⟩ := List.exists_cons_of_ne_nil hne
  obtain ⟨m, hpick, hm⟩ := exists_isFirst_extremum htrans htotal
    fun b hb c hc => (h c hc b hb).compareKeys_eq_gt
  refine ⟨m, hpick, ?_, hm⟩
  rw [← List.head?_reverse]
  exact hsorts.reverse.head?_eq htrans htotal hm

end Keys

/-- **Functions that sort and pick by the same keys**, if there are keys. -/
theorem picksEnds_of_keys {sorting least greatest : List Json → Except Failure Json}
    {key : Json → Json} {items : List Json}
    (h : ∀ a ∈ items, ∀ b ∈ items, OfOneKind (key a) (key b))
    (hsorting : sorting items = .ok (.array (sortByKey key items)))
    (hback : sorting items.reverse = .ok (.array (sortByKey key items.reverse)))
    (hleast : least items = .ok ((extremum key .lt items).getD .null))
    (hgreatest : greatest items = .ok ((extremum key .gt items).getD .null)) :
    PicksEnds sorting least greatest (fun a b => KeyLE (key a) (key b)) items where
  least_error e := by simp [hsorting, hleast]
  greatest_error e := by simp [hsorting, hgreatest]
  least_eq {v} hv hne := by
    obtain rfl := Except.ok.inj (hsorting.symm.trans hv)
    obtain ⟨m, hpick, hhead, hm⟩ := exists_least h hne
    exact ⟨_, m, rfl, hhead, by rw [hleast, hpick, Option.getD_some], hm⟩
  greatest_eq _ hne := by
    obtain ⟨m, hpick, hlast, hm⟩ := exists_greatest h hne
    exact ⟨_, _, m, rfl, hback, hlast, by rw [hgreatest, hpick, Option.getD_some], hm⟩
  empty hempty := by
    subst hempty
    exact ⟨hleast, hgreatest⟩

/-- **Functions that fail alike**, on an array that is not empty. -/
theorem picksEnds_of_error {sorting least greatest : List Json → Except Failure Json}
    {le : Json → Json → Prop} {items : List Json} {e : Failure} (hne : items ≠ [])
    (hsorting : sorting items = .error e) (hleast : least items = .error e)
    (hgreatest : greatest items = .error e) : PicksEnds sorting least greatest le items where
  least_error e' := by rw [hsorting, hleast]
  greatest_error e' := by rw [hsorting, hgreatest]
  least_eq hv _ := absurd (hsorting.symm.trans hv) (by simp)
  greatest_eq hv _ := absurd (hsorting.symm.trans hv) (by simp)
  empty hempty := absurd hempty hne

/-- Picking by keys, where there are keys. -/
theorem invoke_extremeBy {g : Json → Except Fault Json} {items : List Json}
    (h : YieldsKeys g items) (body : Expr) (name : String) (wanted : Ordering) :
    (extremeBy name wanted).invoke [.value (.array items), .reference ⟨body, g⟩] =
      .ok ((extremum (keyOf g) wanted items).getD .null) := by
  rw [invoke_of_keyed (f := extremeBy name wanted) rfl (fun _ => rfl) items body g,
    keyedAs_of_yieldsKeys h]
  show Except.ok (((extremum Prod.fst wanted (items.map _)).map Prod.snd).getD Json.null) = _
  rw [extremum_map, Option.map_map]
  exact congrArg (fun m => Except.ok (Option.getD m Json.null))
    (congrFun Option.map_id (extremum (keyOf g) wanted items))

/-- Picking by keys, where there is none for an item. -/
theorem invoke_extremeBy_of_error {g : Json → Except Fault Json} {items : List Json} {e : Failure}
    (h : keyedAs g none items = .error e) (body : Expr) (name : String) (wanted : Ordering) :
    (extremeBy name wanted).invoke [.value (.array items), .reference ⟨body, g⟩] = .error e := by
  rw [invoke_of_keyed (f := extremeBy name wanted) rfl (fun _ => rfl) items body g, h]
  rfl

/-- Picking, where the items themselves are keys. -/
theorem invoke_extreme {items : List Json} (h : YieldsKeys .ok items) (name : String)
    (wanted : Ordering) : (extreme name wanted).invoke [.value (.array items)] =
      .ok ((extremum id wanted items).getD .null) := by
  rw [Function.invoke_of_admits rfl (admits_of_yieldsKeys h)]
  rfl

/-- **Extrema are the ends of sorted arrays**, by the keys that any expression yields, and for
arrays of numbers or of strings also without one. -/
theorem extrema_of_sorting (body : Expr) (g : Json → Except Fault Json) (items : List Json) :
    PicksEnds (fun items => sortBy.invoke [.value (.array items), .reference ⟨body, g⟩])
      (fun items => minBy.invoke [.value (.array items), .reference ⟨body, g⟩])
      (fun items => maxBy.invoke [.value (.array items), .reference ⟨body, g⟩])
      (fun a b => KeyLE (keyOf g a) (keyOf g b)) items ∧
    (YieldsKeys .ok items →
      PicksEnds (fun items => sort.invoke [.value (.array items)])
        (fun items => min.invoke [.value (.array items)])
        (fun items => max.invoke [.value (.array items)]) KeyLE items) := by
  constructor
  · rcases yieldsKeys_or_spoils g items with
      hkeys | ⟨before, item, after, e, hsplit, -, -, herror⟩
    · exact picksEnds_of_keys hkeys.ofOneKind (invoke_sortBy hkeys body)
        (invoke_sortBy (hkeys.perm (List.reverse_perm items)) body)
        (invoke_extremeBy hkeys body _ _) (invoke_extremeBy hkeys body _ _)
    · have hne : items ≠ [] := by rw [hsplit]; simp
      exact picksEnds_of_error hne (invoke_sortBy_of_error herror body)
        (invoke_extremeBy_of_error herror body _ _) (invoke_extremeBy_of_error herror body _ _)
  · intro hkeys
    exact picksEnds_of_keys hkeys.ofOneKind (invoke_sort hkeys)
      (invoke_sort (hkeys.perm (List.reverse_perm items))) (invoke_extreme hkeys _ _)
      (invoke_extreme hkeys _ _)

/-- Of two arrays with the greatest first item it is the first one that is picked, and sorting
what is turned round puts it last. And the ends of some numbers. -/
theorem extrema_of_ties :
    let body := Expr.index 0
    let g := body.evaluate .empty
    let items : List Json :=
      [.array [.string "a"], .array [.string "b", .null], .array [.string "b", .bool true]]
    let numbers : List Json := [.int 2, .int (-1), .int 2]
    (∃ back sorted, reverse.invoke [.value (.array items)] = .ok (.array back) ∧
      sortBy.invoke [.value (.array back), .reference ⟨body, g⟩] = .ok (.array sorted) ∧
      sorted.getLast? = some (.array [.string "b", .null])) ∧
    maxBy.invoke [.value (.array items), .reference ⟨body, g⟩] =
      .ok (.array [.string "b", .null]) ∧
    PicksEnds (fun items => sort.invoke [.value (.array items)])
      (fun items => min.invoke [.value (.array items)])
      (fun items => max.invoke [.value (.array items)]) KeyLE numbers := by
  intro body g items numbers
  have hkeys : YieldsKeys g items :=
    .inr (by simp [items, g, body, Expr.evaluate, Expr.itemOf, Positions.item?, Positions.fromFront])
  have hmax : maxBy.invoke [.value (.array items), .reference ⟨body, g⟩] =
      .ok (.array [.string "b", .null]) := rfl
  obtain ⟨back, sorted, m, hback, hsorted, hlast, hgreatest, -⟩ :=
    (extrema_of_sorting body g items).1.greatest_eq (invoke_sortBy hkeys body) (by simp [items])
  obtain rfl := Except.ok.inj (hmax.symm.trans hgreatest)
  exact ⟨⟨back, sorted, hback, hsorted, hlast⟩, hmax,
    (extrema_of_sorting body g numbers).2 (.inl (by simp [numbers, Json.int]))⟩

end Library

end JsonQuery
