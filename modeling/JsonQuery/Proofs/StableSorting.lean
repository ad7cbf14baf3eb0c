import JsonQuery.Proofs.IntegerOrder
import Mathlib.Logic.Basic

/-!
# Sorting is stable

Sorting compares keys, and two keys that are neither two numbers nor two strings count as
equal. That is no order on all values: a number may be greater than another, and `null` counts
as equal to both. So what sorting does has to be shown where the keys are all numbers or all
strings, and the functions that sort see to it that they are: `sort` by its signature, and
`sort_by` by looking at the keys, from the first item to the last one, before anything is
sorted. If it finds an item that **spoils** this it fails (`JsonQuery.Library.Spoils`), and if
not the keys are of one kind (`JsonQuery.Library.YieldsKeys`).

What a stable sort is does not depend on how it is done (`JsonQuery.StablySorts`): the items
are put in order, and the items of any group whose keys are all equal stay in the order in
which they were. On items whose keys are of one kind a comparison of keys is a total preorder,
and merging is stable for these, so the items are taken as a type of their own, on which there
is nothing else (`JsonQuery.Library.stablySorts_sortByKey`).
-/

namespace JsonQuery

/-! ### Stable sorting -/

/-- That a list is what **stably sorts** some items by a relation: it consists of these items,
each of them stands in the relation to all that come later, and whatever group of items is
picked out that all stand in the relation to each other, these items are in the same order in
both lists. -/
structure StablySorts {α : Type} (le : α → α → Prop) (items sorted : List α) : Prop where
  /-- No item is lost and none is added. -/
  perm : sorted.Perm items
  /-- The items are in order. -/
  ordered : sorted.Pairwise le
  /-- Items that are equal in the order stay as they were. -/
  stable (group : α → Bool)
    (h : ∀ a ∈ items, ∀ b ∈ items, group a = true → group b = true → le a b) :
    sorted.filter group = items.filter group

variable {α β : Type}

/-- Merging sorts stably by a total preorder. -/
theorem stablySorts_mergeSort {le : α → α → Bool}
    (htrans : ∀ a b c, le a b = true → le b c = true → le a c = true)
    (htotal : ∀ a b, (le a b || le b a) = true) (items : List α) :
    StablySorts (fun a b => le a b = true) items (items.mergeSort le) where
  perm := List.mergeSort_perm ..
  ordered := List.pairwise_mergeSort htrans htotal items
  stable group h := by
    have hordered : (items.filter group).Pairwise fun a b => le a b = true := by
      refine List.pairwise_of_forall_mem_list fun a ha b hb => ?_
      obtain ⟨ha, hgroupa⟩ := List.mem_filter.mp ha
      obtain ⟨hb, hgroupb⟩ := List.mem_filter.mp hb
      exact h a ha b hb hgroupa hgroupb
    -- the group is in order already, so it is found as it is in the sorted list
    have hfound : (items.filter group).Sublist ((items.mergeSort le).filter group) := by
      have hsublist := List.sublist_mergeSort htrans htotal hordered List.filter_sublist
      simpa using hsublist.filter group
    have hlength := ((List.mergeSort_perm items le).filter group).length_eq
    exact (hfound.eq_of_length hlength.symm).symm

/-- Sorting by what something is made of is sorting what is made of it. -/
theorem StablySorts.map (le : β → β → Prop) (f : α → β) {items sorted : List α}
    (h : StablySorts (fun a b => le (f a) (f b)) items sorted) :
    StablySorts le (items.map f) (sorted.map f) where
  perm := h.perm.map f
  ordered := List.pairwise_map.mpr h.ordered
  stable group hgroup := by
    rw [List.filter_map, List.filter_map]
    refine congrArg (List.map f) (h.stable (group ∘ f) fun a ha b hb => ?_)
    exact hgroup (f a) (List.mem_map_of_mem ha) (f b) (List.mem_map_of_mem hb)

namespace Library

/-! ### The order of keys -/

/-- **The order of keys**: numbers by their doubles, and strings by the code points of their
characters. Other values are no keys. -/
inductive KeyLE : Json → Json → Prop where
  /-- Numbers go by their doubles. -/
  | number {m n : Number} (h : m.toDouble.value ≤ n.toDouble.value) :
    KeyLE (.number m) (.number n)
  /-- Strings go by their characters. -/
  | string {s t : String} (h : s ≤ t) : KeyLE (.string s) (.string t)

/-- That two values are keys **of one kind**: two numbers, or two strings. -/
inductive OfOneKind : Json → Json → Prop where
  /-- Two numbers. -/
  | numbers (m n : Number) : OfOneKind (.number m) (.number n)
  /-- Two strings. -/
  | strings (s t : String) : OfOneKind (.string s) (.string t)

variable {j k l : Json}

theorem KeyLE.trans (hjk : KeyLE j k) (hkl : KeyLE k l) : KeyLE j l := by
  cases hjk with
  | number hjk =>
    cases hkl with
    | number hkl => exact .number (Int.le_trans hjk hkl)
  | string hjk =>
    cases hkl with
    | string hkl => exact .string (String.le_trans hjk hkl)

theorem OfOneKind.total (h : OfOneKind j k) : KeyLE j k ∨ KeyLE k j := by
  cases h with
  | numbers m n =>
    exact (Int.le_total m.toDouble.value n.toDouble.value).imp .number .number
  | strings s t => exact (String.le_total s t).imp .string .string

/-- Comparing tells that a key is behind another. -/
theorem OfOneKind.compareKeys_eq_gt (h : OfOneKind j k) :
    compareKeys j k = .gt ↔ ¬KeyLE j k := by
  cases h with
  | numbers m n =>
    have hgt : compareKeys (.number m) (.number n) = .gt ↔ n.toDouble.value < m.toDouble.value :=
      Ordering.isGT_iff_eq_gt.symm.trans Number.isGT_compare
    rw [hgt, ← Int.not_le, not_iff_not]
    exact ⟨.number, fun | .number h => h⟩
  | strings s t =>
    have hgt : compareKeys (.string s) (.string t) = .gt ↔ t < s :=
      compareOfLessAndEq_eq_gt String.le_antisymm String.le_total String.not_le s t
    rw [hgt, ← String.not_le, not_iff_not]
    exact ⟨.string, fun | .string h => h⟩

/-- Comparing tells that a key is ahead of another. -/
theorem OfOneKind.compareKeys_eq_lt (h : OfOneKind j k) :
    compareKeys j k = .lt ↔ ¬KeyLE k j := by
  cases h with
  | numbers m n =>
    have hlt : compareKeys (.number m) (.number n) = .lt ↔ m.toDouble.value < n.toDouble.value :=
      Ordering.isLT_iff_eq_lt.symm.trans Number.isLT_compare
    rw [hlt, ← Int.not_le, not_iff_not]
    exact ⟨.number, fun | .number h => h⟩
  | strings s t =>
    have hlt : compareKeys (.string s) (.string t) = .lt ↔ s < t := compareOfLessAndEq_eq_lt
    rw [hlt, ← String.not_le, not_iff_not]
    exact ⟨.string, fun | .string h => h⟩

/-- **Sorting by keys of one kind is stable.** -/
theorem stablySorts_sortByKey {key : α → Json} {items : List α}
    (h : ∀ a ∈ items, ∀ b ∈ items, OfOneKind (key a) (key b)) :
    StablySorts (fun a b => KeyLE (key a) (key b)) items (sortByKey key items) := by
  -- on the items alone, comparing keys is a total preorder
  have hle (a b : { a // a ∈ items }) : (compareKeys (key a) (key b) != .gt) = true ↔
      KeyLE (key a) (key b) := by
    rw [bne_iff_ne, ne_eq, (h a a.2 b b.2).compareKeys_eq_gt, not_not]
  have htrans (a b c : { a // a ∈ items }) : (compareKeys (key a) (key b) != .gt) = true →
      (compareKeys (key b) (key c) != .gt) = true →
        (compareKeys (key a) (key c) != .gt) = true := by
    rw [hle, hle, hle]
    exact KeyLE.trans
  have htotal (a b : { a // a ∈ items }) : ((compareKeys (key a) (key b) != .gt) ||
      (compareKeys (key b) (key a) != .gt)) = true := by
    rw [Bool.or_eq_true, hle, hle]
    exact (h a a.2 b b.2).total
  have hsorts := stablySorts_mergeSort htrans htotal items.attach
  simp only [hle] at hsorts
  have hmap := hsorts.map (fun a b => KeyLE (key a) (key b)) Subtype.val
  rw [List.attach_map_subtype_val] at hmap
  have hvalues : sortByKey key items =
      (sortByKey (key ∘ Subtype.val) items.attach).map Subtype.val := by
    rw [← sortByKey_map, List.attach_map_subtype_val]
  rw [hvalues]
  exact hmap

/-! ### The keys of items -/

/-- The key that an expression yields for an item; without a value it is `null`. -/
def keyOf (g : Json → Except Fault Json) (item : Json) : Json :=
  match g item with
  | .ok key => key
  | .error _ => .null

/-- That an expression **yields keys** for some items: it has a value on all of them, a number
on each or a string on each. -/
def YieldsKeys (g : Json → Except Fault Json) (items : List Json) : Prop :=
  (∀ item ∈ items, ∃ n, g item = .ok (.number n)) ∨
    ∀ item ∈ items, ∃ text, g item = .ok (.string text)

/-- That an item **spoils** the keys, and what is to be said about it. The expression fails on
it. Or its key is the first one, so that no type is expected yet, and is neither a number nor a
string. Or its key is not of the type that is expected. -/
inductive Spoils (g : Json → Except Fault Json) (item : Json) : Option String → Failure → Prop where
  /-- The expression fails. -/
  | fails {expected : Option String} {f : Fault} (h : g item = .error f) :
    Spoils g item expected (.evaluation f)
  /-- The first key is no key. -/
  | noKey {key : Json} (h : g item = .ok key) (hkey : isKeyType key.typeName = false) :
    Spoils g item none (Argument.mismatch ["string"] key)
  /-- A key is not of the type that is expected. -/
  | stray {name : String} {key : Json} (h : g item = .ok key) (hkey : key.typeName ≠ name) :
    Spoils g item (some name) (Argument.mismatch [name] key)

/-- The type that is **expected** behind some items: that of the first key. -/
def expectedBehind (g : Json → Except Fault Json) (before : List Json) : Option String :=
  before.head?.map fun first => (keyOf g first).typeName

section Keys

variable {g : Json → Except Fault Json} {items : List Json}

theorem keyOf_eq {item key : Json} (h : g item = .ok key) : keyOf g item = key := by
  rw [keyOf, h]

/-- That an expression yields values of a type for some items. -/
def YieldsType (g : Json → Except Fault Json) (name : String) (items : List Json) : Prop :=
  ∀ item ∈ items, ∃ key, g item = .ok key ∧ key.typeName = name

theorem typeName_eq_number {v : Json} : v.typeName = "number" ↔ ∃ n, v = .number n := by
  cases v <;> simp [Json.typeName]

theorem typeName_eq_string {v : Json} : v.typeName = "string" ↔ ∃ text, v = .string text := by
  cases v <;> simp [Json.typeName]

/-- Keys of one kind are those of one type that keys can have. -/
theorem yieldsKeys_iff :
    YieldsKeys g items ↔ ∃ name, isKeyType name = true ∧ YieldsType g name items := by
  have hnumber (item : Json) :
      (∃ n, g item = .ok (.number n)) ↔ ∃ key, g item = .ok key ∧ key.typeName = "number" := by
    simp only [typeName_eq_number]
    exact ⟨fun ⟨n, hn⟩ => ⟨.number n, hn, n, rfl⟩, fun ⟨_, hn, n, hkey⟩ => ⟨n, hkey ▸ hn⟩⟩
  have hstring (item : Json) :
      (∃ text, g item = .ok (.string text)) ↔
        ∃ key, g item = .ok key ∧ key.typeName = "string" := by
    simp only [typeName_eq_string]
    exact ⟨fun ⟨s, hs⟩ => ⟨.string s, hs, s, rfl⟩, fun ⟨_, hs, s, hkey⟩ => ⟨s, hkey ▸ hs⟩⟩
  simp only [YieldsKeys, hnumber, hstring]
  constructor
  · rintro (h | h)
    · exact ⟨"number", rfl, h⟩
    · exact ⟨"string", rfl, h⟩
  · rintro ⟨name, hname, h⟩
    rw [isKeyType, Bool.or_eq_true, beq_iff_eq, beq_iff_eq] at hname
    rcases hname with rfl | rfl
    · exact .inl h
    · exact .inr h

/-- Items with keys have keys of one kind. -/
theorem YieldsKeys.ofOneKind (h : YieldsKeys g items) :
    ∀ a ∈ items, ∀ b ∈ items, OfOneKind (keyOf g a) (keyOf g b) := by
  intro a ha b hb
  rcases h with h | h
  · obtain ⟨m, hm⟩ := h a ha
    obtain ⟨n, hn⟩ := h b hb
    rw [keyOf_eq hm, keyOf_eq hn]
    exact .numbers m n
  · obtain ⟨s, hs⟩ := h a ha
    obtain ⟨t, ht⟩ := h b hb
    rw [keyOf_eq hs, keyOf_eq ht]
    exact .strings s t

/-- Keys do not depend on the order of the items. -/
theorem YieldsKeys.perm {others : List Json} (h : YieldsKeys g items) (hperm : others.Perm items) :
    YieldsKeys g others :=
  h.imp (fun h item hitem => h item (hperm.mem_iff.mp hitem)) fun h item hitem =>
    h item (hperm.mem_iff.mp hitem)

/-! ### Looking at the keys -/

/-- The first key fixes the type that is expected. -/
theorem keyedAs_none {item key : Json} (h : g item = .ok key) (rest : List Json) :
    keyedAs g none (item :: rest) = keyedAs g (some key.typeName) (item :: rest) := by
  simp [keyedAs, Argument.run, h, bind, Except.bind]

section Expected

variable {name : String} (hname : isKeyType name = true)

include hname

/-- Where all keys are of the type that is expected, the items get their keys. -/
theorem keyedAs_of_yieldsType (h : YieldsType g name items) :
    keyedAs g (some name) items = .ok (items.map fun item => (keyOf g item, item)) := by
  induction items with
  | nil => rfl
  | cons item items ih =>
    obtain ⟨⟨key, hkey, rfl⟩, hrest⟩ := List.forall_mem_cons.mp h
    simp [keyedAs, Argument.run, hkey, hname, ih hrest, keyOf_eq hkey, bind, Except.bind, pure,
      Except.pure]

/-- Where not all keys are of the type that is expected, the first item that spoils this is
what is complained about. -/
theorem yieldsType_or_spoils (items : List Json) : YieldsType g name items ∨
    ∃ before item after e, items = before ++ item :: after ∧ YieldsType g name before ∧
      Spoils g item (some name) e ∧ keyedAs g (some name) items = .error e := by
  induction items with
  | nil => exact .inl (List.forall_mem_nil _)
  | cons item items ih =>
    cases hrun : g item with
    | error f =>
      refine .inr ⟨[], item, items, _, rfl, List.forall_mem_nil _, .fails hrun, ?_⟩
      simp [keyedAs, Argument.run, hrun, bind, Except.bind]
    | ok key =>
      by_cases hkey : key.typeName = name
      · rcases ih with hall | ⟨before, spoiler, after, e, rfl, hbefore, hspoils, herror⟩
        · exact .inl (List.forall_mem_cons.mpr ⟨⟨key, hrun, hkey⟩, hall⟩)
        · refine .inr ⟨item :: before, spoiler, after, e, rfl,
            List.forall_mem_cons.mpr ⟨⟨key, hrun, hkey⟩, hbefore⟩, hspoils, ?_⟩
          simp [keyedAs, Argument.run, hrun, hkey, hname, herror, bind, Except.bind]
      · refine .inr ⟨[], item, items, _, rfl, List.forall_mem_nil _, .stray hrun hkey, ?_⟩
        simp [keyedAs, Argument.run, hrun, hkey, hname, bind, Except.bind]

end Expected

/-- **Items with keys** get them. -/
theorem keyedAs_of_yieldsKeys (h : YieldsKeys g items) :
    keyedAs g none items = .ok (items.map fun item => (keyOf g item, item)) := by
  obtain ⟨name, hname, hall⟩ := yieldsKeys_iff.mp h
  cases items with
  | nil => rfl
  | cons item items =>
    obtain ⟨key, hkey, rfl⟩ := hall item List.mem_cons_self
    rw [keyedAs_none hkey]
    exact keyedAs_of_yieldsType hname hall

/-- What does not fit the type of the first key stands behind the first item, so it spoils what is
expected there. -/
theorem Spoils.of_first {first spoiler key : Json} {before after : List Json} {e : Failure}
    (h : Spoils g spoiler (some key.typeName) e) (hrun : g first = .ok key)
    (hsplit : first :: items = before ++ spoiler :: after) :
    Spoils g spoiler (expectedBehind g before) e := by
  cases before with
  | nil =>
    obtain ⟨rfl, rfl⟩ := List.cons.inj hsplit
    cases h with
    | fails h =>
      rw [hrun] at h
      exact absurd h (by simp)
    | stray h hne =>
      obtain rfl := Except.ok.inj (hrun.symm.trans h)
      exact absurd rfl hne
  | cons first' before =>
    obtain ⟨rfl, -⟩ := List.cons.inj hsplit
    rw [expectedBehind, List.head?_cons, Option.map_some, keyOf_eq hrun]
    exact h

/-- **Items without keys**: the first item that spoils them is what is complained about. -/
theorem yieldsKeys_or_spoils (g : Json → Except Fault Json) (items : List Json) :
    YieldsKeys g items ∨
    ∃ before item after e, items = before ++ item :: after ∧ YieldsKeys g before ∧
      Spoils g item (expectedBehind g before) e ∧ keyedAs g none items = .error e := by
  have hnone : YieldsKeys g [] := .inl (List.forall_mem_nil _)
  cases items with
  | nil => exact .inl hnone
  | cons item items =>
    cases hrun : g item with
    | error f =>
      refine .inr ⟨[], item, items, _, rfl, hnone, .fails hrun, ?_⟩
      simp [keyedAs, Argument.run, hrun, bind, Except.bind]
    | ok key =>
      by_cases hkey : isKeyType key.typeName = true
      · rw [keyedAs_none hrun]
        rcases yieldsType_or_spoils (g := g) hkey (item :: items) with
          hall | ⟨before, spoiler, after, e, hsplit, hbefore, hspoils, herror⟩
        · exact .inl (yieldsKeys_iff.mpr ⟨_, hkey, hall⟩)
        · exact .inr ⟨before, spoiler, after, e, hsplit, yieldsKeys_iff.mpr ⟨_, hkey, hbefore⟩,
            hspoils.of_first hrun hsplit, herror⟩
      · rw [Bool.not_eq_true] at hkey
        refine .inr ⟨[], item, items, _, rfl, hnone, .noKey hrun hkey, ?_⟩
        simp [keyedAs, Argument.run, hrun, hkey, bind, Except.bind]

end Keys

/-! ### The functions that sort -/

section Calls

variable {f : Function} {items : List Json}

/-- A call of a function that pairs items with keys before anything else. -/
theorem invoke_of_keyed {k : List (Json × Json) → Json}
    (hsignature : f.signature = .fixed [[.array], [.expression]])
    (hbody : ∀ args, f.body args = keyed args >>= fun pairs => .ok (k pairs))
    (items : List Json) (body : Expr) (g : Json → Except Fault Json) :
    f.invoke [.value (.array items), .reference ⟨body, g⟩] =
      keyedAs g none items >>= fun pairs => .ok (k pairs) := by
  rw [Function.invoke, hsignature]
  exact hbody _

/-- Arrays of numbers and arrays of strings are accepted where either is asked for. -/
theorem admits_of_yieldsKeys (h : YieldsKeys .ok items) :
    Signature.admits [.arrayOf .number, .arrayOf .string] (.value (.array items)) = true := by
  have hall {t : ArgumentType} {types : List ArgumentType} (hmem : .arrayOf t ∈ types)
      (hitems : ∀ item ∈ items, t.hasValue item = true) :
      Signature.admits types (.value (.array items)) = true := by
    rw [Signature.admits, Bool.or_eq_true, List.any_eq_true]
    exact .inr ⟨_, hmem, List.all_eq_true.mpr hitems⟩
  rcases h with h | h
  · refine hall (t := .number) (by simp) fun item hitem => ?_
    obtain ⟨n, hn⟩ := h item hitem
    rw [Except.ok.inj hn]
    rfl
  · refine hall (t := .string) (by simp) fun item hitem => ?_
    obtain ⟨text, htext⟩ := h item hitem
    rw [Except.ok.inj htext]
    rfl

end Calls

/-- Sorting by keys, where there are keys. -/
theorem invoke_sortBy {g : Json → Except Fault Json} {items : List Json}
    (h : YieldsKeys g items) (body : Expr) :
    sortBy.invoke [.value (.array items), .reference ⟨body, g⟩] =
      .ok (.array (sortByKey (keyOf g) items)) := by
  have hcall := invoke_of_keyed (f := sortBy) rfl (fun _ => rfl) items body g
  rw [hcall, keyedAs_of_yieldsKeys h]
  show Except.ok (Json.array ((sortByKey Prod.fst (items.map _)).map Prod.snd)) = _
  rw [sortByKey_map, List.map_map]
  exact congrArg (fun sorted => Except.ok (Json.array sorted)) (List.map_id _)

/-- Sorting by keys, where there is none for an item. -/
theorem invoke_sortBy_of_error {g : Json → Except Fault Json} {items : List Json} {e : Failure}
    (h : keyedAs g none items = .error e) (body : Expr) :
    sortBy.invoke [.value (.array items), .reference ⟨body, g⟩] = .error e := by
  rw [invoke_of_keyed (f := sortBy) rfl (fun _ => rfl) items body g, h]
  rfl

/-- Sorting, where the items themselves are keys. -/
theorem invoke_sort {items : List Json} (h : YieldsKeys .ok items) :
    sort.invoke [.value (.array items)] = .ok (.array (sortByKey id items)) := by
  rw [Function.invoke_of_admits rfl (admits_of_yieldsKeys h)]
  rfl

/-- **Sorting by keys is stable.** It succeeds if and only if the expression has a value on
every item and these are all numbers or all strings. What comes out then is the items, stably
sorted by their keys. And if it fails, then for the first item that spoils the keys. Without
an expression an array of numbers or of strings is sorted in the same way, each item being its
own key. -/
theorem sortBy_stable (body : Expr) (g : Json → Except Fault Json) (items : List Json) :
    ((∃ v, sortBy.invoke [.value (.array items), .reference ⟨body, g⟩] = .ok v) ↔ YieldsKeys g items) ∧
    (∀ v, sortBy.invoke [.value (.array items), .reference ⟨body, g⟩] = .ok v →
      ∃ sorted, v = .array sorted ∧
        StablySorts (fun a b => KeyLE (keyOf g a) (keyOf g b)) items sorted) ∧
    (∀ e, sortBy.invoke [.value (.array items), .reference ⟨body, g⟩] = .error e →
      ∃ before item after, items = before ++ item :: after ∧ YieldsKeys g before ∧
        Spoils g item (expectedBehind g before) e) ∧
    (YieldsKeys .ok items →
      ∃ sorted, sort.invoke [.value (.array items)] = .ok (.array sorted) ∧
        sortBy.invoke [.value (.array items), .reference ⟨body, .ok⟩] = .ok (.array sorted) ∧
        StablySorts KeyLE items sorted) := by
  have hsort (hitems : YieldsKeys .ok items) :
      ∃ sorted, sort.invoke [.value (.array items)] = .ok (.array sorted) ∧
        sortBy.invoke [.value (.array items), .reference ⟨body, .ok⟩] = .ok (.array sorted) ∧
        StablySorts KeyLE items sorted :=
    ⟨_, invoke_sort hitems, invoke_sortBy hitems body, stablySorts_sortByKey hitems.ofOneKind⟩
  rcases yieldsKeys_or_spoils g items with
    hkeys | ⟨before, item, after, e, hsplit, hbefore, hspoils, herror⟩
  · have hresult := invoke_sortBy hkeys body
    refine ⟨⟨fun _ => hkeys, fun _ => ⟨_, hresult⟩⟩, fun v hv => ?_, fun e he => ?_, hsort⟩
    · obtain rfl := Except.ok.inj (hresult.symm.trans hv)
      exact ⟨_, rfl, stablySorts_sortByKey hkeys.ofOneKind⟩
    · exact absurd (hresult.symm.trans he) (by simp)
  · have hresult := invoke_sortBy_of_error herror body
    refine ⟨⟨fun ⟨v, hv⟩ => ?_, fun hkeys => ?_⟩, fun v hv => ?_, fun e' he => ?_, hsort⟩
    · exact absurd (hresult.symm.trans hv) (by simp)
    · exact absurd (hresult.symm.trans (invoke_sortBy hkeys body)) (by simp)
    · exact absurd (hresult.symm.trans hv) (by simp)
    · obtain rfl := Except.error.inj (hresult.symm.trans he)
      exact ⟨before, item, after, hsplit, hbefore, hspoils⟩

/-- Arrays by their first items, of which some are equal; one more, whose first item is a string,
spoils that. -/
theorem sortBy_stable_of_mixed :
    let body := Expr.index 0
    let g := body.evaluate .empty
    let items : List Json := [.array [.int 2, .null], .array [.int 1, .bool true],
      .array [.int 2, .bool false], .array [.int 1]]
    (∃ sorted, sortBy.invoke [.value (.array items), .reference ⟨body, g⟩] = .ok (.array sorted) ∧
      StablySorts (fun a b => KeyLE (keyOf g a) (keyOf g b)) items sorted) ∧
    (∃ before item after, items ++ [.array [.string "a"], .null] = before ++ item :: after ∧
      YieldsKeys g before ∧ Spoils g item (expectedBehind g before)
        (Argument.mismatch ["number"] (.string "a"))) ∧
    ∃ sorted, sort.invoke [.value (.array [.string "b", .string "", .string "a"])] =
        .ok (.array sorted) ∧ StablySorts KeyLE [.string "b", .string "", .string "a"] sorted := by
  intro body g items
  have hkeys : YieldsKeys g items :=
    .inl (by simp [items, g, body, Expr.evaluate, Expr.itemOf, Positions.item?,
      Positions.fromFront, Json.int])
  obtain ⟨v, hv⟩ := (sortBy_stable body g items).1.mpr hkeys
  obtain ⟨sorted, rfl, hsorts⟩ := (sortBy_stable body g items).2.1 v hv
  have hstrings : YieldsKeys .ok [.string "b", .string "", .string "a"] := .inr (by simp)
  obtain ⟨texts, hsort, -, htexts⟩ := (sortBy_stable body g _).2.2.2 hstrings
  exact ⟨⟨sorted, hv, hsorts⟩, (sortBy_stable body g _).2.2.1 _ rfl, texts, hsort, htexts⟩

end Library

end JsonQuery
