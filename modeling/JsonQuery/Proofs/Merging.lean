import JsonQuery.Expr.Evaluation
import JsonQuery.Library
import JsonQuery.Proofs.Equality
import JsonQuery.Proofs.TypeChecking

/-!
# Merging objects

Setting a key anew changes its value and leaves it in its place. So in some objects that are
merged the two things that make up an object go opposite ways: the keys are in the order in
which they *first* came, and each has the value with which it came *last*. Both are said of the
merged object as a whole (`JsonQuery.Object.IsMerge`), and as an object is known by its keys
and the value of each (`JsonQuery.Object.ext_of_lookup`), there is only one such object.

That merging objects is a monoid follows from this description alone. Keys that first came in a
part came first there, whatever the parts are; a key that came last in the last part that has it
came last of all. So merging parts first and the results afterwards is merging everything
(`JsonQuery.Object.IsMerge.flatten`). How calls are nested inside each other is a **grouping**
(`JsonQuery.Grouping`), a tree with objects at its leaves, and its value depends on the objects
alone, in their order (`JsonQuery.Library.merge_monoid`).
-/

namespace JsonQuery

/-! ### First occurrences -/

section EraseDups

variable {κ : Type} [BEq κ] [LawfulBEq κ]

theorem eraseDups_of_nodup {ks : List κ} (h : ks.Nodup) : ks.eraseDups = ks := by
  induction ks with
  | nil => rfl
  | cons k ks ih =>
    obtain ⟨hnot, hks⟩ := List.nodup_cons.mp h
    have hfilter : (ks.filter fun l => !l == k) = ks := by
      refine List.filter_eq_self.mpr fun l hl => ?_
      simpa using fun he : l = k => hnot (he ▸ hl)
    rw [List.eraseDups_cons, hfilter, ih hks]

/-- What is left out of some keys may be left out after their first occurrences are picked. -/
theorem eraseDups_filter_eraseDups (p : κ → Bool) (ks : List κ) :
    (ks.eraseDups.filter p).eraseDups = (ks.filter p).eraseDups := by
  match ks with
  | [] => rfl
  | k :: ks =>
    rw [List.eraseDups_cons]
    by_cases hk : p k = true
    · rw [List.filter_cons_of_pos hk, List.filter_cons_of_pos hk, List.eraseDups_cons,
        List.eraseDups_cons, List.filter_filter, eraseDups_filter_eraseDups]
      simp only [List.filter_filter]
      congr 3
      funext l
      cases l == k <;> simp
    · rw [List.filter_cons_of_neg hk, List.filter_cons_of_neg hk, eraseDups_filter_eraseDups,
        List.filter_filter]
      congr 2
      funext l
      by_cases hl : l = k
      · simp [hl, hk]
      · simp [hl]
termination_by ks.length
decreasing_by all_goals exact Nat.lt_succ_of_le (List.length_filter_le _ _)

theorem eraseDups_append_eraseDups (ks ls : List κ) :
    (ks ++ ls.eraseDups).eraseDups = (ks ++ ls).eraseDups := by
  rw [List.eraseDups_append, List.eraseDups_append, List.removeAll, List.removeAll,
    eraseDups_filter_eraseDups]

theorem eraseDups_append_congr {ks ls ms : List κ} (h : ls.eraseDups = ms.eraseDups) :
    (ks ++ ls).eraseDups = (ks ++ ms).eraseDups := by
  rw [← eraseDups_append_eraseDups, h, eraseDups_append_eraseDups]

theorem eraseDups_eraseDups_append (ks ls : List κ) :
    (ks.eraseDups ++ ls).eraseDups = (ks ++ ls).eraseDups := by
  have hidem : ks.eraseDups.eraseDups = ks.eraseDups := eraseDups_append_eraseDups [] ks
  rw [List.eraseDups_append, List.eraseDups_append, hidem, List.removeAll, List.removeAll]
  simp only [List.elem_eq_mem, List.mem_eraseDups]

end EraseDups

/-! ### Keys and values after entries are inserted -/

namespace Entries

variable {α : Type}

/-- **The keys** are in the order in which they first came. -/
theorem keys_insertAll {entries : List (String × α)} (h : (keys entries).Nodup)
    (more : List (String × α)) :
    keys (insertAll entries more) = (keys entries ++ keys more).eraseDups := by
  induction more generalizing entries with
  | nil =>
    have hnil : keys entries ++ keys ([] : List (String × α)) = keys entries := List.append_nil _
    rw [hnil, eraseDups_of_nodup h]
    rfl
  | cons entry more ih =>
    have hrest := ih (nodup_keys_insert h entry.1 entry.2)
    rw [keys_insert] at hrest
    refine hrest.trans ?_
    split
    · next hknown =>
      have hdrop : (keys (entry :: more)).removeAll (keys entries) =
          (keys more).removeAll (keys entries) := by
        rw [keys, List.map_cons, List.removeAll, List.filter_cons_of_neg (by simpa using hknown)]
        rfl
      rw [List.eraseDups_append, List.eraseDups_append, hdrop]
    · rw [List.append_assoc]
      rfl

/-- **The values** are those that came last. -/
theorem lookup_insertAll (key : String) (entries more : List (String × α)) :
    (insertAll entries more).lookup key = (more.reverse.lookup key).or (entries.lookup key) := by
  induction more generalizing entries with
  | nil => rfl
  | cons entry more ih =>
    obtain ⟨k, v⟩ := entry
    refine (ih (insert k v entries)).trans ?_
    rw [List.reverse_cons, List.lookup_append, Option.or_assoc, List.lookup_cons, List.lookup_nil]
    congr 1
    by_cases hk : key = k
    · rw [hk, lookup_insert_self, beq_self_eq_true]
      rfl
    · rw [lookup_insert_of_ne hk, beq_false_of_ne hk]
      rfl

/-- If no key comes twice it does not matter from which end a key is looked for. -/
theorem lookup_reverse {entries : List (String × α)} (h : (keys entries).Nodup) (key : String) :
    entries.reverse.lookup key = entries.lookup key := by
  have hreverse : (keys entries.reverse).Nodup := by
    rw [keys, List.map_reverse]
    exact List.nodup_reverse.mpr h
  ext value
  constructor
  · intro hlookup
    exact lookup_eq_some_of_mem h (List.mem_reverse.mp (mem_of_lookup_eq_some hlookup))
  · intro hlookup
    exact lookup_eq_some_of_mem hreverse (List.mem_reverse.mpr (mem_of_lookup_eq_some hlookup))

theorem filterMap_lookup {entries : List (String × α)} (h : (keys entries).Nodup) :
    ((keys entries).filterMap fun key => (entries.lookup key).map fun value => (key, value)) =
      entries := by
  rw [keys, List.filterMap_map]
  refine (List.filterMap_congr fun entry hentry => ?_).trans List.filterMap_some
  rw [Function.comp_apply, lookup_eq_some_of_mem h hentry]
  rfl

/-- Entries are known by their keys and what is found under them, if no key comes twice. -/
theorem ext_of_lookup {as bs : List (String × α)} (hnodup : (keys as).Nodup)
    (hkeys : keys as = keys bs) (hlookup : ∀ key, as.lookup key = bs.lookup key) : as = bs := by
  rw [hkeys] at hnodup
  calc
    as = (keys as).filterMap fun key => (as.lookup key).map fun value => (key, value) :=
      (filterMap_lookup (hkeys ▸ hnodup)).symm
    _ = (keys bs).filterMap fun key => (bs.lookup key).map fun value => (key, value) := by
      simp only [hkeys, hlookup]
    _ = bs := filterMap_lookup hnodup

end Entries

/-! ### Objects -/

/-- An **object**: entries of which no two have the same key. -/
@[ext]
structure Object where
  /-- The entries, in order. -/
  entries : List (String × Json)
  /-- No key comes twice. -/
  nodup : (Entries.keys entries).Nodup

namespace Object

/-- The keys of an object, in order. -/
def keys (o : Object) : List String :=
  Entries.keys o.entries

/-- The value of a key. -/
def get? (o : Object) (key : String) : Option Json :=
  o.entries.lookup key

/-- An object as a value. -/
def toJson (o : Object) : Json :=
  .object o.entries

/-- The object without entries. -/
def empty : Object :=
  ⟨[], List.nodup_nil⟩

@[simp]
theorem get?_empty (key : String) : empty.get? key = none :=
  rfl

theorem eraseDups_keys (o : Object) : o.keys.eraseDups = o.keys :=
  eraseDups_of_nodup o.nodup

/-- **Objects in one.** -/
def mergeAll (objects : List Object) : Object :=
  ⟨Entries.insertAll [] (objects.flatMap entries), Entries.nodup_keys_insertAll empty.nodup _⟩

/-- That an object **is the merge** of some objects: it has the keys of all of them, in the order
in which they first come, and each has the value of the last object that has the key. -/
structure IsMerge (objects : List Object) (merged : Object) : Prop where
  /-- The keys. -/
  keys_eq : merged.keys = (objects.flatMap keys).eraseDups
  /-- The values. -/
  get?_eq (key : String) : merged.get? key = objects.reverse.findSome? fun o => o.get? key

theorem IsMerge.unique {objects : List Object} {m m' : Object} (h : IsMerge objects m)
    (h' : IsMerge objects m') : m = m' := by
  refine Object.ext (Entries.ext_of_lookup m.nodup ?_ fun key => ?_)
  · exact h.keys_eq.trans h'.keys_eq.symm
  · exact (h.get?_eq key).trans (h'.get?_eq key).symm

theorem lookup_reverse_flatMap (objects : List Object) (key : String) :
    (objects.flatMap entries).reverse.lookup key =
      objects.reverse.findSome? fun o => o.get? key := by
  induction objects with
  | nil => rfl
  | cons o objects ih =>
    rw [List.flatMap_cons, List.reverse_append, List.lookup_append, ih, List.reverse_cons,
      List.findSome?_append, Entries.lookup_reverse o.nodup]
    cases hget : o.entries.lookup key with
    | none => simp [hget, get?]
    | some v => simp [hget, get?]

theorem isMerge_mergeAll (objects : List Object) : IsMerge objects (mergeAll objects) where
  keys_eq := by
    have hkeys : Entries.keys (objects.flatMap entries) = objects.flatMap keys :=
      List.map_flatMap
    rw [← hkeys]
    exact Entries.keys_insertAll empty.nodup _
  get?_eq key := by
    rw [get?, mergeAll, Entries.lookup_insertAll, lookup_reverse_flatMap]
    exact Option.or_none

/-! ### The laws of a monoid -/

/-- **Merging what was merged** is merging everything. -/
theorem IsMerge.flatten {groups : List (List Object)} {merged : List Object} {m : Object}
    (hgroups : List.Forall₂ IsMerge groups merged) (h : IsMerge merged m) :
    IsMerge groups.flatten m where
  keys_eq := by
    rw [h.keys_eq]
    clear h
    induction hgroups with
    | nil => rfl
    | @cons group o groups merged hgroup _ ih =>
      rw [List.flatten_cons, List.flatMap_append, List.flatMap_cons, hgroup.keys_eq,
        eraseDups_eraseDups_append]
      exact eraseDups_append_congr ih
  get?_eq key := by
    rw [h.get?_eq]
    clear h
    induction hgroups with
    | nil => rfl
    | @cons group o groups merged hgroup _ ih =>
      rw [List.flatten_cons, List.reverse_append, List.findSome?_append, ← ih, List.reverse_cons,
        List.findSome?_append, ← hgroup.get?_eq]
      simp

theorem isMerge_singleton (o : Object) : IsMerge [o] o where
  keys_eq := by
    rw [List.flatMap_singleton, eraseDups_keys]
  get?_eq key := by
    simp

theorem isMerge_empty_left (o : Object) : IsMerge [empty, o] o where
  keys_eq := (isMerge_singleton o).keys_eq
  get?_eq key := by
    cases hget : o.get? key <;> simp [hget]

theorem isMerge_empty_right (o : Object) : IsMerge [o, empty] o where
  keys_eq := (isMerge_singleton o).keys_eq
  get?_eq key := by
    cases hget : o.get? key <;> simp [List.findSome?_cons, hget]

theorem isMerge_self (o : Object) : IsMerge [o, o] o where
  keys_eq := by
    have hnone : o.keys.removeAll o.keys = [] := by simp [List.removeAll]
    rw [List.flatMap_cons, List.flatMap_singleton, List.eraseDups_append, hnone, eraseDups_keys]
    exact (List.append_nil _).symm
  get?_eq key := by
    cases hget : o.get? key <;> simp [hget]

end Object

/-! ### Calls -/

/-- What takes any number of arguments of the same types is called on such arguments. -/
theorem Function.invoke_of_takes {f : Function} {types : List ArgumentType}
    (hf : f.signature = .variadicOf [types]) {args : List Argument} (hne : args ≠ [])
    (hargs : ∀ arg ∈ args, Signature.Takes types arg) : f.invoke args = f.body args := by
  have harity : f.signature.checkArity args.length = .ok () := by
    have hpos : 0 < args.length := List.length_pos_iff.mpr hne
    rw [hf, Signature.checkArity]
    exact if_neg (Nat.not_lt_of_le hpos)
  have htypes : f.signature.checkTypes args = .ok () := by
    rw [hf, Signature.checkTypes_eq_ok_iff, Signature.suits_variadicOf_iff]
    exact hargs
  rw [invoke, harity, htypes]

/-- A **grouping** of objects: calls that are nested inside each other, with at least one
argument each. -/
inductive Grouping where
  /-- An object. -/
  | object (o : Object)
  /-- A call. -/
  | call (first : Grouping) (rest : List Grouping)

namespace Grouping

mutual

/-- The objects of a grouping, from left to right. -/
def objects : Grouping → List Object
  | object o => [o]
  | call first rest => objects first ++ objectsAll rest

/-- The objects of some groupings. -/
def objectsAll : List Grouping → List Object
  | [] => []
  | g :: gs => objects g ++ objectsAll gs

end

mutual

/-- A grouping as an expression, in which the objects are literals. -/
def toExpr : Grouping → Expr
  | object o => .literal o.toJson
  | call first rest => .call "merge" (toExpr first :: toExprs rest)

/-- Some groupings as expressions. -/
def toExprs : List Grouping → List Expr
  | [] => []
  | g :: gs => toExpr g :: toExprs gs

end

/-- No grouping is a reference, so as an argument it is a value. -/
theorem evaluateArguments_toExpr_cons {table : Registry} {g : Grouping} {es : List Expr}
    {d v : Json} {args : List Argument} (hfirst : g.toExpr.evaluate table d = .ok v)
    (hrest : Expr.evaluateArguments table es d = .ok args) :
    Expr.evaluateArguments table (g.toExpr :: es) d = .ok (.value v :: args) := by
  have hg : ∀ body, g.toExpr ≠ .reference body := by
    cases g <;> exact nofun
  rw [Expr.evaluateArguments_cons hg, hfirst, hrest]
  rfl

end Grouping

namespace Library

/-- Objects as arguments. -/
def arguments (objects : List Object) : List Argument :=
  objects.map fun o => .value o.toJson

theorem mergeEntries_arguments (entries : List (String × Json)) (objects : List Object) :
    mergeEntries entries (arguments objects) =
      .ok (Entries.insertAll entries (objects.flatMap Object.entries)) := by
  induction objects generalizing entries with
  | nil => rfl
  | cons o objects ih =>
    rw [List.flatMap_cons, Entries.insertAll, List.foldl_append]
    exact ih _

/-- **What a call yields** on some objects. -/
theorem invoke_merge {objects : List Object} (hne : objects ≠ []) :
    merge.invoke (arguments objects) = .ok (Object.mergeAll objects).toJson := by
  rw [Function.invoke_of_takes rfl (by simpa [arguments] using hne)]
  · exact congrArg (fun x => x >>= fun entries => pure (Json.object entries))
      (mergeEntries_arguments [] objects)
  · intro arg harg
    obtain ⟨o, -, rfl⟩ := List.mem_map.mp harg
    exact .inr ⟨.object, List.mem_cons_self, .value (.object o.entries)⟩

section Calls

variable {table : Registry}

theorem callIn_merge (htable : table.get? "merge" = some merge) {objects : List Object}
    (hne : objects ≠ []) :
    Expr.callIn table "merge" (arguments objects) = .ok (Object.mergeAll objects).toJson := by
  rw [Expr.callIn, htable]
  dsimp only
  rw [invoke_merge hne]

theorem callIn_merge_of_isMerge (htable : table.get? "merge" = some merge)
    {objects : List Object} (hne : objects ≠ []) {m : Object} (h : Object.IsMerge objects m) :
    Expr.callIn table "merge" (arguments objects) = .ok m.toJson := by
  rw [callIn_merge htable hne, (Object.isMerge_mergeAll objects).unique h]

mutual

/-- A grouping has the merge of its objects as its value. -/
theorem isMerge_of_grouping (htable : table.get? "merge" = some merge) (g : Grouping) (d : Json) :
    g.objects ≠ [] ∧ ∃ m, g.toExpr.evaluate table d = .ok m.toJson ∧
      Object.IsMerge g.objects m := by
  match g with
  | .object o => exact ⟨List.cons_ne_nil _ _, o, rfl, Object.isMerge_singleton o⟩
  | .call first rest =>
    obtain ⟨hne, m, hfirst, hm⟩ := isMerge_of_grouping htable first d
    obtain ⟨groups, merged, hobjects, hrest, hgroups⟩ := isMerge_of_groupings htable rest d
    have hargs : Expr.evaluateArguments table (first.toExpr :: Grouping.toExprs rest) d =
        .ok (arguments (m :: merged)) :=
      Grouping.evaluateArguments_toExpr_cons hfirst hrest
    refine ⟨by simp [Grouping.objects, hne], Object.mergeAll (m :: merged), ?_, ?_⟩
    · rw [Grouping.toExpr, Expr.evaluate, hargs]
      exact callIn_merge htable (List.cons_ne_nil _ _)
    · rw [Grouping.objects, hobjects]
      exact Object.IsMerge.flatten (.cons hm hgroups) (Object.isMerge_mergeAll (m :: merged))

/-- Some groupings are, as arguments, the merges of what each of them groups. -/
theorem isMerge_of_groupings (htable : table.get? "merge" = some merge) (gs : List Grouping)
    (d : Json) : ∃ groups merged,
    Grouping.objectsAll gs = groups.flatten ∧
      Expr.evaluateArguments table (Grouping.toExprs gs) d = .ok (arguments merged) ∧
        List.Forall₂ Object.IsMerge groups merged := by
  match gs with
  | [] => exact ⟨[], [], rfl, rfl, .nil⟩
  | g :: gs =>
    obtain ⟨-, m, hvalue, hm⟩ := isMerge_of_grouping htable g d
    obtain ⟨groups, merged, hobjects, hargs, hgroups⟩ := isMerge_of_groupings htable gs d
    refine ⟨g.objects :: groups, m :: merged, ?_, ?_, .cons hm hgroups⟩
    · rw [Grouping.objectsAll, hobjects, List.flatten_cons]
    · exact Grouping.evaluateArguments_toExpr_cons hvalue hargs

end

/-- **Merging is a monoid on objects.** A call on one object or more yields their merge; calls
that are nested inside each other yield what one call on all their objects does; the empty
object changes nothing on either side, and neither does an object that is merged with itself. -/
theorem merge_monoid (htable : table.get? "merge" = some merge) :
    (∀ objects : List Object, objects ≠ [] →
      ∃ m, Expr.callIn table "merge" (arguments objects) = .ok m.toJson ∧
        Object.IsMerge objects m) ∧
    (∀ (g : Grouping) (d : Json),
      g.toExpr.evaluate table d = Expr.callIn table "merge" (arguments g.objects)) ∧
    ∀ o : Object, Expr.callIn table "merge" (arguments [.empty, o]) = .ok o.toJson ∧
      Expr.callIn table "merge" (arguments [o, .empty]) = .ok o.toJson ∧
      Expr.callIn table "merge" (arguments [o, o]) = .ok o.toJson := by
  refine ⟨fun objects hne => ?_, fun g d => ?_, fun o => ⟨?_, ?_, ?_⟩⟩
  · exact ⟨_, callIn_merge htable hne, Object.isMerge_mergeAll objects⟩
  · obtain ⟨hne, m, hvalue, hm⟩ := isMerge_of_grouping htable g d
    rw [hvalue, callIn_merge_of_isMerge htable hne hm]
  · exact callIn_merge_of_isMerge htable (List.cons_ne_nil _ _) (Object.isMerge_empty_left o)
  · exact callIn_merge_of_isMerge htable (List.cons_ne_nil _ _) (Object.isMerge_empty_right o)
  · exact callIn_merge_of_isMerge htable (List.cons_ne_nil _ _) (Object.isMerge_self o)

/-- A key that comes three times stays in its first place, whichever two objects are merged
first. -/
theorem merge_monoid_of_three : ∃ a b c : Object,
    a.entries = [("x", .int 1), ("y", .int 2)] ∧ b.entries = [("z", .int 3), ("x", .null)] ∧
    c.entries = [("y", .int 4), ("x", .int 5)] ∧
    (∃ m, Expr.callIn .standard "merge" (arguments [a, b, c]) = .ok m.toJson ∧
      Object.IsMerge [a, b, c] m) ∧
    ∀ d, (Grouping.call (.object a) [.call (.object b) [.object c]]).toExpr.evaluate .standard d =
        .ok (.object [("x", .int 5), ("y", .int 4), ("z", .int 3)]) ∧
      (Grouping.call (.call (.object a) [.object b]) [.object c]).toExpr.evaluate .standard d =
        .ok (.object [("x", .int 5), ("y", .int 4), ("z", .int 3)]) := by
  obtain ⟨hmerge, hgrouping, -⟩ := @merge_monoid .standard rfl
  refine ⟨⟨_, by decide⟩, ⟨_, by decide⟩, ⟨_, by decide⟩, rfl, rfl, rfl, ?_, fun d => ⟨?_, ?_⟩⟩
  · exact hmerge _ (List.cons_ne_nil _ _)
  · exact (hgrouping _ d).trans rfl
  · exact (hgrouping _ d).trans rfl

end Calls

end Library

end JsonQuery
