import JsonQuery.Expr.Evaluation
import JsonQuery.Library.Collection
import Mathlib.Data.List.Nodup
import Mathlib.Data.List.Perm.Subperm

/-!
# What equality decides

Equality goes through two values side by side. Of two objects it looks up the keys of the one
in the other, which is all there is to compare because no key comes twice and the objects are
equally large. What this comes to is said by a relation that knows nothing of looking up: two
values **match** (`JsonQuery.Json.Matches`) if they are built alike, where the entries of an
object may be put in another order first. The relation between the numbers in them is left
open, for that is the only place where equality is less than exact.

Two numbers are **alike** (`JsonQuery.Number.Alike`) if they are the same, or if one of them
is no integer of sixty-four signed bits and they have the same double. So equality decides
whether two values match and their numbers are alike; and as integers of sixty-four signed
bits are alike only if they are the same, it is exact on values that have no other numbers
(`JsonQuery.Json.equality_decides`). On integers beyond it is not
(`JsonQuery.Json.not_same_iff_matches_eq`).
-/

namespace JsonQuery

/-! ### Lookup -/

namespace Entries

variable {α : Type}

theorem mem_of_lookup_eq_some {key : String} {value : α} {entries : List (String × α)}
    (h : entries.lookup key = some value) : (key, value) ∈ entries := by
  obtain ⟨before, after, rfl, -⟩ := List.lookup_eq_some_iff.mp h
  exact List.mem_append_right _ List.mem_cons_self

/-- If no key comes twice every entry is found. -/
theorem lookup_eq_some_of_mem {key : String} {value : α} {entries : List (String × α)}
    (hkeys : (keys entries).Nodup) (h : (key, value) ∈ entries) :
    entries.lookup key = some value := by
  obtain ⟨before, after, rfl⟩ := List.append_of_mem h
  refine List.lookup_eq_some_iff.mpr ⟨before, after, rfl, fun entry hentry => ?_⟩
  rw [keys, List.map_append, List.map_cons, List.nodup_append] at hkeys
  have hne := hkeys.2.2 entry.1 (List.mem_map_of_mem hentry) key List.mem_cons_self
  exact bne_iff_ne.mpr hne.symm

end Entries

namespace Json

/-! ### Parts of values -/

theorem wellFormedItems_iff {items : List Json} :
    WellFormedItems items ↔ ∀ item ∈ items, item.WellFormed := by
  induction items with
  | nil => simp [WellFormedItems]
  | cons item rest ih => rw [WellFormedItems, ih, List.forall_mem_cons]

theorem wellFormedEntries_iff {entries : List (String × Json)} :
    WellFormedEntries entries ↔ ∀ entry ∈ entries, entry.2.WellFormed := by
  induction entries with
  | nil => simp [WellFormedEntries]
  | cons entry rest ih => rw [WellFormedEntries, ih, List.forall_mem_cons]

mutual

/-- The numbers in a value, at any depth. -/
def numbers : Json → List Number
  | number n => [n]
  | array items => numbersItems items
  | object entries => numbersEntries entries
  | _ => []

/-- The numbers in some values. -/
def numbersItems : List Json → List Number
  | [] => []
  | item :: rest => numbers item ++ numbersItems rest

/-- The numbers in the values of some entries. -/
def numbersEntries : List (String × Json) → List Number
  | [] => []
  | (_, value) :: rest => numbers value ++ numbersEntries rest

end

theorem mem_numbersItems_iff {n : Number} {items : List Json} :
    n ∈ numbersItems items ↔ ∃ item ∈ items, n ∈ item.numbers := by
  induction items with
  | nil => simp [numbersItems]
  | cons item rest ih => rw [numbersItems, List.mem_append, ih, List.exists_mem_cons_iff]

theorem mem_numbersEntries_iff {n : Number} {entries : List (String × Json)} :
    n ∈ numbersEntries entries ↔ ∃ entry ∈ entries, n ∈ entry.2.numbers := by
  induction entries with
  | nil => simp [numbersEntries]
  | cons entry rest ih => rw [numbersEntries, List.mem_append, ih, List.exists_mem_cons_iff]

/-! ### Values that match -/

mutual

/-- That two values **match**: they are the same up to the order of the keys at every depth,
and up to a relation between numbers. -/
inductive Matches (r : Number → Number → Prop) : Json → Json → Prop
  /-- The value `null`. -/
  | null : Matches r .null .null
  /-- A truth value. -/
  | bool (b : Bool) : Matches r (.bool b) (.bool b)
  /-- Two numbers that are related. -/
  | number {m n : Number} (h : r m n) : Matches r (.number m) (.number n)
  /-- A string. -/
  | string (text : String) : Matches r (.string text) (.string text)
  /-- Arrays that match item by item. -/
  | array {as bs : List Json} (h : MatchesItems r as bs) : Matches r (.array as) (.array bs)
  /-- Objects that match entry by entry if the entries of one of them are put in order. -/
  | object {as bs cs : List (String × Json)} (h : MatchesEntries r as bs) (hperm : bs.Perm cs) :
      Matches r (.object as) (.object cs)

/-- That two lists match item by item. -/
inductive MatchesItems (r : Number → Number → Prop) : List Json → List Json → Prop
  /-- There are no items. -/
  | nil : MatchesItems r [] []
  /-- One more item. -/
  | cons {a b : Json} {as bs : List Json} (hhead : Matches r a b) (htail : MatchesItems r as bs) :
      MatchesItems r (a :: as) (b :: bs)

/-- That two lists of entries have the same keys in the same order and match value by
value. -/
inductive MatchesEntries (r : Number → Number → Prop) :
    List (String × Json) → List (String × Json) → Prop
  /-- There are no entries. -/
  | nil : MatchesEntries r [] []
  /-- One more entry. -/
  | cons {key : String} {a b : Json} {as bs : List (String × Json)} (hhead : Matches r a b)
      (htail : MatchesEntries r as bs) : MatchesEntries r ((key, a) :: as) ((key, b) :: bs)

end

theorem MatchesEntries.keys_eq {r : Number → Number → Prop} {as bs : List (String × Json)}
    (h : MatchesEntries r as bs) : Entries.keys as = Entries.keys bs := by
  match h with
  | .nil => rfl
  | .cons _ htail => exact congrArg (_ :: ·) htail.keys_eq

theorem MatchesEntries.length_eq {r : Number → Number → Prop} {as bs : List (String × Json)}
    (h : MatchesEntries r as bs) : as.length = bs.length := by
  have hkeys := congrArg List.length h.keys_eq
  rwa [Entries.keys, List.length_map, Entries.keys, List.length_map] at hkeys

/-! ### A change of the relation -/

section Imp

variable {r r' : Number → Number → Prop}

mutual

/-- Values match under another relation if the numbers in them are related by it. -/
theorem Matches.imp {a b : Json} (h : Matches r a b)
    (himp : ∀ m ∈ a.numbers, ∀ n ∈ b.numbers, r m n → r' m n) : Matches r' a b := by
  match h with
  | .null => exact .null
  | .bool b => exact .bool b
  | .number h =>
    exact .number (himp _ (List.mem_singleton_self _) _ (List.mem_singleton_self _) h)
  | .string text => exact .string text
  | .array h => exact .array (h.imp himp)
  | .object h hperm =>
    refine .object (h.imp fun m hm n hn => himp m hm n ?_) hperm
    obtain ⟨entry, hentry, hn⟩ := mem_numbersEntries_iff.mp hn
    exact mem_numbersEntries_iff.mpr ⟨entry, hperm.mem_iff.mp hentry, hn⟩

theorem MatchesItems.imp {as bs : List Json} (h : MatchesItems r as bs)
    (himp : ∀ m ∈ numbersItems as, ∀ n ∈ numbersItems bs, r m n → r' m n) :
    MatchesItems r' as bs := by
  match h with
  | .nil => exact .nil
  | .cons hhead htail =>
    refine .cons (hhead.imp fun m hm n hn => ?_) (htail.imp fun m hm n hn => ?_)
    · exact himp m (List.mem_append_left _ hm) n (List.mem_append_left _ hn)
    · exact himp m (List.mem_append_right _ hm) n (List.mem_append_right _ hn)

theorem MatchesEntries.imp {as bs : List (String × Json)} (h : MatchesEntries r as bs)
    (himp : ∀ m ∈ numbersEntries as, ∀ n ∈ numbersEntries bs, r m n → r' m n) :
    MatchesEntries r' as bs := by
  match h with
  | .nil => exact .nil
  | .cons hhead htail =>
    refine .cons (hhead.imp fun m hm n hn => ?_) (htail.imp fun m hm n hn => ?_)
    · exact himp m (List.mem_append_left _ hm) n (List.mem_append_left _ hn)
    · exact himp m (List.mem_append_right _ hm) n (List.mem_append_right _ hn)

end

end Imp

/-! ### The comparison decides it -/

/-- Some entries under different keys that are all among others, of which there are no more,
are those in another order. -/
theorem perm_of_subset {as bs : List (String × Json)} (hkeys : (Entries.keys as).Nodup)
    (hsub : as ⊆ bs) (hlength : bs.length ≤ as.length) : as.Perm bs :=
  (hkeys.of_map.subperm hsub).perm_of_length_le hlength

mutual

/-- Values that compare equal match. -/
theorem matches_of_same {a b : Json} (ha : a.WellFormed) (hb : b.WellFormed)
    (h : a.same b = true) : Matches (fun m n => m.same n = true) a b := by
  match a, b, h with
  | .null, .null, _ => exact .null
  | .bool a, .bool b, h =>
    obtain rfl := eq_of_beq h
    exact .bool a
  | .number m, .number n, h => exact .number h
  | .string s, .string t, h =>
    obtain rfl := eq_of_beq h
    exact .string s
  | .array as, .array bs, h => exact .array (matchesItems_of_same ha hb h)
  | .object as, .object bs, h =>
    obtain ⟨hlength, hentries⟩ := Bool.and_eq_true_iff.mp h
    obtain ⟨cs, hcs, hsub⟩ := exists_matchesEntries_of_same ha.2 hb.2 hentries
    -- the matches have the keys of the left side, and there are as many entries on the right
    have hcount : bs.length = cs.length := (eq_of_beq hlength).symm.trans hcs.length_eq
    exact .object hcs (perm_of_subset (hcs.keys_eq ▸ ha.1) hsub (Nat.le_of_eq hcount))

theorem matchesItems_of_same {as bs : List Json} (ha : WellFormedItems as)
    (hb : WellFormedItems bs) (h : sameItems as bs = true) :
    MatchesItems (fun m n => m.same n = true) as bs := by
  match as, bs, h with
  | [], [], _ => exact .nil
  | a :: as, b :: bs, h =>
    obtain ⟨hhead, htail⟩ := Bool.and_eq_true_iff.mp h
    exact .cons (matches_of_same ha.1 hb.1 hhead) (matchesItems_of_same ha.2 hb.2 htail)

theorem exists_matchesEntries_of_same {as bs : List (String × Json)} (ha : WellFormedEntries as)
    (hb : WellFormedEntries bs) (h : sameEntries as bs = true) :
    ∃ cs, MatchesEntries (fun m n => m.same n = true) as cs ∧ cs ⊆ bs := by
  match as, h with
  | [], _ => exact ⟨[], .nil, List.nil_subset bs⟩
  | (key, a) :: as, h =>
    obtain ⟨hhead, htail⟩ := Bool.and_eq_true_iff.mp h
    obtain ⟨cs, hcs, hsub⟩ := exists_matchesEntries_of_same ha.2 hb htail
    split at hhead
    · next b hlookup =>
      have hmem := Entries.mem_of_lookup_eq_some hlookup
      have hmatch := matches_of_same ha.1 (wellFormedEntries_iff.mp hb _ hmem) hhead
      exact ⟨(key, b) :: cs, .cons hmatch hcs, List.cons_subset.mpr ⟨hmem, hsub⟩⟩
    · exact absurd hhead Bool.false_ne_true

end

mutual

/-- Values that match compare equal. -/
theorem Matches.same {a b : Json} (hb : b.WellFormed)
    (h : Matches (fun m n => m.same n = true) a b) : a.same b = true := by
  match h with
  | .null => rfl
  | .bool b => exact beq_self_eq_true b
  | .number h => exact h
  | .string text => exact beq_self_eq_true text
  | .array h => exact h.same hb
  | .object h hperm =>
    refine Bool.and_eq_true_iff.mpr ⟨?_, h.same fun entry hentry => ?_⟩
    · exact beq_iff_eq.mpr (h.length_eq.trans hperm.length_eq)
    · have hmem := hperm.mem_iff.mp hentry
      exact ⟨Entries.lookup_eq_some_of_mem hb.1 hmem, wellFormedEntries_iff.mp hb.2 _ hmem⟩

theorem MatchesItems.same {as bs : List Json} (hb : WellFormedItems bs)
    (h : MatchesItems (fun m n => m.same n = true) as bs) : sameItems as bs = true := by
  match h with
  | .nil => rfl
  | .cons hhead htail =>
    exact Bool.and_eq_true_iff.mpr ⟨hhead.same hb.1, htail.same hb.2⟩

theorem MatchesEntries.same {as bs cs : List (String × Json)}
    (hb : ∀ entry ∈ bs, cs.lookup entry.1 = some entry.2 ∧ entry.2.WellFormed)
    (h : MatchesEntries (fun m n => m.same n = true) as bs) : sameEntries as cs = true := by
  match h with
  | .nil => rfl
  | .cons hhead htail =>
    obtain ⟨⟨hlookup, hwf⟩, hb⟩ := List.forall_mem_cons.mp hb
    rw [sameEntries, hlookup]
    exact Bool.and_eq_true_iff.mpr ⟨hhead.same hwf, htail.same hb⟩

end

end Json

/-! ### Numbers -/

namespace Number

/-- That two numbers are **alike**: they are the same, or one of them is no integer of
sixty-four signed bits and they have the same double. -/
def Alike (m n : Number) : Prop :=
  m = n ∨ (m.signed? = none ∨ n.signed? = none) ∧ m.toDouble.value = n.toDouble.value

theorem eq_int_of_signed? {n : Number} {i : Int} (h : n.signed? = some i) : n = .int i := by
  cases n with
  | int j =>
    rw [signed?] at h
    split at h
    · rw [Option.some.inj h]
    · cases h
  | float x => cases h

/-- **Equality of numbers tells apart what is not alike.** -/
theorem same_iff_alike {m n : Number} : m.same n = true ↔ m.Alike n := by
  rw [same, Alike]
  split
  · next i j hm hn =>
    rw [beq_iff_eq, hm, hn, eq_int_of_signed? hm, eq_int_of_signed? hn]
    simp
  · next hnone =>
    have hone : m.signed? = none ∨ n.signed? = none := by
      cases hm : m.signed? with
      | none => exact Or.inl rfl
      | some i =>
        cases hn : n.signed? with
        | none => exact Or.inr rfl
        | some j => exact absurd hn (hnone i j hm)
    rw [beq_iff_eq]
    constructor
    · intro h
      exact Or.inr ⟨hone, h⟩
    · rintro (rfl | ⟨-, h⟩)
      · rfl
      · exact h

theorem Alike.value_eq {m n : Number} (h : m.Alike n) :
    m.toDouble.value = n.toDouble.value := by
  rcases h with rfl | ⟨-, h⟩
  · rfl
  · exact h

theorem Alike.eq_of_signed? {m n : Number} (h : m.Alike n) (hm : m.signed?.isSome = true)
    (hn : n.signed?.isSome = true) : m = n := by
  rcases h with rfl | ⟨hnone | hnone, -⟩
  · rfl
  · rw [hnone] at hm
    cases hm
  · rw [hnone] at hn
    cases hn

end Number

/-! ### What queries can ask -/

namespace Json

theorem same_iff_matches {a b : Json} (ha : a.WellFormed) (hb : b.WellFormed) :
    a.same b = true ↔ a.Matches Number.Alike b := by
  have hrel : Number.Alike = fun m n => m.same n = true := by
    funext m n
    exact propext Number.same_iff_alike.symm
  rw [hrel]
  exact ⟨matches_of_same ha hb, Matches.same hb⟩

/-- That all the ways in which a query can ask whether two values are equal **decide** whether
they match under a relation between numbers. -/
structure EqualityDecides (r : Number → Number → Prop) (a b : Json) : Prop where
  /-- The comparison itself. -/
  same : a.same b = true ↔ a.Matches r b
  /-- The operator for equality. -/
  eq : Expr.compareValues .eq a b = .bool true ↔ a.Matches r b
  /-- The operator for inequality. -/
  ne : Expr.compareValues .ne a b = .bool true ↔ ¬a.Matches r b
  /-- Membership in an array. -/
  contains (items : List Json) (ha : a = .array items) : ∃ found,
    Library.contains.invoke [.value a, .value b] = .ok (.bool found) ∧
      (found = true ↔ ∃ item ∈ items, item.Matches r b)

theorem invoke_contains (items : List Json) (needle : Json) :
    Library.contains.invoke [.value (.array items), .value needle] =
      .ok (.bool (items.any fun item => item.same needle)) :=
  rfl

/-- Where being alike comes to the same as another relation between the numbers at hand, it is
that relation which equality decides. -/
theorem equalityDecides_of_alike_iff {r : Number → Number → Prop} {a b : Json}
    (ha : a.WellFormed) (hb : b.WellFormed)
    (hr : ∀ m ∈ a.numbers, ∀ n ∈ b.numbers, (m.Alike n ↔ r m n)) : EqualityDecides r a b := by
  have hsame {c : Json} (hc : c.WellFormed) (hsub : ∀ m ∈ c.numbers, m ∈ a.numbers) :
      c.same b = true ↔ c.Matches r b := by
    rw [same_iff_matches hc hb]
    constructor
    · intro h
      exact h.imp fun m hm n hn => (hr m (hsub m hm) n hn).mp
    · intro h
      exact h.imp fun m hm n hn => (hr m (hsub m hm) n hn).mpr
  have hwhole := hsame ha fun _ => id
  constructor
  · exact hwhole
  · rw [← hwhole]
    simp [Expr.compareValues]
  · rw [← hwhole]
    simp [Expr.compareValues]
  · rintro items rfl
    refine ⟨_, invoke_contains items b, ?_⟩
    rw [List.any_eq_true]
    refine exists_congr fun item => and_congr_right fun hitem => ?_
    refine hsame (wellFormedItems_iff.mp ha item hitem) fun m hm => ?_
    exact mem_numbersItems_iff.mpr ⟨item, hitem, hm⟩

/-- **What equality decides.** Two values are equal if they match, their numbers being alike;
and if all numbers are integers of sixty-four signed bits, if they are the same up to the
order of their keys. -/
theorem equality_decides {a b : Json} (ha : a.WellFormed) (hb : b.WellFormed) :
    EqualityDecides Number.Alike a b ∧
      ((∀ n ∈ a.numbers ++ b.numbers, n.signed?.isSome = true) → EqualityDecides Eq a b) := by
  constructor
  · exact equalityDecides_of_alike_iff ha hb fun _ _ _ _ => Iff.rfl
  · intro hsigned
    obtain ⟨hasigned, hbsigned⟩ := List.forall_mem_append.mp hsigned
    refine equalityDecides_of_alike_iff ha hb fun m hm n hn => ⟨fun h => ?_, Or.inl⟩
    exact h.eq_of_signed? (hasigned m hm) (hbsigned n hn)

/-- Two objects with the same entries in different orders. -/
theorem equality_decides_of_swapped :
    EqualityDecides Eq (.object [("a", .int 1), ("b", .array [.int 2])])
      (.object [("b", .array [.int 2]), ("a", .int 1)]) := by
  refine (equality_decides ?_ ?_).2 ?_
  · simp [WellFormed, WellFormedEntries, WellFormedItems, Entries.keys, int, Number.Valid,
      Number.fitsDocument]
  · simp [WellFormed, WellFormedEntries, WellFormedItems, Entries.keys, int, Number.Valid,
      Number.fitsDocument]
  · decide +kernel

/-- **Equality is not exact on all integers**: the two greatest ones are equal. -/
theorem not_same_iff_matches_eq :
    ¬∀ {a b : Json}, a.WellFormed → b.WellFormed →
      (∀ n ∈ a.numbers ++ b.numbers, ∃ i, n = .int i) →
        (a.same b = true ↔ a.Matches Eq b) := by
  intro h
  have hints : ∀ n ∈ (int 18446744073709551615).numbers ++ (int 18446744073709551614).numbers,
      ∃ i, n = .int i := by
    intro n hn
    rcases List.mem_pair.mp hn with rfl | rfl
    · exact ⟨_, rfl⟩
    · exact ⟨_, rfl⟩
  have hwf : ∀ i, Number.fitsDocument i = true → (int i).WellFormed := fun _ hi => hi
  have hmatch := (h (hwf _ (by decide)) (hwf _ (by decide)) hints).mp (by decide +kernel)
  cases hmatch with
  | number heq => exact absurd (Number.int.inj heq) (by decide)

end Json

end JsonQuery
