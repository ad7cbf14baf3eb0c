import JsonQuery.Proofs.Equality
import Mathlib.Data.List.Perm.Basic

/-!
# Equality is blind to the order of keys

Equality looks up the keys of its left side in its right side. Nothing in that is symmetric,
and it takes the order of entries on the one side for granted and searches on the other. That
it is symmetric all the same, and does not see in which order keys stand, is a matter of what
it decides: whether two values match with numbers that are alike
(`JsonQuery.Json.same_iff_matches`). So everything is said about matching here.

Matching is reflexive, symmetric and transitive as far as the relation between the numbers is
(`JsonQuery.Json.Matches.refl`, `JsonQuery.Json.Matches.symm`, `JsonQuery.Json.Matches.trans`).
The one thing to know about it is that a reordering can be moved from one side to the other:
if some entries match others one by one, then after any permutation they match a permutation
of those (`JsonQuery.Json.MatchesEntries.exists_perm`).

A value that matches another with the same numbers has its entries **reordered**, at any depth
and in any number of objects, and is the same otherwise. Being alike is not transitive, for
two integers may be equal to one double without being equal; but reordering on either side
changes no number, and so a comparison cannot tell the difference
(`JsonQuery.Json.same_refl_symm_reordered`).
-/

namespace JsonQuery

namespace Json

variable {r r' r'' : Number → Number → Prop}

/-! ### Entries under a permutation -/

theorem matchesEntries_iff_forall₂ {as bs : List (String × Json)} :
    MatchesEntries r as bs ↔ List.Forall₂ (fun a b => a.1 = b.1 ∧ a.2.Matches r b.2) as bs := by
  constructor
  · intro h
    match h with
    | .nil => exact .nil
    | .cons hhead htail => exact .cons ⟨rfl, hhead⟩ (matchesEntries_iff_forall₂.mp htail)
  · intro h
    induction h with
    | nil => exact .nil
    | @cons a b as bs hhead _ ih =>
      obtain ⟨key, v⟩ := a
      obtain ⟨key', w⟩ := b
      obtain ⟨rfl, hvalue⟩ : key = key' ∧ v.Matches r w := hhead
      exact .cons hvalue ih

/-- A permutation of entries is matched by a permutation of what they match. -/
theorem MatchesEntries.exists_perm {as bs cs : List (String × Json)}
    (h : MatchesEntries r as bs) (hperm : cs.Perm as) :
    ∃ ds, MatchesEntries r cs ds ∧ ds.Perm bs := by
  obtain ⟨ds, hmatch, hds⟩ := List.perm_comp_forall₂ hperm (matchesEntries_iff_forall₂.mp h)
  exact ⟨ds, matchesEntries_iff_forall₂.mpr hmatch, hds⟩

/-! ### Matching as an equivalence -/

mutual

/-- Every value matches itself. -/
theorem Matches.refl (hr : ∀ n, r n n) (a : Json) : a.Matches r a := by
  match a with
  | .null => exact .null
  | .bool b => exact .bool b
  | .number n => exact .number (hr n)
  | .string text => exact .string text
  | .array items => exact .array (MatchesItems.refl hr items)
  | .object entries => exact .object (MatchesEntries.refl hr entries) (.refl entries)

theorem MatchesItems.refl (hr : ∀ n, r n n) (as : List Json) : MatchesItems r as as := by
  match as with
  | [] => exact .nil
  | a :: as => exact .cons (Matches.refl hr a) (MatchesItems.refl hr as)

theorem MatchesEntries.refl (hr : ∀ n, r n n) (as : List (String × Json)) :
    MatchesEntries r as as := by
  match as with
  | [] => exact .nil
  | (_, a) :: as => exact .cons (Matches.refl hr a) (MatchesEntries.refl hr as)

end

mutual

/-- If a value matches another, then the other one matches it. -/
theorem Matches.symm {a b : Json} (h : a.Matches r b) (hr : ∀ m n, r m n → r' n m) :
    b.Matches r' a := by
  match h with
  | .null => exact .null
  | .bool b => exact .bool b
  | .number h => exact .number (hr _ _ h)
  | .string text => exact .string text
  | .array h => exact .array (h.symm hr)
  | .object h hperm =>
    obtain ⟨ds, hmatch, hds⟩ := (h.symm hr).exists_perm hperm.symm
    exact .object hmatch hds

theorem MatchesItems.symm {as bs : List Json} (h : MatchesItems r as bs)
    (hr : ∀ m n, r m n → r' n m) : MatchesItems r' bs as := by
  match h with
  | .nil => exact .nil
  | .cons hhead htail => exact .cons (hhead.symm hr) (htail.symm hr)

theorem MatchesEntries.symm {as bs : List (String × Json)} (h : MatchesEntries r as bs)
    (hr : ∀ m n, r m n → r' n m) : MatchesEntries r' bs as := by
  match h with
  | .nil => exact .nil
  | .cons hhead htail => exact .cons (hhead.symm hr) (htail.symm hr)

end

mutual

/-- If a value matches a second one and that matches a third one, then it matches the third. -/
theorem Matches.trans {a b c : Json} (h : a.Matches r b) (h' : b.Matches r' c)
    (hr : ∀ l m n, r l m → r' m n → r'' l n) : a.Matches r'' c := by
  match h, h' with
  | .null, .null => exact .null
  | .bool b, .bool _ => exact .bool b
  | .number h, .number h' => exact .number (hr _ _ _ h h')
  | .string text, .string _ => exact .string text
  | .array h, .array h' => exact .array (h.trans h' hr)
  | .object h hperm, .object h' hperm' =>
    -- the entries in the middle are put in the order in which the first ones met them
    obtain ⟨ds, hmatch, hds⟩ := h'.exists_perm hperm
    exact .object (h.trans hmatch hr) (hds.trans hperm')

theorem MatchesItems.trans {as bs cs : List Json} (h : MatchesItems r as bs)
    (h' : MatchesItems r' bs cs) (hr : ∀ l m n, r l m → r' m n → r'' l n) :
    MatchesItems r'' as cs := by
  match h, h' with
  | .nil, .nil => exact .nil
  | .cons hhead htail, .cons hhead' htail' =>
    exact .cons (hhead.trans hhead' hr) (htail.trans htail' hr)

theorem MatchesEntries.trans {as bs cs : List (String × Json)} (h : MatchesEntries r as bs)
    (h' : MatchesEntries r' bs cs) (hr : ∀ l m n, r l m → r' m n → r'' l n) :
    MatchesEntries r'' as cs := by
  match h, h' with
  | .nil, .nil => exact .nil
  | .cons hhead htail, .cons hhead' htail' =>
    exact .cons (hhead.trans hhead' hr) (htail.trans htail' hr)

end

/-! ### Reordering -/

mutual

/-- A reordered value is well formed. -/
theorem Matches.wellFormed {a b : Json} (h : a.Matches Eq b) (ha : a.WellFormed) :
    b.WellFormed := by
  match h with
  | .null => exact ha
  | .bool _ => exact ha
  | .number rfl => exact ha
  | .string _ => exact ha
  | .array h => exact h.wellFormed ha
  | .object h hperm =>
    obtain ⟨hkeys, hvalues⟩ := ha
    rw [h.keys_eq] at hkeys
    refine ⟨(hperm.map Prod.fst).nodup_iff.mp hkeys, ?_⟩
    have hmatched := wellFormedEntries_iff.mp (h.wellFormed hvalues)
    exact wellFormedEntries_iff.mpr fun entry hentry => hmatched entry (hperm.mem_iff.mpr hentry)

theorem MatchesItems.wellFormed {as bs : List Json} (h : MatchesItems Eq as bs)
    (ha : WellFormedItems as) : WellFormedItems bs := by
  match h with
  | .nil => exact ha
  | .cons hhead htail => exact ⟨hhead.wellFormed ha.1, htail.wellFormed ha.2⟩

theorem MatchesEntries.wellFormed {as bs : List (String × Json)} (h : MatchesEntries Eq as bs)
    (ha : WellFormedEntries as) : WellFormedEntries bs := by
  match h with
  | .nil => exact ha
  | .cons hhead htail => exact ⟨hhead.wellFormed ha.1, htail.wellFormed ha.2⟩

end

/-- Reordering either side does not change whether two values match. -/
theorem Matches.congr {a a' b b' : Json} (ha : a.Matches Eq a') (hb : b.Matches Eq b') :
    a'.Matches r b' ↔ a.Matches r b := by
  have hmoved {c c' d d' : Json} (hc : c'.Matches Eq c) (hd : d.Matches Eq d')
      (h : c.Matches r d) : c'.Matches r d' := by
    have hleft : c'.Matches r d := hc.trans h fun _ _ _ hlm hmn => hlm ▸ hmn
    exact hleft.trans hd fun _ _ _ hlm hmn => hmn ▸ hlm
  constructor
  · exact hmoved ha (hb.symm fun _ _ => Eq.symm)
  · exact hmoved (ha.symm fun _ _ => Eq.symm) hb

end Json

/-! ### Equality -/

namespace Number

theorem Alike.refl (n : Number) : n.Alike n :=
  Or.inl rfl

theorem Alike.symm {m n : Number} (h : m.Alike n) : n.Alike m := by
  rcases h with rfl | ⟨hone, hvalue⟩
  · exact .refl m
  · exact Or.inr ⟨hone.symm, hvalue.symm⟩

end Number

namespace Json

/-- **Equality is reflexive, symmetric and blind to the order of keys.** -/
theorem same_refl_symm_reordered {a b : Json} (ha : a.WellFormed) (hb : b.WellFormed) :
    a.same a = true ∧ a.same b = b.same a ∧
      ∀ a' b', a.Matches Eq a' → b.Matches Eq b' → a'.same b' = a.same b := by
  refine ⟨?_, ?_, fun a' b' ha' hb' => ?_⟩
  · exact (same_iff_matches ha ha).mpr (.refl Number.Alike.refl a)
  · rw [Bool.eq_iff_iff, same_iff_matches ha hb, same_iff_matches hb ha]
    exact ⟨fun h => h.symm fun _ _ => Number.Alike.symm, fun h => h.symm fun _ _ => Number.Alike.symm⟩
  · rw [Bool.eq_iff_iff, same_iff_matches (ha'.wellFormed ha) (hb'.wellFormed hb),
      same_iff_matches ha hb]
    exact ha'.congr hb'

/-- An object inside an array inside an object, with the entries of both objects swapped, and
another value that equals it because `1` equals `1.0`. -/
theorem same_of_nested_swaps : ∃ a a' b : Json,
    a = .object [("id", .int 1), ("tags", .array [.object [("x", .null), ("y", .bool true)]])] ∧
    a' = .object [("tags", .array [.object [("y", .bool true), ("x", .null)]]), ("id", .int 1)] ∧
    b = .object [("id", .number (.float (.ofInt 1))),
      ("tags", .array [.object [("x", .null), ("y", .bool true)]])] ∧
    a.same a = true ∧ a.same b = b.same a ∧ a'.same b = a.same b ∧ a'.same b = true := by
  have hinner : Matches Eq (.object [("x", .null), ("y", .bool true)])
      (.object [("y", .bool true), ("x", .null)]) :=
    .object (.cons .null (.cons (.bool true) .nil)) (.swap _ _ _)
  have houter : Matches Eq
      (.object [("id", .int 1), ("tags", .array [.object [("x", .null), ("y", .bool true)]])])
      (.object [("tags", .array [.object [("y", .bool true), ("x", .null)]]), ("id", .int 1)]) :=
    .object (.cons (.number rfl) (.cons (.array (.cons hinner .nil)) .nil)) (.swap _ _ _)
  have hwf : ∀ n : Number, n.Valid → WellFormed (.object [("id", .number n),
      ("tags", .array [.object [("x", .null), ("y", .bool true)]])]) := by
    intro n hn
    simp [WellFormed, WellFormedEntries, WellFormedItems, Entries.keys, hn]
  have hone : (Number.float (.ofInt 1)).Valid := by
    rw [Number.Valid]
    decide +kernel
  obtain ⟨hrefl, hsymm, hreordered⟩ :=
    same_refl_symm_reordered (hwf (.int 1) rfl) (hwf (.float (.ofInt 1)) hone)
  have hmoved := hreordered _ _ houter (.refl (fun _ => rfl) _)
  exact ⟨_, _, _, rfl, rfl, rfl, hrefl, hsymm, hmoved, hmoved.trans (by decide +kernel)⟩

end Json

end JsonQuery
