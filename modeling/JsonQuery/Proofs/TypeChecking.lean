import JsonQuery.Function.Signature
import Mathlib.Data.List.Forall2

/-!
# What checking types finds

What it means for an argument to be in its place is said here without a word about checking.
A value **is of** a type (`JsonQuery.ArgumentType.Describes`) by a rule for each type, of which
the one for arrays asks for all items; an argument **fits** a type if it is a value of that
type, or an expression where an expression or anything at all is asked for
(`JsonQuery.ArgumentType.Fits`). A signature **declares** the types of an argument by its place
(`JsonQuery.Signature.Declares`); for some places it declares nothing. And it **suits** some
arguments if each of them for which it declares types is **taken** by these, because it fits one
of them or because there are none (`JsonQuery.Signature.Suits`).

Checking succeeds exactly for arguments that are suited. When it fails it goes through the types
once more, to find somebody to **blame** (`JsonQuery.Signature.Blames`): the first argument that
is not taken, or an item of it. The second search must not contradict the first. It picks the
first array type whose items are of the type of the first item there is; since the argument fits
no type, that one included, one of its items is not of the type of items, and so an item is
found whenever a type is picked. An argument for which none is picked is blamed as a whole.
-/

namespace JsonQuery

/-! ### Types -/

namespace ArgumentType

/-- That a value **is of** a type. -/
inductive Describes : ArgumentType → Json → Prop
  /-- Any value is of the type of anything. -/
  | any (v : Json) : Describes any v
  /-- The value `null`. -/
  | null : Describes null .null
  /-- A truth value. -/
  | boolean (b : Bool) : Describes boolean (.bool b)
  /-- A number. -/
  | number (n : Number) : Describes number (.number n)
  /-- A string. -/
  | string (text : String) : Describes string (.string text)
  /-- An array, whatever its items are. -/
  | array (items : List Json) : Describes array (.array items)
  /-- An object. -/
  | object (entries : List (String × Json)) : Describes object (.object entries)
  /-- An array all of whose items are of the type of items. -/
  | arrayOf {t : ArgumentType} {items : List Json} (h : ∀ v ∈ items, Describes t v) :
      Describes (arrayOf t) (.array items)

theorem describes_arrayOf_iff {t : ArgumentType} {items : List Json} :
    (arrayOf t).Describes (.array items) ↔ ∀ v ∈ items, t.Describes v := by
  constructor
  · intro h
    cases h with
    | arrayOf h => exact h
  · exact .arrayOf

theorem hasValue_iff {t : ArgumentType} {v : Json} : t.hasValue v = true ↔ t.Describes v := by
  induction t generalizing v with
  | arrayOf t ih =>
    cases v with
    | array items =>
      rw [hasValue, List.all_eq_true, describes_arrayOf_iff]
      exact forall₂_congr fun v _ => ih
    | null | bool | number | string | object => exact ⟨nofun, nofun⟩
  | any => exact ⟨fun _ => .any v, fun _ => rfl⟩
  | null | boolean | number | string | array | object =>
    cases v <;> first
      | exact ⟨fun _ => by constructor, fun _ => rfl⟩
      | exact ⟨nofun, nofun⟩
  | expression => exact ⟨nofun, nofun⟩

/-- That a value is the **stray** one of some items: the first that is not of a type. -/
def IsStray (t : ArgumentType) (items : List Json) (stray : Json) : Prop :=
  ∃ before after, items = before ++ stray :: after ∧ (∀ v ∈ before, t.Describes v) ∧
    ¬t.Describes stray

theorem find?_eq_some_iff_isStray {t : ArgumentType} {items : List Json} {stray : Json} :
    (items.find? fun v => !t.hasValue v) = some stray ↔ t.IsStray items stray := by
  have hnot (v : Json) : (!t.hasValue v) = true ↔ ¬t.Describes v := by
    rw [Bool.not_eq_true', ← Bool.not_eq_true, hasValue_iff]
  rw [List.find?_eq_some_iff_append, IsStray, hnot]
  simp only [Bool.not_not, hasValue_iff]
  constructor
  · rintro ⟨hstray, before, after, hitems, hbefore⟩
    exact ⟨before, after, hitems, hbefore, hstray⟩
  · rintro ⟨before, after, hitems, hbefore, hstray⟩
    exact ⟨hstray, before, after, hitems, hbefore⟩

/-- Some items of which not all are of a type have a stray one. -/
theorem exists_isStray {t : ArgumentType} {items : List Json} (h : ¬∀ v ∈ items, t.Describes v) :
    ∃ stray, t.IsStray items stray := by
  cases hfind : items.find? fun v => !t.hasValue v with
  | some stray => exact ⟨stray, find?_eq_some_iff_isStray.mp hfind⟩
  | none =>
    refine absurd (fun v hv => ?_) h
    simpa [hasValue_iff] using List.find?_eq_none.mp hfind v hv

/-- That an argument **fits** a type. -/
inductive Fits : ArgumentType → Argument → Prop
  /-- A value of the type. -/
  | value {t : ArgumentType} {v : Json} (h : t.Describes v) : Fits t (.value v)
  /-- An expression where anything is asked for. -/
  | any (r : Reference) : Fits any (.reference r)
  /-- An expression where one is asked for. -/
  | expression (r : Reference) : Fits expression (.reference r)

theorem fits_value_iff {t : ArgumentType} {v : Json} : t.Fits (.value v) ↔ t.Describes v := by
  constructor
  · intro h
    cases h with
    | value h => exact h
  · exact .value

theorem admits_iff {t : ArgumentType} {arg : Argument} : t.admits arg = true ↔ t.Fits arg := by
  cases arg with
  | value v =>
    have hvalue : t.admits (.value v) = t.hasValue v := by cases t <;> rfl
    rw [hvalue, fits_value_iff]
    exact hasValue_iff
  | reference r =>
    cases t with
    | any => exact ⟨fun _ => .any r, fun _ => rfl⟩
    | expression => exact ⟨fun _ => .expression r, fun _ => rfl⟩
    | _ => exact ⟨nofun, nofun⟩

end ArgumentType

namespace Signature

open ArgumentType

/-! ### Arguments in their places -/

/-- That a signature **declares** some types for the argument at an index: those of the position
of its own, or, behind the positions of a variadic signature, those of the last one. -/
inductive Declares (s : Signature) : Nat → List ArgumentType → Prop
  /-- There is a position for the argument. -/
  | own {index : Nat} {types : List ArgumentType} (h : s.positions[index]? = some types) :
      Declares s index types
  /-- The last position is filled once more. -/
  | last {index : Nat} {types : List ArgumentType} (hvariadic : s.variadic = true)
      (hbehind : s.positions.length ≤ index) (h : s.positions.getLast? = some types) :
      Declares s index types

theorem typesAt?_eq_some_iff {s : Signature} {index : Nat} {types : List ArgumentType} :
    s.typesAt? index = some types ↔ s.Declares index types := by
  rw [typesAt?]
  constructor
  · split
    · next own hown =>
      rintro ⟨⟩
      exact .own hown
    · next hnone =>
      intro h
      obtain ⟨hvariadic, hlast⟩ := Option.ite_none_right_eq_some.mp h
      exact .last hvariadic (List.getElem?_eq_none_iff.mp hnone) hlast
  · rintro (hown | ⟨hvariadic, hbehind, hlast⟩)
    · simp only [hown]
    · simp only [List.getElem?_eq_none hbehind, if_pos hvariadic, hlast]

theorem Declares.unique {s : Signature} {index : Nat} {types types' : List ArgumentType}
    (h : s.Declares index types) (h' : s.Declares index types') : types = types' :=
  Option.some.inj ((typesAt?_eq_some_iff.mpr h).symm.trans (typesAt?_eq_some_iff.mpr h'))

/-- That an argument is **taken** by some types: it fits one of them, or there are none. -/
def Takes (types : List ArgumentType) (arg : Argument) : Prop :=
  types = [] ∨ ∃ t ∈ types, t.Fits arg

theorem admits_iff_takes {types : List ArgumentType} {arg : Argument} :
    admits types arg = true ↔ Takes types arg := by
  rw [admits, Bool.or_eq_true, List.isEmpty_iff, List.any_eq_true, Takes]
  simp only [ArgumentType.admits_iff]

/-- That a signature **suits** some arguments from an index on: every argument for which it
declares types is taken by them. -/
def SuitsFrom (s : Signature) (index : Nat) (args : List Argument) : Prop :=
  ∀ (i : Nat) (arg : Argument), args[i]? = some arg →
    ∀ types, s.Declares (index + i) types → Takes types arg

/-- That a signature **suits** some arguments. -/
def Suits (s : Signature) (args : List Argument) : Prop :=
  ∀ (index : Nat) (arg : Argument), args[index]? = some arg →
    ∀ types, s.Declares index types → Takes types arg

theorem suitsFrom_zero_iff {s : Signature} {args : List Argument} :
    s.SuitsFrom 0 args ↔ s.Suits args := by
  simp only [SuitsFrom, Suits, Nat.zero_add]

theorem suitsFrom_cons_iff {s : Signature} {index : Nat} {arg : Argument} {args : List Argument} :
    s.SuitsFrom index (arg :: args) ↔
      (∀ types, s.Declares index types → Takes types arg) ∧ s.SuitsFrom (index + 1) args := by
  constructor
  · intro h
    refine ⟨h 0 arg rfl, fun i other hother => ?_⟩
    rw [Nat.add_right_comm]
    exact h (i + 1) other hother
  · rintro ⟨harg, hargs⟩ (_ | i) other hother
    · obtain rfl := Option.some.inj hother
      exact harg
    · have hrest := hargs i other hother
      rwa [Nat.add_right_comm] at hrest

/-- Without a variadic tail there is one argument for each position. -/
theorem Suits.forall₂ {positions : List (List ArgumentType)} {args : List Argument}
    (h : (fixed positions).Suits args) (hlength : positions.length = args.length) :
    List.Forall₂ Takes positions args := by
  refine List.forall₂_iff_get.mpr ⟨hlength, fun i hposition harg => ?_⟩
  exact h i _ (List.getElem?_eq_getElem harg) _ (.own (List.getElem?_eq_getElem hposition))

/-- A single position that can be filled any number of times declares the same types for every
argument. -/
theorem suits_variadicOf_iff {types : List ArgumentType} {args : List Argument} :
    (variadicOf [types]).Suits args ↔ ∀ arg ∈ args, Takes types arg := by
  constructor
  · intro h arg harg
    obtain ⟨i, hi⟩ := List.getElem?_of_mem harg
    refine h i arg hi types ?_
    cases i with
    | zero => exact .own rfl
    | succ i => exact .last rfl (Nat.le_add_left 1 i) rfl
  · intro h i arg harg types' hdeclares
    obtain rfl : types' = types := by
      rcases hdeclares with hown | ⟨-, -, hlast⟩
      · exact List.mem_singleton.mp (List.mem_of_getElem? hown)
      · exact (Option.some.inj hlast).symm
    exact h arg (List.mem_of_getElem? harg)

/-! ### Blame -/

/-- That some types **select** a type of items for an array: that of the first array type among
them whose items are of the type of the first item. -/
def Selects (types : List ArgumentType) (first : Json) (item : ArgumentType) : Prop :=
  ∃ before after, types = before ++ arrayOf item :: after ∧ item.Describes first ∧
    ∀ other, arrayOf other ∈ before → ¬other.Describes first

/-- What is to be **blamed** for an argument that is not taken by some types. -/
inductive Blames (types : List ArgumentType) : Argument → Complaint → Prop
  /-- An array for which a type of items is selected: its stray item. -/
  | item {items : List Json} {first stray : Json} {item : ArgumentType}
      (hfirst : items.head? = some first) (hselects : Selects types first item)
      (hstray : item.IsStray items stray) :
      Blames types (.value (.array items)) (.type stray [item.name] stray.typeName)
  /-- Any other argument: the argument itself. -/
  | argument {arg : Argument} (h : ∀ items first item, arg = .value (.array items) →
      items.head? = some first → ¬Selects types first item) :
      Blames types arg (.type arg.toJson (types.map name) arg.typeName)

/-- The type of items that is selected for an array. -/
def selected? (types : List ArgumentType) (first : Json) : Option ArgumentType :=
  types.findSome? fun
    | .arrayOf item => if item.hasValue first then some item else none
    | _ => none

theorem strayItem?_cons (types : List ArgumentType) (first : Json) (rest : List Json) :
    strayItem? types (.value (.array (first :: rest))) = match selected? types first with
      | some item => ((first :: rest).find? fun v => !item.hasValue v).map fun stray => (stray, item)
      | none => none :=
  rfl

theorem selected?_eq_some_iff {types : List ArgumentType} {first : Json} {item : ArgumentType} :
    selected? types first = some item ↔ Selects types first item := by
  rw [selected?, List.findSome?_eq_some_iff]
  constructor
  · rintro ⟨before, t, after, rfl, ht, hbefore⟩
    cases t with
    | arrayOf t =>
      obtain ⟨hfirst, ⟨⟩⟩ := Option.ite_none_right_eq_some.mp ht
      refine ⟨before, after, rfl, hasValue_iff.mp hfirst, fun other hother hfits => ?_⟩
      simpa [hasValue_iff.mpr hfits] using hbefore _ hother
    | _ => exact absurd ht (by simp)
  · rintro ⟨before, after, rfl, hfirst, hbefore⟩
    refine ⟨before, arrayOf item, after, rfl, if_pos (hasValue_iff.mpr hfirst), fun t ht => ?_⟩
    cases t with
    | arrayOf other => exact if_neg fun hfits => hbefore other ht (hasValue_iff.mp hfits)
    | _ => rfl

/-- **The second search**: an item is found if a type of items is selected and there is a stray
item. -/
theorem strayItem?_eq_some_iff {types : List ArgumentType} {arg : Argument} {stray : Json}
    {item : ArgumentType} : strayItem? types arg = some (stray, item) ↔
      ∃ items first, arg = .value (.array items) ∧ items.head? = some first ∧
        Selects types first item ∧ item.IsStray items stray := by
  constructor
  · intro h
    match arg, h with
    | .value (.array (first :: rest)), h =>
      rw [strayItem?_cons] at h
      split at h
      · next selected hselected =>
        obtain ⟨found, hfind, heq⟩ := Option.map_eq_some_iff.mp h
        obtain ⟨rfl, rfl⟩ := Prod.mk.inj heq
        exact ⟨_, first, rfl, rfl, selected?_eq_some_iff.mp hselected,
          find?_eq_some_iff_isStray.mp hfind⟩
      · exact absurd h (by simp)
  · rintro ⟨items, first, rfl, hfirst, hselects, hstray⟩
    obtain ⟨rest, rfl⟩ := List.head?_eq_some_iff.mp hfirst
    rw [strayItem?_cons, selected?_eq_some_iff.mpr hselects]
    simp only [find?_eq_some_iff_isStray.mpr hstray, Option.map_some]

/-- **The second search does not contradict the first**: of an array that is not taken there is
a stray item as soon as a type of items is selected. -/
theorem Selects.exists_isStray {types : List ArgumentType} {first : Json} {item : ArgumentType}
    (h : Selects types first item) {items : List Json}
    (hnot : ¬Takes types (.value (.array items))) : ∃ stray, item.IsStray items stray := by
  obtain ⟨before, after, rfl, -⟩ := h
  refine ArgumentType.exists_isStray fun hall => hnot (.inr ⟨arrayOf item, ?_, ?_⟩)
  · exact List.mem_append_right _ List.mem_cons_self
  · exact .value (.arrayOf hall)

/-- What the complaint about an argument that is not taken blames. -/
theorem blames_iff {types : List ArgumentType} {arg : Argument} (hnot : ¬Takes types arg)
    {c : Complaint} : Blames types arg c ↔ c = complaint types arg := by
  rw [complaint]
  cases hfound : strayItem? types arg with
  | some found =>
    obtain ⟨items, first, rfl, hfirst, hselects, hstray⟩ := strayItem?_eq_some_iff.mp hfound
    constructor
    · rintro (⟨hfirst', hselects', hstray'⟩ | ⟨h⟩)
      · rw [strayItem?_eq_some_iff.mpr ⟨_, _, rfl, hfirst', hselects', hstray'⟩] at hfound
        obtain rfl := Option.some.inj hfound
        rfl
      · exact absurd hselects (h items first _ rfl hfirst)
    · rintro rfl
      exact .item hfirst hselects hstray
  | none =>
    have hnone {items : List Json} {first : Json} {item : ArgumentType}
        (harg : arg = .value (.array items)) (hfirst : items.head? = some first) :
        ¬Selects types first item := by
      intro hselects
      obtain ⟨stray, hstray⟩ := hselects.exists_isStray (harg ▸ hnot)
      rw [strayItem?_eq_some_iff.mpr ⟨items, first, harg, hfirst, hselects, hstray⟩] at hfound
      exact absurd hfound (by simp)
    constructor
    · rintro (⟨hfirst, hselects, -⟩ | ⟨-⟩)
      · exact absurd hselects (hnone rfl hfirst)
      · rfl
    · rintro rfl
      exact .argument fun _ _ _ => hnone

/-! ### Checking -/

theorem checkTypesFrom_cons (s : Signature) (index : Nat) (arg : Argument) (args : List Argument) :
    (s.checkTypesFrom index (arg :: args) = s.checkTypesFrom (index + 1) args ∧
        ∀ types, s.Declares index types → Takes types arg) ∨
      ∃ types, s.checkTypesFrom index (arg :: args) = .error (complaint types arg) ∧
        s.Declares index types ∧ ¬Takes types arg := by
  rw [checkTypesFrom]
  cases htypes : s.typesAt? index with
  | none =>
    refine .inl ⟨rfl, fun types hdeclares => ?_⟩
    rw [typesAt?_eq_some_iff.mpr hdeclares] at htypes
    exact absurd htypes (by simp)
  | some types =>
    have hdeclares := typesAt?_eq_some_iff.mp htypes
    by_cases htakes : Takes types arg
    · refine .inl ⟨if_pos (admits_iff_takes.mpr htakes), fun types' hdeclares' => ?_⟩
      exact hdeclares.unique hdeclares' ▸ htakes
    · exact .inr ⟨types, if_neg fun h => htakes (admits_iff_takes.mp h), hdeclares, htakes⟩

theorem checkTypesFrom_eq_ok_iff {s : Signature} {index : Nat} {args : List Argument} :
    s.checkTypesFrom index args = .ok () ↔ s.SuitsFrom index args := by
  induction args generalizing index with
  | nil => exact ⟨fun _ _ _ h => absurd h (by simp), fun _ => rfl⟩
  | cons arg args ih =>
    rw [suitsFrom_cons_iff]
    obtain ⟨hcheck, htakes⟩ | ⟨types, hcheck, hdeclares, hnot⟩ := s.checkTypesFrom_cons index arg args
    · rw [hcheck, ih]
      exact ⟨fun h => ⟨htakes, h⟩, And.right⟩
    · rw [hcheck]
      exact ⟨nofun, fun h => absurd (h.1 types hdeclares) hnot⟩

theorem checkTypes_eq_ok_iff {s : Signature} {args : List Argument} :
    s.checkTypes args = .ok () ↔ s.Suits args :=
  checkTypesFrom_eq_ok_iff.trans suitsFrom_zero_iff

/-- A complaint is about the first argument that is not taken. -/
theorem checkTypesFrom_eq_error_iff {s : Signature} {index : Nat} {args : List Argument}
    {c : Complaint} : s.checkTypesFrom index args = .error c ↔
      ∃ before arg after types, args = before ++ arg :: after ∧ s.SuitsFrom index before ∧
        s.Declares (index + before.length) types ∧ ¬Takes types arg ∧ Blames types arg c := by
  induction args generalizing index with
  | nil => exact ⟨nofun, fun ⟨before, arg, after, _, h, _⟩ => absurd h (by simp)⟩
  | cons first args ih =>
    obtain ⟨hcheck, htakes⟩ | ⟨types, hcheck, hdeclares, hnot⟩ :=
      s.checkTypesFrom_cons index first args
    · rw [hcheck, ih]
      constructor
      · rintro ⟨before, arg, after, types, rfl, hbefore, hdeclares, hblame⟩
        refine ⟨first :: before, arg, after, types, rfl, ?_, ?_, hblame⟩
        · exact suitsFrom_cons_iff.mpr ⟨htakes, hbefore⟩
        · rwa [List.length_cons, Nat.add_comm before.length, ← Nat.add_assoc]
      · rintro ⟨_ | ⟨first', before⟩, arg, after, types, hargs, hbefore, hdeclares, hnot, hblame⟩
        · obtain ⟨rfl, rfl⟩ := List.cons.inj hargs
          exact absurd (htakes types hdeclares) hnot
        · obtain ⟨rfl, rfl⟩ := List.cons.inj hargs
          refine ⟨before, arg, after, types, rfl, (suitsFrom_cons_iff.mp hbefore).2, ?_, hnot, hblame⟩
          rwa [List.length_cons, Nat.add_comm before.length, ← Nat.add_assoc] at hdeclares
    · rw [hcheck]
      constructor
      · rintro ⟨⟩
        refine ⟨[], first, args, types, rfl, fun _ _ h => absurd h (by simp), hdeclares, hnot, ?_⟩
        exact (blames_iff hnot).mpr rfl
      · rintro ⟨_ | ⟨first', before⟩, arg, after, types', hargs, hbefore, hdeclares', hnot', hblame⟩
        · obtain ⟨rfl, rfl⟩ := List.cons.inj hargs
          obtain rfl := hdeclares.unique hdeclares'
          exact congrArg Except.error ((blames_iff hnot).mp hblame).symm
        · obtain ⟨rfl, rfl⟩ := List.cons.inj hargs
          exact absurd ((suitsFrom_cons_iff.mp hbefore).1 types hdeclares) hnot

/-- **Types are checked exactly.** Checking succeeds on the arguments that a signature suits, and
on no others; and otherwise it blames the first argument that is not taken. -/
theorem checkTypes_exact (s : Signature) (args : List Argument) :
    (s.checkTypes args = .ok () ↔ s.Suits args) ∧
      ∀ c, s.checkTypes args = .error c ↔
        ∃ before arg after types, args = before ++ arg :: after ∧ s.Suits before ∧
          s.Declares before.length types ∧ ¬Takes types arg ∧ Blames types arg c := by
  refine ⟨checkTypes_eq_ok_iff, fun c => ?_⟩
  rw [checkTypes, checkTypesFrom_eq_error_iff]
  simp only [suitsFrom_zero_iff, Nat.zero_add]

/-- The first item selects arrays of numbers, so the second one is stray. -/
example : (fixed [[arrayOf string, arrayOf (arrayOf number)]]).checkTypes
    [.value (.array [.array [.int 1], .array [.string "x"], .null])] =
      .error (.type (.array [.string "x"]) ["array-number"] "array") :=
  rfl

end Signature

end JsonQuery
