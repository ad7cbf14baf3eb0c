import JsonQuery.Number.Basic

/-!
# Documents

The values that a query runs on and yields: `JsonQuery.Json`. An object is the list of
its **entries** in the order in which its keys first came, for that order is shown
whenever the object is written. That no key comes twice is not part of the type. It is
kept by `JsonQuery.Entries.insert`, which gives a known key a new value *in its old
place* and puts a new key at the end, and it is stated beside the type as part of
`JsonQuery.Json.WellFormed`.
-/

namespace JsonQuery

/-! ### Entries -/

namespace Entries

variable {α : Type}

/-- Set the value of a key: a known key keeps its place, a new one comes last. -/
def insert (key : String) (value : α) : List (String × α) → List (String × α)
  | [] => [(key, value)]
  | (k, v) :: rest => if k = key then (k, value) :: rest else (k, v) :: insert key value rest

/-- Set keys one after another. -/
def insertAll (entries : List (String × α)) (more : List (String × α)) : List (String × α) :=
  more.foldl (fun acc entry => insert entry.1 entry.2 acc) entries

/-- The keys, in order. -/
def keys (entries : List (String × α)) : List String :=
  entries.map Prod.fst

@[simp]
theorem lookup_insert_self (key : String) (value : α) (entries : List (String × α)) :
    (insert key value entries).lookup key = some value := by
  induction entries with
  | nil => simp [insert]
  | cons entry rest ih =>
    obtain ⟨k, v⟩ := entry
    by_cases h : k = key
    · simp [insert, h]
    · have h' : (key == k) = false := by simpa using fun he : key = k => h he.symm
      simp [insert, h, List.lookup_cons, h', ih]

theorem lookup_insert_of_ne {key other : String} (h : other ≠ key) (value : α)
    (entries : List (String × α)) :
    (insert key value entries).lookup other = entries.lookup other := by
  have hne : (other == key) = false := by simpa using h
  induction entries with
  | nil => simp [insert, List.lookup_cons, hne]
  | cons entry rest ih =>
    obtain ⟨k, v⟩ := entry
    by_cases hk : k = key
    · subst hk
      simp [insert, List.lookup_cons, hne]
    · simp only [insert, if_neg hk, List.lookup_cons, ih]

/-- A known key stays where it is and a new key goes to the end. -/
theorem keys_insert (key : String) (value : α) (entries : List (String × α)) :
    keys (insert key value entries) =
      if key ∈ keys entries then keys entries else keys entries ++ [key] := by
  induction entries with
  | nil => simp [insert, keys]
  | cons entry rest ih =>
    obtain ⟨k, v⟩ := entry
    by_cases hk : k = key
    · simp [insert, keys, hk]
    · have hk' : ¬key = k := fun he => hk he.symm
      simp only [keys] at ih
      simp only [insert, if_neg hk, keys, List.map_cons, ih, List.mem_cons, hk', false_or]
      split <;> simp_all

/-- Setting a key never makes a key come twice. -/
theorem nodup_keys_insert {entries : List (String × α)} (h : (keys entries).Nodup) (key : String)
    (value : α) : (keys (insert key value entries)).Nodup := by
  rw [keys_insert]
  split
  · exact h
  · rename_i hmem
    rw [List.nodup_append]
    refine ⟨h, by simp, ?_⟩
    intro a ha b hb he
    rw [List.mem_singleton.mp hb] at he
    exact hmem (he ▸ ha)

theorem nodup_keys_insertAll {entries : List (String × α)} (h : (keys entries).Nodup)
    (more : List (String × α)) : (keys (insertAll entries more)).Nodup := by
  induction more generalizing entries with
  | nil => exact h
  | cons entry rest ih => exact ih (nodup_keys_insert h _ _)

end Entries

/-! ### The values -/

/-- A JSON value. -/
inductive Json where
  /-- The value `null`. -/
  | null
  /-- A truth value. -/
  | bool (b : Bool)
  /-- A number. -/
  | number (n : Number)
  /-- A string of characters. -/
  | string (text : String)
  /-- Values in order. -/
  | array (items : List Json)
  /-- Values under keys, in the order of the keys. -/
  | object (entries : List (String × Json))
  deriving Repr

namespace Json

instance : Inhabited Json := ⟨null⟩

/-- An integer as a value. -/
def int (n : Int) : Json :=
  number (.int n)

/-- The name of the type of a value. -/
def typeName : Json → String
  | null => "null"
  | bool _ => "boolean"
  | number _ => "number"
  | string _ => "string"
  | array _ => "array"
  | object _ => "object"

/-- Whether a value is `null`. -/
def isNull : Json → Bool
  | null => true
  | _ => false

/-- **Truth**: `null`, `false`, the empty string, the empty array and the empty object
are false. Every number is true, zero included. -/
def isTruthy : Json → Bool
  | null => false
  | bool b => b
  | number _ => true
  | string text => text != ""
  | array items => !items.isEmpty
  | object entries => !entries.isEmpty

/-- Whether a value is a number that stands for zero, of either sign. -/
def isZero : Json → Bool
  | number (.int n) => n == 0
  | number (.float x) => x.units == 0
  | _ => false

/-- **Negation.** Zero is looked at apart: its negation is false, as is that of everything
true. -/
def negation (v : Json) : Json :=
  bool (!v.isZero && !v.isTruthy)

/-- Zero is true, like every number, so looking at it apart changes nothing. -/
theorem negation_eq (v : Json) : v.negation = bool !v.isTruthy := by
  cases v with
  | number n => exact congrArg bool (Bool.and_false _)
  | _ => rfl

mutual

/-- How deep arrays and objects are nested: a scalar is at depth zero. -/
def depth : Json → Nat
  | array items => depthItems items + 1
  | object entries => depthEntries entries + 1
  | _ => 0

/-- The depth of the deepest of some values. -/
def depthItems : List Json → Nat
  | [] => 0
  | item :: rest => max (depth item) (depthItems rest)

/-- The depth of the deepest value among some entries. -/
def depthEntries : List (String × Json) → Nat
  | [] => 0
  | (_, value) :: rest => max (depth value) (depthEntries rest)

end

mutual

/-- The values that can be read from a text: no key comes twice in an object, and every
number is one that a document can hold. -/
def WellFormed : Json → Prop
  | number n => n.Valid
  | array items => WellFormedItems items
  | object entries => (Entries.keys entries).Nodup ∧ WellFormedEntries entries
  | _ => True

/-- Every one of some values is well formed. -/
def WellFormedItems : List Json → Prop
  | [] => True
  | item :: rest => WellFormed item ∧ WellFormedItems rest

/-- Every value among some entries is well formed. -/
def WellFormedEntries : List (String × Json) → Prop
  | [] => True
  | (_, value) :: rest => WellFormed value ∧ WellFormedEntries rest

end

end Json

end JsonQuery
