import JsonQuery.Json.Basic
import JsonQuery.Number.Decimal
import JsonQuery.Text.Blank

/-!
# Reading values

Strict JSON, as `JsonQuery.Json.read` accepts it. Only the four spaces may stand between
tokens, nothing may follow the value, numbers have no leading zeros and no bare point,
strings hold no control character and no half of a surrogate pair, and a list has no
comma after its last item. If a key comes twice in an object it keeps its first place and
takes its last value.

A number that is no integer is read as the double *nearest* to it. Readers that are made for
speed scale the digits by a power of ten in doubles, and on some numbers they miss the nearest
double by a unit in the last place; `3e23` is one. Here there are no such numbers.

Every function here reads something off the front of a text and gives it back with the
text that is left. Nesting is bounded: `JsonQuery.Reader.value` may go a given number of
**levels** down, an array or an object taking one, so the recursion is on that number and
the items of one level are read by a function that is handed the reader of the next
(`JsonQuery.Reader.items`, `JsonQuery.Reader.entries`). Documents may nest
`JsonQuery.Json.maxLevels` deep. How many items there are is bounded as well, but by the
length of the whole text, which no array and no object can reach.
-/

namespace JsonQuery

namespace Reader

open JsonQuery.Text (isSpace)

/-- A text without the spaces at its front. -/
def skipSpaces (cs : List Char) : List Char :=
  cs.dropWhile isSpace

/-! ### Strings -/

/-- The value of a hexadecimal digit of either case. -/
def hexDigit? (c : Char) : Option Nat :=
  if c.isDigit then some (c.toNat - '0'.toNat)
  else if 'a' ≤ c ∧ c ≤ 'f' then some (c.toNat - 'a'.toNat + 10)
  else if 'A' ≤ c ∧ c ≤ 'F' then some (c.toNat - 'A'.toNat + 10)
  else none

/-- Four hexadecimal digits, read as a number. -/
def hexWord? : List Char → Option (Nat × List Char)
  | a :: b :: c :: d :: rest => do
    let a ← hexDigit? a
    let b ← hexDigit? b
    let c ← hexDigit? c
    let d ← hexDigit? d
    return (((a * 16 + b) * 16 + c) * 16 + d, rest)
  | _ => none

/-- What stands behind `\u`: the four digits of a character, or those of the two halves of
a surrogate pair with another `\u` between them. -/
def unicodeEscape? (cs : List Char) : Option (Char × List Char) :=
  match hexWord? cs with
  | none => none
  | some (high, rest) =>
    if high < 0xd800 ∨ 0xe000 ≤ high then some (Char.ofNat high, rest)
    else if 0xdc00 ≤ high then none
    else
      match rest with
      | '\\' :: 'u' :: rest =>
        match hexWord? rest with
        | none => none
        | some (low, rest) =>
          if 0xdc00 ≤ low ∧ low < 0xe000 then
            some (Char.ofNat (0x10000 + (high - 0xd800) * 0x400 + (low - 0xdc00)), rest)
          else none
      | _ => none

/-- The character that a single letter behind a backslash stands for. -/
def letterEscape? (c : Char) : Option Char :=
  if c = '"' ∨ c = '\\' ∨ c = '/' then some c
  else if c = 'b' then some '\x08'
  else if c = 'f' then some '\x0c'
  else if c = 'n' then some '\n'
  else if c = 'r' then some '\r'
  else if c = 't' then some '\t'
  else none

/-- One character of a string, as it is or escaped. -/
def character? : List Char → Option (Char × List Char)
  | [] => none
  | c :: rest =>
    if c = '\\' then
      match rest with
      | [] => none
      | e :: rest =>
        if e = 'u' then unicodeEscape? rest else (letterEscape? e).map fun c => (c, rest)
    else if c.toNat < 0x20 then none
    else some (c, rest)

theorem hexWord?_length {cs rest : List Char} {w : Nat} (h : hexWord? cs = some (w, rest)) :
    rest.length < cs.length := by
  match cs, h with
  | a :: b :: c :: d :: tail, h =>
    simp only [hexWord?, Option.bind_eq_bind, Option.bind_eq_some_iff, Option.pure_def,
      Option.some.injEq, Prod.mk.injEq] at h
    obtain ⟨_, -, _, -, _, -, _, -, -, rfl⟩ := h
    simp only [List.length_cons]
    omega
  | [], h => simp [hexWord?] at h
  | [_], h => simp [hexWord?] at h
  | [_, _], h => simp [hexWord?] at h
  | [_, _, _], h => simp [hexWord?] at h

theorem unicodeEscape?_length {cs rest : List Char} {c : Char}
    (h : unicodeEscape? cs = some (c, rest)) : rest.length < cs.length := by
  unfold unicodeEscape? at h
  split at h
  · simp at h
  · rename_i high tail hhigh
    have hlt := hexWord?_length hhigh
    split at h
    · simp only [Option.some.injEq, Prod.mk.injEq] at h
      exact h.2 ▸ hlt
    · split at h
      · simp at h
      · split at h
        · split at h
          · simp at h
          · rename_i low tail' hlow
            have hlt' := hexWord?_length hlow
            split at h
            · simp only [Option.some.injEq, Prod.mk.injEq] at h
              obtain ⟨-, rfl⟩ := h
              simp only [List.length_cons] at hlt
              omega
            · simp at h
        · simp at h

/-- A character takes at least one character of the text. -/
theorem character?_length {cs rest : List Char} {c : Char} (h : character? cs = some (c, rest)) :
    rest.length < cs.length := by
  unfold character? at h
  split at h
  · simp at h
  · split at h
    · split at h
      · simp at h
      · split at h
        · have := unicodeEscape?_length h
          simp only [List.length_cons]
          omega
        · simp only [Option.map_eq_some_iff, Prod.mk.injEq] at h
          obtain ⟨_, -, -, rfl⟩ := h
          simp only [List.length_cons]
          omega
    · split at h
      · simp at h
      · simp only [Option.some.injEq, Prod.mk.injEq] at h
        obtain ⟨-, rfl⟩ := h
        simp

/-- The characters of a string up to its closing quotation mark, which is taken too. -/
def stringBody? (cs : List Char) : Option (List Char × List Char) :=
  match cs with
  | '"' :: rest => some ([], rest)
  | cs =>
    match _h : character? cs with
    | none => none
    | some (c, rest) => (stringBody? rest).map fun (text, rest) => (c :: text, rest)
termination_by cs.length
decreasing_by exact character?_length ‹_›

/-! ### Numbers -/

/-- The digits at the front of a text. -/
def digits (cs : List Char) : List Char × List Char :=
  (cs.takeWhile Char.isDigit, cs.dropWhile Char.isDigit)

/-- The whole part of a number: a zero alone, or digits of which the first is not zero. -/
def wholePart? (cs : List Char) : Option (List Char × List Char) :=
  let (whole, rest) := digits cs
  match whole with
  | [] => none
  | '0' :: _ :: _ => none
  | _ => some (whole, rest)

/-- The fraction of a number, if there is a point; at least one digit has to follow it. -/
def fraction? : List Char → Option (Option (List Char) × List Char)
  | '.' :: rest =>
    let (places, rest) := digits rest
    if places.isEmpty then none else some (some places, rest)
  | cs => some (none, cs)

/-- The digits of an exponent under its sign. -/
def exponentDigits? (negative : Bool) (cs : List Char) : Option (Option Int × List Char) :=
  let (places, rest) := digits cs
  if places.isEmpty then none
  else
    let n : Int := numberOfDigits places
    some (some (if negative then -n else n), rest)

/-- The exponent of a number, if there is an `e` of either case. -/
def exponent? : List Char → Option (Option Int × List Char)
  | c :: rest =>
    if c = 'e' ∨ c = 'E' then
      match rest with
      | '-' :: rest => exponentDigits? true rest
      | '+' :: rest => exponentDigits? false rest
      | rest => exponentDigits? false rest
    else some (none, c :: rest)
  | [] => some (none, [])

/-- The number that some digits stand for. Without a fraction and an exponent it is an
integer if a document can hold it; minus zero is not an integer. What is no integer is rounded
once, and exactly. -/
def numberOf? (negative : Bool) (whole : List Char) (places : Option (List Char))
    (exponent : Option Int) : Option Number :=
  let coefficient := numberOfDigits (whole ++ places.getD [])
  let value : Int := if negative then -coefficient else coefficient
  if places = none ∧ exponent = none ∧ Number.fitsDocument value = true ∧
      ¬(negative = true ∧ coefficient = 0) then some (.int value)
  else
    let power := exponent.getD 0 - (places.getD []).length
    (Decimal.toDouble? ⟨negative, coefficient, power⟩).map .float

/-- A number. -/
def number? (cs : List Char) : Option (Number × List Char) := do
  let (negative, cs) := match cs with
    | '-' :: rest => (true, rest)
    | cs => (false, cs)
  let (whole, cs) ← wholePart? cs
  let (places, cs) ← fraction? cs
  let (exponent, cs) ← exponent? cs
  let n ← numberOf? negative whole places exponent
  return (n, cs)

/-! ### Lists and objects -/

/-- The items of an array that is not empty, up to its closing bracket, each read by
`item`; there are at most `bound` of them. -/
def items (item : List Char → Option (Json × List Char)) :
    (bound : Nat) → List Char → Option (List Json × List Char)
  | 0, _ => none
  | bound + 1, cs =>
    match item cs with
    | none => none
    | some (first, rest) =>
      match skipSpaces rest with
      | ']' :: rest => some ([first], rest)
      | ',' :: rest => (items item bound rest).map fun (more, rest) => (first :: more, rest)
      | _ => none

/-- A key with the colon behind it. -/
def key? (cs : List Char) : Option (String × List Char) :=
  match skipSpaces cs with
  | '"' :: rest =>
    match stringBody? rest with
    | none => none
    | some (name, rest) =>
      match skipSpaces rest with
      | ':' :: rest => some (String.ofList name, rest)
      | _ => none
  | _ => none

/-- The entries of an object that is not empty, up to its closing brace, each value read
by `item`; there are at most `bound` of them. -/
def entries (item : List Char → Option (Json × List Char)) :
    (bound : Nat) → List Char → Option (List (String × Json) × List Char)
  | 0, _ => none
  | bound + 1, cs =>
    match key? cs with
    | none => none
    | some (key, rest) =>
      match item rest with
      | none => none
      | some (value, rest) =>
        match skipSpaces rest with
        | '}' :: rest => some ([(key, value)], rest)
        | ',' :: rest =>
          (entries item bound rest).map fun (more, rest) => ((key, value) :: more, rest)
        | _ => none

/-! ### Values -/

/-- A value that nests at most a given number of levels, in which no array or object has
more than `bound` items or entries. -/
def value (bound : Nat) : (levels : Nat) → List Char → Option (Json × List Char)
  | levels, cs =>
    match skipSpaces cs with
    | 'n' :: 'u' :: 'l' :: 'l' :: rest => some (.null, rest)
    | 't' :: 'r' :: 'u' :: 'e' :: rest => some (.bool true, rest)
    | 'f' :: 'a' :: 'l' :: 's' :: 'e' :: rest => some (.bool false, rest)
    | '"' :: rest => (stringBody? rest).map fun (text, rest) => (.string (String.ofList text), rest)
    | '[' :: rest =>
      match levels with
      | 0 => none
      | levels + 1 =>
        match skipSpaces rest with
        | ']' :: rest => some (.array [], rest)
        | rest => (items (value bound levels) bound rest).map fun (all, rest) => (.array all, rest)
    | '{' :: rest =>
      match levels with
      | 0 => none
      | levels + 1 =>
        match skipSpaces rest with
        | '}' :: rest => some (.object [], rest)
        | rest => (entries (value bound levels) bound rest).map fun (all, rest) =>
            (.object (Entries.insertAll [] all), rest)
    | cs => (number? cs).map fun (n, rest) => (.number n, rest)

end Reader

namespace Json

/-- How many arrays and objects may stand inside each other in a document. -/
def maxLevels : Nat :=
  127

/-- The value that a text holds if it nests at most a given number of levels; nothing but
spaces may follow it. An item takes at least one character, so no array or object has more
items or entries than the text has characters. -/
def readWithin (levels : Nat) (cs : List Char) : Option Json :=
  match Reader.value cs.length levels cs with
  | some (v, rest) => if rest.all Text.isSpace then some v else none
  | none => none

/-- **The value that a text holds**, if it is the text of one. -/
def read (cs : List Char) : Option Json :=
  readWithin maxLevels cs

/-- The value that a string holds, if it is the text of one. -/
def ofText? (text : String) : Option Json :=
  read text.toList

/-- The string that a text holds, if it is the text of one and nothing else. -/
def readString (cs : List Char) : Option String :=
  match read cs with
  | some (.string text) => some text
  | _ => none

end Json

end JsonQuery
