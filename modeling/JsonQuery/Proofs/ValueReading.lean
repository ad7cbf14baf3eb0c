import JsonQuery.Library
import JsonQuery.Proofs.Equality
import JsonQuery.Proofs.ValueTexts

/-!
# Values read back from their texts

A value whose numbers are integers is read back from its text, as it was written and with
nothing of it changed, if it does not nest deeper than a document may
(`JsonQuery.Json.Writes.readsBack`). This goes for both ways to write a value, and whatever comes
behind its text as long as a number cannot go on with it (`JsonQuery.Reader.ReadsBack`).

Lists and objects are read by two functions that differ in what an item is and in the closing
bracket. What is used of either is how it reads the last item and how it reads an item before
others (`JsonQuery.Reader.ReadsLists`), and from there on they are treated as one. The keys of
an object come out in their order because none of them comes twice, so that each one that is
set goes to the end (`JsonQuery.Entries.insertAll_eq_append`).

Hence opening the document that a text holds undoes turning a value into its text
(`JsonQuery.Library.openJson_toText`).
-/

namespace JsonQuery

/-! ### Setting keys that are new -/

namespace Entries

variable {α : Type}

/-- A new key goes to the end. -/
theorem insert_eq_append {key : String} {entries : List (String × α)} (h : key ∉ keys entries)
    (value : α) : insert key value entries = entries ++ [(key, value)] := by
  induction entries with
  | nil => rfl
  | cons entry rest ih =>
    obtain ⟨hne, hrest⟩ := not_or.mp (mt List.mem_cons.mpr h)
    rw [insert, if_neg (Ne.symm hne), ih hrest, List.cons_append]

/-- **Entries whose keys are new and differ** go behind the others as they are. -/
theorem insertAll_eq_append {entries more : List (String × α)}
    (h : (keys (entries ++ more)).Nodup) : insertAll entries more = entries ++ more := by
  induction more generalizing entries with
  | nil => exact (List.append_nil entries).symm
  | cons entry more ih =>
    rw [List.append_cons] at h ⊢
    have hnew : entry.1 ∉ keys entries := by
      rw [keys, List.map_append, List.map_append, List.nodup_append] at h
      obtain ⟨hfirst, -⟩ := h
      rw [List.nodup_append] at hfirst
      exact fun hmem => hfirst.2.2 entry.1 hmem entry.1 (List.mem_singleton_self _) rfl
    rw [insertAll, List.foldl_cons, insert_eq_append hnew]
    exact ih h

end Entries

namespace Json

/-! ### Lengths of lists in a text -/

theorem length_le_listed (line : List Char) {texts : List (List Char)} {text : List Char}
    (h : text ∈ texts) : text.length ≤ (listed line texts).length := by
  induction texts with
  | nil => cases h
  | cons first texts ih =>
    rw [listed_cons, List.length_append, List.length_append]
    rcases List.mem_cons.mp h with rfl | h
    · omega
    · have hlength := ih h
      obtain ⟨second, texts, rfl⟩ := List.exists_cons_of_ne_nil (List.ne_nil_of_mem h)
      rw [behind, List.length_cons]
      · omega
      · exact List.cons_ne_nil second texts

theorem length_le_length_listed (line : List Char) {texts : List (List Char)}
    (h : ∀ text ∈ texts, text ≠ []) : texts.length ≤ (listed line texts).length := by
  induction texts with
  | nil => exact Nat.zero_le _
  | cons first texts ih =>
    obtain ⟨hfirst, htexts⟩ := List.forall_mem_cons.mp h
    have hpos := List.length_pos_iff.mpr hfirst
    have hlength := ih htexts
    rw [listed_cons, List.length_append, List.length_append, List.length_cons]
    cases texts with
    | nil =>
      rw [List.length_nil]
      omega
    | cons second texts =>
      have hbehind : (behind line (second :: texts)).length =
          (listed line (second :: texts)).length + 1 := List.length_cons
      omega

theorem length_listed_le_bracketed (σ : Spacing) (level : Nat) (opening closing : Char)
    (texts : List (List Char)) : (listed (σ.line (level + 1)) texts).length ≤
      (bracketed σ level opening closing texts).length := by
  rw [bracketed, List.length_cons, List.length_append]
  omega

end Json

namespace Reader

open Json (numberText numberText_int behind)
open Scan (isDigit_of_mem_toDigits)

/-! ### Blanks -/

theorem skipSpaces_append {line : List Char} (h : ∀ c ∈ line, Text.isSpace c = true)
    (cs : List Char) : skipSpaces (line ++ cs) = skipSpaces cs :=
  List.dropWhile_append_of_pos h

theorem skipSpaces_cons {c : Char} (h : Text.isSpace c = false) (cs : List Char) :
    skipSpaces (c :: cs) = c :: cs :=
  List.dropWhile_cons_of_neg (Bool.eq_false_iff.mp h)

/-! ### Integers -/

/-- Whether a number whose last digit was read can **go on** with a character. -/
def goesOn (c : Char) : Bool :=
  c.isDigit || c == '.' || c == 'e' || c == 'E'

theorem goesOn_of_isSpace {c : Char} (h : Text.isSpace c = true) : goesOn c = false := by
  simp only [Text.isSpace, Bool.or_eq_true, beq_iff_eq] at h
  rcases h with ((rfl | rfl) | rfl) | rfl <;> rfl

theorem head?_toDigits_ne_zero {n : Nat} (h : 0 < n) : (Nat.toDigits 10 n).head? ≠ some '0' := by
  induction n using Nat.strongRecOn with
  | ind n ih =>
    rw [Nat.toDigits_eq_if (by decide)]
    split
    · next hlt =>
      have hdigit : ∀ d < 10, 0 < d → some (Nat.digitChar d) ≠ some '0' := by decide
      exact hdigit n hlt h
    · next hge =>
      rw [List.head?_append_of_ne_nil _ Nat.toDigits_ne_nil]
      exact ih (n / 10) (Nat.div_lt_self h (by decide)) (by omega)

/-- A decimal number has no zero in front of other digits. -/
theorem wholePart?_toDigits (n : Nat) {rest : List Char} (hrest : Stops Char.isDigit rest) :
    wholePart? (Nat.toDigits 10 n ++ rest) = some (Nat.toDigits 10 n, rest) := by
  have hdigits : digits (Nat.toDigits 10 n ++ rest) = (Nat.toDigits 10 n, rest) :=
    Prod.ext (takeWhile_append_of_stops (fun _ => isDigit_of_mem_toDigits) hrest)
      (dropWhile_append_of_stops (fun _ => isDigit_of_mem_toDigits) hrest)
  rw [wholePart?, hdigits]
  dsimp only
  split
  · next hnil => exact absurd hnil Nat.toDigits_ne_nil
  · next hzero =>
    rcases Nat.eq_zero_or_pos n with rfl | hpos
    · cases hzero
    · exact absurd (congrArg List.head? hzero) (head?_toDigits_ne_zero hpos)
  · rfl

theorem fraction?_of_head? {rest : List Char} (h : rest.head? ≠ some '.') :
    fraction? rest = some (none, rest) := by
  unfold fraction?
  split
  · exact absurd rfl h
  · rfl

theorem exponent?_of_head? {rest : List Char} (h : rest.head? ≠ some 'e')
    (h' : rest.head? ≠ some 'E') : exponent? rest = some (none, rest) := by
  unfold exponent?
  split
  · next c rest =>
    refine if_neg ?_
    rintro (rfl | rfl)
    · exact h rfl
    · exact h' rfl
  · rfl

theorem stops_isDigit {rest : List Char} (h : Stops goesOn rest) : Stops Char.isDigit rest := by
  intro c hc
  have hcontinued := h c hc
  simp only [goesOn, Bool.or_eq_false_iff] at hcontinued
  exact hcontinued.1.1.1

theorem head?_toDigits_ne_minus (n : Nat) (rest : List Char) :
    (Nat.toDigits 10 n ++ rest).head? ≠ some '-' := by
  rw [List.head?_append_of_ne_nil _ Nat.toDigits_ne_nil]
  intro h
  cases isDigit_of_mem_toDigits (List.mem_of_mem_head? h)

/-- Digits under a sign are read up to where a number cannot go on. -/
theorem number?_signed {negative : Bool} {n : Nat} {m : Number}
    (h : numberOf? negative (Nat.toDigits 10 n) none none = some m) {rest : List Char}
    (hrest : Stops goesOn rest) :
    number? (Decimal.signed negative (Nat.toDigits 10 n) ++ rest) = some (m, rest) := by
  have hhead {c : Char} (hc : goesOn c = true) : rest.head? ≠ some c := fun h => by
    rw [hrest c h] at hc
    cases hc
  have hpoint : rest.head? ≠ some '.' := hhead rfl
  have hsmall : rest.head? ≠ some 'e' := hhead rfl
  have hlarge : rest.head? ≠ some 'E' := hhead rfl
  unfold number?
  split
  next sign cs hsign =>
    obtain ⟨rfl, rfl⟩ : sign = negative ∧ cs = Nat.toDigits 10 n ++ rest := by
      split at hsign
      · next hminus =>
        cases negative with
        | true =>
          obtain ⟨rfl, rfl⟩ := Prod.mk.inj hsign
          exact ⟨rfl, (List.cons.inj hminus).2.symm⟩
        | false => exact absurd (congrArg List.head? hminus) (head?_toDigits_ne_minus n rest)
      · next hnone =>
        cases negative with
        | true => exact absurd rfl (hnone _)
        | false =>
          obtain ⟨rfl, rfl⟩ := Prod.mk.inj hsign
          exact ⟨rfl, rfl⟩
    simp only [wholePart?_toDigits n (stops_isDigit hrest), fraction?_of_head? hpoint,
      exponent?_of_head? hsmall hlarge, h, Option.bind_eq_bind, Option.bind_some, Option.pure_def]

/-- **An integer is read back** as the integer that it is. -/
theorem number?_int {i : Int} (hi : Number.fitsDocument i = true) {rest : List Char}
    (hrest : Stops goesOn rest) :
    number? (numberText (.int i) ++ rest) = some (.int i, rest) := by
  rw [numberText_int]
  refine number?_signed ?_ hrest
  have hdigits : numberOfDigits (Nat.toDigits 10 i.natAbs) = i.natAbs := by
    rw [numberOfDigits_eq, Nat.ofDigitChars_ten_toDigits]
  have hvalue : (if decide (i < 0) = true then -(i.natAbs : Int) else i.natAbs) = i := by
    split
    · next hneg =>
      have hlt : i < 0 := of_decide_eq_true hneg
      omega
    · next hpos =>
      have hge : ¬i < 0 := fun h => hpos (decide_eq_true h)
      omega
  rw [numberOf?]
  dsimp only
  rw [Option.getD_none, List.append_nil, hdigits, hvalue, if_pos]
  refine ⟨rfl, rfl, hi, ?_⟩
  rintro ⟨hneg, hzero⟩
  exact absurd (Int.natAbs_eq_zero.mp hzero) (Int.ne_of_lt (of_decide_eq_true hneg))

/-! ### Lists and objects -/

/-- That a text is **read back** as a thing, whatever blanks there are in front of it, and
whatever comes behind it that a number cannot go on with. -/
def ReadsBack {α : Type} (thing : List Char → Option (α × List Char)) (text : List Char)
    (a : α) : Prop :=
  ∀ blanks rest, (∀ c ∈ blanks, Text.isSpace c = true) → Stops goesOn rest →
    thing (blanks ++ (text ++ rest)) = some (a, rest)

/-- That **lists are read**, up to a closing bracket, of which there is a way to read a single
thing. -/
structure ReadsLists {α : Type} (thing : List Char → Option (α × List Char)) (closing : Char)
    (list : Nat → List Char → Option (List α × List Char)) : Prop where
  /-- The last thing stands in front of the bracket. -/
  last {bound : Nat} {cs mid rest : List Char} {a : α} : thing cs = some (a, mid) →
    skipSpaces mid = closing :: rest → list (bound + 1) cs = some ([a], rest)
  /-- All others stand in front of a comma. -/
  more {bound : Nat} {cs mid next rest : List Char} {a : α} {as : List α} :
    thing cs = some (a, mid) → skipSpaces mid = ',' :: next →
      list bound next = some (as, rest) → list (bound + 1) cs = some (a :: as, rest)

/-- An entry of an object. -/
def keyed? (item : List Char → Option (Json × List Char)) (cs : List Char) :
    Option ((String × Json) × List Char) := do
  let (key, cs) ← key? cs
  let (value, cs) ← item cs
  return ((key, value), cs)

theorem readsLists_items (item : List Char → Option (Json × List Char)) :
    ReadsLists item ']' (items item) where
  last hthing hclosing := by
    rw [items]
    simp only [hthing, hclosing]
  more hthing hcomma hmore := by
    rw [items]
    simp only [hthing, hcomma, hmore, Option.map_some]

theorem readsLists_entries (item : List Char → Option (Json × List Char)) :
    ReadsLists (keyed? item) '}' (entries item) where
  last hthing hclosing := by
    simp only [keyed?, Option.bind_eq_bind, Option.bind_eq_some_iff, Option.pure_def,
      Option.some.injEq, Prod.mk.injEq] at hthing
    obtain ⟨⟨key, cs⟩, hkey, ⟨value, _⟩, hvalue, rfl, rfl⟩ := hthing
    rw [entries]
    simp only [hkey, hvalue, hclosing]
  more hthing hcomma hmore := by
    simp only [keyed?, Option.bind_eq_bind, Option.bind_eq_some_iff, Option.pure_def,
      Option.some.injEq, Prod.mk.injEq] at hthing
    obtain ⟨⟨key, cs⟩, hkey, ⟨value, _⟩, hvalue, rfl, rfl⟩ := hthing
    rw [entries]
    simp only [hkey, hvalue, hcomma, hmore, Option.map_some]

section Lists

variable {α : Type} {thing : List Char → Option (α × List Char)} {closing : Char}
  {list : Nat → List Char → Option (List α × List Char)} {text : α → List Char}
  {line own : List Char}

theorem skipSpaces_closing (hclosing : closing = ']' ∨ closing = '}')
    (hline : ∀ c ∈ line, Text.isSpace c = true) (rest : List Char) :
    skipSpaces (line ++ closing :: rest) = closing :: rest := by
  rw [skipSpaces_append hline, skipSpaces_cons]
  rcases hclosing with rfl | rfl <;> rfl

theorem stops_closing (hclosing : closing = ']' ∨ closing = '}')
    (hline : ∀ c ∈ line, Text.isSpace c = true) (rest : List Char) :
    Stops goesOn (line ++ closing :: rest) := by
  cases line with
  | nil => rcases hclosing with rfl | rfl <;> exact stops_cons rfl rest
  | cons c line => exact stops_cons (goesOn_of_isSpace (hline c List.mem_cons_self)) _

/-- **A list is read back** if the things in it are and if there are no more of them than may
be read. -/
theorem ReadsLists.list_eq (h : ReadsLists thing closing list)
    (hclosing : closing = ']' ∨ closing = '}') (hline : ∀ c ∈ line, Text.isSpace c = true)
    (hown : ∀ c ∈ own, Text.isSpace c = true) {a : α} {as : List α}
    (hread : ∀ b ∈ a :: as, ReadsBack thing (text b) b) {bound : Nat}
    (hbound : (a :: as).length ≤ bound) {blanks : List Char}
    (hblanks : ∀ c ∈ blanks, Text.isSpace c = true) (rest : List Char) :
    list bound (blanks ++ (text a ++ (behind line (as.map text) ++ (own ++ closing :: rest)))) =
      some (a :: as, rest) := by
  induction as generalizing a bound blanks with
  | nil =>
    obtain ⟨bound, rfl⟩ := Nat.exists_eq_add_one.mpr hbound
    have hlast := hread a List.mem_cons_self blanks _ hblanks (stops_closing hclosing hown rest)
    exact h.last hlast (skipSpaces_closing hclosing hown rest)
  | cons b bs ih =>
    obtain ⟨ha, hbs⟩ := List.forall_mem_cons.mp hread
    obtain ⟨bound, rfl⟩ := Nat.exists_eq_add_one.mpr (Nat.lt_of_lt_of_le (Nat.succ_pos _) hbound)
    have hmore := ih hbs (Nat.le_of_succ_le_succ hbound) hline
    simp only [List.map_cons, behind, Json.listed_cons, List.cons_append, List.append_assoc]
    have hcomma : Stops goesOn (',' :: (line ++ (text b ++ (behind line (bs.map text) ++
        (own ++ closing :: rest))))) := stops_cons rfl _
    exact h.more (ha blanks _ hblanks hcomma) (skipSpaces_cons rfl _) hmore

/-- What stands behind an opening bracket, if there is anything in the list. -/
theorem ReadsLists.exists_eq (h : ReadsLists thing closing list)
    (hclosing : closing = ']' ∨ closing = '}') (hline : ∀ c ∈ line, Text.isSpace c = true)
    (hown : ∀ c ∈ own, Text.isSpace c = true) {a : α} {as : List α}
    (hread : ∀ b ∈ a :: as, ReadsBack thing (text b) b)
    (hhead : ∀ b, ∃ c cs, text b = c :: cs ∧ Text.isSpace c = false ∧ c ≠ closing) {bound : Nat}
    (hbound : (Json.listed line ((a :: as).map text)).length ≤ bound) (rest : List Char) :
    ∃ cs, skipSpaces (Json.listed line ((a :: as).map text) ++ (own ++ closing :: rest)) = cs ∧
      cs.head? ≠ some closing ∧ list bound cs = some (a :: as, rest) := by
  have hcount : (a :: as).length ≤ bound := by
    refine Nat.le_trans ?_ hbound
    rw [← List.length_map (f := text)]
    refine Json.length_le_length_listed line fun t ht => ?_
    obtain ⟨b, -, rfl⟩ := List.mem_map.mp ht
    obtain ⟨c, cs, hc, -⟩ := hhead b
    rw [hc]
    exact List.cons_ne_nil c cs
  have hlist : list bound (text a ++ (behind line (as.map text) ++
      (own ++ closing :: rest))) = some (a :: as, rest) :=
    h.list_eq hclosing hline hown hread hcount (List.forall_mem_nil _) rest
  obtain ⟨c, cs, hc, hspace, hne⟩ := hhead a
  refine ⟨_, ?_, ?_, hlist⟩
  · rw [List.map_cons, Json.listed_cons, List.append_assoc, List.append_assoc,
      skipSpaces_append hline, hc, List.cons_append, skipSpaces_cons hspace]
  · rw [hc]
    exact fun heq => hne (Option.some.inj heq)

end Lists

/-! ### Values -/

section Values

variable {bound levels : Nat} {cs mid rest : List Char}

theorem value_append {blanks : List Char} (h : ∀ c ∈ blanks, Text.isSpace c = true)
    (cs : List Char) : value bound levels (blanks ++ cs) = value bound levels cs := by
  rw [value, value, skipSpaces_append h]

theorem value_null : value bound levels (['n', 'u', 'l', 'l'] ++ rest) = some (.null, rest) := by
  rw [value]
  rfl

theorem value_bool (b : Bool) :
    value bound levels (Json.compact (.bool b) ++ rest) = some (.bool b, rest) := by
  rw [value]
  cases b <;> rfl

theorem value_quoted (text : String) :
    value bound levels (Json.quoted text ++ rest) = some (.string text, rest) := by
  have hspaces (cs : List Char) : skipSpaces ('"' :: cs) = '"' :: cs := rfl
  rw [Json.quoted, List.cons_append, List.append_assoc, List.singleton_append, value, hspaces]
  simp only [stringBody?_escape, Option.map_some, String.ofList_toList]

theorem value_emptyArray :
    value bound (levels + 1) ('[' :: ']' :: rest) = some (.array [], rest) := by
  have hspaces : skipSpaces ('[' :: ']' :: rest) = '[' :: ']' :: rest := rfl
  have hclosing : skipSpaces (']' :: rest) = ']' :: rest := rfl
  rw [value, hspaces]
  simp only [hclosing]

theorem value_array {all : List Json} (hcs : skipSpaces cs = mid) (hhead : mid.head? ≠ some ']')
    (hall : items (value bound levels) bound mid = some (all, rest)) :
    value bound (levels + 1) ('[' :: cs) = some (.array all, rest) := by
  have hspaces : skipSpaces ('[' :: cs) = '[' :: cs := rfl
  rw [value, hspaces]
  simp only [hcs]
  split
  · exact absurd rfl hhead
  · rw [hall]
    rfl

theorem value_emptyObject :
    value bound (levels + 1) ('{' :: '}' :: rest) = some (.object [], rest) := by
  have hspaces : skipSpaces ('{' :: '}' :: rest) = '{' :: '}' :: rest := rfl
  have hclosing : skipSpaces ('}' :: rest) = '}' :: rest := rfl
  rw [value, hspaces]
  simp only [hclosing]

theorem value_object {all : List (String × Json)} (hcs : skipSpaces cs = mid)
    (hhead : mid.head? ≠ some '}')
    (hall : entries (value bound levels) bound mid = some (all, rest)) :
    value bound (levels + 1) ('{' :: cs) =
      some (.object (Entries.insertAll [] all), rest) := by
  have hspaces : skipSpaces ('{' :: cs) = '{' :: cs := rfl
  rw [value, hspaces]
  simp only [hcs]
  split
  · exact absurd rfl hhead
  · rw [hall]
    rfl

theorem value_number {c : Char} (h : Json.isNumeral c = true) (cs : List Char) :
    value bound levels (c :: cs) = (number? (c :: cs)).map fun (n, rest) => (.number n, rest) := by
  have hspace : Text.isSpace c = false := by
    rw [Bool.eq_false_iff]
    intro hspace
    rw [Json.isNumeral_of_isSpace hspace] at h
    cases h
  rw [value, skipSpaces_cons hspace]
  split
  case h_7 => rfl
  all_goals
    next heq =>
      obtain ⟨rfl, -⟩ := List.cons.inj heq
      cases h

theorem key?_append {blanks : List Char} (h : ∀ c ∈ blanks, Text.isSpace c = true)
    (cs : List Char) : key? (blanks ++ cs) = key? cs := by
  rw [key?, key?, skipSpaces_append h]

theorem key?_quoted (key : String) (rest : List Char) :
    key? (Json.quoted key ++ ':' :: rest) = some (key, rest) := by
  have hquote (cs : List Char) : skipSpaces ('"' :: cs) = '"' :: cs := rfl
  have hcolon : skipSpaces (':' :: rest) = ':' :: rest := rfl
  have hbody := stringBody?_escape key.toList (':' :: rest)
  rw [key?, Json.quoted, List.cons_append, List.append_assoc, List.singleton_append, hquote]
  simp only [hbody, hcolon, String.ofList_toList]

end Values

end Reader

namespace Json

open Reader (ReadsBack goesOn keyed?)

/-! ### Values whose numbers are integers -/

/-- That a value is one that can be read from a text, and that its numbers are **integers**. -/
structure HasIntegers (v : Json) : Prop where
  /-- No key comes twice and every number is in range. -/
  wellFormed : v.WellFormed
  /-- No number is a double. -/
  integers : ∀ n ∈ v.numbers, ∃ i, n = .int i

theorem HasIntegers.of_mem_parts {v w : Json} (h : v.HasIntegers) (hw : w ∈ v.parts) :
    w.HasIntegers := by
  obtain ⟨hwf, hints⟩ := h
  cases v with
  | array items =>
    refine ⟨wellFormedItems_iff.mp hwf w hw, fun n hn => hints n ?_⟩
    exact mem_numbersItems_iff.mpr ⟨w, hw, hn⟩
  | object entries =>
    obtain ⟨entry, hentry, rfl⟩ := List.mem_map.mp hw
    refine ⟨wellFormedEntries_iff.mp hwf.2 entry hentry, fun n hn => hints n ?_⟩
    exact mem_numbersEntries_iff.mpr ⟨entry, hentry, hn⟩
  | _ => cases hw

theorem depthItems_le_iff {items : List Json} {n : Nat} :
    depthItems items ≤ n ↔ ∀ item ∈ items, item.depth ≤ n := by
  induction items with
  | nil => simp [depthItems]
  | cons item rest ih => rw [depthItems, Nat.max_le, ih, List.forall_mem_cons]

theorem depthEntries_le_iff {entries : List (String × Json)} {n : Nat} :
    depthEntries entries ≤ n ↔ ∀ entry ∈ entries, entry.2.depth ≤ n := by
  induction entries with
  | nil => simp [depthEntries]
  | cons entry rest ih => rw [depthEntries, Nat.max_le, ih, List.forall_mem_cons]

/-! ### Reading -/

theorem isSpace_eq_false_of_typeOfHead {c : Char} (h : typeOfHead c ≠ "") :
    Text.isSpace c = false := by
  rw [Bool.eq_false_iff]
  intro hspace
  simp only [Text.isSpace, Bool.or_eq_true, beq_iff_eq] at hspace
  rcases hspace with ((rfl | rfl) | rfl) | rfl <;> exact h rfl

section Reading

variable {σ : Spacing} {write : Nat → Json → List Char}

theorem Writes.head_ne_space (h : Writes σ write) {closing : Char}
    (hclosing : typeOfHead closing = "") (level : Nat) (v : Json) :
    ∃ c cs, write level v = c :: cs ∧ Text.isSpace c = false ∧ c ≠ closing := by
  obtain ⟨c, cs, hc, htype⟩ := h.head level v
  have hne : typeOfHead c ≠ "" := htype ▸ typeName_ne_empty v
  refine ⟨c, cs, hc, isSpace_eq_false_of_typeOfHead hne, ?_⟩
  rintro rfl
  exact hne hclosing

variable (hgap : ∀ c ∈ σ.gap, Text.isSpace c = true)
include hgap

/-- An entry is read back if its value is. -/
theorem readsBack_entryText {item : List Char → Option (Json × List Char)}
    {write : Json → List Char} {entry : String × Json}
    (hvalue : ReadsBack item (write entry.2) entry.2) :
    ReadsBack (keyed? item) (entryText σ write entry) entry := by
  intro blanks rest hblanks hrest
  have hread := hvalue σ.gap rest hgap hrest
  rw [keyed?, Reader.key?_append hblanks, entryText, List.append_assoc, List.cons_append,
    List.append_assoc, Reader.key?_quoted]
  simp only [hread, Option.bind_eq_bind, Option.bind_some, Option.pure_def]

/-- **A value whose numbers are integers is read back** if there are levels enough for it. -/
theorem Writes.readsBack (h : Writes σ write) {v : Json} (hv : v.HasIntegers)
    {level bound levels : Nat} (hlevels : v.depth ≤ levels)
    (hbound : (write level v).length ≤ bound) :
    ReadsBack (Reader.value bound levels) (write level v) v := by
  induction v using parts_induction generalizing level levels with
  | h v ih =>
    intro blanks rest hblanks hrest
    rw [Reader.value_append hblanks]
    cases v with
    | null =>
      rw [h.scalar level _ rfl]
      exact Reader.value_null
    | bool b =>
      rw [h.scalar level _ rfl]
      exact Reader.value_bool b
    | number n =>
      obtain ⟨i, rfl⟩ := hv.integers n (List.mem_singleton_self n)
      obtain ⟨c, cs, hc⟩ := List.exists_cons_of_ne_nil (numberText_ne_nil (.int i))
      have hnumeral := isNumeral_of_mem_numberText (.int i) c (hc ▸ List.mem_cons_self)
      have hread := Reader.number?_int hv.wellFormed hrest
      rw [h.scalar level _ rfl, compact]
      rw [hc, List.cons_append] at hread ⊢
      rw [Reader.value_number hnumeral, hread]
      rfl
    | string text =>
      rw [h.scalar level _ rfl]
      exact Reader.value_quoted text
    | array items =>
      have hpos : 0 < levels := Nat.lt_of_lt_of_le (Nat.succ_pos _) hlevels
      obtain ⟨levels, rfl⟩ := Nat.exists_eq_add_one.mpr hpos
      rw [h.array] at hbound ⊢
      rw [bracketed_append]
      cases items with
      | nil => exact Reader.value_emptyArray
      | cons a as =>
        have hlisted := Nat.le_trans (length_listed_le_bracketed ..) hbound
        have hdepth := depthItems_le_iff.mp (Nat.le_of_succ_le_succ hlevels)
        have hread : ∀ w ∈ a :: as,
            ReadsBack (Reader.value bound levels) (write (level + 1) w) w := fun w hw =>
          ih w hw (hv.of_mem_parts hw) (hdepth w hw) <|
            Nat.le_trans (length_le_listed _ (List.mem_map_of_mem hw)) hlisted
        obtain ⟨cs, hcs, hhead, hlist⟩ := (Reader.readsLists_items _).exists_eq (.inl rfl)
          (σ.blank (level + 1)) (σ.blank level) hread (h.head_ne_space rfl (level + 1)) hlisted rest
        exact Reader.value_array hcs hhead hlist
    | object entries =>
      have hpos : 0 < levels := Nat.lt_of_lt_of_le (Nat.succ_pos _) hlevels
      obtain ⟨levels, rfl⟩ := Nat.exists_eq_add_one.mpr hpos
      rw [h.object] at hbound ⊢
      rw [bracketed_append]
      cases entries with
      | nil => exact Reader.value_emptyObject
      | cons a as =>
        have hlisted := Nat.le_trans (length_listed_le_bracketed ..) hbound
        have hdepth := depthEntries_le_iff.mp (Nat.le_of_succ_le_succ hlevels)
        have hread : ∀ entry ∈ a :: as, ReadsBack (keyed? (Reader.value bound levels))
            (entryText σ (write (level + 1)) entry) entry := fun entry hentry => by
          have hpart := List.mem_map_of_mem (f := Prod.snd) hentry
          refine readsBack_entryText hgap (ih entry.2 hpart (hv.of_mem_parts hpart)
            (hdepth entry hentry) (Nat.le_trans ?_ hlisted))
          refine Nat.le_trans ?_ (length_le_listed _ (List.mem_map_of_mem hentry))
          rw [entryText, List.length_append, List.length_cons, List.length_append]
          omega
        obtain ⟨cs, hcs, hhead, hlist⟩ := (Reader.readsLists_entries _).exists_eq (.inr rfl)
          (σ.blank (level + 1)) (σ.blank level) hread
          (fun entry => ⟨_, _, rfl, rfl, by decide⟩) hlisted rest
        have hkeys : Entries.insertAll [] (a :: as) = a :: as :=
          Entries.insertAll_eq_append hv.wellFormed.1
        have hobject := Reader.value_object hcs hhead hlist
        rwa [hkeys] at hobject

/-- A text that is all of a document is read to its end. -/
theorem Writes.read_eq (h : Writes σ write) {v : Json} (hv : v.HasIntegers)
    (hdepth : v.depth ≤ maxLevels) (level : Nat) : read (write level v) = some v := by
  have hread := h.readsBack hgap hv hdepth (Nat.le_refl (write level v).length) [] []
    (List.forall_mem_nil _) nofun
  rw [List.nil_append, List.append_nil] at hread
  rw [read, readWithin, hread]
  rfl

end Reading

/-- **A value is read back from its compact text.** -/
theorem ofText?_text {v : Json} (hv : v.HasIntegers) (hdepth : v.depth ≤ maxLevels) :
    ofText? v.text = some v := by
  rw [ofText?, text, String.toList_ofList]
  exact writes_compact.read_eq (List.forall_mem_nil _) hv hdepth 0

/-- **A value is read back from its indented text.** -/
theorem ofText?_indentedText {v : Json} (hv : v.HasIntegers) (hdepth : v.depth ≤ maxLevels) :
    ofText? v.indentedText = some v := by
  have hgap : ∀ c ∈ spacious.gap, Text.isSpace c = true := fun c hc =>
    List.mem_singleton.mp hc ▸ rfl
  rw [ofText?, indentedText, String.toList_ofList]
  exact writes_indentedAt.read_eq hgap hv hdepth 0

end Json

namespace Library

/-- What is no string is turned into its text. -/
theorem invoke_toText {v : Json} (h : ∀ text, v ≠ .string text) :
    toText.invoke [.value v] = .ok (.string v.text) := by
  cases v with
  | string text => exact absurd rfl (h text)
  | _ => rfl

theorem invoke_openJson {text : String} {v : Json} (h : Json.ofText? text = some v) :
    openJson.invoke [.value (.string text)] = .ok v := by
  have hbody : openJson.invoke [.value (.string text)] =
      openJson.body [.value (.string text)] := rfl
  have hstring : payloadOf [.value (.string text)] = .ok text := rfl
  rw [hbody]
  simp only [openJson, hstring, h, bind, Except.bind]
  rfl

/-- A call of one argument that is no reference. -/
theorem evaluate_call_of_value {table : Registry} {f : Function}
    (htable : table.get? f.name = some f) {e : Expr} (he : ∀ body, e ≠ .reference body)
    {d v w : Json} (hvalue : e.evaluate table d = .ok v) (hcall : f.invoke [.value v] = .ok w) :
    (Expr.call f.name [e]).evaluate table d = .ok w := by
  have hargs : Expr.evaluateArguments table [e] d = .ok [.value v] := by
    rw [Expr.evaluateArguments_cons he, hvalue]
    rfl
  have hin : Expr.callIn table f.name [.value v] = .ok w := by
    rw [Expr.callIn, htable]
    dsimp only
    rw [hcall]
  rw [Expr.evaluate, hargs]
  exact hin

/-- **Opening the text of a value** yields the value, if it is no string, if its numbers are
integers and if it does not nest deeper than a document may. -/
theorem openJson_toText {v : Json} (hv : v.WellFormed) (hints : ∀ n ∈ v.numbers, ∃ i, n = .int i)
    (hdepth : v.depth ≤ 127) (hstring : ∀ text, v ≠ .string text) :
    (∃ text, toText.invoke [.value v] = .ok (.string text) ∧
      openJson.invoke [.value (.string text)] = .ok v) ∧
    ∀ {table : Registry}, table.get? "to_string" = some toText →
      table.get? "powertools_json" = some openJson →
      ∀ {e : Expr} {d : Json}, (∀ body, e ≠ .reference body) → e.evaluate table d = .ok v →
        (Expr.call "powertools_json" [.call "to_string" [e]]).evaluate table d = .ok v := by
  have htext := invoke_toText hstring
  have hopen := invoke_openJson (Json.ofText?_text ⟨hv, hints⟩ hdepth)
  refine ⟨⟨v.text, htext, hopen⟩, fun {table} htoText hopenJson {e d} he hvalue => ?_⟩
  have hcall : ∀ body, Expr.call "to_string" [e] ≠ .reference body := nofun
  exact evaluate_call_of_value hopenJson hcall
    (evaluate_call_of_value htoText he hvalue htext) hopen

/-- The largest and the smallest integer of a document, in an object whose keys do not stand in
the order of the alphabet, next to a string of characters that are escaped or not ASCII. -/
theorem openJson_toText_of_nested :
    let v : Json := .object [("z", .array [.int (-9223372036854775808), .array [],
      .int 18446744073709551615]), ("a \"b\"", .string "\n\\\x00é😀"), ("é", .object [])]
    v.WellFormed ∧ (∀ n ∈ v.numbers, ∃ i, n = .int i) ∧ v.depth ≤ 127 ∧
      (∀ text, v ≠ .string text) ∧
      (∃ text, toText.invoke [.value v] = .ok (.string text) ∧
        openJson.invoke [.value (.string text)] = .ok v) ∧
      (Expr.call "powertools_json" [.call "to_string" [.current]]).evaluate .withPayload v =
        .ok v := by
  intro v
  have hv : v.WellFormed :=
    ⟨by decide, ⟨rfl, trivial, rfl, trivial⟩, trivial, ⟨by decide, trivial⟩, trivial⟩
  have hints : ∀ n ∈ v.numbers, ∃ i, n = .int i :=
    List.forall_mem_cons.mpr ⟨⟨_, rfl⟩, List.forall_mem_singleton.mpr ⟨_, rfl⟩⟩
  have hdepth : v.depth ≤ 127 := by decide
  have hstring : ∀ text, v ≠ .string text := fun text h => by
    have htype : "object" = "string" := congrArg Json.typeName h
    exact absurd htype (by decide)
  have hreference : ∀ body, Expr.current ≠ .reference body := fun body h => by cases h
  have hcurrent : (Expr.current).evaluate .withPayload v = .ok v := by rw [Expr.evaluate]
  obtain ⟨hfunctions, hcalls⟩ := openJson_toText hv hints hdepth hstring
  exact ⟨hv, hints, hdepth, hstring, hfunctions, hcalls rfl rfl hreference hcurrent⟩

end Library

end JsonQuery
