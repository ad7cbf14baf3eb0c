import JsonQuery.Proofs.Lexing
import Mathlib.Data.List.TakeWhile

/-!
# Reading back what was written

Strings and integers in decimal are read as what they were written for.

For a string it is enough to know how one character is written
(`JsonQuery.Json.escape_cases`): as it is, or as a backslash and a letter, or by its number
in four hexadecimal digits. In all three ways it is read back, whatever comes behind it, and
in none of them does it look like the end of the string. The same holds for the search for
the closing quotation mark of a quoted name, which comes before its characters are read.
-/

namespace JsonQuery

open Token (Lexeme)

/-! ### Runs of characters -/

/-- That a run of characters of a class **stops** in front of a text: none of them comes first
in it. -/
def Stops (p : Char → Bool) (cs : List Char) : Prop :=
  ∀ c, cs.head? = some c → p c = false

section Stops

variable {p : Char → Bool}

theorem stops_cons {c : Char} (hc : p c = false) (cs : List Char) : Stops p (c :: cs) := by
  rintro _ ⟨⟩
  exact hc

variable {run rest : List Char} (hrun : ∀ c ∈ run, p c = true) (hrest : Stops p rest)
include hrun hrest

theorem takeWhile_append_of_stops : (run ++ rest).takeWhile p = run := by
  rw [Scan.takeWhile_append_of_head hrest, List.takeWhile_eq_self_iff]
  exact hrun

theorem dropWhile_append_of_stops : (run ++ rest).dropWhile p = rest := by
  have hsplit : (run ++ rest).takeWhile p ++ (run ++ rest).dropWhile p = run ++ rest :=
    List.takeWhile_append_dropWhile
  rw [takeWhile_append_of_stops hrun hrest] at hsplit
  exact List.append_cancel_left hsplit

end Stops

namespace Json

open Reader (letterEscape?)

/-- **How a character is written** inside a string. -/
theorem escape_cases (c : Char) :
    (escape c = [c] ∧ c ≠ '"' ∧ c ≠ '\\' ∧ ¬c.toNat < 0x20) ∨
      (∃ letter, escape c = ['\\', letter] ∧ letter ≠ 'u' ∧ letterEscape? letter = some c) ∨
      (escape c = ['\\', 'u', '0', '0', Nat.digitChar (c.toNat / 16),
          Nat.digitChar (c.toNat % 16)] ∧ c.toNat < 0x20) := by
  by_cases hquote : c = '"'
  · exact .inr (.inl ⟨'"', by rw [hquote]; rfl, by decide, by rw [hquote]; rfl⟩)
  by_cases hbackslash : c = '\\'
  · exact .inr (.inl ⟨'\\', by rw [hbackslash]; rfl, by decide, by rw [hbackslash]; rfl⟩)
  by_cases hbackspace : c = '\x08'
  · exact .inr (.inl ⟨'b', by rw [hbackspace]; rfl, by decide, by rw [hbackspace]; rfl⟩)
  by_cases htab : c = '\t'
  · exact .inr (.inl ⟨'t', by rw [htab]; rfl, by decide, by rw [htab]; rfl⟩)
  by_cases hfeed : c = '\n'
  · exact .inr (.inl ⟨'n', by rw [hfeed]; rfl, by decide, by rw [hfeed]; rfl⟩)
  by_cases hpage : c = '\x0c'
  · exact .inr (.inl ⟨'f', by rw [hpage]; rfl, by decide, by rw [hpage]; rfl⟩)
  by_cases hreturn : c = '\r'
  · exact .inr (.inl ⟨'r', by rw [hreturn]; rfl, by decide, by rw [hreturn]; rfl⟩)
  rw [escape, if_neg hquote, if_neg hbackslash, if_neg hbackspace, if_neg htab, if_neg hfeed,
    if_neg hpage, if_neg hreturn]
  by_cases hcontrol : c.toNat < 0x20
  · exact .inr (.inr ⟨if_pos hcontrol, hcontrol⟩)
  · exact .inl ⟨if_neg hcontrol, hquote, hbackslash, hcontrol⟩

end Json

/-! ### Strings -/

namespace Reader

theorem hexDigit?_digitChar : ∀ d < 16, hexDigit? (Nat.digitChar d) = some d := by
  decide

/-- A control character is read back from its number. -/
theorem unicodeEscape?_control {c : Char} (h : c.toNat < 0x20) (rest : List Char) :
    unicodeEscape? ('0' :: '0' :: Nat.digitChar (c.toNat / 16) :: Nat.digitChar (c.toNat % 16) ::
      rest) = some (c, rest) := by
  have hhigh := hexDigit?_digitChar (c.toNat / 16) (by omega)
  have hlow := hexDigit?_digitChar (c.toNat % 16) (by omega)
  have hword : hexWord? ('0' :: '0' :: Nat.digitChar (c.toNat / 16) ::
      Nat.digitChar (c.toNat % 16) :: rest) = some (c.toNat, rest) := by
    have hzero : hexDigit? '0' = some 0 := rfl
    simp only [hexWord?, hzero, hhigh, hlow, Option.bind_eq_bind, Option.bind_some,
      Option.pure_def]
    congr 2
    omega
  rw [unicodeEscape?, hword]
  simp only
  rw [if_pos (Or.inl (by omega)), Char.ofNat_toNat]

/-- A character is read back as it was written. -/
theorem character?_escape (c : Char) (rest : List Char) :
    character? (Json.escape c ++ rest) = some (c, rest) := by
  rcases Json.escape_cases c with ⟨h, -, hbackslash, hcontrol⟩ | ⟨letter, h, hu, hletter⟩ |
    ⟨h, hcontrol⟩
  · rw [h, List.singleton_append, character?.eq_def]
    simp only [if_neg hbackslash, if_neg hcontrol]
  · rw [h, List.cons_append, List.singleton_append, character?, if_pos rfl, if_neg hu, hletter]
    rfl
  · rw [h]
    exact unicodeEscape?_control hcontrol rest

theorem head?_escape_ne (c : Char) (rest : List Char) :
    (Json.escape c ++ rest).head? ≠ some '"' := by
  rcases Json.escape_cases c with ⟨h, hquote, -⟩ | ⟨letter, h, -⟩ | ⟨h, -⟩
  · rw [h]
    exact fun hc => hquote (Option.some.inj hc)
  · rw [h]
    exact fun hc => absurd (Option.some.inj hc) (by decide)
  · rw [h]
    exact fun hc => absurd (Option.some.inj hc) (by decide)

/-- A string goes on with a character that is not its end. -/
theorem stringBody?_of_character? {cs rest : List Char} {c : Char} (hcs : cs.head? ≠ some '"')
    (h : character? cs = some (c, rest)) :
    stringBody? cs = (stringBody? rest).map fun (text, rest) => (c :: text, rest) := by
  rw [stringBody?]
  · split
    · next hnone =>
      rw [h] at hnone
      exact absurd hnone (by simp)
    · next hsome =>
      rw [h] at hsome
      obtain ⟨rfl, rfl⟩ := Prod.mk.inj (Option.some.inj hsome)
      rfl
  · rintro tail rfl
    exact hcs rfl

/-- **A string is read back** up to its closing quotation mark. -/
theorem stringBody?_escape (text rest : List Char) :
    stringBody? (text.flatMap Json.escape ++ '"' :: rest) = some (text, rest) := by
  induction text with
  | nil =>
    rw [List.flatMap_nil, List.nil_append, stringBody?]
  | cons c text ih =>
    rw [List.flatMap_cons, List.append_assoc,
      stringBody?_of_character? (head?_escape_ne c _) (character?_escape c _), ih]
    rfl

end Reader

/-- **A written string is the text of the string.** -/
theorem Json.readString_quoted (text : String) : readString (quoted text) = some text := by
  have hvalue : ∀ bound levels, Reader.value bound levels (quoted text) =
      some (.string text, []) := by
    intro bound levels
    have hbody := Reader.stringBody?_escape text.toList []
    have hspaces : Reader.skipSpaces (quoted text) = quoted text := rfl
    rw [Reader.value, hspaces, quoted]
    simp only [hbody, Option.map_some, String.ofList_toList]
  rw [readString, read, readWithin, hvalue]
  rfl

/-! ### The end of a quoted name -/

namespace Scan

/-- A character that is neither a delimiter nor a backslash. -/
theorem delimited?_cons {delimiter c : Char} (hc : c ≠ delimiter) (hbackslash : c ≠ '\\')
    (rest : List Char) : delimited? delimiter (c :: rest) =
      (delimited? delimiter rest).map fun body => c :: body := by
  rw [delimited?.eq_def]
  simp only [if_neg hc, if_neg hbackslash]

/-- A character that a backslash takes along. -/
theorem delimited?_backslash {delimiter : Char} (h : '\\' ≠ delimiter) (c : Char)
    (rest : List Char) : delimited? delimiter ('\\' :: c :: rest) =
      (delimited? delimiter rest).map fun body => '\\' :: c :: body := by
  rw [delimited?, if_neg h, if_pos rfl]

theorem digitChar_ne : ∀ d < 16, Nat.digitChar d ≠ '"' ∧ Nat.digitChar d ≠ '\\' := by
  decide

theorem delimited?_escape_append (c : Char) (rest : List Char) :
    delimited? '"' (Json.escape c ++ rest) =
      (delimited? '"' rest).map fun body => Json.escape c ++ body := by
  rcases Json.escape_cases c with ⟨h, hquote, hbackslash, -⟩ | ⟨letter, h, -⟩ | ⟨h, hcontrol⟩
  · rw [h]
    exact delimited?_cons hquote hbackslash rest
  · rw [h]
    exact delimited?_backslash (by decide) letter rest
  · obtain ⟨hhigh, hhigh'⟩ := digitChar_ne (c.toNat / 16) (by omega)
    obtain ⟨hlow, hlow'⟩ := digitChar_ne (c.toNat % 16) (by omega)
    rw [h]
    simp only [List.cons_append, List.nil_append]
    rw [delimited?_backslash (by decide), delimited?_cons (by decide) (by decide),
      delimited?_cons (by decide) (by decide), delimited?_cons hhigh hhigh',
      delimited?_cons hlow hlow']
    simp only [Option.map_map]
    rfl

/-- The closing quotation mark is found behind the last character. -/
theorem delimited?_escape (text rest : List Char) :
    delimited? '"' (text.flatMap Json.escape ++ '"' :: rest) =
      some (text.flatMap Json.escape) := by
  induction text with
  | nil =>
    rw [List.flatMap_nil, List.nil_append]
    unfold delimited?
    exact if_pos rfl
  | cons c text ih =>
    rw [List.flatMap_cons, List.append_assoc, delimited?_escape_append, ih]
    rfl

/-- **A written string is a quoted name.** -/
theorem quotedName_escape (text : String) (rest : List Char) :
    quotedName (text.toList.flatMap Json.escape ++ '"' :: rest) =
      .ok (.quoted text, (text.toList.flatMap Json.escape).length + 2) := by
  have hread := Json.readString_quoted text
  rw [Json.quoted] at hread
  rw [quotedName, delimited?_escape]
  simp only [hread]

end Scan

/-! ### Integers -/

/-- How an integer is written in decimal. -/
theorem toString_int_cases (i : Int) :
    (∃ n : Nat, i = n ∧ (toString i).toList = Nat.toDigits 10 n) ∨
      ∃ n : Nat, i = -n ∧ (toString i).toList = '-' :: Nat.toDigits 10 n := by
  cases i with
  | ofNat n => exact .inl ⟨n, rfl, by simp [toString, Int.repr]⟩
  | negSucc n => exact .inr ⟨n + 1, rfl, by simp [toString, Int.repr]⟩

namespace Scan

theorem isDigit_of_mem_toDigits {n : Nat} {c : Char} (h : c ∈ Nat.toDigits 10 n) :
    c.isDigit = true :=
  Nat.isDigit_of_mem_toDigits (by decide) (by decide) h

/-- The digits of a number end before a character that is no digit. -/
theorem takeWhile_toDigits (n : Nat) {rest : List Char} (hrest : Stops Char.isDigit rest) :
    (Nat.toDigits 10 n ++ rest).takeWhile Char.isDigit = Nat.toDigits 10 n :=
  takeWhile_append_of_stops (fun _ => isDigit_of_mem_toDigits) hrest

/-- Digits in front of something that is no digit tell which number they are of, and what is
behind them. -/
theorem toDigits_append_inj {m n : Nat} {rest others : List Char}
    (hrest : Stops Char.isDigit rest) (hothers : Stops Char.isDigit others)
    (h : Nat.toDigits 10 m ++ rest = Nat.toDigits 10 n ++ others) : m = n ∧ rest = others := by
  have hdigits : Nat.toDigits 10 m = Nat.toDigits 10 n := by
    rw [← takeWhile_toDigits m hrest, ← takeWhile_toDigits n hothers, h]
  refine ⟨?_, List.append_cancel_left (hdigits ▸ h)⟩
  rw [← Nat.ofDigitChars_ten_toDigits (n := m), hdigits, Nat.ofDigitChars_ten_toDigits]

/-- The number that written digits under a sign stand for. -/
theorem numberLexeme_toDigits {negative : Bool} {n : Nat} {i : Int}
    (hi : i = if negative then -(n : Int) else n) (hfits : Number.fitsSigned i = true) :
    numberLexeme negative (Nat.toDigits 10 n) = .ok (.number i,
      (if negative then '-' :: Nat.toDigits 10 n else Nat.toDigits 10 n).length) := by
  have hvalue : numberOfDigits (Nat.toDigits 10 n) = n := by
    rw [numberOfDigits_eq, Nat.ofDigitChars_toDigits (by decide) (by decide)]
  rw [numberLexeme]
  simp only [hvalue, ← hi, if_pos hfits]

theorem isNameStart_of_isDigit {c : Char} (h : c.isDigit = true) : isNameStart c = false := by
  have hparts : isNameStart c = (decide ('A'.val ≤ c.val ∧ c.val ≤ 'Z'.val) ||
      (decide ('a'.val ≤ c.val) && decide (c.val ≤ 'z'.val)) || c == '_') := rfl
  have hdigit : c.isDigit = (decide ('0'.val ≤ c.val) && decide (c.val ≤ '9'.val)) := rfl
  have hnine : c.val.toNat ≤ 57 := by
    rw [hdigit, Bool.and_eq_true, decide_eq_true_eq, decide_eq_true_eq] at h
    exact UInt32.le_iff_toNat_le.mp h.2
  have hA : 'A'.val.toNat = 65 := rfl
  have ha : 'a'.val.toNat = 97 := rfl
  have hne : c ≠ '_' := by
    rintro rfl
    exact absurd hnine (by decide)
  rw [hparts, beq_eq_false_iff_ne.mpr hne]
  simp only [UInt32.le_iff_toNat_le, hA, ha, Bool.or_false, Bool.or_eq_false_iff,
    Bool.and_eq_false_iff, decide_eq_false_iff_not]
  omega

/-- No symbol starts with a character that a name or a number goes on with. -/
theorem single?_eq_none_of_isNamePart {c : Char} (h : isNamePart c = true) : single? c = none := by
  unfold single?
  split <;> first
    | rfl
    | exact absurd h (by decide)

theorem lexeme?_of_isDigit {c : Char} (h : c.isDigit = true) (rest : List Char) :
    lexeme? c rest = numberLexeme false (c :: rest.takeWhile Char.isDigit) := by
  unfold lexeme?
  rw [single?_eq_none_of_isNamePart (isNamePart_of_isDigit h)]
  simp only [isNameStart_of_isDigit h, Bool.false_eq_true, if_false, if_pos h]

/-- A written integer starts with a minus sign or a digit. -/
theorem head?_toString_int {i : Int} {rest : List Char} {c : Char}
    (h : ((toString i).toList ++ rest).head? = some c) : c = '-' ∨ c.isDigit = true := by
  rcases toString_int_cases i with ⟨n, -, htext⟩ | ⟨n, -, htext⟩
  · rw [htext] at h
    cases hdigits : Nat.toDigits 10 n with
    | nil => exact absurd hdigits Nat.toDigits_ne_nil
    | cons d ds =>
      rw [hdigits] at h
      obtain rfl : d = c := Option.some.inj h
      exact .inr (isDigit_of_mem_toDigits (n := n) (hdigits ▸ List.mem_cons_self))
  · rw [htext] at h
    exact .inl (Option.some.inj h).symm

/-- **A written integer is a number.** -/
theorem splits_toString_int {i : Int} (hfits : Number.fitsSigned i = true) {rest : List Char}
    (hrest : ∀ c, rest.head? = some c → c.isDigit = false) {ls : List Lexeme}
    (h : Splits rest ls) : Splits ((toString i).toList ++ rest) (.number i :: ls) := by
  rcases toString_int_cases i with ⟨n, hi, htext⟩ | ⟨n, hi, htext⟩
  · have htake := takeWhile_toDigits n hrest
    have hnumber : numberLexeme false (Nat.toDigits 10 n) =
        .ok (.number i, (Nat.toDigits 10 n).length) := numberLexeme_toDigits hi hfits
    rw [htext]
    cases hdigits : Nat.toDigits 10 n with
    | nil => exact absurd hdigits Nat.toDigits_ne_nil
    | cons c ds =>
      have hc : c.isDigit = true := isDigit_of_mem_toDigits (n := n) (hdigits ▸ List.mem_cons_self)
      rw [hdigits] at htake hnumber
      rw [List.cons_append, List.takeWhile_cons_of_pos hc] at htake
      rw [List.cons_append]
      have hlexeme : lexeme? c (ds ++ rest) = .ok (.number i, ds.length + 1) := by
        rw [lexeme?_of_isDigit hc, htake, hnumber]
        rfl
      refine .of_lexeme? hlexeme ?_
      rwa [Nat.add_sub_cancel, List.drop_left]
  · have hlexeme : lexeme? '-' (Nat.toDigits 10 n ++ rest) =
        .ok (.number i, (Nat.toDigits 10 n).length + 1) := by
      have hminus : ∀ cs, lexeme? '-' cs = if (cs.takeWhile Char.isDigit).isEmpty then .error "-"
          else numberLexeme true (cs.takeWhile Char.isDigit) := fun _ => rfl
      rw [hminus, takeWhile_toDigits n hrest, if_neg, numberLexeme_toDigits hi hfits]
      · rfl
      · rw [List.isEmpty_iff]
        exact Nat.toDigits_ne_nil
    rw [htext, List.cons_append]
    refine .of_lexeme? hlexeme ?_
    rwa [Nat.add_sub_cancel, List.drop_left]

end Scan

end JsonQuery
