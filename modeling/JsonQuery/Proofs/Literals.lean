import JsonQuery.Proofs.Compilation
import JsonQuery.Proofs.ReadingBack
import JsonQuery.Query.Search

/-!
# Literals

A literal is written as a JSON text between backticks, with a backslash put before every
backtick of the text (`JsonQuery.Query.literalText`). Two passes undo this. The first looks for
the closing backtick, and a backslash takes the character behind it along, so it goes by
**pairs**; the second takes out a backslash wherever it finds one before a backtick, and does not
go by pairs at all. They could be at odds over a text in which an odd number of backslashes
stands before a backtick: there the last of them is paired with the backtick already, the one
that is put in between is paired with it instead, and the backtick is left to close the literal.

So a text has to be **paired** (`JsonQuery.Scan.Paired`): read by pairs from left to right, no
backslash takes a backtick along, and none is left over at the end. Every paired text is found
again, whatever it is the text of (`JsonQuery.Scan.delimited?_escaped`,
`JsonQuery.Scan.unescape_escaped`). And every text that can be read as a value is paired
(`JsonQuery.Json.paired_of_read`), because in such a text backslashes stand in strings alone,
where they are read by the same pairs, and a backslash and a backtick are not an escape.
-/

namespace JsonQuery

namespace Scan

/-! ### Escaped delimiters -/

/-- A text with a backslash before every delimiter. -/
def escaped (delimiter : Char) (cs : List Char) : List Char :=
  cs.flatMap fun c => if c = delimiter then ['\\', c] else [c]

/-- That a text is **paired**: if every backslash takes the character behind it along, none takes
a delimiter and none stands at the end. -/
inductive Paired (delimiter : Char) : List Char → Prop
  /-- Nothing is left. -/
  | nil : Paired delimiter []
  /-- A character that is not a backslash, the delimiter perhaps. -/
  | plain {c : Char} {cs : List Char} (hc : c ≠ '\\') (h : Paired delimiter cs) :
      Paired delimiter (c :: cs)
  /-- A backslash with the character that it takes along. -/
  | pair {c : Char} {cs : List Char} (hc : c ≠ delimiter) (h : Paired delimiter cs) :
      Paired delimiter ('\\' :: c :: cs)

theorem Paired.append {delimiter : Char} {cs ds : List Char} (h : Paired delimiter cs)
    (hds : Paired delimiter ds) : Paired delimiter (cs ++ ds) := by
  induction h with
  | nil => exact hds
  | plain hc _ ih => exact .plain hc ih
  | pair hc _ ih => exact .pair hc ih

section Escaped

variable {delimiter : Char}

theorem escaped_cons_self (cs : List Char) :
    escaped delimiter (delimiter :: cs) = '\\' :: delimiter :: escaped delimiter cs := by
  rw [escaped, List.flatMap_cons, if_pos rfl]
  rfl

theorem escaped_cons_of_ne {c : Char} (hc : c ≠ delimiter) (cs : List Char) :
    escaped delimiter (c :: cs) = c :: escaped delimiter cs := by
  rw [escaped, List.flatMap_cons, if_neg hc]
  rfl

theorem unescape_cons {c : Char} {cs : List Char} (h : cs.head? ≠ some delimiter) :
    unescape delimiter (c :: cs) = c :: unescape delimiter cs := by
  cases cs with
  | nil => rfl
  | cons e cs => exact if_neg fun hc => h (congrArg some hc.2)

variable (hdelimiter : '\\' ≠ delimiter)
include hdelimiter

/-- **The closing delimiter is found** behind a paired text. -/
theorem delimited?_escaped {cs : List Char} (h : Paired delimiter cs) (rest : List Char) :
    delimited? delimiter (escaped delimiter cs ++ delimiter :: rest) =
      some (escaped delimiter cs) := by
  induction h with
  | nil =>
    rw [escaped, List.flatMap_nil, List.nil_append]
    unfold delimited?
    exact if_pos rfl
  | @plain c cs hc _ ih =>
    by_cases hcd : c = delimiter
    · rw [hcd, escaped_cons_self, List.cons_append, List.cons_append,
        delimited?_backslash hdelimiter, ih]
      rfl
    · rw [escaped_cons_of_ne hcd, List.cons_append, delimited?_cons hcd hc, ih]
      rfl
  | @pair c cs hc _ ih =>
    rw [escaped_cons_of_ne hdelimiter, escaped_cons_of_ne hc, List.cons_append, List.cons_append,
      delimited?_backslash hdelimiter, ih]
    rfl

/-- Behind a backslash no delimiter is left bare. -/
theorem head?_escaped_ne (cs : List Char) : (escaped delimiter cs).head? ≠ some delimiter := by
  cases cs with
  | nil => exact nofun
  | cons c cs =>
    by_cases hc : c = delimiter
    · rw [hc, escaped_cons_self]
      exact fun h => hdelimiter (Option.some.inj h)
    · rw [escaped_cons_of_ne hc]
      exact fun h => hc (Option.some.inj h)

/-- **Taking the backslashes out undoes putting them in**, for every text. -/
theorem unescape_escaped (cs : List Char) : unescape delimiter (escaped delimiter cs) = cs := by
  induction cs with
  | nil => rfl
  | cons c cs ih =>
    by_cases hc : c = delimiter
    · rw [hc, escaped_cons_self, unescape, if_pos ⟨rfl, rfl⟩, ih]
    · rw [escaped_cons_of_ne hc, unescape_cons (head?_escaped_ne hdelimiter cs), ih]

end Escaped

end Scan

/-! ### Texts of values are paired -/

namespace Reader

open Scan (Paired)

/-- That what was read off the front of a text is **paired**, for the delimiter of literals. -/
def PairedUpTo (cs rest : List Char) : Prop :=
  ∃ taken, cs = taken ++ rest ∧ Paired '\x60' taken

theorem PairedUpTo.refl (cs : List Char) : PairedUpTo cs cs :=
  ⟨[], rfl, .nil⟩

theorem PairedUpTo.trans {cs ds es : List Char} (h : PairedUpTo cs ds) (h' : PairedUpTo ds es) :
    PairedUpTo cs es := by
  obtain ⟨taken, rfl, htaken⟩ := h
  obtain ⟨more, rfl, hmore⟩ := h'
  exact ⟨taken ++ more, (List.append_assoc _ _ _).symm, htaken.append hmore⟩

/-- A character that is not a backslash is read first. -/
theorem PairedUpTo.plain {c : Char} {cs rest : List Char} (hc : c ≠ '\\')
    (h : PairedUpTo cs rest) : PairedUpTo (c :: cs) rest := by
  obtain ⟨taken, rfl, htaken⟩ := h
  exact ⟨c :: taken, rfl, .plain hc htaken⟩

/-- A backslash and the character behind it are read first. -/
theorem PairedUpTo.pair {c : Char} {cs rest : List Char} (hc : c ≠ '\x60')
    (h : PairedUpTo cs rest) : PairedUpTo ('\\' :: c :: cs) rest := by
  obtain ⟨taken, rfl, htaken⟩ := h
  exact ⟨'\\' :: c :: taken, rfl, .pair hc htaken⟩

theorem paired_of_notMem {cs : List Char} (h : '\\' ∉ cs) : Paired '\x60' cs := by
  induction cs with
  | nil => exact .nil
  | cons c cs ih =>
    obtain ⟨hc, hcs⟩ := not_or.mp (mt List.mem_cons.mpr h)
    exact .plain (Ne.symm hc) (ih hcs)

/-- A word without backslashes is read first. -/
theorem pairedUpTo_append (word : List Char) (h : '\\' ∉ word) (rest : List Char) :
    PairedUpTo (word ++ rest) rest :=
  ⟨word, rfl, paired_of_notMem h⟩

theorem pairedUpTo_dropWhile {p : Char → Bool} (hp : p '\\' = false) (cs : List Char) :
    PairedUpTo cs (cs.dropWhile p) := by
  refine ⟨cs.takeWhile p, List.takeWhile_append_dropWhile.symm, paired_of_notMem ?_⟩
  intro hc
  rw [List.mem_takeWhile_imp hc] at hp
  cases hp

theorem pairedUpTo_skipSpaces (cs : List Char) : PairedUpTo cs (skipSpaces cs) :=
  pairedUpTo_dropWhile rfl cs

/-! ### Strings -/

theorem ne_backslash_of_hexDigit? {c : Char} {d : Nat} (h : hexDigit? c = some d) : c ≠ '\\' := by
  rintro rfl
  cases h

theorem pairedUpTo_hexWord? {cs rest : List Char} {w : Nat} (h : hexWord? cs = some (w, rest)) :
    PairedUpTo cs rest := by
  match cs, h with
  | a :: b :: c :: d :: tail, h =>
    simp only [hexWord?, Option.bind_eq_bind, Option.bind_eq_some_iff, Option.pure_def,
      Option.some.injEq, Prod.mk.injEq] at h
    obtain ⟨_, ha, _, hb, _, hc, _, hd, -, rfl⟩ := h
    exact .plain (ne_backslash_of_hexDigit? ha) <| .plain (ne_backslash_of_hexDigit? hb) <|
      .plain (ne_backslash_of_hexDigit? hc) <| .plain (ne_backslash_of_hexDigit? hd) <| .refl _

theorem pairedUpTo_unicodeEscape? {cs rest : List Char} {c : Char}
    (h : unicodeEscape? cs = some (c, rest)) : PairedUpTo cs rest := by
  unfold unicodeEscape? at h
  split at h
  · cases h
  · next high tail hhigh =>
    have hfirst := pairedUpTo_hexWord? hhigh
    split at h
    · obtain ⟨-, rfl⟩ := Prod.mk.inj (Option.some.inj h)
      exact hfirst
    · split at h
      · cases h
      · split at h
        · split at h
          · cases h
          · next low tail' hlow =>
            split at h
            · obtain ⟨-, rfl⟩ := Prod.mk.inj (Option.some.inj h)
              exact hfirst.trans (.pair (by decide) (pairedUpTo_hexWord? hlow))
            · cases h
        · cases h

theorem pairedUpTo_character? {cs rest : List Char} {c : Char}
    (h : character? cs = some (c, rest)) : PairedUpTo cs rest := by
  unfold character? at h
  split at h
  · cases h
  · split at h
    · next hbackslash =>
      rw [hbackslash]
      split at h
      · cases h
      · next e tail =>
        split at h
        · next hu =>
          rw [hu]
          exact .pair (by decide) (pairedUpTo_unicodeEscape? h)
        · obtain ⟨letter, hletter, heq⟩ := Option.map_eq_some_iff.mp h
          obtain ⟨-, rfl⟩ := Prod.mk.inj heq
          refine .pair ?_ (.refl _)
          rintro rfl
          cases hletter
    · next hbackslash =>
      split at h
      · cases h
      · obtain ⟨-, rfl⟩ := Prod.mk.inj (Option.some.inj h)
        exact .plain hbackslash (.refl _)

theorem pairedUpTo_stringBody? {cs rest text : List Char}
    (h : stringBody? cs = some (text, rest)) : PairedUpTo cs rest := by
  fun_induction stringBody? cs generalizing text with
  | case1 tail =>
    obtain ⟨-, rfl⟩ := Prod.mk.inj (Option.some.inj h)
    exact .plain (by decide) (.refl _)
  | case2 => cases h
  | case3 cs _ c tail hc ih =>
    obtain ⟨⟨text', rest'⟩, hbody, heq⟩ := Option.map_eq_some_iff.mp h
    obtain ⟨-, rfl⟩ := Prod.mk.inj heq
    exact (pairedUpTo_character? hc).trans (ih hbody)

/-! ### Numbers -/

theorem pairedUpTo_digits (cs : List Char) : PairedUpTo cs (digits cs).2 :=
  pairedUpTo_dropWhile rfl cs

theorem pairedUpTo_wholePart? {cs whole rest : List Char}
    (h : wholePart? cs = some (whole, rest)) : PairedUpTo cs rest := by
  have hdigits := pairedUpTo_digits cs
  unfold wholePart? at h
  dsimp only at h
  split at h
  · cases h
  · cases h
  · obtain ⟨-, rfl⟩ := Prod.mk.inj (Option.some.inj h)
    exact hdigits

theorem pairedUpTo_fraction? {cs rest : List Char} {places : Option (List Char)}
    (h : fraction? cs = some (places, rest)) : PairedUpTo cs rest := by
  unfold fraction? at h
  split at h
  · next tail =>
    dsimp only at h
    split at h
    · cases h
    · obtain ⟨-, rfl⟩ := Prod.mk.inj (Option.some.inj h)
      exact .plain (by decide) (pairedUpTo_digits tail)
  · obtain ⟨-, rfl⟩ := Prod.mk.inj (Option.some.inj h)
    exact .refl _

theorem pairedUpTo_exponentDigits? {negative : Bool} {cs rest : List Char} {e : Option Int}
    (h : exponentDigits? negative cs = some (e, rest)) : PairedUpTo cs rest := by
  unfold exponentDigits? at h
  dsimp only at h
  split at h
  · cases h
  · obtain ⟨-, rfl⟩ := Prod.mk.inj (Option.some.inj h)
    exact pairedUpTo_digits cs

theorem pairedUpTo_exponent? {cs rest : List Char} {e : Option Int}
    (h : exponent? cs = some (e, rest)) : PairedUpTo cs rest := by
  unfold exponent? at h
  split at h
  · next c tail =>
    split at h
    · next hc =>
      have hne : c ≠ '\\' := by rcases hc with rfl | rfl <;> decide
      split at h
      · exact .plain hne (.plain (by decide) (pairedUpTo_exponentDigits? h))
      · exact .plain hne (.plain (by decide) (pairedUpTo_exponentDigits? h))
      · exact .plain hne (pairedUpTo_exponentDigits? h)
    · obtain ⟨-, rfl⟩ := Prod.mk.inj (Option.some.inj h)
      exact .refl _
  · obtain ⟨-, rfl⟩ := Prod.mk.inj (Option.some.inj h)
    exact .refl _

theorem pairedUpTo_number? {cs rest : List Char} {n : Number}
    (h : number? cs = some (n, rest)) : PairedUpTo cs rest := by
  unfold number? at h
  split at h
  next negative tail hsign =>
    simp only [Option.bind_eq_bind, Option.bind_eq_some_iff, Option.pure_def,
      Option.some.injEq, Prod.mk.injEq] at h
    obtain ⟨⟨whole, tail'⟩, hwhole, ⟨places, tail''⟩, hplaces, ⟨exponent, _⟩, hexponent, _, -, -,
      rfl⟩ := h
    have hunsigned := ((pairedUpTo_wholePart? hwhole).trans (pairedUpTo_fraction? hplaces)).trans
      (pairedUpTo_exponent? hexponent)
    split at hsign
    · obtain ⟨-, rfl⟩ := Prod.mk.inj hsign
      exact .plain (by decide) hunsigned
    · obtain ⟨-, rfl⟩ := Prod.mk.inj hsign
      exact hunsigned

/-! ### Values -/

section Nested

variable {item : List Char → Option (Json × List Char)}
  (hitem : ∀ cs v rest, item cs = some (v, rest) → PairedUpTo cs rest)
include hitem

theorem pairedUpTo_items {bound : Nat} {cs rest : List Char} {all : List Json}
    (h : items item bound cs = some (all, rest)) : PairedUpTo cs rest := by
  induction bound generalizing cs all with
  | zero => cases h
  | succ bound ih =>
    rw [items] at h
    split at h
    · cases h
    · next first tail hfirst =>
      have hread := (hitem _ _ _ hfirst).trans (pairedUpTo_skipSpaces tail)
      split at h
      · next hnext =>
        obtain ⟨-, rfl⟩ := Prod.mk.inj (Option.some.inj h)
        rw [hnext] at hread
        exact hread.trans (.plain (by decide) (.refl _))
      · next hnext =>
        obtain ⟨⟨more, tail'⟩, hmore, heq⟩ := Option.map_eq_some_iff.mp h
        obtain ⟨-, rfl⟩ := Prod.mk.inj heq
        rw [hnext] at hread
        exact hread.trans (.plain (by decide) (ih hmore))
      · cases h

omit hitem in
theorem pairedUpTo_key? {cs rest : List Char} {key : String}
    (h : key? cs = some (key, rest)) : PairedUpTo cs rest := by
  have hspaces := pairedUpTo_skipSpaces cs
  unfold key? at h
  split at h
  · next tail hquote =>
    rw [hquote] at hspaces
    split at h
    · cases h
    · next name tail' hname =>
      have hread := (pairedUpTo_stringBody? hname).trans (pairedUpTo_skipSpaces tail')
      split at h
      · next hcolon =>
        obtain ⟨-, rfl⟩ := Prod.mk.inj (Option.some.inj h)
        rw [hcolon] at hread
        exact hspaces.trans (.plain (by decide) (hread.trans (.plain (by decide) (.refl _))))
      · cases h
  · cases h

theorem pairedUpTo_entries {bound : Nat} {cs rest : List Char} {all : List (String × Json)}
    (h : entries item bound cs = some (all, rest)) : PairedUpTo cs rest := by
  induction bound generalizing cs all with
  | zero => cases h
  | succ bound ih =>
    rw [entries] at h
    split at h
    · cases h
    · next key tail hkey =>
      split at h
      · cases h
      · next value tail' hvalue =>
        have hread := ((pairedUpTo_key? hkey).trans (hitem _ _ _ hvalue)).trans
          (pairedUpTo_skipSpaces tail')
        split at h
        · next hnext =>
          obtain ⟨-, rfl⟩ := Prod.mk.inj (Option.some.inj h)
          rw [hnext] at hread
          exact hread.trans (.plain (by decide) (.refl _))
        · next hnext =>
          obtain ⟨⟨more, _⟩, hmore, heq⟩ := Option.map_eq_some_iff.mp h
          obtain ⟨-, rfl⟩ := Prod.mk.inj heq
          rw [hnext] at hread
          exact hread.trans (.plain (by decide) (ih hmore))
        · cases h

end Nested

theorem pairedUpTo_value {bound levels : Nat} {cs rest : List Char} {v : Json}
    (h : value bound levels cs = some (v, rest)) : PairedUpTo cs rest := by
  refine (pairedUpTo_skipSpaces cs).trans ?_
  unfold value at h
  generalize skipSpaces cs = ds at h ⊢
  split at h
  · obtain ⟨-, rfl⟩ := Prod.mk.inj (Option.some.inj h)
    exact pairedUpTo_append ['n', 'u', 'l', 'l'] (by decide) _
  · obtain ⟨-, rfl⟩ := Prod.mk.inj (Option.some.inj h)
    exact pairedUpTo_append ['t', 'r', 'u', 'e'] (by decide) _
  · obtain ⟨-, rfl⟩ := Prod.mk.inj (Option.some.inj h)
    exact pairedUpTo_append ['f', 'a', 'l', 's', 'e'] (by decide) _
  · obtain ⟨⟨text, _⟩, htext, heq⟩ := Option.map_eq_some_iff.mp h
    obtain ⟨-, rfl⟩ := Prod.mk.inj heq
    exact .plain (by decide) (pairedUpTo_stringBody? htext)
  · next tail =>
    split at h
    · cases h
    · next levels =>
      refine .plain (by decide) ((pairedUpTo_skipSpaces tail).trans ?_)
      split at h
      · next hclose =>
        obtain ⟨-, rfl⟩ := Prod.mk.inj (Option.some.inj h)
        rw [hclose]
        exact .plain (by decide) (.refl _)
      · obtain ⟨⟨all, _⟩, hall, heq⟩ := Option.map_eq_some_iff.mp h
        obtain ⟨-, rfl⟩ := Prod.mk.inj heq
        exact pairedUpTo_items (fun _ _ _ => pairedUpTo_value) hall
  · next tail =>
    split at h
    · cases h
    · next levels =>
      refine .plain (by decide) ((pairedUpTo_skipSpaces tail).trans ?_)
      split at h
      · next hclose =>
        obtain ⟨-, rfl⟩ := Prod.mk.inj (Option.some.inj h)
        rw [hclose]
        exact .plain (by decide) (.refl _)
      · obtain ⟨⟨all, _⟩, hall, heq⟩ := Option.map_eq_some_iff.mp h
        obtain ⟨-, rfl⟩ := Prod.mk.inj heq
        exact pairedUpTo_entries (fun _ _ _ => pairedUpTo_value) hall
  · obtain ⟨⟨n, _⟩, hn, heq⟩ := Option.map_eq_some_iff.mp h
    obtain ⟨-, rfl⟩ := Prod.mk.inj heq
    exact pairedUpTo_number? hn
termination_by levels

end Reader

/-- **The text of a value is paired.** -/
theorem Json.paired_of_read {cs : List Char} {v : Json} (h : Json.read cs = some v) :
    Scan.Paired '\x60' cs := by
  rw [read, readWithin] at h
  split at h
  · next v' rest hvalue =>
    obtain ⟨taken, rfl, htaken⟩ := Reader.pairedUpTo_value hvalue
    obtain ⟨hspaces, -⟩ := Option.ite_none_right_eq_some.mp h
    refine htaken.append (Reader.paired_of_notMem ?_)
    intro hc
    exact absurd (List.all_eq_true.mp hspaces _ hc) (by decide)
  · cases h

/-! ### Literals -/

namespace Scan

theorem literal_escaped {cs : List Char} {v : Json} (h : Json.read cs = some v)
    (rest : List Char) : literal (escaped '\x60' cs ++ '\x60' :: rest) =
      .ok (.literal v, (escaped '\x60' cs).length + 2) := by
  rw [literal, delimited?_escaped (by decide) (Json.paired_of_read h)]
  simp only [unescape_escaped (by decide : '\\' ≠ '\x60'), h]

/-- A text that is a single lexeme is scanned as a single token. -/
theorem ofChars_of_lexeme? {c : Char} {rest : List Char} {l : Token.Lexeme}
    (h : lexeme? c rest = .ok (l, rest.length + 1)) :
    ofChars (c :: rest) = ⟨[⟨l, 0, rest.length + 1⟩], .finished (rest.length + 1)⟩ := by
  rw [ofChars, startingAt, if_neg (by simp [isSpace_of_lexeme? h])]
  simp only [h, Nat.zero_add, Nat.add_sub_cancel, List.drop_length]
  rw [startingAt]
  rfl

end Scan

namespace Query

/-- A JSON text as it is written in an expression. -/
def literalText (text : String) : String :=
  String.ofList ('\x60' :: (Scan.escaped '\x60' text.toList ++ ['\x60']))

theorem ofChars_literalText {text : String} {v : Json} (h : Json.ofText? text = some v) :
    Scan.ofChars (literalText text).toList =
      ⟨[⟨.literal v, 0, (literalText text).length⟩], .finished (literalText text).length⟩ := by
  have hlexeme : Scan.lexeme? '\x60' (Scan.escaped '\x60' text.toList ++ ['\x60']) =
      .ok (.literal v, (Scan.escaped '\x60' text.toList ++ ['\x60']).length + 1) := by
    rw [List.length_append]
    exact Scan.literal_escaped h []
  have hlength : (literalText text).length =
      (Scan.escaped '\x60' text.toList ++ ['\x60']).length + 1 := by
    rw [literalText, String.length_ofList, List.length_cons]
  rw [hlength, literalText, String.toList_ofList]
  exact Scan.ofChars_of_lexeme? hlexeme

/-- **A literal denotes its text**: a JSON text that is written as a literal is one token, which
compiles to its value and yields it on every document. -/
theorem run_literalText {text : String} {v : Json} (h : Json.ofText? text = some v) :
    scan (literalText text) = .ok
        ⟨[⟨.literal v, 0, (literalText text).length⟩], .finished (literalText text).length⟩ ∧
      compile (literalText text) = .ok ⟨literalText text, .literal v⟩ ∧
      ∀ table d, run table (literalText text) d = .ok v := by
  have hscan := ofChars_literalText h
  have hcompile : compile (literalText text) = .ok ⟨literalText text, .literal v⟩ := by
    refine compile_eq_ok_iff.mpr ⟨rfl, [.literal v], Scan.splits_of_startingAt hscan, ?_⟩
    exact Grammar.Rule.expression.derivable_pair Grammar.Rule.literal.derivable_nil
      (Grammar.Rule.stop (Nat.le_refl 0)).derivable_nil
  refine ⟨?_, hcompile, fun table d => ?_⟩
  · have hblank : (literalText text).toList.all Text.isBlank = false := by
      rw [literalText, String.toList_ofList]
      rfl
    rw [scan, hscan, hblank]
    rfl
  · rw [run, hcompile]
    rfl

/-- A backtick behind an escaped backslash, and another one that is written by its number. -/
theorem run_literalText_of_backslash : ∃ text,
    text = "\"\\\\\x60\\u0060\"" ∧ literalText text = "\x60\"\\\\\\\x60\\u0060\"\x60" ∧
    Json.ofText? text = some (.string "\\\x60\x60") ∧
    compile (literalText text) = .ok ⟨literalText text, .literal (.string "\\\x60\x60")⟩ ∧
    ∀ table d, run table (literalText text) d = .ok (.string "\\\x60\x60") := by
  have hread : Json.ofText? "\"\\\\\x60\\u0060\"" = some (.string "\\\x60\x60") := by
    with_unfolding_all rfl
  obtain ⟨-, hcompile, hrun⟩ := run_literalText hread
  exact ⟨_, rfl, by decide +kernel, hread, hcompile, hrun⟩

end Query

end JsonQuery
