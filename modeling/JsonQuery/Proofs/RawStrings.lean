import JsonQuery.Proofs.Literals
import JsonQuery.Proofs.Respacing

/-!
# Raw strings

Between single quotation marks only one thing is an escape, a backslash before a quotation
mark; every other backslash stays, with the character that it takes along. So not every
string can be written as a raw string. One that ends in a single backslash cannot: the
backslash takes the closing quotation mark along. Nor can one in which a single backslash
stands before a quotation mark, for written with a backslash before the mark it has two of
them there, which take each other along and leave the mark bare.

What counts is whether the backslashes before a quotation mark, or at the end, are even in
number (`JsonQuery.Scan.HasEvenRuns`). That is a statement about whole runs of backslashes,
wherever they are, while the reader goes by pairs from the left and never counts. The two
meet in the notion of a paired text (`JsonQuery.Scan.paired_iff_hasEvenRuns`): a pair in front
of a text does not change the parity of any run, and neither does a character that is no
backslash.

What stands before a closing delimiter is always a paired text with its delimiters escaped
(`JsonQuery.Scan.delimited?_eq_some_iff`), so each raw string is the only way to write its
value, and `JsonQuery.Query.rawStrings_roundTrip` has both directions: the strings with even
runs are found again, and what is found is always one of them, written as it is written.
-/

namespace JsonQuery

namespace Scan

/-! ### Runs of backslashes -/

/-- That the **runs of backslashes** in a text are even where it matters: a run that is not
part of a longer one, and that a delimiter or the end of the text follows, has an even
number of them. -/
def HasEvenRuns (delimiter : Char) (cs : List Char) : Prop :=
  ∀ before n after, cs = before ++ List.replicate n '\\' ++ after →
    before.getLast? ≠ some '\\' → after = [] ∨ after.head? = some delimiter → n % 2 = 0

section Runs

variable {delimiter c : Char} {cs : List Char}

theorem hasEvenRuns_nil : HasEvenRuns delimiter [] := by
  intro before n after hcs _ _
  have hlength := congrArg List.length hcs
  simp only [List.length_nil, List.length_append, List.length_replicate] at hlength
  omega

/-- A character that is no backslash is part of no run. -/
theorem hasEvenRuns_cons (hc : c ≠ '\\') :
    HasEvenRuns delimiter (c :: cs) ↔ HasEvenRuns delimiter cs := by
  constructor
  · intro h before n after hcs hbefore hafter
    refine h (c :: before) n after (by rw [hcs]; rfl) ?_ hafter
    rcases before with _ | ⟨b, before⟩
    · exact fun hlast => hc (Option.some.inj hlast)
    · rwa [List.getLast?_cons_cons]
  · intro h before n after hcs hbefore hafter
    rcases before with _ | ⟨b, before⟩
    · -- no run starts here but the empty one
      rcases n with _ | n
      · rfl
      · exact absurd (List.cons.inj hcs).1 hc
    · obtain ⟨rfl, hrest⟩ := List.cons.inj hcs
      refine h before n after hrest ?_ hafter
      intro hlast
      rw [List.getLast?_cons, hlast] at hbefore
      exact hbefore rfl

/-- A backslash and the character that it takes along make a run longer by two, if they are
part of one at all. -/
theorem hasEvenRuns_pair (hc : c ≠ delimiter) :
    HasEvenRuns delimiter ('\\' :: c :: cs) ↔ HasEvenRuns delimiter cs := by
  constructor
  · intro h before n after hcs hbefore hafter
    rcases before with _ | ⟨b, before⟩
    · by_cases hbackslash : c = '\\'
      · have hlonger := h [] (n + 2) after (by rw [hcs, hbackslash]; rfl) nofun hafter
        omega
      · exact h ['\\', c] n after (by rw [hcs]; rfl)
          (fun hlast => hbackslash (Option.some.inj hlast)) hafter
    · refine h ('\\' :: c :: b :: before) n after (by rw [hcs]; rfl) ?_ hafter
      rwa [List.getLast?_cons_cons, List.getLast?_cons_cons]
  · intro h before n after hcs hbefore hafter
    rcases before with _ | ⟨b, _ | ⟨b', before⟩⟩
    · rcases n with _ | _ | n
      · rfl
      · -- a run of one would have to be followed by the character that is taken along
        obtain rfl : c :: cs = after := (List.cons.inj hcs).2
        rcases hafter with hnil | hhead
        · cases hnil
        · exact absurd (Option.some.inj hhead) hc
      · have hrest : cs = List.replicate n '\\' ++ after :=
          (List.cons.inj (List.cons.inj hcs).2).2
        have hshorter := h [] n after hrest nofun hafter
        omega
    · obtain ⟨rfl, -⟩ := List.cons.inj hcs
      exact absurd rfl hbefore
    · have hrest : cs = before ++ List.replicate n '\\' ++ after :=
        (List.cons.inj (List.cons.inj hcs).2).2
      refine h before n after hrest ?_ hafter
      intro hlast
      rw [List.getLast?_cons_cons, List.getLast?_cons, hlast] at hbefore
      exact hbefore rfl

/-- A single backslash at the front must not stand before a delimiter or at the end. -/
theorem HasEvenRuns.exists_pair (h : HasEvenRuns delimiter ('\\' :: cs)) :
    ∃ c rest, cs = c :: rest ∧ c ≠ delimiter := by
  rcases cs with _ | ⟨c, rest⟩
  · exact absurd (h [] 1 [] rfl nofun (Or.inl rfl)) (by decide)
  · refine ⟨c, rest, rfl, ?_⟩
    rintro rfl
    exact absurd (h [] 1 (c :: rest) rfl nofun (Or.inr rfl)) (by decide)

end Runs

/-- **A text is paired if and only if its runs are even** where it matters. -/
theorem paired_iff_hasEvenRuns {delimiter : Char} {cs : List Char} :
    Paired delimiter cs ↔ HasEvenRuns delimiter cs := by
  constructor
  · intro h
    induction h with
    | nil => exact hasEvenRuns_nil
    | plain hc _ ih => exact (hasEvenRuns_cons hc).mpr ih
    | pair hc _ ih => exact (hasEvenRuns_pair hc).mpr ih
  · induction hn : cs.length using Nat.strongRecOn generalizing cs with
    | ind n ih =>
      intro h
      rcases cs with _ | ⟨c, cs⟩
      · exact .nil
      by_cases hc : c = '\\'
      · subst hc
        obtain ⟨c, rest, rfl, hne⟩ := h.exists_pair
        refine .pair hne (ih rest.length ?_ rfl ((hasEvenRuns_pair hne).mp h))
        rw [← hn, List.length_cons, List.length_cons]
        omega
      · refine .plain hc (ih cs.length ?_ rfl ((hasEvenRuns_cons hc).mp h))
        rw [← hn, List.length_cons]
        omega

/-! ### What stands before a closing delimiter -/

section Delimited

variable {delimiter : Char} (hdelimiter : '\\' ≠ delimiter)
include hdelimiter

/-- What stands before a closing delimiter is an escaped text. -/
theorem exists_escaped_of_delimited? {cs body : List Char}
    (h : delimited? delimiter cs = some body) :
    ∃ text, Paired delimiter text ∧ body = escaped delimiter text ∧
      ∃ after, cs = body ++ delimiter :: after := by
  fun_induction delimited? delimiter cs generalizing body with
  | case1 => cases h
  | case2 rest =>
    obtain rfl := Option.some.inj h
    exact ⟨[], .nil, rfl, rest, rfl⟩
  | case3 => cases h
  | case4 e rest _ ih =>
    obtain ⟨body, hbody, rfl⟩ := Option.map_eq_some_iff.mp h
    obtain ⟨text, htext, rfl, after, rfl⟩ := ih hbody
    by_cases he : e = delimiter
    · rw [he]
      exact ⟨delimiter :: text, .plain (Ne.symm hdelimiter) htext, (escaped_cons_self text).symm,
        after, rfl⟩
    · refine ⟨'\\' :: e :: text, .pair he htext, ?_, after, rfl⟩
      rw [escaped_cons_of_ne hdelimiter, escaped_cons_of_ne he]
  | case5 c rest hc hbackslash ih =>
    obtain ⟨body, hbody, rfl⟩ := Option.map_eq_some_iff.mp h
    obtain ⟨text, htext, rfl, after, rfl⟩ := ih hbody
    exact ⟨c :: text, .plain hbackslash htext, (escaped_cons_of_ne hc text).symm, after, rfl⟩

/-- **What stands before a closing delimiter** are the escaped paired texts. -/
theorem delimited?_eq_some_iff {cs body : List Char} :
    delimited? delimiter cs = some body ↔ ∃ text after, Paired delimiter text ∧
      body = escaped delimiter text ∧ cs = escaped delimiter text ++ delimiter :: after := by
  constructor
  · intro h
    obtain ⟨text, htext, rfl, after, hcs⟩ := exists_escaped_of_delimited? hdelimiter h
    exact ⟨text, after, htext, rfl, hcs⟩
  · rintro ⟨text, after, htext, rfl, rfl⟩
    exact delimited?_escaped hdelimiter htext after

end Delimited

/-! ### Raw strings as lexemes -/

/-- **The raw strings** are the escaped texts with even runs, up to the first quotation mark
that is not escaped. -/
theorem rawString_eq_ok_iff {rest : List Char} {l : Token.Lexeme} {width : Nat} :
    rawString rest = .ok (l, width) ↔ ∃ text after, HasEvenRuns '\'' text ∧
      rest = escaped '\'' text ++ '\'' :: after ∧ l = .literal (.string (String.ofList text)) ∧
      width = (escaped '\'' text).length + 2 := by
  have hquote : '\\' ≠ '\'' := by decide
  constructor
  · intro h
    unfold rawString at h
    split at h
    · cases h
    · next body hbody =>
      obtain ⟨text, after, htext, rfl, rfl⟩ := (delimited?_eq_some_iff hquote).mp hbody
      obtain ⟨rfl, rfl⟩ := Prod.mk.inj (Except.ok.inj h)
      rw [unescape_escaped hquote]
      exact ⟨text, after, paired_iff_hasEvenRuns.mp htext, rfl, rfl, rfl⟩
  · rintro ⟨text, after, htext, rfl, rfl, rfl⟩
    rw [rawString, delimited?_escaped hquote (paired_iff_hasEvenRuns.mpr htext)]
    simp only [unescape_escaped hquote]

/-- **A token that starts with a single quotation mark** is a raw string, and its span holds
its value, escaped, between quotation marks. -/
theorem Holds.exists_rawString {cs : List Char} {t : Token} (h : Holds cs t)
    (hquote : cs[t.start]? = some '\'') : ∃ text, HasEvenRuns '\'' text ∧
      t.lexeme = .literal (.string (String.ofList text)) ∧
      t.spelling cs = '\'' :: (escaped '\'' text ++ ['\'']) := by
  obtain ⟨c, hc, -, hl⟩ := h
  obtain rfl : '\'' = c := Option.some.inj (hquote.symm.trans hc)
  obtain ⟨text, after, htext, hrest, hlexeme, hwidth⟩ := rawString_eq_ok_iff.mp hl
  refine ⟨text, htext, hlexeme, ?_⟩
  have hdrop : cs.drop t.start = '\'' :: (escaped '\'' text ++ '\'' :: after) := by
    rw [← hrest]
    obtain ⟨hlt, hget⟩ := List.getElem?_eq_some_iff.mp hc
    rw [List.drop_eq_getElem_cons hlt, hget]
  rw [Token.spelling, hdrop, hwidth, List.take_succ_cons, List.take_length_add_append]
  rfl

end Scan

namespace Query

open Scan (HasEvenRuns escaped)

/-- A string as it is written between single quotation marks. -/
def rawText (s : String) : String :=
  String.ofList ('\'' :: (escaped '\'' s.toList ++ ['\'']))

theorem ofChars_rawText {s : String} (h : HasEvenRuns '\'' s.toList) :
    Scan.ofChars (rawText s).toList =
      ⟨[⟨.literal (.string s), 0, (rawText s).length⟩], .finished (rawText s).length⟩ := by
  have hlexeme : Scan.lexeme? '\'' (escaped '\'' s.toList ++ ['\'']) =
      .ok (.literal (.string s), (escaped '\'' s.toList ++ ['\'']).length + 1) := by
    refine Scan.rawString_eq_ok_iff.mpr ⟨s.toList, [], h, rfl, ?_, ?_⟩
    · rw [String.ofList_toList]
    · rw [List.length_append]
      rfl
  have hlength : (rawText s).length = (escaped '\'' s.toList ++ ['\'']).length + 1 := by
    rw [rawText, String.length_ofList, List.length_cons]
  rw [hlength, rawText, String.toList_ofList]
  exact Scan.ofChars_of_lexeme? hlexeme

theorem scan_rawText {s : String} (h : HasEvenRuns '\'' s.toList) :
    scan (rawText s) = .ok
      ⟨[⟨.literal (.string s), 0, (rawText s).length⟩], .finished (rawText s).length⟩ := by
  have hblank : (rawText s).toList.all Text.isBlank = false := by
    rw [rawText, String.toList_ofList]
    rfl
  rw [scan, ofChars_rawText h, hblank]
  rfl

/-- The value of a token that starts with a single quotation mark, and what it was written
as. -/
theorem exists_rawText_of_scan {text : String} {found : Scan} (h : scan text = .ok found)
    {t : Token} (ht : t ∈ found.tokens) (hquote : text.toList[t.start]? = some '\'') :
    ∃ s, t.lexeme = .literal (.string s) ∧ HasEvenRuns '\'' s.toList ∧
      String.ofList (t.spelling text.toList) = rawText s := by
  obtain ⟨-, rfl⟩ := scan_eq_ok_iff.mp h
  obtain ⟨cs, hcs, hlexeme, hspelling⟩ :=
    ((Scan.covers_ofChars text.toList).holds t ht).exists_rawString hquote
  refine ⟨String.ofList cs, hlexeme, ?_, ?_⟩
  · rwa [String.toList_ofList]
  · rw [hspelling, rawText, String.toList_ofList]

/-- **Raw strings decode exactly what can be written.** A string, written between single
quotation marks with a backslash before every quotation mark in it, is a single token with
that string as its value if and only if its runs of backslashes are even where it matters.
And every token of an expression that starts with a single quotation mark has such a string
as its value, and is written as that string is written. -/
theorem rawStrings_roundTrip :
    (∀ s : String, HasEvenRuns '\'' s.toList ↔ scan (rawText s) = .ok
      ⟨[⟨.literal (.string s), 0, (rawText s).length⟩], .finished (rawText s).length⟩) ∧
    ∀ (text : String) (found : Scan), scan text = .ok found → ∀ t ∈ found.tokens,
      text.toList[t.start]? = some '\'' → ∃ s, t.lexeme = .literal (.string s) ∧
        HasEvenRuns '\'' s.toList ∧ String.ofList (t.spelling text.toList) = rawText s := by
  refine ⟨fun s => ⟨scan_rawText, fun h => ?_⟩, fun text found h t ht hquote =>
    exists_rawText_of_scan h ht hquote⟩
  have hquote : (rawText s).toList[0]? = some '\'' := by
    rw [rawText, String.toList_ofList]
    rfl
  obtain ⟨s', hs', heven, -⟩ := exists_rawText_of_scan h (List.mem_singleton_self _) hquote
  obtain rfl : s = s' := Json.string.inj (Token.Lexeme.literal.inj hs')
  exact heven

/-- A raw string in a comparison: two backslashes before a quotation mark, one before a letter,
and two at the end. -/
theorem rawStrings_of_escapes : ∃ text s found t, text = "a == '\\\\\\'b\\n\\\\'" ∧
    s = "\\\\'b\\n\\\\" ∧ scan text = .ok found ∧ t ∈ found.tokens ∧
    text.toList[t.start]? = some '\'' ∧ t.lexeme = .literal (.string s) ∧
    HasEvenRuns '\'' s.toList ∧ String.ofList (t.spelling text.toList) = rawText s := by
  have hchars : "a == '\\\\\\'b\\n\\\\'".toList = ['a', ' ', '=', '=', ' ', '\'', '\\', '\\', '\\',
      '\'', 'b', '\\', 'n', '\\', '\\', '\''] := by decide
  have hscan : scan "a == '\\\\\\'b\\n\\\\'" = .ok ⟨[⟨.name "a", 0, 1⟩,
      ⟨.symbol (.comparison .eq), 2, 4⟩, ⟨.literal (.string "\\\\'b\\n\\\\"), 5, 16⟩],
      .finished 16⟩ := by
    rw [scan_eq_ok_iff, hchars]
    exact ⟨rfl, by with_unfolding_all rfl⟩
  have hmem := List.mem_cons_of_mem (⟨.name "a", 0, 1⟩ : Token)
    (List.mem_cons_of_mem ⟨.symbol (.comparison .eq), 2, 4⟩
      (List.mem_singleton_self ⟨.literal (.string "\\\\'b\\n\\\\"), 5, 16⟩))
  have hquote : "a == '\\\\\\'b\\n\\\\'".toList[5]? = some '\'' := by rw [hchars]; rfl
  obtain ⟨s, hs, heven, hspelling⟩ := rawStrings_roundTrip.2 _ _ hscan _ hmem hquote
  obtain rfl : "\\\\'b\\n\\\\" = s := Json.string.inj (Token.Lexeme.literal.inj hs)
  exact ⟨_, _, _, _, rfl, rfl, hscan, hmem, hquote, hs, heven, hspelling⟩

end Query

end JsonQuery
