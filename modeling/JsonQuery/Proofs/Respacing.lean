import JsonQuery.Proofs.Compilation
import JsonQuery.Proofs.TokenSpans
import JsonQuery.Proofs.Uniformity

/-!
# Spaces between tokens

How many spaces stand between two tokens, and which, makes no difference. The **spelling** of
a token (`JsonQuery.Token.spelling`) is what stands in its span. If the spellings of the
tokens of a text are written down again with a `JsonQuery.Spacing` of one's own, at least one
space between two of them and any number at the ends, then the new text splits into the same
lexemes, and it compiles to the same expression or is refused in the same way at the same
token (`JsonQuery.Query.compile_respaced`).

There are two things to see. One is that a spelling by itself is one lexeme, although the scan
found it in front of other characters (`JsonQuery.Scan.lexeme?_take`). A scanner that looks for
the longest lexeme looks one character too far, and a delimited lexeme could depend on
characters behind its closing delimiter; the spelling has just the characters that were taken.
From there on `JsonQuery.Scan.Splits.append` puts the text together, since a space breaks off
any lexeme. The other is that reading does not depend on where tokens stand
(`JsonQuery.Grammar.ofTokens_alike`).
-/

namespace JsonQuery

open Token (Lexeme)
open Grammar (lexemes)

namespace Scan

/-! ### A lexeme by itself -/

/-- What is taken off the front of a text as long as a test holds is taken again if there is
nothing else. -/
theorem takeWhile_take_length (p : Char → Bool) (cs : List Char) :
    (cs.take (cs.takeWhile p).length).takeWhile p = cs.takeWhile p := by
  induction cs with
  | nil => rfl
  | cons c cs ih =>
    cases hc : p c with
    | false => simp [hc]
    | true => simp [hc, ih]

/-- The closing delimiter is the last character that is looked at. -/
theorem delimited?_take {d : Char} {cs body : List Char} (h : delimited? d cs = some body) :
    delimited? d (cs.take (body.length + 1)) = some body := by
  fun_induction delimited? d cs generalizing body with
  | case1 => simp at h
  | case2 rest =>
    obtain rfl : [] = body := by simpa using h
    unfold delimited?
    exact if_pos rfl
  | case3 => simp at h
  | case4 hd e rest ih =>
    obtain ⟨body, hbody, rfl⟩ := Option.map_eq_some_iff.mp h
    rw [List.length_cons, List.length_cons, List.take_succ_cons, List.take_succ_cons, delimited?,
      if_neg ‹_›, if_pos rfl]
    simp only [ih hbody, Option.map_some]
  | case5 c rest hd hc ih =>
    obtain ⟨body, hbody, rfl⟩ := Option.map_eq_some_iff.mp h
    rw [List.length_cons, List.take_succ_cons]
    unfold delimited?
    simp only [if_neg hd, if_neg hc, ih hbody, Option.map_some]

section Lexeme

variable {c : Char} {rest : List Char} {l : Lexeme} {width : Nat}

theorem GoesByDelimiter.take {d : Char} {scanner : List Char → Except String (Lexeme × Nat)}
    (hscanner : GoesByDelimiter d scanner) (h : scanner rest = .ok (l, width)) :
    scanner (rest.take (width - 1)) = .ok (l, width) := by
  obtain ⟨-, body, hbody, rfl, hothers⟩ := hscanner rest l width h
  exact hothers _ (delimited?_take hbody)

/-- The first character of a part is the first of the whole. -/
theorem head?_eq_of_take {n : Nat} {x : Char} (h : (rest.take n).head? = some x) :
    rest.head? = some x := by
  rw [List.head?_take] at h
  split at h
  · exact absurd h (by simp)
  · exact h

theorem head?_take_one {x : Char} (h : rest.head? = some x) : (rest.take 1).head? = some x :=
  List.head?_take.trans h

/-- A symbol looks for its second character and no further. -/
theorem longer_take {x : Char} {long short : Symbol} (h : longer x long short rest = (l, width)) :
    longer x long short (rest.take (width - 1)) = (l, width) := by
  rw [longer] at h ⊢
  split at h
  · next hx =>
    obtain ⟨rfl, rfl⟩ := Prod.mk.inj h
    exact if_pos (head?_take_one hx)
  · obtain ⟨rfl, rfl⟩ := Prod.mk.inj h
    exact if_neg (by simp)

theorem symbolLexeme_take (h : symbolLexeme c rest = .ok (l, width)) :
    symbolLexeme c (rest.take (width - 1)) = .ok (l, width) := by
  unfold symbolLexeme at h ⊢
  split at h
  · split at h
    · next hclose =>
      obtain ⟨rfl, rfl⟩ := Prod.mk.inj (Except.ok.inj h)
      exact if_pos (head?_take_one hclose)
    · next hopen =>
      rw [if_neg fun hclose => hopen (head?_eq_of_take hclose)]
      exact congrArg Except.ok (longer_take (Except.ok.inj h))
  · exact congrArg Except.ok (longer_take (Except.ok.inj h))
  · exact congrArg Except.ok (longer_take (Except.ok.inj h))
  · exact congrArg Except.ok (longer_take (Except.ok.inj h))
  · exact congrArg Except.ok (longer_take (Except.ok.inj h))
  · exact congrArg Except.ok (longer_take (Except.ok.inj h))
  · split at h
    · next hequal =>
      obtain ⟨rfl, rfl⟩ := Prod.mk.inj (Except.ok.inj h)
      exact if_pos (head?_take_one hequal)
    · simp at h
  · simp at h

/-- What each branch of a choice carries over from one computation to another, the choice
carries over. -/
theorem ite_eq_ok_of_imp {α β : Type} {p : Prop} [Decidable p] {x x' y y' : Except α β} {r : β}
    (h : x = .ok r → y = .ok r) (h' : x' = .ok r → y' = .ok r) :
    (if p then x else x') = .ok r → (if p then y else y') = .ok r := by
  split
  · exact h
  · exact h'

/-- **A lexeme is the same by itself.** -/
theorem lexeme?_take (h : lexeme? c rest = .ok (l, width)) :
    lexeme? c (rest.take (width - 1)) = .ok (l, width) := by
  unfold lexeme? at h ⊢
  split at h
  · exact h
  · revert h
    refine ite_eq_ok_of_imp (fun h => ?_) (ite_eq_ok_of_imp (fun h => ?_)
      (ite_eq_ok_of_imp (fun h => ?_) (ite_eq_ok_of_imp rawString_goesByDelimiter.take
        (ite_eq_ok_of_imp literal_goesByDelimiter.take
          (ite_eq_ok_of_imp quotedName_goesByDelimiter.take symbolLexeme_take)))))
    · obtain ⟨-, rfl⟩ := Prod.mk.inj (Except.ok.inj h)
      rw [List.length_cons, Nat.add_sub_cancel, takeWhile_take_length]
      exact h
    · have hwidth : width - 1 = (rest.takeWhile Char.isDigit).length := by
        rw [width_of_numberLexeme h]
        rfl
      rw [hwidth, takeWhile_take_length]
      exact h
    · have hwidth : width - 1 = (rest.takeWhile Char.isDigit).length := by
        revert h
        split
        · simp
        · intro h
          rw [width_of_numberLexeme h]
          rfl
      rw [hwidth, takeWhile_take_length]
      exact h

end Lexeme

end Scan

/-! ### Spellings -/

/-- The **spelling** of a token of a text: what stands in its span. -/
def Token.spelling (cs : List Char) (t : Token) : List Char :=
  (cs.drop t.start).take (t.stop - t.start)

/-- **A spelling splits into what its token says.** -/
theorem Scan.Holds.splits_spelling {cs : List Char} {t : Token} (h : Scan.Holds cs t) :
    Scan.Splits (t.spelling cs) [t.lexeme] := by
  obtain ⟨c, hc, hspace, hl⟩ := h
  obtain ⟨width, hwidth⟩ : ∃ width, t.stop - t.start = width + 1 :=
    Nat.exists_eq_succ_of_ne_zero (Nat.ne_of_gt (Scan.width_pos_of_lexeme? hl))
  have hdrop : cs.drop t.start = c :: cs.drop (t.start + 1) := by
    obtain ⟨hlt, rfl⟩ := List.getElem?_eq_some_iff.mp hc
    exact List.drop_eq_getElem_cons hlt
  rw [Token.spelling, hdrop, hwidth, List.take_succ_cons]
  have htake := Scan.lexeme?_take hl
  rw [hwidth, Nat.add_sub_cancel] at htake
  refine .lexeme hspace htake ?_
  have hnil : ((cs.drop (t.start + 1)).take width).drop width = [] :=
    List.drop_eq_nil_of_le (List.length_take_le _ _)
  rw [Nat.add_sub_cancel, hnil]
  exact .nil

/-! ### Spacings -/

/-- **Spaces** to put between a number of texts, at least one between two of them, and
around them. -/
structure Spacing (count : Nat) where
  /-- What stands before the first text. -/
  lead : List Char
  /-- What stands between two texts. -/
  between : List (List Char)
  /-- What stands behind the last text. -/
  trail : List Char
  /-- There is a place between any two texts. -/
  length_between : between.length + 1 = count
  /-- There are only spaces before the first text. -/
  spaces_lead : lead.all Text.isSpace = true
  /-- There are only spaces between two texts, and not none. -/
  spaces_between : ∀ gap ∈ between, gap ≠ [] ∧ gap.all Text.isSpace = true
  /-- There are only spaces behind the last text. -/
  spaces_trail : trail.all Text.isSpace = true

/-- Some texts with spaces between and around them. -/
def Spacing.join {count : Nat} (spacing : Spacing count) (texts : List (List Char)) : List Char :=
  spacing.lead ++ (List.zipWith (· ++ ·) texts (spacing.between ++ [spacing.trail])).flatten

namespace Scan

theorem isBreak_of_isSpace {c : Char} (h : Text.isSpace c = true) : isBreak c = true := by
  simp only [Text.isSpace, Bool.or_eq_true, beq_iff_eq] at h
  rcases h with ((rfl | rfl) | rfl) | rfl <;> decide

/-- Spaces are passed over. -/
theorem Splits.spaces {gap cs : List Char} {ls : List Lexeme} (h : Splits cs ls)
    (hgap : gap.all Text.isSpace = true) : Splits (gap ++ cs) ls := by
  induction gap with
  | nil => exact h
  | cons c gap ih =>
    rw [List.all_cons, Bool.and_eq_true] at hgap
    exact .space hgap.1 (ih hgap.2)

/-- Spaces break off the lexeme before them. -/
theorem breaks_spaces {gap cs : List Char} (hgap : gap.all Text.isSpace = true)
    (hcs : gap = [] → Breaks cs) : Breaks (gap ++ cs) := by
  cases gap with
  | nil => exact hcs rfl
  | cons c gap =>
    rw [List.all_cons, Bool.and_eq_true] at hgap
    exact breaks_cons (isBreak_of_isSpace hgap.1) _

/-- Spellings with spaces between them split into what their tokens say. -/
theorem splits_spellings {cs trail : List Char} {between : List (List Char)}
    (hbetween : ∀ gap ∈ between, gap ≠ [] ∧ gap.all Text.isSpace = true)
    (htrail : trail.all Text.isSpace = true) {ts : List Token} (hts : ∀ t ∈ ts, Holds cs t)
    (hlength : between.length + 1 = ts.length) :
    Splits (List.zipWith (· ++ ·) (ts.map (Token.spelling cs)) (between ++ [trail])).flatten
      (lexemes ts) := by
  induction between generalizing ts with
  | nil =>
    match ts, hlength with
    | [t], _ =>
      have ht := (hts t List.mem_cons_self).splits_spelling
      have hbreaks : Breaks (trail ++ []) := breaks_spaces htrail fun _ _ hc => by simp at hc
      have hsplits := ht.append hbreaks (Splits.nil.spaces htrail)
      rwa [← List.append_assoc] at hsplits
  | cons gap between ih =>
    match ts, hlength with
    | t :: ts, hlength =>
      obtain ⟨⟨hne, hgap⟩, hbetween⟩ := List.forall_mem_cons.mp hbetween
      obtain ⟨ht, hts⟩ := List.forall_mem_cons.mp hts
      have hrest := ih hbetween hts (Nat.succ.inj hlength)
      have hsplits := ht.splits_spelling.append
        (breaks_spaces hgap fun hnil => absurd hnil hne) (hrest.spaces hgap)
      rwa [← List.append_assoc] at hsplits

end Scan

/-! ### Respaced texts -/

namespace Query

open Scan (Splits)

/-- A text written down again with other spaces between its tokens. -/
def respaced (text : String) (s : Scan) (spacing : Spacing s.tokens.length) : String :=
  String.ofList (spacing.join (s.tokens.map (Token.spelling text.toList)))

/-- That two texts **compile alike**, given their scans: to the same expression, or they are
refused in the same way at tokens that have the same place, or both end too early. -/
inductive CompileAlike (text text' : String) (s s' : Scan) : Prop
  /-- Both texts compile. -/
  | compiled (e : Expr) (h : compile text = .ok ⟨text, e⟩) (h' : compile text' = .ok ⟨text', e⟩)
  /-- Both texts are refused at a token. -/
  | refused {i : Nat} {t t' : Token} (ht : s.tokens[i]? = some t) (ht' : s'.tokens[i]? = some t')
      (shown : String) (kind : Token.Kind) (reason : Option Reason)
      (h : compile text = .error (.fault (.badSyntax t.start shown kind reason) (some text)))
      (h' : compile text' = .error (.fault (.badSyntax t'.start shown kind reason) (some text')))
  /-- Both texts are refused at their ends. -/
  | unfinished (h : compile text = .error (.fault (.unfinished text.toList.length) (some text)))
      (h' : compile text' = .error (.fault (.unfinished text'.toList.length) (some text')))

/-- A text that was scanned is not blank, and the scan is the one of its characters. -/
theorem scan_eq_ok_iff {text : String} {s : Scan} : scan text = .ok s ↔
    text.toList.all Text.isBlank = false ∧ Scan.ofChars text.toList = s := by
  rw [scan]
  split
  · next hblank => simp [hblank]
  · next hblank => simp [hblank]

theorem exists_getElem?_of_mem_zip {α β : Type} {xs : List α} {ys : List β} {p : α × β}
    (h : p ∈ xs.zip ys) : ∃ i : Nat, xs[i]? = some p.1 ∧ ys[i]? = some p.2 := by
  obtain ⟨i, hi⟩ := List.mem_iff_getElem?.mp h
  exact ⟨i, List.getElem?_zip_eq_some.mp hi⟩

/-- Tokens that say the same, one by one. -/
theorem sayTheSame_zip {ts us : List Token} (h : lexemes us = lexemes ts) :
    Grammar.SayTheSame (ts.zip us) := by
  intro p hp
  obtain ⟨i, hfst, hsnd⟩ := exists_getElem?_of_mem_zip hp
  have hlexeme : (lexemes us)[i]? = (lexemes ts)[i]? := by rw [h]
  rw [lexemes, lexemes, List.getElem?_map, List.getElem?_map, hfst, hsnd] at hlexeme
  exact (Option.some.inj hlexeme).symm

/-- **Texts whose tokens say the same compile alike.** -/
theorem compileAlike_of_lexemes {text text' : String} {s s' : Scan} (h : scan text = .ok s)
    (hend : s.ending = .finished text.toList.length) (h' : scan text' = .ok s')
    (hend' : s'.ending = .finished text'.toList.length)
    (hlexemes : lexemes s'.tokens = lexemes s.tokens) : CompileAlike text text' s s' := by
  obtain ⟨hblank, hscan⟩ := scan_eq_ok_iff.mp h
  obtain ⟨hblank', hscan'⟩ := scan_eq_ok_iff.mp h'
  rw [show s = ⟨s.tokens, .finished text.toList.length⟩ by rw [← hend]] at hscan
  rw [show s' = ⟨s'.tokens, .finished text'.toList.length⟩ by rw [← hend']] at hscan'
  have hcompile := compile_of_scan hblank hscan
  have hcompile' := compile_of_scan hblank' hscan'
  have hlength : s'.tokens.length = s.tokens.length := by
    simpa only [lexemes, List.length_map] using congrArg List.length hlexemes
  have halike := Grammar.ofTokens_alike (sayTheSame_zip hlexemes)
  rw [List.map_fst_zip (Nat.le_of_eq hlength.symm), List.map_snd_zip (Nat.le_of_eq hlength)]
    at halike
  rcases halike with ⟨e, he, he'⟩ | ⟨r, r', hr, hr', hrefusals⟩
  · rw [he] at hcompile
    rw [he'] at hcompile'
    exact .compiled e hcompile hcompile'
  · rw [hr] at hcompile
    rw [hr'] at hcompile'
    cases hrefusals with
    | ended => exact .unfinished hcompile hcompile'
    | token hp shown kind reason =>
      obtain ⟨i, ht, ht'⟩ := exists_getElem?_of_mem_zip hp
      exact .refused ht ht' shown kind reason hcompile hcompile'

/-- **Spaces between tokens make no difference**: a text that splits into tokens, written down
again with other spaces between them, splits into tokens that say the same, and the two texts
compile alike. -/
theorem compile_respaced {text : String} {s : Scan} {n : Nat} (h : scan text = .ok s)
    (hend : s.ending = .finished n) (spacing : Spacing s.tokens.length) :
    ∃ s', scan (respaced text s spacing) = .ok s' ∧
      s'.ending = .finished (respaced text s spacing).toList.length ∧
      lexemes s'.tokens = lexemes s.tokens ∧
      CompileAlike text (respaced text s spacing) s s' := by
  obtain ⟨-, hscan⟩ := scan_eq_ok_iff.mp h
  have hcovers := Scan.covers_ofChars text.toList
  rw [hscan] at hcovers
  have hfinished : s.ending = .finished text.toList.length := by
    have hholds := hcovers.ending
    rw [hend] at hholds ⊢
    exact congrArg Scan.Ending.finished hholds
  have hsplits : Splits (respaced text s spacing).toList (lexemes s.tokens) := by
    rw [respaced, String.toList_ofList]
    exact (Scan.splits_spellings spacing.spaces_between spacing.spaces_trail hcovers.holds
      spacing.length_between).spaces spacing.spaces_lead
  -- There are as many spellings as tokens, and there is at least one.
  have hblank : (respaced text s spacing).toList.all Text.isBlank = false := by
    rw [← Bool.not_eq_true]
    intro hblank
    have hnil : s.tokens = [] := List.map_eq_nil_iff.mp (hsplits.eq_nil_of_blank hblank)
    exact Nat.succ_ne_zero _ (spacing.length_between.trans (congrArg List.length hnil))
  obtain ⟨ts', n', hscan', hlexemes⟩ := Scan.exists_startingAt_of_splits hsplits 0
  have hcovers' := Scan.covers_ofChars (respaced text s spacing).toList
  rw [Scan.ofChars, hscan'] at hcovers'
  obtain rfl : n' = (respaced text s spacing).toList.length := hcovers'.ending
  have h' := scan_eq_ok_iff.mpr ⟨hblank, hscan'⟩
  exact ⟨_, h', rfl, hlexemes, compileAlike_of_lexemes h hfinished h' rfl hlexemes⟩

/-- A filter whose brackets, comparison and negative number stand close together, and a quoted
name with a space of its own, with spaces of each kind between them. -/
theorem compile_respaced_of_filter :
    ∃ s, scan "a[?b<-1].\"c d\"" = .ok s ∧ s.ending = .finished 14 ∧
      ∃ spacing : Spacing s.tokens.length,
        respaced "a[?b<-1].\"c d\"" s spacing = "\ta [?\nb <\r\n-1 ]  . \"c d\"" ∧
        ∃ s', scan (respaced "a[?b<-1].\"c d\"" s spacing) = .ok s' ∧
          s'.ending = .finished (respaced "a[?b<-1].\"c d\"" s spacing).toList.length ∧
          lexemes s'.tokens = lexemes s.tokens ∧
          CompileAlike "a[?b<-1].\"c d\"" (respaced "a[?b<-1].\"c d\"" s spacing) s s' := by
  have hscan : scan "a[?b<-1].\"c d\"" = .ok (Scan.ofChars "a[?b<-1].\"c d\"".toList) :=
    if_neg (by decide +kernel)
  have hend : (Scan.ofChars "a[?b<-1].\"c d\"".toList).ending = .finished 14 := by
    decide +kernel
  let spacing : Spacing (Scan.ofChars "a[?b<-1].\"c d\"".toList).tokens.length :=
    { lead := ['\t']
      between := [[' '], ['\n'], [' '], ['\r', '\n'], [' '], [' ', ' '], [' ']]
      trail := []
      length_between := by decide +kernel
      spaces_lead := by decide +kernel
      spaces_between := by decide +kernel
      spaces_trail := by decide +kernel }
  exact ⟨_, hscan, hend, spacing, by decide +kernel, compile_respaced hscan hend spacing⟩

end Query

end JsonQuery
