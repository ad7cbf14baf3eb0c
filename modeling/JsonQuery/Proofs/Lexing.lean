import JsonQuery.Proofs.Derivation.Rule
import JsonQuery.Token.Scan

/-!
# Texts and their lexemes

How a text falls into lexemes, apart from where they stand. A text **splits** into lexemes
(`JsonQuery.Scan.Splits`) if these are the lexemes of the tokens that its scan finds, and if
the scan does not fail. Splitting does not depend on what the text is a part of, with one
exception: a lexeme at its end may be longer if more characters follow. So two texts that
stand one behind the other split one after the other (`JsonQuery.Scan.Splits.append`) if the
second one starts with a character that **breaks** off any lexeme, as a space or a comma does.
-/

namespace JsonQuery

open Token (Lexeme)

namespace Scan

open Grammar (lexemes)

/-- A text **splits** into lexemes. -/
inductive Splits : List Char → List Lexeme → Prop
  /-- Nothing is left. -/
  | nil : Splits [] []
  /-- A space is passed over. -/
  | space {c : Char} {cs : List Char} {ls : List Lexeme} (hc : Text.isSpace c = true)
      (h : Splits cs ls) : Splits (c :: cs) ls
  /-- A lexeme is taken. -/
  | lexeme {c : Char} {rest : List Char} {l : Lexeme} {width : Nat} {ls : List Lexeme}
      (hc : Text.isSpace c = false) (hl : lexeme? c rest = .ok (l, width))
      (h : Splits (rest.drop (width - 1)) ls) : Splits (c :: rest) (l :: ls)

/-! ### Splitting and scanning -/

/-- A scan that goes through to the end of a text splits it. -/
theorem splits_of_startingAt {position length : Nat} {cs : List Char} {ts : List Token}
    (h : startingAt position cs = ⟨ts, .finished length⟩) : Splits cs (lexemes ts) := by
  fun_induction startingAt position cs generalizing ts with
  | case1 =>
    obtain ⟨rfl, -⟩ := Scan.mk.inj h
    exact .nil
  | case2 position c rest hc ih => exact .space hc (ih h)
  | case3 => simp at h
  | case4 position c rest hc l width hl ih =>
    obtain ⟨rfl, hending⟩ := Scan.mk.inj h
    refine .lexeme (by simpa using hc) hl (ih ?_)
    rw [← hending]

/-- The scan of a text that splits goes through to its end, wherever the text starts. -/
theorem exists_startingAt_of_splits {cs : List Char} {ls : List Lexeme} (h : Splits cs ls)
    (position : Nat) : ∃ ts length,
      startingAt position cs = ⟨ts, .finished length⟩ ∧ lexemes ts = ls := by
  induction h generalizing position with
  | nil => exact ⟨[], position, by rw [startingAt], rfl⟩
  | space hc _ ih =>
    obtain ⟨ts, length, hscan, hts⟩ := ih (position + 1)
    exact ⟨ts, length, by rw [startingAt, if_pos hc, hscan], hts⟩
  | @lexeme c rest l width ls hc hl _ ih =>
    obtain ⟨ts, length, hscan, rfl⟩ := ih (position + width)
    refine ⟨⟨l, position, position + width⟩ :: ts, length, ?_, rfl⟩
    rw [startingAt, if_neg (by simp [hc])]
    simp only [hl, hscan]
    rfl

/-! ### Characters that end a lexeme -/

/-- Whether a character **breaks** off the lexeme before it, whatever that is. -/
def isBreak (c : Char) : Bool :=
  !isNamePart c && c != '=' && c != '|' && c != '&' && c != ']' && c != '?'

/-- A text is empty or starts with a character that breaks off the lexeme before it. -/
def Breaks (cs : List Char) : Prop :=
  ∀ c, cs.head? = some c → isBreak c = true

theorem breaks_cons {c : Char} (h : isBreak c = true) (cs : List Char) : Breaks (c :: cs) := by
  rintro d ⟨⟩
  exact h

theorem isNamePart_of_isDigit {c : Char} (h : c.isDigit = true) : isNamePart c = true := by
  simp [isNamePart, Char.isAlphanum, h]

/-- What is taken off the front of a text as long as a test holds is not longer in front of
a character that fails the test. -/
theorem takeWhile_append_of_head {p : Char → Bool} {cs ds : List Char}
    (h : ∀ c, ds.head? = some c → p c = false) : (cs ++ ds).takeWhile p = cs.takeWhile p := by
  have hds : ds.takeWhile p = [] := by
    cases ds with
    | nil => rfl
    | cons c ds => rw [List.takeWhile_cons, h c rfl]; rfl
  rw [List.takeWhile_append, hds, List.append_nil]
  split
  · next hlength => rw [List.takeWhile_prefix p |>.eq_of_length hlength]
  · rfl

section Append

variable {ds : List Char} (hds : Breaks ds)
include hds

theorem takeWhile_isNamePart_append (cs : List Char) :
    (cs ++ ds).takeWhile isNamePart = cs.takeWhile isNamePart := by
  refine takeWhile_append_of_head fun c hc => ?_
  have hbreak := hds c hc
  simp only [isBreak, Bool.and_eq_true, Bool.not_eq_true'] at hbreak
  exact hbreak.1.1.1.1.1

theorem takeWhile_isDigit_append (cs : List Char) :
    (cs ++ ds).takeWhile Char.isDigit = cs.takeWhile Char.isDigit := by
  refine takeWhile_append_of_head fun c hc => Bool.eq_false_iff.mpr fun hdigit => ?_
  have hbreak := hds c hc
  simp [isBreak, isNamePart_of_isDigit hdigit] at hbreak

/-- The second character of a symbol does not come from behind the text. -/
theorem head?_append_eq_iff {x : Char} (hx : isBreak x = false) (cs : List Char) :
    (cs ++ ds).head? = some x ↔ cs.head? = some x := by
  cases cs with
  | nil =>
    refine ⟨fun h => ?_, fun h => by simp at h⟩
    rw [List.nil_append] at h
    rw [hds x h] at hx
    simp at hx
  | cons c cs => rfl

theorem longer_append {x : Char} (hx : isBreak x = false) (long short : Symbol)
    (cs : List Char) : longer x long short (cs ++ ds) = longer x long short cs := by
  simp only [longer, head?_append_eq_iff hds hx]

theorem symbolLexeme_append (c : Char) (cs : List Char) :
    symbolLexeme c (cs ++ ds) = symbolLexeme c cs := by
  unfold symbolLexeme
  split <;> first
    | simp only [head?_append_eq_iff hds (by decide : isBreak ']' = false),
        longer_append hds (by decide : isBreak '?' = false)]
    | simp only [head?_append_eq_iff hds (by decide : isBreak '=' = false)]
    | rw [longer_append hds (by decide)]

end Append

/-! ### Lexemes in front of a text that breaks -/

/-- The closing delimiter is found where it was, and it is inside the text. -/
theorem delimited?_append {d : Char} {cs body : List Char} (h : delimited? d cs = some body)
    (ds : List Char) : delimited? d (cs ++ ds) = some body ∧ body.length < cs.length := by
  fun_induction delimited? d cs generalizing body with
  | case1 => simp at h
  | case2 rest =>
    obtain rfl : [] = body := by simpa using h
    unfold delimited?
    exact ⟨if_pos rfl, by simp⟩
  | case3 => simp at h
  | case4 hd e rest ih =>
    obtain ⟨body, hbody, rfl⟩ := Option.map_eq_some_iff.mp h
    obtain ⟨heq, hlt⟩ := ih hbody
    rw [List.cons_append, List.cons_append, delimited?, if_neg ‹_›, if_pos rfl]
    simp only [heq, List.length_cons, Option.map_some, true_and]
    omega
  | case5 c rest hd hc ih =>
    obtain ⟨body, hbody, rfl⟩ := Option.map_eq_some_iff.mp h
    obtain ⟨heq, hlt⟩ := ih hbody
    unfold delimited?
    simp only [List.cons_append, if_neg hd, if_neg hc, heq, List.length_cons, Option.map_some,
      true_and]
    omega

theorem width_of_numberLexeme {negative : Bool} {digits : List Char} {l : Lexeme} {width : Nat}
    (h : numberLexeme negative digits = .ok (l, width)) :
    width = digits.length + if negative then 1 else 0 := by
  unfold numberLexeme at h
  cases negative <;>
    simp only [Bool.false_eq_true, if_false, if_true] at h ⊢ <;> split at h <;>
    simp at h <;> simp [← h.2]

theorem width_of_longer (x : Char) (long short : Symbol) (cs : List Char) :
    (longer x long short cs).2 - 1 ≤ cs.length := by
  rw [longer]
  split
  · next h =>
    cases cs with
    | nil => simp at h
    | cons c cs => simp
  · simp

theorem width_of_symbolLexeme {c : Char} {cs : List Char} {l : Lexeme} {width : Nat}
    (h : symbolLexeme c cs = .ok (l, width)) : width - 1 ≤ cs.length := by
  have hlonger : ∀ {x long short}, longer x long short cs = (l, width) →
      width - 1 ≤ cs.length := by
    intro x long short h
    have hle := width_of_longer x long short cs
    rwa [h] at hle
  unfold symbolLexeme at h
  split at h
  · split at h
    · next hclose =>
      obtain ⟨-, rfl⟩ := Prod.mk.inj (Except.ok.inj h)
      cases cs with
      | nil => simp at hclose
      | cons c cs => simp
    · exact hlonger (Except.ok.inj h)
  · exact hlonger (Except.ok.inj h)
  · exact hlonger (Except.ok.inj h)
  · exact hlonger (Except.ok.inj h)
  · exact hlonger (Except.ok.inj h)
  · exact hlonger (Except.ok.inj h)
  · split at h
    · next hequal =>
      obtain ⟨-, rfl⟩ := Prod.mk.inj (Except.ok.inj h)
      cases cs with
      | nil => simp at hequal
      | cons c cs => simp
    · simp at h
  · simp at h

/-! ### Delimited lexemes -/

/-- That a scanner of lexemes **goes by a delimiter**: what it finds depends on the body before
the closing delimiter alone, it takes that body and two delimiters, and it is no number. -/
def GoesByDelimiter (d : Char) (scanner : List Char → Except String (Lexeme × Nat)) : Prop :=
  ∀ rest l width, scanner rest = .ok (l, width) → (∀ n, l ≠ .number n) ∧
    ∃ body, delimited? d rest = some body ∧ width = body.length + 2 ∧
      ∀ others, delimited? d others = some body → scanner others = .ok (l, width)

theorem rawString_goesByDelimiter : GoesByDelimiter '\'' rawString := by
  intro rest l width h
  unfold rawString at h
  split at h
  · simp at h
  · next body hbody =>
    obtain ⟨rfl, rfl⟩ := Prod.mk.inj (Except.ok.inj h)
    exact ⟨by simp, body, hbody, rfl, fun others h => by rw [rawString, h]⟩

theorem literal_goesByDelimiter : GoesByDelimiter '\x60' literal := by
  intro rest l width h
  unfold literal at h
  split at h
  · simp at h
  · next body hbody =>
    dsimp only at h
    split at h
    · simp at h
    · next value hvalue =>
      obtain ⟨rfl, rfl⟩ := Prod.mk.inj (Except.ok.inj h)
      exact ⟨by simp, body, hbody, rfl, fun others h => by simp only [literal, h, hvalue]⟩

theorem quotedName_goesByDelimiter : GoesByDelimiter '"' quotedName := by
  intro rest l width h
  unfold quotedName at h
  split at h
  · simp at h
  · next body hbody =>
    dsimp only at h
    split at h
    · simp at h
    · next name hname =>
      obtain ⟨rfl, rfl⟩ := Prod.mk.inj (Except.ok.inj h)
      exact ⟨by simp, body, hbody, rfl, fun others h => by simp only [quotedName, h, hname]⟩

theorem GoesByDelimiter.append {d : Char} {scanner : List Char → Except String (Lexeme × Nat)}
    (hscanner : GoesByDelimiter d scanner) {rest : List Char} {l : Lexeme} {width : Nat}
    (h : scanner rest = .ok (l, width)) (ds : List Char) :
    scanner (rest ++ ds) = .ok (l, width) ∧ width - 1 ≤ rest.length := by
  obtain ⟨-, body, hbody, rfl, hothers⟩ := hscanner rest l width h
  obtain ⟨heq, hlt⟩ := delimited?_append hbody ds
  exact ⟨hothers _ heq, hlt⟩

/-- What each branch of a choice carries over from one computation to another, the choice
carries over. -/
theorem ite_carries {α β : Type} {c : Prop} [Decidable c] {x x' y y' : Except α β} {r : β}
    {Q : Prop} (h : x = .ok r → y = .ok r ∧ Q) (h' : x' = .ok r → y' = .ok r ∧ Q) :
    (if c then x else x') = .ok r → (if c then y else y') = .ok r ∧ Q := by
  split
  · exact h
  · exact h'

/-- **A lexeme is the same in front of a text that breaks it off**, and it is inside its own
text. -/
theorem lexeme?_append {c : Char} {rest ds : List Char} {l : Lexeme} {width : Nat}
    (hds : Breaks ds) (h : lexeme? c rest = .ok (l, width)) :
    lexeme? c (rest ++ ds) = .ok (l, width) ∧ width - 1 ≤ rest.length := by
  have htake : ∀ p : Char → Bool, (rest.takeWhile p).length ≤ rest.length := fun p =>
    (List.takeWhile_prefix p).length_le
  unfold lexeme? at h ⊢
  rw [takeWhile_isNamePart_append hds, takeWhile_isDigit_append hds, symbolLexeme_append hds]
  split at h
  · obtain ⟨-, rfl⟩ := Prod.mk.inj (Except.ok.inj h)
    exact ⟨h, Nat.zero_le _⟩
  · revert h
    refine ite_carries (fun h => ⟨h, ?_⟩) (ite_carries (fun h => ⟨h, ?_⟩)
      (ite_carries (ite_carries (fun h => ⟨h, ?_⟩) fun h => ⟨h, ?_⟩)
        (ite_carries (fun h => rawString_goesByDelimiter.append h ds)
          (ite_carries (fun h => literal_goesByDelimiter.append h ds)
            (ite_carries (fun h => quotedName_goesByDelimiter.append h ds)
              fun h => ⟨h, width_of_symbolLexeme h⟩)))))
    · obtain ⟨-, rfl⟩ := Prod.mk.inj (Except.ok.inj h)
      exact htake _
    · rw [width_of_numberLexeme h]
      exact htake _
    · simp at h
    · rw [width_of_numberLexeme h]
      exact htake _

/-- **Texts that stand one behind the other split one after the other**, if the second one
breaks off the last lexeme of the first. -/
theorem Splits.append {cs ds : List Char} {ls ms : List Lexeme} (h : Splits cs ls)
    (hds : Breaks ds) (hd : Splits ds ms) : Splits (cs ++ ds) (ls ++ ms) := by
  induction h with
  | nil => exact hd
  | space hc _ ih => exact .space hc ih
  | @lexeme c rest l width ls hc hl _ ih =>
    obtain ⟨heq, hle⟩ := lexeme?_append hds hl
    rw [List.cons_append, List.cons_append]
    refine .lexeme hc heq ?_
    rw [List.drop_append_of_le_length hle]
    exact ih

/-- **A text splits in one way only.** -/
theorem Splits.unique {cs : List Char} {ls ms : List Lexeme} (h : Splits cs ls)
    (hm : Splits cs ms) : ls = ms := by
  obtain ⟨ts, n, hscan, rfl⟩ := exists_startingAt_of_splits h 0
  obtain ⟨us, m, hscan', rfl⟩ := exists_startingAt_of_splits hm 0
  rw [hscan] at hscan'
  rw [(Scan.mk.inj hscan').1]

/-! ### Blank texts -/

/-- The visible characters among the first hundred and twenty-eight. -/
def IsVisible (c : Char) : Prop :=
  0x20 < c.toNat ∧ c.toNat < 0x7f

theorem isVisible_of_single? {c : Char} {s : Symbol} (h : single? c = some s) : IsVisible c := by
  unfold single? at h
  split at h <;> first
    | exact ⟨by decide, by decide⟩
    | simp at h

theorem isVisible_of_symbolLexeme {c : Char} {rest : List Char} {r : Lexeme × Nat}
    (h : symbolLexeme c rest = .ok r) : IsVisible c := by
  unfold symbolLexeme at h
  split at h <;> first
    | exact ⟨by decide, by decide⟩
    | simp at h

theorem isVisible_of_isNamePart {c : Char} (h : isNamePart c = true) : IsVisible c := by
  have hparts : isNamePart c = (decide ('A'.val ≤ c.val ∧ c.val ≤ 'Z'.val) ||
      (decide ('a'.val ≤ c.val) && decide (c.val ≤ 'z'.val)) ||
      (decide ('0'.val ≤ c.val) && decide (c.val ≤ '9'.val)) || c == '_') := rfl
  simp only [hparts, Bool.or_eq_true, Bool.and_eq_true, decide_eq_true_eq, beq_iff_eq,
    UInt32.le_iff_toNat_le] at h
  have hval : c.toNat = c.val.toNat := rfl
  rw [IsVisible, hval]
  rcases h with ((h | h) | h) | rfl
  · exact ⟨Nat.lt_of_lt_of_le (by decide) h.1, Nat.lt_of_le_of_lt h.2 (by decide)⟩
  · exact ⟨Nat.lt_of_lt_of_le (by decide) h.1, Nat.lt_of_le_of_lt h.2 (by decide)⟩
  · exact ⟨Nat.lt_of_lt_of_le (by decide) h.1, Nat.lt_of_le_of_lt h.2 (by decide)⟩
  · exact ⟨by decide, by decide⟩

theorem isNamePart_of_isNameStart {c : Char} (h : isNameStart c = true) : isNamePart c = true := by
  rw [isNameStart, Bool.or_eq_true] at h
  rcases h with h | h
  · simp [isNamePart, Char.isAlphanum, h]
  · simp [isNamePart, h]

/-- What follows from each branch of a choice that succeeds follows from the choice. -/
theorem of_ite_eq_ok {α β : Type} {c : Prop} [Decidable c] {x x' : Except α β} {r : β} {P : Prop}
    (h : c → x = .ok r → P) (h' : x' = .ok r → P) : (if c then x else x') = .ok r → P := by
  split
  · next hc => exact h hc
  · exact h'

/-- A lexeme starts with a visible character. -/
theorem isVisible_of_lexeme? {c : Char} {rest : List Char} {r : Lexeme × Nat}
    (h : lexeme? c rest = .ok r) : IsVisible c := by
  have hchar : ∀ {d : Char}, IsVisible d → c = d → IsVisible c := fun hd hc => hc ▸ hd
  unfold lexeme? at h
  split at h
  · next s hs => exact isVisible_of_single? hs
  · revert h
    refine of_ite_eq_ok (fun hstart _ => ?_) (of_ite_eq_ok (fun hdigit _ => ?_)
      (of_ite_eq_ok (fun hc _ => hchar ⟨by decide, by decide⟩ hc)
        (of_ite_eq_ok (fun hc _ => hchar ⟨by decide, by decide⟩ hc)
          (of_ite_eq_ok (fun hc _ => hchar ⟨by decide, by decide⟩ hc)
            (of_ite_eq_ok (fun hc _ => hchar ⟨by decide, by decide⟩ hc)
              isVisible_of_symbolLexeme)))))
    · exact isVisible_of_isNamePart (isNamePart_of_isNameStart hstart)
    · exact isVisible_of_isNamePart (isNamePart_of_isDigit hdigit)

theorem not_isBlank_of_isVisible {c : Char} (h : IsVisible c) : Text.isBlank c = false := by
  obtain ⟨hlow, hhigh⟩ := h
  simp [Text.isBlank, Text.blankRuns]
  omega

/-- A blank text holds no lexeme. -/
theorem Splits.eq_nil_of_blank {cs : List Char} {ls : List Lexeme} (h : Splits cs ls)
    (hblank : cs.all Text.isBlank = true) : ls = [] := by
  induction h with
  | nil => rfl
  | space _ _ ih =>
    rw [List.all_cons, Bool.and_eq_true] at hblank
    exact ih hblank.2
  | lexeme _ hl _ =>
    rw [List.all_cons, not_isBlank_of_isVisible (isVisible_of_lexeme? hl)] at hblank
    simp at hblank

/-- A lexeme does not start with a space. -/
theorem isSpace_of_lexeme? {c : Char} {rest : List Char} {r : Lexeme × Nat}
    (h : lexeme? c rest = .ok r) : Text.isSpace c = false := by
  rw [← Bool.not_eq_true]
  intro hspace
  have hblank := Text.isBlank_of_isSpace hspace
  rw [not_isBlank_of_isVisible (isVisible_of_lexeme? h)] at hblank
  exact Bool.false_ne_true hblank

/-- A lexeme is taken, whatever it starts with. -/
theorem Splits.of_lexeme? {c : Char} {rest : List Char} {l : Lexeme} {width : Nat}
    {ls : List Lexeme} (hl : lexeme? c rest = .ok (l, width))
    (h : Splits (rest.drop (width - 1)) ls) : Splits (c :: rest) (l :: ls) :=
  .lexeme (isSpace_of_lexeme? hl) hl h

end Scan

end JsonQuery
