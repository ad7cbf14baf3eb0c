import JsonQuery.Proofs.Lexing
import JsonQuery.Query
import JsonQuery.Token.Cursor

/-!
# Tokens cover their text

Where the tokens of an expression stand. A scan **covers** its text
(`JsonQuery.Scan.Covers`): the spans of its tokens are not empty, they follow each other
without overlapping, what a token says is what stands in its span, and up to where the scan
ended there is nothing but spaces outside of them. The scan ended at the end of the text, or
at a character that is no space and that no lexeme starts with.

All that is needed of a lexeme is that its width counts at least one character and no
character behind the text. The rest follows from how the scan goes on, one space or one
token at a time: what covers the text from a position on, with a space or a token before it,
covers the text from there on.
-/

namespace JsonQuery

open Token (Lexeme)

namespace Scan

/-! ### Widths -/

/-- What is found is a symbol, and it takes at least one character. -/
theorem symbol_of_longer {x : Char} {long short : Symbol} {rest : List Char} {l : Lexeme}
    {width : Nat} (h : longer x long short rest = (l, width)) : 0 < width ∧ ∃ s, l = .symbol s := by
  rw [longer] at h
  split at h <;> obtain ⟨rfl, rfl⟩ := Prod.mk.inj h <;> exact ⟨by decide, _, rfl⟩

section Width

variable {c : Char} {rest : List Char} {l : Lexeme} {width : Nat}

theorem symbol_of_symbolLexeme (h : symbolLexeme c rest = .ok (l, width)) :
    0 < width ∧ ∃ s, l = .symbol s := by
  unfold symbolLexeme at h
  split at h
  · split at h
    · obtain ⟨rfl, rfl⟩ := Prod.mk.inj (Except.ok.inj h)
      exact ⟨Nat.two_pos, _, rfl⟩
    · exact symbol_of_longer (Except.ok.inj h)
  · exact symbol_of_longer (Except.ok.inj h)
  · exact symbol_of_longer (Except.ok.inj h)
  · exact symbol_of_longer (Except.ok.inj h)
  · exact symbol_of_longer (Except.ok.inj h)
  · exact symbol_of_longer (Except.ok.inj h)
  · split at h
    · obtain ⟨rfl, rfl⟩ := Prod.mk.inj (Except.ok.inj h)
      exact ⟨Nat.two_pos, _, rfl⟩
    · simp at h
  · simp at h

theorem GoesByDelimiter.width_pos {d : Char} {scanner : List Char → Except String (Lexeme × Nat)}
    (hscanner : GoesByDelimiter d scanner) (h : scanner rest = .ok (l, width)) : 0 < width := by
  obtain ⟨-, body, -, rfl, -⟩ := hscanner rest l width h
  exact Nat.succ_pos _

/-- A lexeme takes at least one character. -/
theorem width_pos_of_lexeme? (h : lexeme? c rest = .ok (l, width)) : 0 < width := by
  unfold lexeme? at h
  split at h
  · obtain ⟨-, rfl⟩ := Prod.mk.inj (Except.ok.inj h)
    exact Nat.one_pos
  · revert h
    refine of_ite_eq_ok (fun _ h => ?_) (of_ite_eq_ok (fun _ h => ?_) (of_ite_eq_ok (fun _ =>
      of_ite_eq_ok (fun _ h => ?_) fun h => ?_)
        (of_ite_eq_ok (fun _ => rawString_goesByDelimiter.width_pos)
          (of_ite_eq_ok (fun _ => literal_goesByDelimiter.width_pos)
            (of_ite_eq_ok (fun _ => quotedName_goesByDelimiter.width_pos)
              fun h => (symbol_of_symbolLexeme h).1)))))
    · obtain ⟨-, rfl⟩ := Prod.mk.inj (Except.ok.inj h)
      exact Nat.succ_pos _
    · rw [width_of_numberLexeme h]
      exact Nat.succ_pos _
    · simp at h
    · rw [width_of_numberLexeme h]
      exact Nat.succ_pos _

/-- A lexeme takes no character from behind the text. -/
theorem width_le_of_lexeme? (h : lexeme? c rest = .ok (l, width)) : width ≤ rest.length + 1 := by
  have hnil : Breaks [] := fun _ hc => by simp at hc
  have hle := (lexeme?_append hnil h).2
  omega

end Width

/-! ### What stands where -/

/-- That a token says what stands in its span. -/
def Holds (cs : List Char) (t : Token) : Prop :=
  ∃ c, cs[t.start]? = some c ∧ Text.isSpace c = false ∧
    lexeme? c (cs.drop (t.start + 1)) = .ok (t.lexeme, t.stop - t.start)

/-- Where a scan ended. -/
def Ending.position : Ending → Nat
  | .finished length => length
  | .failed position _ => position

/-- That a scan ended at the end of a text, or at a character of it that is no space and
that no lexeme starts with. -/
def Ending.Holds (cs : List Char) : Ending → Prop
  | .finished length => length = cs.length
  | .failed position shown => ∃ c, cs[position]? = some c ∧ Text.isSpace c = false ∧
      lexeme? c (cs.drop (position + 1)) = .error shown

/-- **A scan covers a text** from a position on. -/
structure Covers (position : Nat) (cs : List Char) (scan : Scan) : Prop where
  /-- No token stands before the position. -/
  le_start : ∀ t ∈ scan.tokens, position ≤ t.start
  /-- No span is empty. -/
  start_lt_stop : ∀ t ∈ scan.tokens, t.start < t.stop
  /-- No span goes beyond where the scan ended. -/
  stop_le : ∀ t ∈ scan.tokens, t.stop ≤ scan.ending.position
  /-- The spans are in order and do not overlap. -/
  ordered : scan.tokens.Pairwise fun t u => t.stop ≤ u.start
  /-- The tokens are in the text. -/
  holds : ∀ t ∈ scan.tokens, Holds cs t
  /-- Outside of the spans there are only spaces. -/
  spaces : ∀ i c, position ≤ i → i < scan.ending.position → cs[i]? = some c →
    (∀ t ∈ scan.tokens, ¬(t.start ≤ i ∧ i < t.stop)) → Text.isSpace c = true
  /-- The scan does not end before the position. -/
  le_ending : position ≤ scan.ending.position
  /-- The scan ended for a reason that is in the text. -/
  ending : scan.ending.Holds cs

/-! ### Building up a scan -/

section Step

variable {position : Nat} {cs : List Char} {scan : Scan}

theorem covers_of_ending {e : Ending} (hposition : e.position = position) (he : e.Holds cs) :
    Covers position cs ⟨[], e⟩ where
  le_start := by simp
  start_lt_stop := by simp
  stop_le := by simp
  ordered := .nil
  holds := by simp
  spaces i _ hle hlt := absurd (hposition ▸ hlt) (Nat.not_lt.mpr hle)
  le_ending := Nat.le_of_eq hposition.symm
  ending := he

/-- A space before what is covered. -/
theorem Covers.space {c : Char} (hc : cs[position]? = some c) (hspace : Text.isSpace c = true)
    (h : Covers (position + 1) cs scan) : Covers position cs scan where
  le_start t ht := Nat.le_of_succ_le (h.le_start t ht)
  start_lt_stop := h.start_lt_stop
  stop_le := h.stop_le
  ordered := h.ordered
  holds := h.holds
  spaces i d hle hlt hd hout := by
    rcases Nat.eq_or_lt_of_le hle with rfl | hlt'
    · obtain rfl : c = d := Option.some.inj (hc.symm.trans hd)
      exact hspace
    · exact h.spaces i d hlt' hlt hd hout
  le_ending := Nat.le_of_succ_le h.le_ending
  ending := h.ending

/-- A token before what is covered. -/
theorem Covers.cons {t : Token} (hlt : t.start < t.stop) (ht : Holds cs t)
    (h : Covers t.stop cs scan) : Covers t.start cs (scan.cons t) where
  le_start := List.forall_mem_cons.mpr
    ⟨Nat.le_refl _, fun u hu => Nat.le_trans (Nat.le_of_lt hlt) (h.le_start u hu)⟩
  start_lt_stop := List.forall_mem_cons.mpr ⟨hlt, h.start_lt_stop⟩
  stop_le := List.forall_mem_cons.mpr ⟨h.le_ending, h.stop_le⟩
  ordered := .cons h.le_start h.ordered
  holds := List.forall_mem_cons.mpr ⟨ht, h.holds⟩
  spaces i c hle hend hc hout := by
    obtain ⟨hfirst, hrest⟩ := List.forall_mem_cons.mp hout
    have hstop : t.stop ≤ i := Nat.le_of_not_lt fun hi => hfirst ⟨hle, hi⟩
    exact h.spaces i c hstop hend hc hrest
  le_ending := Nat.le_trans (Nat.le_of_lt hlt) h.le_ending
  ending := h.ending

end Step

/-- A list that goes on with some items from a position on. -/
theorem drop_eq_cons {α : Type} {cs rest : List α} {c : α} {position : Nat}
    (h : cs.drop position = c :: rest) :
    cs[position]? = some c ∧ cs.drop (position + 1) = rest := by
  refine ⟨?_, ?_⟩
  · rw [← List.head?_drop, h]
    rfl
  · rw [← List.tail_drop, h]
    rfl

theorem lt_length_of_drop_eq_cons {α : Type} {cs rest : List α} {c : α} {position : Nat}
    (h : cs.drop position = c :: rest) : position < cs.length :=
  (List.getElem?_eq_some_iff.mp (drop_eq_cons h).1).1

/-- **The scan of what is left of a text** covers it. -/
theorem covers_startingAt {whole cs : List Char} {position : Nat} (hle : position ≤ whole.length)
    (hcs : whole.drop position = cs) : Covers position whole (startingAt position cs) := by
  fun_induction startingAt position cs with
  | case1 position =>
    exact covers_of_ending rfl (Nat.le_antisymm hle (List.drop_eq_nil_iff.mp hcs))
  | case2 position c rest hc ih =>
    obtain ⟨hhere, hrest⟩ := drop_eq_cons hcs
    have hlt : position < whole.length := lt_length_of_drop_eq_cons hcs
    exact (ih hlt hrest).space hhere hc
  | case3 position c rest hc shown hl =>
    obtain ⟨hhere, hrest⟩ := drop_eq_cons hcs
    refine covers_of_ending rfl ⟨c, hhere, Bool.eq_false_iff.mpr hc, ?_⟩
    rw [hrest, hl]
  | case4 position c rest hc l width hl ih =>
    obtain ⟨hhere, hrest⟩ := drop_eq_cons hcs
    have hpos := width_pos_of_lexeme? hl
    have hlength : whole.length = position + (rest.length + 1) := by
      rw [← List.length_cons, ← hcs, List.length_drop]
      omega
    have hwidth := width_le_of_lexeme? hl
    have hbehind : whole.drop (position + width) = rest.drop (width - 1) := by
      rw [← hrest, List.drop_drop]
      congr 1
      omega
    refine .cons (t := ⟨l, position, position + width⟩) (Nat.lt_add_of_pos_right hpos)
      ⟨c, hhere, Bool.eq_false_iff.mpr hc, ?_⟩ (ih (by omega) hbehind)
    rw [hrest, hl, Nat.add_sub_cancel_left]

/-- **The scan of a text covers it.** -/
theorem covers_ofChars (cs : List Char) : Covers 0 cs (ofChars cs) :=
  covers_startingAt (Nat.zero_le _) rfl

/-- A scan ends in its text or right behind it. -/
theorem Covers.ending_position_le {position : Nat} {cs : List Char} {scan : Scan}
    (h : Covers position cs scan) : scan.ending.position ≤ cs.length := by
  have hending := h.ending
  cases hscan : scan.ending with
  | finished length =>
    rw [hscan] at hending
    exact Nat.le_of_eq hending
  | failed p shown =>
    rw [hscan] at hending
    obtain ⟨c, hc, -⟩ := hending
    exact Nat.le_of_lt (List.getElem?_eq_some_iff.mp hc).1

end Scan

namespace Query

open Scan (Covers Cursor)

/-- **The tokens of a text that is not blank cover it**, and a cursor at its start hands out
one after the other, then how the scan ended, and then nothing. -/
theorem scan_covers {text : String} (h : ∃ c ∈ text.toList, Text.isBlank c = false) :
    ∃ s, scan text = .ok s ∧ (∀ n, (Cursor.start text.toList).nth n = s.items[n]?) ∧
      Covers 0 text.toList s := by
  have hblank : ¬text.toList.all Text.isBlank = true := by
    obtain ⟨c, hc, hvisible⟩ := h
    intro hall
    rw [List.all_eq_true.mp hall c hc] at hvisible
    exact Bool.noConfusion hvisible
  refine ⟨Scan.ofChars text.toList, if_neg hblank, fun n => Cursor.nth_start n _, ?_⟩
  exact Scan.covers_ofChars text.toList

/-- A text whose scan fails behind a quoted name: what stands in front of the failing
character is covered. -/
theorem scan_covers_of_failed :
    (∃ c ∈ "a \"ü\" ^".toList, Text.isBlank c = false) ∧
      ∃ s, scan "a \"ü\" ^" = .ok s ∧ s.ending = .failed 6 "^" ∧
        (s.tokens.map fun t => (t.start, t.stop)) = [(0, 1), (2, 5)] ∧
        Covers 0 "a \"ü\" ^".toList s := by
  have hvisible : ∃ c ∈ "a \"ü\" ^".toList, Text.isBlank c = false :=
    ⟨'a', by decide +kernel, by decide +kernel⟩
  obtain ⟨s, hs, -, hcovers⟩ := scan_covers hvisible
  obtain rfl : Scan.ofChars "a \"ü\" ^".toList = s :=
    Except.ok.inj ((if_neg (by decide +kernel)).symm.trans hs)
  exact ⟨hvisible, _, hs, by decide +kernel, by decide +kernel, hcovers⟩

end Query

end JsonQuery
