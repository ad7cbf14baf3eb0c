import JsonQuery.Json.Writer
import JsonQuery.Number.Notation
import JsonQuery.Proofs.ReadingBack
import JsonQuery.Proofs.ShortestDecimal

/-!
# Numbers told by their texts

Two numbers that are written alike are the same (`JsonQuery.Json.numberText_injective`). Of
integers that is a matter of their digits. A double is not told by its digits alone, for zeros
are put in front of them and behind them when they are laid out, and some of the zeros may have
been its own. But what was laid out can be read as a decimal again
(`JsonQuery.Decimal.ofLaidOut`); the zeros do not change which double is nearest to it
(`JsonQuery.Layout.nearest_ofLaidOut_text`), and the double that was written is
(`JsonQuery.Decimal.nearest_shortest`). An integer is told from a double by having neither a
point nor an exponent.
-/

namespace JsonQuery

namespace Decimal

/-! ### Reading what a layout writes -/

/-- The exponent that is written behind the digits of a decimal, if there is one. -/
def exponentBehind : List Char → Int
  | 'e' :: '-' :: digits => -(Nat.ofDigitChars 10 digits 0 : Int)
  | 'e' :: '+' :: digits => Nat.ofDigitChars 10 digits 0
  | _ => 0

/-- The decimal that a text is when it has been laid out. -/
def ofLaidOut (cs : List Char) : Decimal :=
  let (negative, cs) := splitSign cs
  let whole := cs.takeWhile Char.isDigit
  let (places, rest) := splitPlaces (cs.dropWhile Char.isDigit)
  ⟨negative, Nat.ofDigitChars 10 (whole ++ places) 0, exponentBehind rest - places.length⟩

/-- Characters under a sign, of which only a minus sign is written. -/
def signed (negative : Bool) (cs : List Char) : List Char :=
  if negative then '-' :: cs else cs

theorem splitSign_signed (negative : Bool) {cs : List Char}
    (hcs : ∃ c, cs.head? = some c ∧ c.isDigit = true) :
    splitSign (signed negative cs) = (negative, cs) := by
  obtain ⟨c, hhead, hc⟩ := hcs
  cases negative with
  | true => rfl
  | false =>
    rw [signed, if_neg Bool.false_ne_true]
    unfold splitSign
    split
    · cases hhead
      cases hc
    · cases hhead
      cases hc
    · rfl

/-- The parts of a decimal that has been laid out. -/
theorem ofLaidOut_eq {negative : Bool} {whole behind places rest : List Char}
    (hne : whole ≠ []) (hwhole : ∀ c ∈ whole, c.isDigit = true)
    (hbehind : Stops Char.isDigit behind) (hsplit : splitPlaces behind = (places, rest)) :
    ofLaidOut (signed negative (whole ++ behind)) =
      ⟨negative, Nat.ofDigitChars 10 (whole ++ places) 0,
        exponentBehind rest - places.length⟩ := by
  have hhead : ∃ c, (whole ++ behind).head? = some c ∧ c.isDigit = true := by
    obtain ⟨c, cs, rfl⟩ := List.exists_cons_of_ne_nil hne
    exact ⟨c, rfl, hwhole c List.mem_cons_self⟩
  rw [ofLaidOut, splitSign_signed negative hhead]
  dsimp only
  rw [takeWhile_append_of_stops hwhole hbehind, dropWhile_append_of_stops hwhole hbehind, hsplit]

theorem splitPlaces_point {places rest : List Char} (hplaces : ∀ c ∈ places, c.isDigit = true)
    (hrest : Stops Char.isDigit rest) : splitPlaces ('.' :: (places ++ rest)) = (places, rest) := by
  rw [splitPlaces, takeWhile_append_of_stops hplaces hrest, dropWhile_append_of_stops hplaces hrest]

/-- Digits around a point are the coefficient, and those behind it are counted. -/
theorem ofLaidOut_point {negative : Bool} {whole places rest : List Char}
    (hne : whole ≠ []) (hwhole : ∀ c ∈ whole, c.isDigit = true)
    (hplaces : ∀ c ∈ places, c.isDigit = true) (hrest : Stops Char.isDigit rest) :
    ofLaidOut (signed negative (whole ++ '.' :: (places ++ rest))) =
      ⟨negative, Nat.ofDigitChars 10 (whole ++ places) 0,
        exponentBehind rest - places.length⟩ :=
  ofLaidOut_eq hne hwhole (stops_cons rfl _) (splitPlaces_point hplaces hrest)

theorem ofLaidOut_positional (negative : Bool) {whole places : List Char} (hne : whole ≠ [])
    (hwhole : ∀ c ∈ whole, c.isDigit = true) (hplaces : ∀ c ∈ places, c.isDigit = true) :
    ofLaidOut (signed negative (whole ++ '.' :: places)) =
      ⟨negative, Nat.ofDigitChars 10 (whole ++ places) 0, -places.length⟩ := by
  have hnone : Stops Char.isDigit [] := nofun
  have hread := @ofLaidOut_point negative _ _ _ hne hwhole hplaces hnone
  rw [List.append_nil] at hread
  rw [hread, ← Int.zero_sub]
  rfl

end Decimal

namespace Layout

open Decimal (ofLaidOut ofLaidOut_eq ofLaidOut_point ofLaidOut_positional signed exponentBehind)
open Scan (isDigit_of_mem_toDigits)

theorem exponentBehind_sign (e : Int) :
    exponentBehind ('e' :: (if e < 0 then '-' else '+') :: Nat.toDigits 10 e.natAbs) = e := by
  split
  · rw [exponentBehind, Nat.ofDigitChars_ten_toDigits]
    omega
  · rw [exponentBehind, Nat.ofDigitChars_ten_toDigits]
    omega

theorem isDigit_of_mem_zeros {n : Nat} {c : Char} (h : c ∈ List.replicate n '0') :
    c.isDigit = true := by
  rw [List.eq_of_mem_replicate h]
  rfl

section Reading

variable (negative : Bool) (c : Nat)

theorem ofLaidOut_withExponent (e : Int) :
    ofLaidOut (signed negative (withExponent (Nat.toDigits 10 c) e)) =
      ⟨negative, c, e - (decimalLength c - 1)⟩ := by
  have hstops (cs : List Char) : Stops Char.isDigit ('e' :: cs) := stops_cons rfl cs
  have hlength : 0 < decimalLength c := Nat.length_toDigits_pos
  rw [withExponent]
  split
  · next h =>
    have hone : decimalLength c = 1 := Nat.le_antisymm h hlength
    rw [ofLaidOut_eq Nat.toDigits_ne_nil (fun _ => isDigit_of_mem_toDigits) (hstops _) rfl,
      exponentBehind_sign, List.append_nil, Nat.ofDigitChars_ten_toDigits, hone]
    rfl
  · next h =>
    have hfirst : (Nat.toDigits 10 c).take 1 ≠ [] := by
      rw [Ne, List.take_eq_nil_iff]
      exact fun h => h.elim (by decide) Nat.toDigits_ne_nil
    have hplaces : ((Nat.toDigits 10 c).drop 1).length = decimalLength c - 1 := List.length_drop
    rw [List.append_assoc, List.cons_append, ofLaidOut_point hfirst
      (fun _ hc => isDigit_of_mem_toDigits (List.mem_of_mem_take hc))
      (fun _ hc => isDigit_of_mem_toDigits (List.mem_of_mem_drop hc)) (hstops _),
      exponentBehind_sign, List.take_append_drop, Nat.ofDigitChars_ten_toDigits, hplaces]
    congr 1
    omega

theorem ofLaidOut_belowOne (zeros : Nat) :
    ofLaidOut (signed negative (belowOne (Nat.toDigits 10 c) zeros)) =
      ⟨negative, c, -(zeros + decimalLength c)⟩ := by
  have hplaces : ∀ d ∈ List.replicate zeros '0' ++ Nat.toDigits 10 c, d.isDigit = true :=
    fun d hd => (List.mem_append.mp hd).elim isDigit_of_mem_zeros isDigit_of_mem_toDigits
  have hread := ofLaidOut_positional negative (List.cons_ne_nil '0' [])
    (List.forall_mem_singleton.mpr rfl) hplaces
  have hnumber : Nat.ofDigitChars 10 (['0'] ++ (List.replicate zeros '0' ++ Nat.toDigits 10 c)) 0
      = c := by
    have hzero : Nat.ofDigitChars 10 ['0'] 0 = 0 := rfl
    rw [Nat.ofDigitChars_append, Nat.ofDigitChars_append, hzero, Nat.ofDigitChars_replicate_zero,
      Nat.mul_zero, Nat.ofDigitChars_ten_toDigits]
  have hlength : (Nat.toDigits 10 c).length = decimalLength c := rfl
  rw [belowOne]
  refine hread.trans ?_
  rw [hnumber, List.length_append, List.length_replicate, hlength, Int.natCast_add]

theorem nearest_ofLaidOut_around {whole : Nat} (h : 0 < whole) :
    (ofLaidOut (signed negative (around (Nat.toDigits 10 c) whole))).nearest =
      (Decimal.mk negative c (whole - decimalLength c)).nearest := by
  have hlength : (Nat.toDigits 10 c).length = decimalLength c := rfl
  rw [around]
  split
  · next hle =>
    have hdigits : ∀ d ∈ Nat.toDigits 10 c ++ List.replicate (whole - decimalLength c) '0',
        d.isDigit = true :=
      fun d hd => (List.mem_append.mp hd).elim isDigit_of_mem_toDigits isDigit_of_mem_zeros
    have hzero : ∀ d ∈ ['0'], d.isDigit = true := List.forall_mem_singleton.mpr rfl
    have hread := ofLaidOut_positional negative
      (List.append_ne_nil_of_left_ne_nil Nat.toDigits_ne_nil _) hdigits hzero
    have hnumber : Nat.ofDigitChars 10
        (Nat.toDigits 10 c ++ List.replicate (whole - decimalLength c) '0' ++ ['0']) 0 =
          Nat.pow 10 (whole - decimalLength c + 1) * c := by
      rw [List.append_assoc, ← List.replicate_succ', Nat.ofDigitChars_append,
        Nat.ofDigitChars_ten_toDigits, Nat.ofDigitChars_replicate_zero]
      rfl
    rw [hnumber] at hread
    refine (congrArg Decimal.nearest hread).trans ?_
    rw [Decimal.nearest_mul_pow_ten]
    congr 2
    rw [List.length_singleton]
    omega
  · next hlt =>
    have hfirst : (Nat.toDigits 10 c).take whole ≠ [] := by
      rw [Ne, List.take_eq_nil_iff]
      exact fun h' => h'.elim (Nat.ne_of_gt h) Nat.toDigits_ne_nil
    have hplaces : ∀ d ∈ (Nat.toDigits 10 c).drop whole, d.isDigit = true :=
      fun _ hd => isDigit_of_mem_toDigits (List.mem_of_mem_drop hd)
    rw [ofLaidOut_positional negative hfirst
      (fun _ hd => isDigit_of_mem_toDigits (List.mem_of_mem_take hd)) hplaces,
      List.take_append_drop, Nat.ofDigitChars_ten_toDigits, List.length_drop, hlength]
    congr 2
    omega

end Reading

/-- What goes for the three ways to write a decimal goes for its text without the sign. -/
theorem exists_text_eq (layout : Layout) (d : Decimal) {P : List Char → Prop}
    (hexponent : P (withExponent (Nat.toDigits 10 d.coefficient) d.leading))
    (hbelow : d.leading < 0 →
      P (belowOne (Nat.toDigits 10 d.coefficient) (-d.leading - 1).toNat))
    (haround : 0 ≤ d.leading →
      P (around (Nat.toDigits 10 d.coefficient) (d.leading + 1).toNat)) :
    ∃ magnitude, layout.text d = signed d.negative magnitude ∧ P magnitude := by
  refine ⟨_, rfl, ?_⟩
  by_cases hfar : d.leading < layout.least ∨ layout.greatest < d.leading
  · rw [if_pos hfar]
    exact hexponent
  · rw [if_neg hfar]
    split
    · next hneg => exact hbelow hneg
    · next hpos => exact haround (Int.not_lt.mp hpos)

/-- **A decimal that is laid out** is read back for what it is nearest to. -/
theorem nearest_ofLaidOut_text (layout : Layout) (d : Decimal) :
    (ofLaidOut (layout.text d)).nearest = d.nearest := by
  obtain ⟨negative, c, e⟩ := d
  have hlength : 0 < decimalLength c := Nat.length_toDigits_pos
  have hlead : Decimal.leading ⟨negative, c, e⟩ = e + decimalLength c - 1 := rfl
  obtain ⟨magnitude, htext, hread⟩ : ∃ magnitude, layout.text ⟨negative, c, e⟩ =
      signed negative magnitude ∧ (ofLaidOut (signed negative magnitude)).nearest =
        (Decimal.mk negative c e).nearest := by
    refine exists_text_eq layout ⟨negative, c, e⟩ ?_ (fun hneg => ?_) (fun hpos => ?_) <;>
      dsimp only
    · rw [ofLaidOut_withExponent]
      congr 2
      omega
    · rw [ofLaidOut_belowOne]
      congr 2
      omega
    · rw [nearest_ofLaidOut_around negative c (by omega)]
      congr 2
      omega
  rw [htext, hread]

end Layout

namespace Json

/-! ### The characters of a number -/

/-- The characters that numbers are written with. -/
def isNumeral (c : Char) : Bool :=
  c.isDigit || c == '-' || c == '+' || c == '.' || c == 'e'

theorem isNumeral_of_isDigit {c : Char} (h : c.isDigit = true) : isNumeral c = true := by
  simp only [isNumeral, h, Bool.true_or]

/-- The characters by which a number is told from an integer. -/
def isMark (c : Char) : Bool :=
  c == '.' || c == 'e'

theorem isMark_of_isDigit {c : Char} (h : c.isDigit = true) : isMark c = false := by
  rw [isMark, Bool.or_eq_false_iff, beq_eq_false_iff_ne, beq_eq_false_iff_ne]
  constructor <;> (rintro rfl; cases h)

section Digits

open Layout (withExponent belowOne around)

variable {digits : List Char} (h : ∀ c ∈ digits, c.isDigit = true)
include h

theorem isNumeral_of_mem_digits : ∀ c ∈ digits, isNumeral c = true :=
  fun c hc => isNumeral_of_isDigit (h c hc)

theorem isNumeral_of_mem_withExponent (e : Int) :
    ∀ c ∈ withExponent digits e, isNumeral c = true := by
  have hmantissa : ∀ c ∈ (if digits.length ≤ 1 then digits
      else digits.take 1 ++ '.' :: digits.drop 1), isNumeral c = true := by
    split
    · exact isNumeral_of_mem_digits h
    · rw [List.forall_mem_append, List.forall_mem_cons]
      exact ⟨fun c hc => isNumeral_of_isDigit (h c (List.mem_of_mem_take hc)), rfl,
        fun c hc => isNumeral_of_isDigit (h c (List.mem_of_mem_drop hc))⟩
  have hsign : isNumeral (if e < 0 then '-' else '+') = true := by split <;> rfl
  rw [withExponent, List.forall_mem_append, List.forall_mem_cons, List.forall_mem_cons]
  exact ⟨hmantissa, rfl, hsign,
    fun c hc => isNumeral_of_isDigit (Scan.isDigit_of_mem_toDigits hc)⟩

theorem isNumeral_of_mem_belowOne (zeros : Nat) :
    ∀ c ∈ belowOne digits zeros, isNumeral c = true := by
  rw [belowOne, List.forall_mem_cons, List.forall_mem_cons, List.forall_mem_append]
  exact ⟨rfl, rfl, fun c hc => isNumeral_of_isDigit (Layout.isDigit_of_mem_zeros hc),
    isNumeral_of_mem_digits h⟩

theorem isNumeral_of_mem_around (whole : Nat) :
    ∀ c ∈ around digits whole, isNumeral c = true := by
  rw [around]
  split
  · rw [List.forall_mem_append, List.forall_mem_append, List.forall_mem_cons,
      List.forall_mem_singleton]
    exact ⟨⟨isNumeral_of_mem_digits h,
      fun c hc => isNumeral_of_isDigit (Layout.isDigit_of_mem_zeros hc)⟩, rfl, rfl⟩
  · rw [List.forall_mem_append, List.forall_mem_cons]
    exact ⟨fun c hc => isNumeral_of_isDigit (h c (List.mem_of_mem_take hc)), rfl,
      fun c hc => isNumeral_of_isDigit (h c (List.mem_of_mem_drop hc))⟩

end Digits

theorem isNumeral_of_mem_signed {negative : Bool} {cs : List Char}
    (h : ∀ c ∈ cs, isNumeral c = true) : ∀ c ∈ Decimal.signed negative cs, isNumeral c = true := by
  cases negative with
  | false => exact h
  | true => exact List.forall_mem_cons.mpr ⟨rfl, h⟩

/-- A double is written with the characters of numbers. -/
theorem isNumeral_of_mem_text (layout : Layout) (d : Decimal) :
    ∀ c ∈ layout.text d, isNumeral c = true := by
  have hdigits : ∀ c ∈ Nat.toDigits 10 d.coefficient, c.isDigit = true :=
    fun c => Scan.isDigit_of_mem_toDigits
  obtain ⟨magnitude, htext, hall⟩ : ∃ magnitude, layout.text d =
      Decimal.signed d.negative magnitude ∧ ∀ c ∈ magnitude, isNumeral c = true :=
    Layout.exists_text_eq layout d (isNumeral_of_mem_withExponent hdigits _)
      (fun _ => isNumeral_of_mem_belowOne hdigits _) (fun _ => isNumeral_of_mem_around hdigits _)
  rw [htext]
  exact isNumeral_of_mem_signed hall

/-- A double is told from every integer. -/
theorem exists_isMark_of_text (layout : Layout) (d : Decimal) :
    ∃ c ∈ layout.text d, isMark c = true := by
  obtain ⟨magnitude, htext, c, hc, hmark⟩ : ∃ magnitude, layout.text d =
      Decimal.signed d.negative magnitude ∧ ∃ c ∈ magnitude, isMark c = true := by
    refine Layout.exists_text_eq layout d ?_ (fun _ => ?_) (fun _ => ?_)
    · exact ⟨'e', List.mem_append_right _ List.mem_cons_self, rfl⟩
    · exact ⟨'.', List.mem_cons_of_mem _ List.mem_cons_self, rfl⟩
    · refine ⟨'.', ?_, rfl⟩
      rw [Layout.around]
      split <;> exact List.mem_append_right _ List.mem_cons_self
  refine ⟨c, ?_, hmark⟩
  rw [htext, Decimal.signed]
  split
  · exact List.mem_cons_of_mem _ hc
  · exact hc

/-! ### Numbers -/

theorem numberText_int (n : Int) :
    numberText (.int n) = Decimal.signed (n < 0) (Nat.toDigits 10 n.natAbs) := by
  rw [numberText, Decimal.signed]
  simp only [decide_eq_true_eq]

theorem isMark_of_mem_int {n : Int} : ∀ c ∈ numberText (.int n), isMark c = false := by
  have hdigits : ∀ c ∈ Nat.toDigits 10 n.natAbs, isMark c = false :=
    fun c hc => isMark_of_isDigit (Scan.isDigit_of_mem_toDigits hc)
  rw [numberText_int, Decimal.signed]
  split
  · exact List.forall_mem_cons.mpr ⟨rfl, hdigits⟩
  · exact hdigits

theorem isNumeral_of_mem_numberText (n : Number) : ∀ c ∈ numberText n, isNumeral c = true := by
  cases n with
  | int n =>
    rw [numberText_int]
    exact isNumeral_of_mem_signed fun c hc =>
      isNumeral_of_isDigit (Scan.isDigit_of_mem_toDigits hc)
  | float x => exact isNumeral_of_mem_text layout x.shortest

theorem numberText_ne_nil (n : Number) : numberText n ≠ [] := by
  cases n with
  | int n =>
    rw [numberText_int, Decimal.signed]
    split
    · exact List.cons_ne_nil _ _
    · exact Nat.toDigits_ne_nil
  | float x =>
    obtain ⟨c, hc, -⟩ := exists_isMark_of_text layout x.shortest
    exact List.ne_nil_of_mem hc

theorem int_ne_float (n : Int) (x : Double) :
    numberText (.int n) ≠ numberText (.float x) := by
  intro h
  obtain ⟨c, hc, hmark⟩ := exists_isMark_of_text layout x.shortest
  have hc' : c ∈ numberText (.int n) := h ▸ hc
  rw [isMark_of_mem_int c hc'] at hmark
  cases hmark

/-- **A number is told by its text.** -/
theorem numberText_injective : Function.Injective numberText := by
  intro n m h
  cases n with
  | int n =>
    cases m with
    | int m =>
      have hhead (k : Nat) : ∃ c, (Nat.toDigits 10 k).head? = some c ∧ c.isDigit = true := by
        obtain ⟨c, cs, hcs⟩ := List.exists_cons_of_ne_nil (Nat.toDigits_ne_nil (n := k) (b := 10))
        exact ⟨c, by rw [hcs]; rfl,
          Scan.isDigit_of_mem_toDigits (n := k) (hcs ▸ List.mem_cons_self)⟩
      have hsplit := congrArg Decimal.splitSign h
      rw [numberText_int, numberText_int, Decimal.splitSign_signed _ (hhead _),
        Decimal.splitSign_signed _ (hhead _)] at hsplit
      obtain ⟨hsign, hdigits⟩ := Prod.mk.inj hsplit
      have hmagnitude : n.natAbs = m.natAbs := by
        rw [← Nat.ofDigitChars_ten_toDigits (n := n.natAbs), hdigits,
          Nat.ofDigitChars_ten_toDigits]
      have hsign' : n < 0 ↔ m < 0 := decide_eq_decide.mp hsign
      exact congrArg Number.int (by omega)
    | float y => exact absurd h (int_ne_float n y)
  | float x =>
    cases m with
    | int m => exact absurd h.symm (int_ne_float m x)
    | float y =>
      -- the decimals may differ in the zeros at their ends, the doubles nearest to them do not
      have hnearest := congrArg (fun cs => (Decimal.ofLaidOut cs).nearest) h
      simp only [numberText, Layout.nearest_ofLaidOut_text, Decimal.nearest_shortest] at hnearest
      exact congrArg Number.float hnearest

end Json

end JsonQuery
