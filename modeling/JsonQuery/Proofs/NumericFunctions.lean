import JsonQuery.Expr.Evaluation
import JsonQuery.Library
import JsonQuery.Proofs.ReadingBack
import JsonQuery.Proofs.Rounding

/-!
# Integers through the numeric functions

The numeric functions work with doubles. What one of them makes of an integer is therefore at
best the double nearest to it, and this is what rounding up or down, a sum and a mean of a
single number and the number that a text stands for come to
(`JsonQuery.Library.passages_yield`). For rounding up and down the reason is that the double of
an integer is a whole number already; for the sum and the mean, that a double is the nearest
one to its own value; and for the text, that it holds every digit and is rounded once.

The magnitude is the one function that looks at the integer itself. It is exact as long as
there are sixty-four signed bits for it, and on the least such integer, whose magnitude takes
one more, because that one is a power of two (`JsonQuery.Library.units_magnitude`).

Values are compared in units, in which integers and doubles are both whole
(`JsonQuery.Number.units`); whether a result is written as an integer or as a double plays no
role.
-/

namespace JsonQuery

/-! ### Doubles that are finite -/

namespace Double

theorem natAbs_value (x : Double) : x.value.natAbs = x.units := by
  rw [value]
  split <;> omega

/-- Whether a double is finite depends on its value alone. -/
theorem finite?_of_value_eq {x y : Double} (h : y.value = x.value) (hx : x.units < limit) :
    y.finite? = some y := by
  rw [← natAbs_value, ← h, natAbs_value] at hx
  exact if_pos hx

theorem round_self (x : Double) : round x.negative x.units 1 = x := by
  obtain ⟨negative, units, hgrid⟩ := x
  simp only [round, nearest_self hgrid]

/-- Rounding does not take a count beyond one that a double can hold. -/
theorem nearest_le {n m : Nat} (hm : spacing m ∣ m) (h : n ≤ m) : nearest n 1 ≤ m := by
  have hnearest := natAbs_nearest_sub_le (n := n) hm
  omega

/-- Integers of few enough bits are not too large. -/
theorem units_ofInt_lt {n : Int} {j : Nat} (hj : j < 1024) (h : n.natAbs ≤ 1 * Nat.pow 2 j) :
    (ofInt n).units < limit := by
  have hgrid := spacing_dvd_mul_one (m := 1) (by decide) j
  have hle : (ofInt n).units ≤ 1 * Nat.pow 2 j * one :=
    nearest_le hgrid (Nat.mul_le_mul_right one h)
  refine Nat.lt_of_le_of_lt hle ?_
  unfold limit
  revert hj
  generalize 1024 = k
  intro hj
  rw [Nat.one_mul]
  exact Nat.mul_lt_mul_of_pos_right (Nat.pow_lt_pow_right (by decide) hj) one_pos

/-! ### Whole doubles -/

theorem unitsOf_ediv {v : Int} (h : (one : Int) ∣ v) : unitsOf (v / one) = v :=
  Int.ediv_mul_cancel h

theorem value_ofInt_floor {x : Double} (h : (one : Int) ∣ x.value) :
    (ofInt x.floor).value = x.value := by
  have hfloor : unitsOf x.floor = x.value := unitsOf_ediv h
  rw [value_ofInt_of_value hfloor.symm]
  exact hfloor

theorem value_ofInt_ceil {x : Double} (h : (one : Int) ∣ x.value) :
    (ofInt x.ceil).value = x.value := by
  have hceil : unitsOf x.ceil = x.value := by
    rw [ceil, unitsOf, Int.neg_mul, ← unitsOf, unitsOf_ediv (Int.dvd_neg.mpr h), Int.neg_neg]
  rw [value_ofInt_of_value hceil.symm]
  exact hceil

end Double

namespace Number

/-- The **exact value** of a number, in units. -/
def units : Number → Int
  | int n => Double.unitsOf n
  | float x => x.value

/-- A double has the same value as a number. -/
@[simp] theorem units_ofDouble (x : Double) : (ofDouble x).units = x.value := by
  rw [ofDouble]
  split
  · next h =>
    obtain ⟨hwhole, -⟩ := Bool.and_eq_true_iff.mp h
    have hdvd : (Double.one : Int) ∣ x.value := by
      rw [← Int.natAbs_dvd_natAbs, Int.natAbs_natCast, Double.natAbs_value]
      exact Nat.dvd_of_mod_eq_zero (eq_of_beq hwhole)
    exact Double.unitsOf_ediv hdvd
  · rfl

end Number

/-! ### Integers as texts -/

theorem Text.trim_eq_self {cs : List Char} (h : ∀ c ∈ cs, isBlank c = false) : trim cs = cs := by
  have hdrop {ds : List Char} (hds : ∀ c ∈ ds, isBlank c = false) : ds.dropWhile isBlank = ds := by
    cases ds with
    | nil => rfl
    | cons c ds =>
      have hc := hds c List.mem_cons_self
      simp [hc]
  rw [trim, hdrop h, hdrop, List.reverse_reverse]
  intro c hc
  exact h c (List.mem_reverse.mp hc)

namespace Decimal

/-- A sign and digits are a decimal without places and without an exponent. -/
theorem ofText?_of_digits {negative : Bool} {cs digits : List Char}
    (htrim : Text.trim cs = cs) (hsign : splitSign cs = (negative, digits))
    (hdigits : ∀ c ∈ digits, c.isDigit = true) (hne : digits ≠ []) :
    ofText? cs = some ⟨negative, numberOfDigits digits, 0⟩ := by
  have htake : digits.takeWhile Char.isDigit = digits := List.takeWhile_eq_self_iff.mpr hdigits
  have hdrop : digits.dropWhile Char.isDigit = [] := List.dropWhile_eq_nil_iff.mpr hdigits
  have hempty : digits.isEmpty = false := List.isEmpty_eq_false_iff.mpr hne
  simp [ofText?, htrim, hsign, htake, hdrop, hempty, splitPlaces, exponentOf?]

theorem splitSign_of_digits {digits : List Char} (h : ∀ c ∈ digits, c.isDigit = true) :
    splitSign digits = (false, digits) := by
  cases digits with
  | nil => rfl
  | cons c rest =>
    have hc := h c List.mem_cons_self
    unfold splitSign
    split
    · next heq =>
      obtain ⟨rfl, -⟩ := List.cons.inj heq
      exact absurd hc (by decide)
    · next heq =>
      obtain ⟨rfl, -⟩ := List.cons.inj heq
      exact absurd hc (by decide)
    · rfl

/-- The text of an integer is the decimal of its magnitude under its sign. -/
theorem ofText?_numberText (n : Int) :
    ofText? (Json.numberText (.int n)) = some ⟨n < 0, n.natAbs, 0⟩ := by
  have hvalue : numberOfDigits (Nat.toDigits 10 n.natAbs) = n.natAbs := by
    rw [numberOfDigits_eq, Nat.ofDigitChars_toDigits (by decide) (by decide)]
  have hdigits : ∀ c ∈ Nat.toDigits 10 n.natAbs, c.isDigit = true := fun c =>
    Scan.isDigit_of_mem_toDigits
  have hblank : ∀ c ∈ Nat.toDigits 10 n.natAbs, Text.isBlank c = false := fun c hc =>
    Scan.not_isBlank_of_isVisible
      (Scan.isVisible_of_isNamePart (Scan.isNamePart_of_isDigit (hdigits c hc)))
  have hne : Nat.toDigits 10 n.natAbs ≠ [] := Nat.toDigits_ne_nil
  rw [Json.numberText]
  by_cases hneg : n < 0
  · have hminus : Text.isBlank '-' = false := by decide
    have htrim := Text.trim_eq_self (List.forall_mem_cons.mpr ⟨hminus, hblank⟩)
    rw [if_pos hneg, ofText?_of_digits htrim rfl hdigits hne, hvalue, decide_eq_true hneg]
  · rw [if_neg hneg, ofText?_of_digits (Text.trim_eq_self hblank) (splitSign_of_digits hdigits)
      hdigits hne, hvalue, decide_eq_false hneg]

end Decimal

/-- **The number that the text of an integer is** is the double nearest to the integer. -/
theorem Library.numberOfText_numberText {n : Int} (h : (Double.ofInt n).units < Double.limit) :
    numberOfText (Json.numberText (.int n)) = .number (.ofDouble (.ofInt n)) := by
  have hnearest : (Decimal.mk (n < 0) n.natAbs 0).nearest = Double.ofInt n := by
    rw [Decimal.nearest, if_pos (Int.le_refl 0)]
    show Double.round _ (n.natAbs * 1 * Double.one) 1 = _
    rw [Nat.mul_one]
    rfl
  rw [numberOfText, Decimal.ofText?_numberText, Option.bind_some, Decimal.toDouble?_eq, hnearest,
    Double.finite?_of_value_eq rfl h]

/-! ### Sums and magnitudes -/

namespace Library

/-- The sum of a single double has the value of the double. -/
theorem sumDoubles_singleton {x : Double} (hx : x.units < Double.limit) :
    sumDoubles [x] = some (.ofValue x.value) := by
  have hzero : (Double.zero false).value + x.value = x.value := Int.zero_add _
  have hadd : (Double.zero false).add? x = some (.ofValue x.value) := by
    rw [Double.add?, hzero]
    exact Double.finite?_of_value_eq x.value_ofValue_value hx
  rw [sumDoubles, List.foldlM_cons, hadd]
  rfl

/-- Dividing by one changes nothing. -/
theorem divNat?_one {x : Double} (hx : x.units < Double.limit) : x.divNat? 1 = some x := by
  rw [Double.divNat?, Double.round_self]
  exact Double.finite?_of_value_eq rfl hx

/-- The magnitude of an integer that a document can hold: exact as far as sixty-four signed
bits reach, on the least of them because it is a power of two. -/
theorem units_magnitude {n : Int} (h : Number.fitsDocument n = true) :
    (magnitude (.int n)).units =
      if Number.fitsSigned n then Double.unitsOf n.natAbs else (Double.ofInt n).value := by
  rw [Number.fitsDocument_iff] at h
  by_cases hsigned : Number.fitsSigned n = true
  · rw [magnitude, Number.signed?, if_pos hsigned, if_pos hsigned]
    by_cases habs : Number.fitsSigned n.natAbs = true
    · simp only [if_pos habs]
      rfl
    · -- only the least integer of sixty-four signed bits has a magnitude that needs one more
      simp only [if_neg habs]
      have hleast : n = -9223372036854775808 := by
        rw [Number.fitsSigned_iff] at hsigned habs
        omega
      have hvalue : (Double.ofInt n).value = Double.unitsOf n :=
        Double.value_ofInt_of_natAbs_eq (m := 1) (j := 63) (by decide) (by rw [hleast]; rfl)
      rw [Number.units_ofDouble, Double.value_abs]
      show ((Double.ofInt n).value.natAbs : Int) = _
      rw [hvalue, Double.natAbs_unitsOf, Int.natCast_mul]
      rfl
  · rw [magnitude, Number.signed?, if_neg hsigned, if_neg hsigned, Number.units_ofDouble,
      Double.value_abs]
    have hpos : 0 ≤ n := by
      rw [Number.fitsSigned_iff] at hsigned
      omega
    have hzero : (Double.ofInt 0).value = 0 := by decide +kernel
    have hvalue := Double.value_ofInt_mono hpos
    rw [hzero] at hvalue
    exact Int.natAbs_of_nonneg hvalue

end Library

/-! ### Integers through the functions -/

/-- That an expression **yields** a number of a given exact value. -/
def Expr.Yields (e : Expr) (v : Json) (units : Int) : Prop :=
  ∃ r : Number, e.evaluate Registry.standard v = .ok (.number r) ∧ r.units = units

namespace Library

/-- The calls that should pass on the number at hand: rounding it up or down, the sum and the
mean of it alone, and reading back its text. -/
def passages : List Expr :=
  [.call "ceil" [.current], .call "floor" [.current], .call "sum" [.list [.current]],
    .call "avg" [.list [.current]], .call "to_number" [.call "to_string" [.current]]]

/-- **The calls pass on the double of an integer.** -/
theorem passages_yield {n : Int} (hfinite : (Double.ofInt n).units < Double.limit) :
    ∀ e ∈ passages, e.Yields (.int n) (Double.ofInt n).value := by
  have hvalue : (Double.ofValue (Double.ofInt n).value).value = (Double.ofInt n).value :=
    Double.value_ofValue_value _
  have hunits : (Double.ofValue (Double.ofInt n).value).units < Double.limit := by
    rwa [← Double.natAbs_value, hvalue, Double.natAbs_value]
  have hsum := sumDoubles_singleton hfinite
  simp only [passages, List.mem_cons, List.not_mem_nil, or_false, forall_eq_or_imp, forall_eq]
  refine ⟨⟨_, rfl, ?_⟩, ⟨_, rfl, ?_⟩, ⟨.ofDouble (.ofValue (Double.ofInt n).value), ?_, ?_⟩,
    ⟨.ofDouble (.ofValue (Double.ofInt n).value), ?_, ?_⟩, ⟨.ofDouble (.ofInt n), ?_, ?_⟩⟩
  · -- there is nothing to round up or down
    rw [Number.units_ofDouble]
    exact Double.value_ofInt_ceil (Double.one_dvd_value_ofInt n)
  · rw [Number.units_ofDouble]
    exact Double.value_ofInt_floor (Double.one_dvd_value_ofInt n)
  · show Except.ok (doubleValue (sumDoubles [Double.ofInt n])) = _
    rw [hsum]
    rfl
  · rw [Number.units_ofDouble, hvalue]
  · show Except.ok (doubleValue ((sumDoubles [Double.ofInt n]).bind fun x => x.divNat? 1)) = _
    rw [hsum, Option.bind_some, divNat?_one hunits]
    rfl
  · rw [Number.units_ofDouble, hvalue]
  · -- the text holds every digit, so it is the integer itself that is rounded
    show Except.ok (numberOfText (String.ofList (Json.numberText (.int n))).toList) = _
    rw [String.toList_ofList, numberOfText_numberText hfinite]
  · rw [Number.units_ofDouble]

/-- The call for the magnitude of the number at hand. -/
def magnitudeCall : Expr :=
  .call "abs" [.current]

/-- **Integers through the numeric functions.** Every call succeeds and yields the double that
is nearest to the integer; the magnitude is exact as far as sixty-four signed bits reach. So
nothing is lost of an integer that is the value of a double, as all are up to `2 ^ 53`. -/
theorem integers_pass {n : Int} (h : Number.fitsDocument n = true) :
    (Double.ofInt n).IsNearest (Double.unitsOf n) ∧
    (∀ e ∈ passages, e.Yields (.int n) (Double.ofInt n).value) ∧
    magnitudeCall.Yields (.int n)
      (if Number.fitsSigned n then Double.unitsOf n.natAbs else (Double.ofInt n).value) ∧
    ((∃ x : Double, x.value = Double.unitsOf n) →
      (∀ e ∈ passages, e.Yields (.int n) (Double.unitsOf n)) ∧
        magnitudeCall.Yields (.int n) (Double.unitsOf n.natAbs)) ∧
    (n.natAbs ≤ 9007199254740992 → ∃ x : Double, x.value = Double.unitsOf n) := by
  have hrange := Number.fitsDocument_iff.mp h
  have hsize : n.natAbs ≤ 1 * Nat.pow 2 64 := by
    show n.natAbs ≤ 18446744073709551616
    omega
  have hpassages := passages_yield (Double.units_ofInt_lt (by decide) hsize)
  have hmagnitude : magnitudeCall.Yields (.int n)
      (if Number.fitsSigned n then Double.unitsOf n.natAbs else (Double.ofInt n).value) :=
    ⟨_, rfl, units_magnitude h⟩
  refine ⟨Double.isNearest_ofInt n, hpassages, hmagnitude, ?_, fun hsmall => ?_⟩
  · rintro ⟨x, hx⟩
    rw [Double.value_ofInt_of_value hx] at hpassages hmagnitude
    refine ⟨hpassages, ?_⟩
    split at hmagnitude
    · exact hmagnitude
    · next hsigned =>
      have hpos : (n.natAbs : Int) = n := by
        rw [Number.fitsSigned_iff] at hsigned
        omega
      rwa [hpos]
  · exact ⟨_, Double.value_ofInt_of_natAbs_le hsmall⟩

/-- The greatest power of two that a document can hold as an integer. -/
theorem passes_of_two_pow : Number.fitsDocument 9223372036854775808 = true ∧
    ∀ e ∈ passages, e.Yields (.int 9223372036854775808) (Double.unitsOf 9223372036854775808) := by
  refine ⟨by decide, ?_⟩
  have hvalue : (Double.ofInt 9223372036854775808).value = Double.unitsOf 9223372036854775808 :=
    Double.value_ofInt_of_natAbs_eq (m := 1) (j := 63) (by decide) rfl
  exact ((integers_pass (by decide)).2.2.2.1 ⟨_, hvalue⟩).1

/-- **Not every integer passes through**: of one with fifty-four significant bits the last one
is lost. -/
theorem not_ceil_yields : ¬∀ {n : Int}, Number.fitsDocument n = true →
    Expr.Yields (.call "ceil" [.current]) (.int n) (Double.unitsOf n) := by
  intro h
  have hpassage := passages_yield (n := 9007199254740993) (by decide +kernel) _ List.mem_cons_self
  obtain ⟨r, hr, hunits⟩ := h (n := 9007199254740993) (by decide)
  obtain ⟨s, hs, hvalue⟩ := hpassage
  obtain rfl := Json.number.inj (Except.ok.inj (hr.symm.trans hs))
  exact absurd (hunits.symm.trans hvalue) (by decide +kernel)

end Library

end JsonQuery
