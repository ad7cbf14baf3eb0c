import JsonQuery.Number.Basic

/-!
# The double nearest to an integer

Rounding is defined by what it does: it divides by the spacing and takes the quotient or the
one after it. Here is what that achieves. The count of units that is found has no more
distance from the count that is rounded than any other count that a double can hold
(`JsonQuery.Double.natAbs_nearest_sub_le`), so the double of an integer is one that is
nearest to it (`JsonQuery.Double.isNearest_ofInt`).

Everything that is known of doubles of integers comes from that. An integer that is the
value of some double is the value of its own (`JsonQuery.Double.value_ofInt_of_value`), which
goes for all integers up to `2 ^ 53` (`JsonQuery.Double.value_ofInt_of_natAbs_le`); rounding never puts two integers in the wrong order
(`JsonQuery.Double.value_ofInt_mono`), though it may put them in the same place; and the
double of an integer is a whole number (`JsonQuery.Double.one_dvd_value_ofInt`).
-/

namespace JsonQuery.Double

/-! ### The grid -/

/-- The grid is coarser at larger counts. -/
theorem spacing_dvd_spacing {a b : Nat} (h : a.log2 ≤ b.log2) : spacing a ∣ spacing b :=
  Nat.pow_dvd_pow 2 (Nat.sub_le_sub_right h 52)

/-- Between a count and the greatest multiple of its spacing below it the grid is the same. -/
theorem spacing_dvd_of_floor_le {n m : Nat} (h : n / spacing n * spacing n ≤ m) :
    spacing n ∣ spacing m := by
  rcases Nat.lt_or_ge n.log2 52 with hsmall | hlarge
  · have hone : spacing n = 1 := by
      simp only [spacing, Nat.pow_eq]
      rw [Nat.sub_eq_zero_of_le (Nat.le_of_lt hsmall), Nat.pow_zero]
    rw [hone]
    exact Nat.one_dvd _
  · have hn : n ≠ 0 := by
      rintro rfl
      exact absurd hlarge (by decide)
    -- the power of two below the count is a multiple of its spacing
    have hsplit : 2 ^ n.log2 = 2 ^ 52 * spacing n := by
      simp only [spacing, Nat.pow_eq, ← Nat.pow_add]
      congr 1
      omega
    have hfloor : 2 ^ n.log2 ≤ n / spacing n * spacing n := by
      rw [hsplit]
      refine Nat.mul_le_mul_right _ ((Nat.le_div_iff_mul_le (spacing_pos n)).2 ?_)
      rw [← hsplit]
      exact Nat.log2_self_le hn
    have hpos : 0 < 2 ^ n.log2 := Nat.two_pow_pos _
    have hm : m ≠ 0 := by omega
    exact spacing_dvd_spacing ((Nat.le_log2 hm).2 (Nat.le_trans hfloor h))

/-! ### Rounding to the nearest count -/

/-- A rounded quotient is off by half at most. -/
theorem two_mul_roundHalfEven (num : Nat) {den : Nat} (h : 0 < den) :
    2 * (roundHalfEven num den * den) ≤ 2 * num + den ∧
      2 * num ≤ 2 * (roundHalfEven num den * den) + den := by
  have hsplit : num / den * den + num % den = num := Nat.div_add_mod' num den
  have hrest : num % den < den := Nat.mod_lt num h
  simp only [roundHalfEven]
  split
  · rw [Nat.add_one_mul (num / den) den]
    omega
  · split
    · rw [Nat.add_one_mul (num / den) den]
      omega
    · omega

/-- No multiple of the spacing is nearer. -/
theorem natAbs_nearest_sub_le_of_dvd {n m : Nat} (h : spacing n ∣ m) :
    ((nearest n 1 : Int) - n).natAbs ≤ ((m : Int) - n).natAbs := by
  obtain ⟨hlow, hhigh⟩ := two_mul_roundHalfEven n (spacing_pos n)
  obtain ⟨k, rfl⟩ := h
  simp only [nearest, Nat.div_one, Nat.one_mul]
  generalize roundHalfEven n (spacing n) = q at hlow hhigh ⊢
  rw [Nat.mul_comm (spacing n) k]
  -- another multiple is further away by a whole step than the one that is off by half a step
  rcases Nat.lt_trichotomy k q with hlt | rfl | hgt
  · have hstep := Nat.mul_le_mul_right (spacing n) hlt
    rw [Nat.succ_mul] at hstep
    omega
  · exact Nat.le_refl _
  · have hstep := Nat.mul_le_mul_right (spacing n) hgt
    rw [Nat.succ_mul] at hstep
    omega

/-- **No count that a double can hold is nearer**: one that is no multiple of the spacing is
further away than the greatest multiple below. -/
theorem natAbs_nearest_sub_le {n m : Nat} (h : spacing m ∣ m) :
    ((nearest n 1 : Int) - n).natAbs ≤ ((m : Int) - n).natAbs := by
  rcases Nat.lt_or_ge m (n / spacing n * spacing n) with hlt | hge
  · have hfloor := natAbs_nearest_sub_le_of_dvd (Nat.dvd_mul_left (spacing n) (n / spacing n))
    have hle : n / spacing n * spacing n ≤ n := Nat.div_mul_le_self n _
    omega
  · exact natAbs_nearest_sub_le_of_dvd (Nat.dvd_trans (spacing_dvd_of_floor_le hge) h)

/-! ### Nearest doubles -/

/-- That no other double is **nearer** to a signed count of units. -/
def IsNearest (x : Double) (v : Int) : Prop :=
  ∀ y : Double, (x.value - v).natAbs ≤ (y.value - v).natAbs

theorem value_ofValue (v : Int) :
    (ofValue v).value = if v < 0 then -(nearest v.natAbs 1 : Int) else nearest v.natAbs 1 := by
  simp only [ofValue, round, value]
  by_cases h : v < 0 <;> simp [h]

theorem isNearest_ofValue (v : Int) : (ofValue v).IsNearest v := by
  intro y
  have hunits := natAbs_nearest_sub_le (n := v.natAbs) y.onGrid
  rw [value_ofValue, value]
  repeat' split
  all_goals omega

theorem one_eq_two_pow : ∃ k, one = Nat.pow 2 k := by
  unfold one
  generalize 1074 = k
  exact ⟨k, rfl⟩

theorem one_pos : 0 < one := by
  obtain ⟨k, hk⟩ := one_eq_two_pow
  rw [hk]
  exact Nat.two_pow_pos k

/-- An integer as a signed count of units. -/
def unitsOf (n : Int) : Int :=
  n * (one : Int)

theorem natAbs_unitsOf (n : Int) : (unitsOf n).natAbs = n.natAbs * one := by
  rw [unitsOf, Int.natAbs_mul, Int.natAbs_natCast]

theorem unitsOf_lt_unitsOf_iff {m n : Int} : unitsOf m < unitsOf n ↔ m < n :=
  Int.mul_lt_mul_right (Int.natCast_pos.mpr one_pos)

theorem unitsOf_inj {m n : Int} : unitsOf m = unitsOf n ↔ m = n :=
  Int.mul_eq_mul_right_iff (Int.natCast_ne_zero.mpr (Nat.ne_of_gt one_pos))

theorem unitsOf_neg_iff {n : Int} : unitsOf n < 0 ↔ n < 0 := by
  have h := unitsOf_lt_unitsOf_iff (m := n) (n := 0)
  rwa [unitsOf.eq_def 0, Int.zero_mul] at h

theorem ofInt_eq_ofValue (n : Int) : ofInt n = ofValue (unitsOf n) := by
  rw [ofInt, ofValue, natAbs_unitsOf]
  simp only [unitsOf_neg_iff]

/-- **The double of an integer is nearest to it.** -/
theorem isNearest_ofInt (n : Int) : (ofInt n).IsNearest (unitsOf n) := by
  rw [ofInt_eq_ofValue]
  exact isNearest_ofValue _

/-- What is the value of a double is not moved. -/
theorem IsNearest.value_eq {x y : Double} (h : x.IsNearest y.value) : x.value = y.value := by
  have hself := h y
  omega

/-- Larger counts have larger nearest doubles, or the same. -/
theorem IsNearest.mono {v w : Int} {x y : Double} (hx : x.IsNearest v) (hy : y.IsNearest w)
    (h : v < w) : x.value ≤ y.value := by
  have hxy := hx y
  have hyx := hy x
  omega

theorem value_ofInt_of_value {n : Int} {x : Double} (h : x.value = unitsOf n) :
    (ofInt n).value = unitsOf n := by
  have hnearest := isNearest_ofInt n
  rw [← h] at hnearest ⊢
  exact hnearest.value_eq

theorem value_ofInt_mono {m n : Int} (h : m ≤ n) : (ofInt m).value ≤ (ofInt n).value := by
  rcases Int.lt_or_eq_of_le h with hlt | rfl
  · exact (isNearest_ofInt m).mono (isNearest_ofInt n) (unitsOf_lt_unitsOf_iff.mpr hlt)
  · exact Int.le_refl _

/-- An integer that the grid is fine enough for is the value of its double. -/
theorem value_ofInt_of_dvd {n : Int} (h : spacing (n.natAbs * one) ∣ n.natAbs * one) :
    (ofInt n).value = unitsOf n := by
  rw [ofInt_eq_ofValue, value_ofValue, natAbs_unitsOf, nearest_self h, ← natAbs_unitsOf]
  split <;> omega

/-- The grid is fine enough for fifty-three significant bits. -/
theorem spacing_dvd_mul_one {m : Nat} (hm : m ≤ Nat.pow 2 53) (j : Nat) :
    spacing (m * Nat.pow 2 j * one) ∣ m * Nat.pow 2 j * one := by
  obtain ⟨k, hk⟩ := one_eq_two_pow
  rw [hk, Nat.mul_assoc, two_pow_mul_two_pow]
  exact spacing_dvd hm

/-- Integers of at most fifty-three significant bits are the values of their doubles. -/
theorem value_ofInt_of_natAbs_eq {n : Int} {m j : Nat} (hm : m ≤ Nat.pow 2 53)
    (h : n.natAbs = m * Nat.pow 2 j) : (ofInt n).value = unitsOf n := by
  refine value_ofInt_of_dvd ?_
  rw [h]
  exact spacing_dvd_mul_one hm j

/-- Up to `2 ^ 53` every integer is the value of its double. -/
theorem value_ofInt_of_natAbs_le {n : Int} (h : n.natAbs ≤ 9007199254740992) :
    (ofInt n).value = unitsOf n :=
  value_ofInt_of_natAbs_eq (j := 0) h (Nat.mul_one _).symm

/-- **The double of an integer is a whole number**: where the grid is coarser than the whole
numbers it is made of them alone, and where it is finer nothing is rounded. -/
theorem one_dvd_value_ofInt (n : Int) : (one : Int) ∣ (ofInt n).value := by
  obtain ⟨k, hk⟩ : ∃ k, spacing (n.natAbs * one) = Nat.pow 2 k := ⟨_, rfl⟩
  obtain ⟨j, hj⟩ := one_eq_two_pow
  rcases Nat.le_total j k with hjk | hkj
  · have hstep : one ∣ spacing (n.natAbs * one / 1) := by
      rw [Nat.div_one, hk, hj]
      exact Nat.pow_dvd_pow 2 hjk
    have hnearest : (one : Int) ∣ nearest (n.natAbs * one) 1 :=
      Int.natCast_dvd_natCast.mpr (Nat.dvd_trans hstep (Nat.dvd_mul_left _ _))
    rw [ofInt_eq_ofValue, value_ofValue, natAbs_unitsOf]
    split
    · exact Int.dvd_neg.mpr hnearest
    · exact hnearest
  · have hdvd : spacing (n.natAbs * one) ∣ n.natAbs * one := by
      refine Nat.dvd_trans ?_ (Nat.dvd_mul_left one n.natAbs)
      rw [hk, hj]
      exact Nat.pow_dvd_pow 2 hkj
    rw [value_ofInt_of_dvd hdvd]
    exact Int.dvd_mul_left _ _

end JsonQuery.Double
