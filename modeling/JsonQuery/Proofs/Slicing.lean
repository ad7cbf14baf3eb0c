import JsonQuery.Expr.Evaluation
import JsonQuery.Json.Walk

/-!
# What a slice picks

A slice is described in three ways. `JsonQuery.Positions.slice`, by which expressions are
evaluated, counts the places of the run and collects the items there, unless the step from one
of them overflows. `JsonQuery.Walk.slice` goes from place to place, in words of sixty-four
bits, and stops short if it adds too much or looks where there is nothing. And what a slice
should **pick** is said place by place (`JsonQuery.Positions.Picks`): the items at `start`,
`start + step`, `start + 2 * step` and so on, as long as these places lie before the stop.

Evaluating a slice comes to the same as walking, overflows included
(`JsonQuery.Expr.evaluate_slice_walk`), and where nothing overflows all three agree
(`JsonQuery.Expr.slice_picks`). The reason is an invariant of the walk that has two halves. A
place is never behind the end of the list that the walk comes from
(`JsonQuery.Walk.OnCourse`), which a step in the direction of the walk cannot change; and the
stop is not beyond the end that it goes to (`JsonQuery.Walk.IsStop`). So a place before the
stop is a place of the list, and from there one more step fits into a word if the step and the
length together do. The bounds are such that the walk starts out like that, whatever they are
given as. And every step makes the distance to the stop less, so there are no more rounds than
items.
-/

namespace JsonQuery

namespace Walk

/-! ### Places before a stop -/

theorem isBefore_of_pos {step stop place : Int} (h : 0 < step) :
    isBefore step stop place = true ↔ place < stop := by
  simp [isBefore, h, Int.not_lt.mpr (Int.le_of_lt h)]

theorem isBefore_of_neg {step stop place : Int} (h : step < 0) :
    isBefore step stop place = true ↔ stop < place := by
  simp [isBefore, h, Int.not_lt.mpr (Int.le_of_lt h)]

/-- That a place is not behind the end of a list that walks of a step come from. -/
def OnCourse (length : Nat) (step place : Int) : Prop :=
  (0 < step → 0 ≤ place) ∧ (step < 0 → place < length)

/-- That a place is not beyond the end of a list that walks of a step go to. -/
def IsStop (length : Nat) (step stop : Int) : Prop :=
  (0 < step → stop ≤ length) ∧ (step < 0 → -1 ≤ stop)

section Course

variable {length : Nat} {step stop place : Int}

/-- Walking on keeps the course. -/
theorem OnCourse.add (h : OnCourse length step place) : OnCourse length step (place + step) := by
  rw [OnCourse] at *
  omega

/-- After any number of steps a walk is still on its course. -/
theorem OnCourse.add_mul (h : OnCourse length step place) (k : Nat) :
    OnCourse length step (place + k * step) := by
  induction k with
  | zero => simpa using h
  | succ k ih =>
    have hnext : place + (k + 1 : Nat) * step = place + k * step + step := by
      rw [Int.natCast_succ, Int.add_mul, Int.one_mul, Int.add_assoc]
    rw [hnext]
    exact ih.add

/-- **A place before the stop is a place of the list.** -/
theorem OnCourse.within (h : OnCourse length step place) (hstop : IsStop length step stop)
    (hstep : step ≠ 0) (hbefore : isBefore step stop place = true) :
    0 ≤ place ∧ place < length := by
  obtain ⟨hpos, hneg⟩ := h
  obtain ⟨hstoppos, hstopneg⟩ := hstop
  rcases Int.lt_or_gt_of_ne hstep with hlt | hgt
  · rw [isBefore_of_neg hlt] at hbefore
    have hplace := hneg hlt
    have hend := hstopneg hlt
    omega
  · rw [isBefore_of_pos hgt] at hbefore
    have hplace := hpos hgt
    have hend := hstoppos hgt
    omega

end Course

end Walk

namespace Positions

open Walk (isBefore isBefore_of_pos isBefore_of_neg OnCourse IsStop)

variable {α : Type}

/-! ### The places of a run -/

section Run

variable {start stop step : Int}

/-- **The number of places** of a run: as many as there are before the stop. -/
theorem lt_count_iff (hstep : step ≠ 0) (k : Nat) :
    k < count start stop step ↔ isBefore step stop (start + k * step) = true := by
  -- both ways round, the distance to go is divided by the length of a step and rounded up
  have hdiv {d s : Int} (hs : 0 < s) : k < ((d + s - 1) / s).toNat ↔ (k : Int) * s < d := by
    rw [Int.lt_toNat, Int.lt_iff_add_one_le, Int.le_ediv_iff_mul_le hs, Int.add_mul]
    omega
  rw [count]
  split
  · next hpos =>
    rw [hdiv hpos, isBefore_of_pos hpos]
    omega
  · next hneg =>
    have hlt : step < 0 := by omega
    have hback : start - stop - step - 1 = start - stop + -step - 1 := by omega
    rw [hback, hdiv (by omega), isBefore_of_neg hlt, Int.mul_neg]
    omega

theorem length_run : (run start stop step).length = count start stop step := by
  rw [run, List.length_map, List.length_range]

theorem getElem?_run (hstep : step ≠ 0) (k : Nat) :
    (run start stop step)[k]? =
      if isBefore step stop (start + k * step) then some (start + k * step) else none := by
  rw [run, List.getElem?_map]
  split
  · next h => rw [List.getElem?_range ((lt_count_iff hstep k).mpr h), Option.map_some]
  · next h =>
    have hle : (List.range (count start stop step)).length ≤ k := by
      rw [List.length_range]
      exact Nat.le_of_not_lt fun hlt => h ((lt_count_iff hstep k).mp hlt)
    rw [List.getElem?_eq_none hle, Option.map_none]

/-- A run from a place before the stop: the place, and the run from the next one. -/
theorem run_of_isBefore (hstep : step ≠ 0) (h : isBefore step stop start = true) :
    run start stop step = start :: run (start + step) stop step := by
  refine List.ext_getElem? fun k => ?_
  cases k with
  | zero => simp [getElem?_run hstep, h]
  | succ k =>
    have hplace : start + (k + 1 : Nat) * step = start + step + k * step := by
      rw [Int.natCast_succ, Int.add_mul, Int.one_mul]
      omega
    rw [List.getElem?_cons_succ, getElem?_run hstep, getElem?_run hstep, hplace]

theorem run_of_not_isBefore (hstep : step ≠ 0) (h : ¬isBefore step stop start = true) :
    run start stop step = [] := by
  have hzero : ¬0 < count start stop step := by
    rw [lt_count_iff hstep]
    simpa using h
  rw [← List.length_eq_zero_iff, length_run]
  omega

end Run

/-! ### The bounds -/

theorem onCourse_first (length : Nat) (step : Int) (start : Option Int) :
    OnCourse length step (first length step start) := by
  cases start with
  | none => simp only [OnCourse, first, lowest, highest]; omega
  | some position => simp only [OnCourse, first, clamp, lowest, highest]; omega

theorem isStop_last (length : Nat) (step : Int) (stop : Option Int) :
    IsStop length step (last length step stop) := by
  cases stop with
  | none => simp only [IsStop, last, lowest, highest]; omega
  | some position => simp only [IsStop, last, clamp, lowest, highest]; omega

/-- A run within a list has no more places than the list has items. -/
theorem count_le {length : Nat} {start stop step : Int} (hstep : step ≠ 0)
    (hstart : OnCourse length step start) (hstop : IsStop length step stop) :
    count start stop step ≤ length := by
  refine Nat.le_of_not_lt fun hlt => ?_
  rw [lt_count_iff hstep] at hlt
  obtain ⟨hpos, hneg⟩ := hstart
  obtain ⟨hstoppos, hstopneg⟩ := hstop
  rcases Int.lt_or_gt_of_ne hstep with hdown | hup
  · rw [isBefore_of_neg hdown] at hlt
    have hfar : (length : Int) * step ≤ length * -1 :=
      Int.mul_le_mul_of_nonneg_left (by omega) (by omega)
    have hend := hstopneg hdown
    have hplace := hneg hdown
    omega
  · rw [isBefore_of_pos hup] at hlt
    have hfar : (length : Int) * 1 ≤ length * step :=
      Int.mul_le_mul_of_nonneg_left (by omega) (by omega)
    have hend := hstoppos hup
    have hplace := hpos hup
    omega

section Within

variable {length : Nat} {start stop step place : Int}

/-- **Every place of a run** is a place of the list. -/
theorem within_of_mem_run (hstep : step ≠ 0) (hstart : OnCourse length step start)
    (hstop : IsStop length step stop) (h : place ∈ run start stop step) :
    0 ≤ place ∧ place < length := by
  obtain ⟨k, hk⟩ := List.getElem?_of_mem h
  rw [getElem?_run hstep] at hk
  split at hk
  · next hbefore =>
    obtain rfl := Option.some.inj hk
    exact (hstart.add_mul k).within hstop hstep hbefore
  · exact absurd hk (by simp)

end Within

/-! ### Overflows -/

section Overflow

variable {length : Nat} {step place : Int}

/-- On lists that are no longer than words can count, a sum of words **overflows** if and only
if it is no word. -/
theorem overflows_eq (hlength : length < 9223372036854775808)
    (hstep : Number.fitsSigned step = true) (hplace : 0 ≤ place ∧ place < length) :
    overflows length step place = !Number.fitsSigned (place + step) := by
  rw [Number.fitsSigned_iff] at hstep
  rw [overflows, Bool.and_eq_right_iff_imp, Bool.not_eq_true', decide_eq_true_eq]
  intro hfits
  have hword : ¬(-9223372036854775808 ≤ place + step ∧ place + step < 9223372036854775808) := by
    rw [← Number.fitsSigned_iff, hfits]
    exact Bool.false_ne_true
  omega

theorem overflows_eq_false (hsmall : step.natAbs + length < 9223372036854775808)
    (hplace : 0 ≤ place ∧ place < length) : overflows length step place = false := by
  have hfits : Number.fitsSigned (place + step) = true := Number.fitsSigned_iff.mpr (by omega)
  rw [overflows, hfits]
  exact Bool.and_false _

/-- **No overflow** where a step from an item is a word at all events. -/
theorem overflow?_eq_none (start stop : Option Int) (hstep : step ≠ 0)
    (hsmall : step.natAbs + length < 9223372036854775808) :
    overflow? length start stop step = none := by
  rw [overflow?, List.find?_eq_none]
  intro place hmem
  have hplace := within_of_mem_run hstep (onCourse_first ..) (isStop_last ..) hmem
  rw [overflows_eq_false hsmall hplace]
  exact Bool.false_ne_true

/-- **An overflow** comes from a place of the list and a step of more than one place. -/
theorem of_overflow?_eq_some {start stop : Option Int} (hstep : step ≠ 0)
    (h : overflow? length start stop step = some place) :
    (0 ≤ place ∧ place < length) ∧ 1 < step ∧ Number.fitsSigned (place + step) = false := by
  have hplace := within_of_mem_run hstep (onCourse_first ..) (isStop_last ..)
    (List.mem_of_find?_eq_some h)
  have hover := List.find?_some h
  rw [overflows, Bool.and_eq_true, decide_eq_true_eq, Bool.not_eq_true'] at hover
  exact ⟨hplace, by omega, hover.2⟩

end Overflow

/-! ### The items of a run -/

/-- The items at some places. -/
def itemsAt (items : List α) (places : List Int) : List α :=
  places.filterMap fun place => items[place.toNat]?

theorem itemsAt_cons {items : List α} {place : Int} {a : α}
    (h : items[place.toNat]? = some a) (places : List Int) :
    itemsAt items (place :: places) = a :: itemsAt items places :=
  List.filterMap_cons_some h

/-- The items at places of the list are as many as the places, and in their order. -/
theorem getElem?_itemsAt {items : List α} {places : List Int}
    (h : ∀ place ∈ places, 0 ≤ place ∧ place < items.length) (k : Nat) :
    (itemsAt items places)[k]? = places[k]?.bind fun place => items[place.toNat]? := by
  induction places generalizing k with
  | nil => rfl
  | cons place places ih =>
    obtain ⟨hplace, hplaces⟩ := List.forall_mem_cons.mp h
    have hitem : items[place.toNat]? = some items[place.toNat] :=
      List.getElem?_eq_getElem (by omega)
    rw [itemsAt_cons hitem]
    cases k with
    | zero => simp [hitem]
    | succ k => exact ih hplaces k

/-- That some items are what a run **picks** that starts at a place and goes on in steps: the
items at its places as long as these lie before a stop, each of which is a place of the list,
and no more. -/
structure Picks (items : List α) (start step : Int) (before : Int → Prop) (picked : List α) :
    Prop where
  /-- The places before the stop are places of the list. -/
  within (k : Nat) : before (start + k * step) →
    0 ≤ start + k * step ∧ start + k * step < items.length
  /-- What is picked from a place before the stop is the item there. -/
  item (k : Nat) : before (start + k * step) →
    picked[k]? = items[(start + k * step).toNat]?
  /-- From a place that is not before the stop nothing is picked. -/
  ended (k : Nat) : ¬before (start + k * step) → picked[k]? = none

/-- **A run picks the items of its places.** -/
theorem picks_run {items : List α} {start stop step : Int} (hstep : step ≠ 0)
    (hstart : OnCourse items.length step start) (hstop : IsStop items.length step stop) :
    Picks items start step (fun place => isBefore step stop place = true)
      (itemsAt items (run start stop step)) := by
  have hwithin (k : Nat) (h : isBefore step stop (start + k * step) = true) :
      0 ≤ start + k * step ∧ start + k * step < items.length :=
    (hstart.add_mul k).within hstop hstep h
  have hplaces : ∀ place ∈ run start stop step, 0 ≤ place ∧ place < items.length :=
    fun place => within_of_mem_run hstep hstart hstop
  refine ⟨hwithin, fun k h => ?_, fun k h => ?_⟩
  · rw [getElem?_itemsAt hplaces, getElem?_run hstep, if_pos h, Option.bind_some]
  · rw [getElem?_itemsAt hplaces, getElem?_run hstep, if_neg h, Option.bind_none]

end Positions

namespace Walk

open Positions (run count itemsAt)

variable {α : Type} {items : List α} {step stop : Int}

/-! ### The bounds in words -/

theorem sum_eq {a b : Int} (h : Number.fitsSigned (a + b) = true) : sum a b = .ok (a + b) := by
  rw [sum, if_pos h]

section Bounds

variable {length : Nat} {step : Int}

/-- Capping a bound brings it into the range of a run. -/
theorem cap_eq (hlength : length < 9223372036854775808) {bound : Int}
    (hbound : Number.fitsSigned bound = true) :
    cap length step bound = .ok (Positions.clamp length step bound) := by
  rw [Number.fitsSigned_iff] at hbound
  have hsum (h : bound < 0) : sum bound length = .ok (bound + length) :=
    sum_eq (Number.fitsSigned_iff.mpr (by omega))
  have hlast : sum length (-1) = .ok ((length : Int) + -1) :=
    sum_eq (Number.fitsSigned_iff.mpr (by omega))
  simp only [cap, Positions.clamp, Positions.lowest, Positions.highest, Positions.fromFront]
  split
  · next hneg =>
    rw [hsum hneg]
    refine congrArg Except.ok ?_
    split <;> omega
  · split
    · split
      · rw [hlast]
        refine congrArg Except.ok ?_
        omega
      · refine congrArg Except.ok ?_
        omega
    · refine congrArg Except.ok ?_
      omega

theorem first_eq (hlength : length < 9223372036854775808) {start : Option Int}
    (hstart : ∀ bound ∈ start, Number.fitsSigned bound = true) :
    first length step start = .ok (Positions.first length step start) := by
  cases start with
  | some bound => exact cap_eq hlength (hstart bound rfl)
  | none =>
    simp only [first, Positions.first, Positions.highest, Positions.lowest]
    split
    · exact sum_eq (Number.fitsSigned_iff.mpr (by omega))
    · rfl

theorem last_eq (hlength : length < 9223372036854775808) {stop : Option Int}
    (hstop : ∀ bound ∈ stop, Number.fitsSigned bound = true) :
    last length step stop = .ok (Positions.last length step stop) := by
  cases stop with
  | some bound => exact cap_eq hlength (hstop bound rfl)
  | none =>
    simp only [last, Positions.last, Positions.highest, Positions.lowest]
    split <;> rfl

end Bounds

/-! ### The rounds -/

/-- **One round** from a place of the list picks up the item there, unless the step from it is
too long. -/
theorem round_eq {w : Walk α} (hplace : 0 ≤ w.place ∧ w.place < items.length) :
    round items step w = (sum w.place step).map fun place =>
      ⟨place, w.taken ++ itemsAt items [w.place]⟩ := by
  have hget : items[w.place.toNat]? = some items[w.place.toNat] :=
    List.getElem?_eq_getElem (by omega)
  have hitem : item items w.place = .ok items[w.place.toNat] := by
    rw [item, if_pos hplace.1, hget]
  rw [round, hitem, Positions.itemsAt_cons hget]
  rfl

/-- **All rounds**: a walk that is on its course stops short only if the step from one of the
places that are left is too long, and otherwise picks up the items there. There is one round for
each place, and one more look. -/
theorem loop_eq (hstep : step ≠ 0) (hlength : items.length < 9223372036854775808)
    (hword : Number.fitsSigned step = true) (hstop : IsStop items.length step stop) {w : Walk α}
    (hcourse : OnCourse items.length step w.place) {fuel : Nat}
    (hfuel : count w.place stop step < fuel) :
    loop items step stop fuel w =
      some (if (run w.place stop step).any (Positions.overflows items.length step) then
        .error .overflow else .ok (w.taken ++ itemsAt items (run w.place stop step))) := by
  induction fuel generalizing w with
  | zero => exact absurd hfuel (Nat.not_lt_zero _)
  | succ fuel ih =>
    rw [loop]
    split
    · next hbefore =>
      have hrun := Positions.run_of_isBefore hstep hbefore
      have hplace := hcourse.within hstop hstep hbefore
      have hcount : count w.place stop step = count (w.place + step) stop step + 1 := by
        rw [← Positions.length_run, hrun, List.length_cons, Positions.length_run]
      rw [round_eq hplace, hrun, List.any_cons, Positions.overflows_eq hlength hword hplace]
      cases hfits : Number.fitsSigned (w.place + step) with
      | true =>
        rw [sum_eq hfits]
        simp only [Except.map, Bool.not_true, Bool.false_or]
        rw [ih hcourse.add (by simp only; omega), List.append_assoc, itemsAt, itemsAt, itemsAt,
          ← List.filterMap_append, List.singleton_append]
      | false =>
        rw [sum, if_neg (by rw [hfits]; exact Bool.false_ne_true)]
        rfl
    · next hdone =>
      rw [Positions.run_of_not_isBefore hstep hdone, itemsAt, List.filterMap_nil, List.append_nil]
      rfl

/-- **Walking a slice** comes to an end after no more rounds than there are items. It picks up
the items of the slice if no step overflows. -/
theorem slice_eq {start stop step : Option Int}
    (hstart : ∀ bound ∈ start, Number.fitsSigned bound = true)
    (hstop : ∀ bound ∈ stop, Number.fitsSigned bound = true) (hstep : step.getD 1 ≠ 0)
    (hword : Number.fitsSigned (step.getD 1) = true)
    (hlength : items.length < 9223372036854775808) {fuel : Nat} (hfuel : items.length < fuel) :
    slice items start stop step fuel =
      some (if (Positions.overflow? items.length start stop (step.getD 1)).isSome then
        .error .overflow else .ok (Positions.slice items start stop (step.getD 1))) := by
  have hcourse := Positions.onCourse_first items.length (step.getD 1) start
  have hend := Positions.isStop_last items.length (step.getD 1) stop
  have hbounds : bounds items.length (step.getD 1) start stop =
      .ok (Positions.first items.length (step.getD 1) start,
        Positions.last items.length (step.getD 1) stop) := by
    rw [bounds, first_eq hlength hstart, last_eq hlength hstop]
    rfl
  simp only [slice, if_neg hstep, hbounds, Positions.overflow?, List.isSome_find?]
  exact loop_eq hstep hlength hword hend hcourse
    (Nat.lt_of_le_of_lt (Positions.count_le hstep hcourse hend) hfuel)

end Walk

namespace Positions

/-- A position counted from the front and brought into a range. -/
def into (length : Nat) (lowest highest position : Int) : Int :=
  max lowest (min highest (fromFront length position))

variable {length : Nat} {step : Int}

theorem first_of_pos (h : 0 < step) (start : Option Int) :
    first length step start = (start.map (into length 0 length)).getD 0 := by
  cases start <;> simp [first, clamp, into, lowest, highest, Int.not_lt.mpr (Int.le_of_lt h)]

theorem first_of_neg (h : step < 0) (start : Option Int) :
    first length step start = (start.map (into length (-1) (length - 1))).getD (length - 1) := by
  cases start <;> simp [first, clamp, into, lowest, highest, h]

theorem last_of_pos (h : 0 < step) (stop : Option Int) :
    last length step stop = (stop.map (into length 0 length)).getD length := by
  cases stop <;> simp [last, clamp, into, lowest, highest, Int.not_lt.mpr (Int.le_of_lt h)]

theorem last_of_neg (h : step < 0) (stop : Option Int) :
    last length step stop = (stop.map (into length (-1) (length - 1))).getD (-1) := by
  cases stop <;> simp [last, clamp, into, lowest, highest, h]

end Positions

namespace Expr

open Positions (into Picks)

section Walk

variable {items : List Json} {start stop step : Option Int}

theorem evaluate_slice_of_eq_none (hstep : step.getD 1 ≠ 0)
    (h : Positions.overflow? items.length start stop (step.getD 1) = none) (table : Registry) :
    evaluate table (.slice start stop step) (.array items) =
      .ok (.array (Positions.slice items start stop (step.getD 1))) := by
  simp only [evaluate, sliceOf, if_neg hstep, h]

theorem evaluate_slice_of_eq_some (hstep : step.getD 1 ≠ 0) {place : Int}
    (h : Positions.overflow? items.length start stop (step.getD 1) = some place)
    (table : Registry) : evaluate table (.slice start stop step) (.array items) =
      .error (.overflow place (step.getD 1)) := by
  simp only [evaluate, sliceOf, if_neg hstep, h]

/-- **Evaluating a slice is walking**, whatever its bounds and its step are, if these are words
and the array is no longer than words can count. Either both come to the same items, or both
stop short because a step overflows. -/
theorem evaluate_slice_walk (hlength : items.length < 9223372036854775808)
    (hstart : ∀ bound ∈ start, Number.fitsSigned bound = true)
    (hstop : ∀ bound ∈ stop, Number.fitsSigned bound = true)
    (hword : ∀ bound ∈ step, Number.fitsSigned bound = true) (hstep : step.getD 1 ≠ 0)
    {fuel : Nat} (hfuel : items.length < fuel) (table : Registry) :
    (∃ picked, Walk.slice items start stop step fuel = some (.ok picked) ∧
      evaluate table (.slice start stop step) (.array items) = .ok (.array picked)) ∨
    (Walk.slice items start stop step fuel = some (.error .overflow) ∧ ∃ place : Int,
      evaluate table (.slice start stop step) (.array items) =
        .error (.overflow place (step.getD 1))) := by
  have hgiven : Number.fitsSigned (step.getD 1) = true := by
    cases step with
    | none => rfl
    | some bound => exact hword bound rfl
  have hwalk := Walk.slice_eq hstart hstop hstep hgiven hlength hfuel
  cases hover : Positions.overflow? items.length start stop (step.getD 1) with
  | none =>
    left
    rw [hover] at hwalk
    exact ⟨_, hwalk, evaluate_slice_of_eq_none hstep hover table⟩
  | some place =>
    right
    rw [hover] at hwalk
    exact ⟨hwalk, place, evaluate_slice_of_eq_some hstep hover table⟩

/-- Where a step from an item is a word at all events, nothing overflows. -/
theorem evaluate_slice_of_small (hstart : ∀ bound ∈ start, Number.fitsSigned bound = true)
    (hstop : ∀ bound ∈ stop, Number.fitsSigned bound = true) (hstep : step.getD 1 ≠ 0)
    (hsmall : (step.getD 1).natAbs + items.length < 9223372036854775808) :
    (∀ table, evaluate table (.slice start stop step) (.array items) =
      .ok (.array (Positions.slice items start stop (step.getD 1)))) ∧
    ∀ fuel, items.length < fuel → Walk.slice items start stop step fuel =
      some (.ok (Positions.slice items start stop (step.getD 1))) := by
  have hover := Positions.overflow?_eq_none start stop hstep hsmall
  have hword : Number.fitsSigned (step.getD 1) = true := Number.fitsSigned_iff.mpr (by omega)
  refine ⟨evaluate_slice_of_eq_none hstep hover, fun fuel hfuel => ?_⟩
  rw [Walk.slice_eq hstart hstop hstep hword (by omega) hfuel, hover]
  rfl

end Walk

/-- **Slices.** A step of zero is a fault on every array. Otherwise, if the bounds are words
and no step from an item leaves them, a slice evaluates to what its run picks. Forward the run
goes from the start, `0` if it is not given, to before the stop, the length if it is not given,
and given bounds are brought into the range from `0` to the length. Backward it goes from the
last item to before `-1`, and given bounds are brought into the range between these. Walking
from place to place picks the same without adding too much or looking where there is no item,
in no more rounds than there are items. -/
theorem slice_picks (items : List Json) (start stop step : Option Int) :
    ((∀ table, evaluate table (.slice start stop (some 0)) (.array items) = .error .zeroStep) ∧
      ∀ fuel, Walk.slice items start stop (some 0) fuel = some (.error .zeroStep)) ∧
    ((∀ bound ∈ start, Number.fitsSigned bound = true) →
      (∀ bound ∈ stop, Number.fitsSigned bound = true) →
      step.getD 1 ≠ 0 → (step.getD 1).natAbs + items.length < 9223372036854775808 →
      ∃ picked,
        (∀ table, evaluate table (.slice start stop step) (.array items) = .ok (.array picked)) ∧
        (∀ fuel, items.length < fuel →
          Walk.slice items start stop step fuel = some (.ok picked)) ∧
        (0 < step.getD 1 →
          Picks items ((start.map (into items.length 0 items.length)).getD 0) (step.getD 1)
            (fun place => place < (stop.map (into items.length 0 items.length)).getD items.length)
            picked) ∧
        (step.getD 1 < 0 →
          Picks items
            ((start.map (into items.length (-1) (items.length - 1))).getD (items.length - 1))
            (step.getD 1)
            (fun place => (stop.map (into items.length (-1) (items.length - 1))).getD (-1) < place)
            picked)) := by
  refine ⟨⟨fun table => rfl, fun fuel => rfl⟩, fun hstart hstop hstep hsmall => ?_⟩
  have hpicks : Picks items (Positions.first items.length (step.getD 1) start) (step.getD 1)
      (fun place =>
        Walk.isBefore (step.getD 1) (Positions.last items.length (step.getD 1) stop) place = true)
      (Positions.slice items start stop (step.getD 1)) :=
    Positions.picks_run hstep (Positions.onCourse_first ..) (Positions.isStop_last ..)
  obtain ⟨hevaluate, hwalk⟩ := evaluate_slice_of_small hstart hstop hstep hsmall
  refine ⟨Positions.slice items start stop (step.getD 1), hevaluate, hwalk, fun hpos => ?_,
    fun hneg => ?_⟩
  · simp only [Walk.isBefore_of_pos hpos, Positions.first_of_pos hpos,
      Positions.last_of_pos hpos] at hpicks
    exact hpicks
  · simp only [Walk.isBefore_of_neg hneg, Positions.first_of_neg hneg,
      Positions.last_of_neg hneg] at hpicks
    exact hpicks

/-- A slice backward, from beyond the last item and with a stop that is given as far before the
first one as can be. -/
theorem slice_picks_backward :
    (∀ table, evaluate table (.slice (some 9) (some (-9223372036854775808)) (some (-2)))
      (.array [.int 0, .int 1, .int 2, .int 3]) = .ok (.array [.int 3, .int 1])) ∧
    Walk.slice [Json.int 0, .int 1, .int 2, .int 3] (some 9) (some (-9223372036854775808))
      (some (-2)) 5 = some (.ok [.int 3, .int 1]) ∧
    Picks [Json.int 0, .int 1, .int 2, .int 3] 3 (-2) (fun place => -1 < place)
      [.int 3, .int 1] := by
  obtain ⟨picked, heval, hwalk, -, hpicks⟩ :=
    (slice_picks [.int 0, .int 1, .int 2, .int 3] (some 9) (some (-9223372036854775808))
      (some (-2))).2 (by decide) (by decide) (by decide) (by decide)
  obtain rfl : [Json.int 3, .int 1] = picked :=
    Except.ok.inj (Option.some.inj ((Eq.refl _).trans (hwalk 5 (by decide))))
  exact ⟨heval, hwalk 5 (by decide), hpicks (by decide)⟩

end Expr

end JsonQuery
