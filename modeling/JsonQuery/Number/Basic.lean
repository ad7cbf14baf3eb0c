import JsonQuery.Number.Double

/-!
# Numbers of a document

A document holds two kinds of number. An **integer** is exact; the ones a document can
hold run from `-2 ^ 63` to `2 ^ 64 - 1` (`JsonQuery.Number.Valid`). Everything else is a
**double**. The two are kept apart, for `1` and `1.0` are written differently, and they
meet in three rules.

* Arithmetic and order are those of doubles, `JsonQuery.Number.toDouble`.
* Equality is that of integers as long as both sides fit sixty-four signed bits, and
  that of doubles otherwise, `JsonQuery.Number.same`.
* A result is an integer again if it is whole and fits sixty-four signed bits,
  `JsonQuery.Number.ofDouble`.
-/

namespace JsonQuery

/-- A number: an exact integer, or a double. -/
inductive Number where
  /-- An exact integer. -/
  | int (n : Int)
  /-- A double. -/
  | float (x : Double)
  deriving DecidableEq, Repr

namespace Number

/-- Whether an integer fits sixty-four signed bits. -/
def fitsSigned (n : Int) : Bool :=
  decide (-9223372036854775808 ≤ n) && decide (n < 9223372036854775808)

theorem fitsSigned_iff {n : Int} :
    fitsSigned n = true ↔ -9223372036854775808 ≤ n ∧ n < 9223372036854775808 := by
  rw [fitsSigned, Bool.and_eq_true, decide_eq_true_eq, decide_eq_true_eq]

/-- Whether an integer is one that a document can hold. -/
def fitsDocument (n : Int) : Bool :=
  decide (-9223372036854775808 ≤ n) && decide (n < 18446744073709551616)

theorem fitsDocument_iff {n : Int} :
    fitsDocument n = true ↔ -9223372036854775808 ≤ n ∧ n < 18446744073709551616 := by
  rw [fitsDocument, Bool.and_eq_true, decide_eq_true_eq, decide_eq_true_eq]

/-- The numbers that a document can hold: integers in range and doubles that are not too
large. -/
def Valid : Number → Prop
  | int n => fitsDocument n = true
  | float x => x.units < Double.limit

/-- The value of an integer that fits sixty-four signed bits. -/
def signed? : Number → Option Int
  | int n => if fitsSigned n then some n else none
  | float _ => none

/-- The double nearest to a number. -/
def toDouble : Number → Double
  | int n => Double.ofInt n
  | float x => x

/-- A double as a number: an integer if it is whole and fits sixty-four signed bits. -/
def ofDouble (x : Double) : Number :=
  if x.isWhole && fitsSigned x.floor then int x.floor else float x

/-- **Equality of numbers**: exact on integers of sixty-four signed bits, that of
doubles on all other pairs. -/
def same (a b : Number) : Bool :=
  match a.signed?, b.signed? with
  | some i, some j => i == j
  | _, _ => a.toDouble.value == b.toDouble.value

/-- The order of numbers is that of their doubles. -/
def compare (a b : Number) : Ordering :=
  a.toDouble.compare b.toDouble

end Number

end JsonQuery
