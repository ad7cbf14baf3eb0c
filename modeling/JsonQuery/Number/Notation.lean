import JsonQuery.Number.Decimal
import JsonQuery.Text.Blank

/-!
# Numbers in free notation

People write numbers more loosely than documents do. `JsonQuery.Decimal.ofText?` reads a
decimal with either sign or none, with digits on at least one side of the point, leading
zeros as one likes, and an exponent if there is one, whose digits may have a sign as
well. Blanks around the number are not part of it; nothing else is passed over.

An exponent is read no further than to the digit with which it reaches
`JsonQuery.Decimal.exponentReach`. That is far beyond every double already, so it matters
only where tens of thousands of digits in front of the exponent make up for it.
-/

namespace JsonQuery

namespace Decimal

/-- A text without its sign, and whether that is a minus sign. -/
def splitSign : List Char → Bool × List Char
  | '-' :: rest => (true, rest)
  | '+' :: rest => (false, rest)
  | cs => (false, cs)

/-- The places behind the point, if there is one, and what follows. -/
def splitPlaces : List Char → List Char × List Char
  | '.' :: rest => (rest.takeWhile Char.isDigit, rest.dropWhile Char.isDigit)
  | cs => ([], cs)

/-- As soon as an exponent is this large its other digits are left out. -/
def exponentReach : Nat := 65536

/-- The number that the digits of an exponent make, as far as they are read. -/
def exponentOfDigits (digits : List Char) : Nat :=
  digits.foldl
    (fun n c => if n < exponentReach then 10 * n + (c.toNat - '0'.toNat) else n) 0

/-- The exponent that a whole text is; no text at all is no exponent. -/
def exponentOf? : List Char → Option Int
  | [] => some 0
  | c :: rest =>
    if c = 'e' ∨ c = 'E' then
      let (negative, digits) := splitSign rest
      if digits.isEmpty || !digits.all Char.isDigit then none
      else
        let n : Int := exponentOfDigits digits
        some (if negative then -n else n)
    else none

/-- **The decimal that a text is**, blanks around it not counted. -/
def ofText? (cs : List Char) : Option Decimal :=
  let (negative, cs) := splitSign (Text.trim cs)
  let whole := cs.takeWhile Char.isDigit
  let (places, cs) := splitPlaces (cs.dropWhile Char.isDigit)
  if whole.isEmpty && places.isEmpty then none
  else
    (exponentOf? cs).map fun exponent =>
      ⟨negative, numberOfDigits (whole ++ places), exponent - places.length⟩

end Decimal

end JsonQuery
