/-!
# Bits

Compressed data is a sequence of bits: those of the first byte, least significant first, then
those of the second, and so on. Numbers are taken from it in the same order.
-/

namespace JsonQuery.Compression

/-- The bits of a byte, least significant first. -/
def bitsOfByte (byte : UInt8) : List Bool :=
  (List.range 8).map fun i => byte.toNat.testBit i

/-- The bits of some bytes. -/
def bitsOfBytes (bytes : List UInt8) : List Bool :=
  bytes.flatMap bitsOfByte

/-- A number of a given width, with the bits behind it. -/
def takeNumber? : Nat → List Bool → Option (Nat × List Bool)
  | 0, bits => some (0, bits)
  | _ + 1, [] => none
  | width + 1, bit :: bits =>
    (takeNumber? width bits).map fun (n, rest) => (2 * n + bit.toNat, rest)

/-- A given number of numbers, all of one width, with the bits behind them. -/
def takeNumbers? (width : Nat) : Nat → List Bool → Option (List Nat × List Bool)
  | 0, bits => some ([], bits)
  | count + 1, bits => do
    let (n, bits) ← takeNumber? width bits
    let (more, bits) ← takeNumbers? width count bits
    return (n :: more, bits)

/-- The bits from the next byte on: if some bits of a byte were taken, the others of it are
left out. -/
def skipToByte (bits : List Bool) : List Bool :=
  bits.drop (bits.length % 8)

end JsonQuery.Compression
