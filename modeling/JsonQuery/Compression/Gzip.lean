import JsonQuery.Compression.Deflate

/-!
# Compressed members

A **member** is deflated data between a header and a trailer. The header begins with two
bytes by which members are told from other things, the method of compression, of which there
is one, and a byte of **flags**; a flag says that some field is there: free data, a name,
a comment, a checksum of the header. The trailer is a checksum of the bytes and their
number.

`JsonQuery.Compression.gunzip?` reads one member, and whatever stands behind it is not
looked at. Anything wrong in it, the checksums included, makes it unreadable as a whole.
-/

namespace JsonQuery.Compression

/-! ### The checksum -/

/-- Divide one bit further: a bit that falls out on the right takes the divisor away. -/
def checksumBit (remainder : UInt32) : UInt32 :=
  if remainder &&& 1 = 1 then (remainder >>> 1) ^^^ 0xedb88320 else remainder >>> 1

/-- Take a byte into a checksum. -/
def checksumByte (remainder : UInt32) (byte : UInt8) : UInt32 :=
  (List.range 8).foldl (fun r _ => checksumBit r) (remainder ^^^ byte.toUInt32)

/-- **The checksum of some bytes**: the remainder of a division of polynomials over two
elements, with all bits flipped before and after. -/
def checksum (bytes : List UInt8) : UInt32 :=
  bytes.foldl checksumByte 0xffffffff ^^^ 0xffffffff

/-! ### The header -/

/-- How long a name or a comment can be. -/
def maxTextLength : Nat := 65535

/-- The bytes behind a text that ends with a zero. -/
def skipText? (bytes : List UInt8) : Option (List UInt8) :=
  match bytes.dropWhile (· != 0) with
  | [] => none
  | _ :: rest => if (bytes.takeWhile (· != 0)).length ≤ maxTextLength then some rest else none

/-- The number that two bytes make, and the bytes behind them. -/
def takeWord? : List UInt8 → Option (Nat × List UInt8)
  | low :: high :: rest => some (low.toNat + 256 * high.toNat, rest)
  | _ => none

/-- The bytes behind free data, which begins with its length. -/
def skipData? (bytes : List UInt8) : Option (List UInt8) := do
  let (length, bytes) ← takeWord? bytes
  if length ≤ bytes.length then return bytes.drop length else none

/-- The bytes behind a field, if a flag says that it is there. -/
def skipIf (flag : Bool) (skip : List UInt8 → Option (List UInt8)) (bytes : List UInt8) :
    Option (List UInt8) :=
  if flag then skip bytes else some bytes

/-- The bytes behind a checksum of all bytes before it, of which the lower half is written. -/
def skipChecksum? (all : List UInt8) (bytes : List UInt8) : Option (List UInt8) := do
  let (written, rest) ← takeWord? bytes
  let before := all.take (all.length - bytes.length)
  if written = (checksum before).toNat % 65536 then return rest else none

/-- The bytes behind the header of a member. Three flags have no meaning and are never
set. -/
def skipHeader? (bytes : List UInt8) : Option (List UInt8) :=
  match bytes with
  | 0x1f :: 0x8b :: 8 :: flags :: _ :: _ :: _ :: _ :: _ :: _ :: rest =>
    if flags.toNat < 32 then do
      let rest ← skipIf (flags.toNat.testBit 2) skipData? rest
      let rest ← skipIf (flags.toNat.testBit 3) skipText? rest
      let rest ← skipIf (flags.toNat.testBit 4) skipText? rest
      skipIf (flags.toNat.testBit 1) (skipChecksum? bytes) rest
    else none
  | _ => none

/-! ### The member -/

/-- **The bytes that a member stands for.** -/
def gunzip? (bytes : List UInt8) : Option (List UInt8) := do
  let body ← skipHeader? bytes
  let (out, bits) ← inflate? (bitsOfBytes body)
  let (written, bits) ← takeNumber? 32 (skipToByte bits)
  let (length, _) ← takeNumber? 32 bits
  if written = (checksum out.toList).toNat ∧ length = out.size % Nat.pow 2 32 then
    return out.toList
  else none

end JsonQuery.Compression
