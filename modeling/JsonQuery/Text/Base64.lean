/-!
# Bytes in base 64

Four characters stand for three bytes, six bits each, most significant first. Where the bytes
end within a group of three, the group is filled up with one or two characters `=`, and the
bits of the last character that no byte takes have to be zero: so each sequence of bytes
has exactly one text. Nothing else may stand in such a text, no blanks either.
-/

namespace JsonQuery.Text.Base64

/-- What a character counts. -/
def digit? (c : Char) : Option Nat :=
  if 'A' ≤ c ∧ c ≤ 'Z' then some (c.toNat - 'A'.toNat)
  else if 'a' ≤ c ∧ c ≤ 'z' then some (c.toNat - 'a'.toNat + 26)
  else if '0' ≤ c ∧ c ≤ '9' then some (c.toNat - '0'.toNat + 52)
  else if c = '+' then some 62
  else if c = '/' then some 63
  else none

/-- The number that some digits make, most significant first. -/
def groupOf? (cs : List Char) : Option Nat :=
  cs.foldlM (fun n c => (digit? c).map fun d => 64 * n + d) 0

/-- **The bytes that a text stands for.** -/
def decode? : List Char → Option (List UInt8)
  | [] => some []
  | [a, b, '=', '='] => do
    let n ← groupOf? [a, b]
    if n % 16 = 0 then return [UInt8.ofNat (n / 16)] else none
  | [a, b, c, '='] => do
    let n ← groupOf? [a, b, c]
    if n % 4 = 0 then return [UInt8.ofNat (n / 1024), UInt8.ofNat (n / 4)] else none
  | a :: b :: c :: d :: rest => do
    let n ← groupOf? [a, b, c, d]
    let more ← decode? rest
    return UInt8.ofNat (n / 65536) :: UInt8.ofNat (n / 256) :: UInt8.ofNat n :: more
  | _ => none

end JsonQuery.Text.Base64
