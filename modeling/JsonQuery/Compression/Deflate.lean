import JsonQuery.Compression.Bits
import JsonQuery.Compression.PrefixCode

/-!
# Deflated data

Deflated data is a sequence of **blocks**, the last of which is marked. A block is either
stored, bytes as they are, or it is a sequence of **symbols** in a prefix code: a literal
byte, the end of the block, or a match, which repeats some of the bytes that came out before. A
match is written as a length, in the same code, and a distance back, in a code of its own.
Both are given as a *step*, which the code names, and some bits that tell how far into
the step they are (`JsonQuery.Compression.Steps`). The two codes are fixed, or they are
written at the start of the block, by the lengths of their words; these lengths are
themselves in a prefix code.

The bytes that came out before the first one count as zero: a match that reaches back
beyond the start repeats zeros.
-/

namespace JsonQuery.Compression

/-! ### Lengths and distances -/

/-- The steps of a scale, each with its least number and the number of bits that tell how
far into the step a number is. -/
abbrev Steps : Type :=
  List (Nat × Nat)

/-- The steps of given widths in bits, one behind the other. -/
def stepsFrom (start : Nat) : List Nat → Steps
  | [] => []
  | bits :: rest => (start, bits) :: stepsFrom (start + Nat.pow 2 bits) rest

/-- The lengths of matches: from three to two hundred and fifty-eight, which has a step of
its own. -/
def lengthSteps : Steps :=
  stepsFrom 3 [0, 0, 0, 0, 0, 0, 0, 0, 1, 1, 1, 1, 2, 2, 2, 2, 3, 3, 3, 3, 4, 4, 4, 4, 5, 5, 5, 5]
    ++ [(258, 0)]

/-- The distances of matches: from one to thirty-two thousand seven hundred and
sixty-eight. -/
def distanceSteps : Steps :=
  stepsFrom 1 [0, 0, 0, 0, 1, 1, 2, 2, 3, 3, 4, 4, 5, 5, 6, 6, 7, 7, 8, 8, 9, 9, 10, 10, 11, 11,
    12, 12, 13, 13]

/-- The number on a scale whose step is given, with the bits behind it. -/
def takeOnScale? (steps : Steps) (step : Nat) (bits : List Bool) : Option (Nat × List Bool) := do
  let (least, width) ← steps[step]?
  let (more, bits) ← takeNumber? width bits
  return (least + more, bits)

/-! ### The two codes of a block -/

/-- The codes that a block is written in. -/
structure BlockCodes where
  /-- The code of literals, ends and lengths. -/
  literals : CodeTree
  /-- The code of distances. -/
  distances : CodeTree

/-- The lengths of the words for literals, ends and lengths in the fixed code. -/
def fixedLiteralLengths : List Nat :=
  List.replicate 144 8 ++ List.replicate 112 9 ++ List.replicate 24 7 ++ List.replicate 8 8

/-- The codes for which nothing is written. -/
def BlockCodes.fixed? : Option BlockCodes := do
  let literals ← CodeTree.ofLengths? fixedLiteralLengths
  let distances ← CodeTree.ofLengths? (List.replicate 32 5)
  return ⟨literals, distances⟩

/-- The order in which the lengths of the words for lengths are written. -/
def lengthOrder : List Nat :=
  [16, 17, 18, 0, 8, 7, 9, 6, 10, 5, 11, 4, 12, 3, 13, 2, 14, 1, 15]

/-- Lengths that are listed in the order in which they are written, by symbol. -/
def bySymbol (written : List Nat) : List Nat :=
  (List.range lengthOrder.length).map fun symbol => written.getD (lengthOrder.idxOf symbol) 0

/-- A length and how many times it comes, as a symbol tells: the lengths up to fifteen stand
for themselves, and the other symbols are for repeating the length before, or zero. -/
def takeRun? (previous : Option Nat) (symbol : Nat) (bits : List Bool) :
    Option ((Nat × Nat) × List Bool) :=
  match symbol with
  | 16 => do
    let length ← previous
    let (n, bits) ← takeNumber? 2 bits
    return ((length, n + 3), bits)
  | 17 => do
    let (n, bits) ← takeNumber? 3 bits
    return ((0, n + 3), bits)
  | 18 => do
    let (n, bits) ← takeNumber? 7 bits
    return ((0, n + 11), bits)
  | length => some ((length, 1), bits)

/-- A given number of lengths, which are written in a code. -/
def takeLengths? (code : CodeTree) (count : Nat) (previous : Option Nat) (bits : List Bool) :
    Option (List Nat × List Bool) :=
  if count = 0 then some ([], bits)
  else do
    let (symbol, bits) ← code.take? bits
    let ((length, times), bits) ← takeRun? previous symbol bits
    if _h : 0 < times ∧ times ≤ count then
      let (more, bits) ← takeLengths? code (count - times) (some length) bits
      return (List.replicate times length ++ more, bits)
    else none
  termination_by count
  decreasing_by omega

/-- The codes that are written at the start of a block. -/
def takeCodes? (bits : List Bool) : Option (BlockCodes × List Bool) := do
  let (n, bits) ← takeNumber? 5 bits
  let (m, bits) ← takeNumber? 5 bits
  let (k, bits) ← takeNumber? 4 bits
  let literalCount := n + 257
  let distanceCount := m + 1
  if literalCount ≤ 286 ∧ distanceCount ≤ 30 then
    let (written, bits) ← takeNumbers? 3 (k + 4) bits
    let code ← CodeTree.ofLengths? (bySymbol written)
    let (lengths, bits) ← takeLengths? code (literalCount + distanceCount) none bits
    let literals ← CodeTree.ofLengths? (lengths.take literalCount)
    let distances ← CodeTree.ofLengths? (lengths.drop literalCount)
    return (⟨literals, distances⟩, bits)
  else none

/-! ### Blocks -/

/-- The byte that came out a given distance ago. -/
def byteBack (out : Array UInt8) (distance : Nat) : UInt8 :=
  if distance ≤ out.size then out.getD (out.size - distance) 0 else 0

/-- Repeat bytes that came out a given distance ago, one by one: what a match adds can
be part of what it repeats. -/
def repeatBytes (out : Array UInt8) (distance : Nat) : Nat → Array UInt8
  | 0 => out
  | length + 1 => repeatBytes (out.push (byteBack out distance)) distance length

/-- What a block in a code adds, with the bits behind it. Each symbol takes at least one
bit, so there are at most as many symbols as bits. -/
def inflateSymbols? (codes : BlockCodes) :
    Nat → Array UInt8 → List Bool → Option (Array UInt8 × List Bool)
  | 0, _, _ => none
  | symbols + 1, out, bits => do
    let (symbol, bits) ← codes.literals.take? bits
    if symbol < 256 then inflateSymbols? codes symbols (out.push (UInt8.ofNat symbol)) bits
    else if symbol = 256 then return (out, bits)
    else
      let (length, bits) ← takeOnScale? lengthSteps (symbol - 257) bits
      let (step, bits) ← codes.distances.take? bits
      let (distance, bits) ← takeOnScale? distanceSteps step bits
      inflateSymbols? codes symbols (repeatBytes out distance length) bits

/-- What a stored block adds, with the bits behind it. It begins at a byte, with its length
and the complement of that. -/
def inflateStored? (out : Array UInt8) (bits : List Bool) : Option (Array UInt8 × List Bool) := do
  let (length, bits) ← takeNumber? 16 (skipToByte bits)
  let (complement, bits) ← takeNumber? 16 bits
  if length + complement = 65535 then
    let (bytes, bits) ← takeNumbers? 8 length bits
    return (bytes.foldl (fun out byte => out.push (UInt8.ofNat byte)) out, bits)
  else none

/-- What a block of a given kind adds, with the bits behind it. -/
def inflateBlock? (kind : Nat) (out : Array UInt8) (bits : List Bool) :
    Option (Array UInt8 × List Bool) :=
  match kind with
  | 0 => inflateStored? out bits
  | 1 => do
    let codes ← BlockCodes.fixed?
    inflateSymbols? codes (bits.length + 1) out bits
  | 2 => do
    let (codes, bits) ← takeCodes? bits
    inflateSymbols? codes (bits.length + 1) out bits
  | _ => none

/-- What all blocks add. Each block takes at least three bits. -/
def inflateBlocks? : Nat → Array UInt8 → List Bool → Option (Array UInt8 × List Bool)
  | 0, _, _ => none
  | blocks + 1, out, bits => do
    let (last, bits) ← takeNumber? 1 bits
    let (kind, bits) ← takeNumber? 2 bits
    let (out, bits) ← inflateBlock? kind out bits
    if last = 1 then return (out, bits) else inflateBlocks? blocks out bits

/-- **The bytes that deflated data stands for**, with the bits behind the data. -/
def inflate? (bits : List Bool) : Option (Array UInt8 × List Bool) :=
  inflateBlocks? (bits.length + 1) #[] bits

end JsonQuery.Compression
