import ExplicitSelf.Text.Utf8

/-!
# DEFLATE: compressed data as a list of bits

Compressed data is a sequence of blocks. A block is stored (a length and its octets), or a sequence
of symbols under a pair of prefix codes: a symbol is an octet, a length with a distance that repeats
earlier output, or the end of the block. The codes are fixed, or given at the start of the block by
the lengths of their words (`Code.ofLengths?`), which themselves come under a code.

`inflate` reads the blocks from a list of bits, each octet giving its least significant bit first,
and answers the output with the bits that are left.

* A code must be complete unless it has at most one word; its unused words are refused when met.
* A distance may reach before the start of the output: the window is filled with zeros at first.
* The reading functions take a bound on the number of steps. A step takes at least one bit, so the
  number of bits is always enough.
-/
namespace ExplicitSelf.Gzip

open Text (Octets)

/-- The bits of octets, least significant first. -/
def bitsOf (bs : Octets) : List Bool :=
  bs.flatMap fun b => (List.range 8).map b.toNat.testBit

/-- A number of `n` bits, least significant first, and the bits after it. -/
def takeBits : (n : Nat) → List Bool → Option (Nat × List Bool)
  | 0, bits => some (0, bits)
  | _ + 1, [] => none
  | n + 1, b :: bits => (takeBits n bits).map fun (v, r) => (b.toNat + 2 * v, r)

/-! ## Prefix codes -/

/-- A canonical prefix code: the symbols whose words have 1, 2, … bits, in ascending order. -/
abbrev Code := List (List Nat)

def maxLength : Nat := 15

def symbolsOf (lengths : List Nat) (n : Nat) : List Nat :=
  (List.range lengths.length).filter fun s => lengths.getD s 0 = n

/-- The part of all words of `maxLength` bits that the words of a code take up. -/
def Code.weight (c : Code) : Nat :=
  c.foldl (fun w symbols => 2 * w + symbols.length) 0

/-- The code with these lengths; a length of zero means no word. -/
def Code.ofLengths? (lengths : List Nat) : Option Code :=
  let c : Code := (List.range maxLength).map fun n => symbolsOf lengths (n + 1)
  if c.weight = Nat.pow 2 maxLength ∨ c.flatten.length ≤ 1 then some c else none

/-- The symbol in front. `word` is what was read so far and `first` the first word of the current
length. -/
def Code.read (word first : Nat) : Code → List Bool → Option (Nat × List Bool)
  | symbols :: longer, b :: bits =>
    let word := 2 * word + b.toNat
    match symbols[word - first]? with
    | some s => some (s, bits)
    | none => Code.read word (2 * (first + symbols.length)) longer bits
  | _, _ => none

/-- The symbol in front and the bits after it. -/
def Code.symbol (c : Code) (bits : List Bool) : Option (Nat × List Bool) :=
  c.read 0 0 bits

/-! ## Lengths and distances -/

/-- The first length of each length symbol from 257 on, with the bits that add to it. -/
def lengthRanges : List (Nat × Nat) :=
  [(3, 0), (4, 0), (5, 0), (6, 0), (7, 0), (8, 0), (9, 0), (10, 0), (11, 1), (13, 1), (15, 1),
   (17, 1), (19, 2), (23, 2), (27, 2), (31, 2), (35, 3), (43, 3), (51, 3), (59, 3), (67, 4),
   (83, 4), (99, 4), (115, 4), (131, 5), (163, 5), (195, 5), (227, 5), (258, 0)]

/-- The first distance of each distance symbol, with the bits that add to it. -/
def distanceRanges : List (Nat × Nat) :=
  [(1, 0), (2, 0), (3, 0), (4, 0), (5, 1), (7, 1), (9, 2), (13, 2), (17, 3), (25, 3), (33, 4),
   (49, 4), (65, 5), (97, 5), (129, 6), (193, 6), (257, 7), (385, 7), (513, 8), (769, 8),
   (1025, 9), (1537, 9), (2049, 10), (3073, 10), (4097, 11), (6145, 11), (8193, 12), (12289, 12),
   (16385, 13), (24577, 13)]

def inRange (range : Nat × Nat) (bits : List Bool) : Option (Nat × List Bool) :=
  (takeBits range.2 bits).map fun (v, r) => (range.1 + v, r)

/-- Repeats `n` octets of the output from `distance` octets back. -/
def repeatFrom (distance : Nat) : (n : Nat) → Array UInt8 → Array UInt8
  | 0, out => out
  | n + 1, out =>
    let b := if distance ≤ out.size then out.getD (out.size - distance) 0 else 0
    repeatFrom distance n (out.push b)

/-! ## Blocks -/

structure Codes where
  literals : Code
  distances : Code

def fixedLiteralLengths : List Nat :=
  List.replicate 144 8 ++ List.replicate 112 9 ++ List.replicate 24 7 ++ List.replicate 8 8

def fixedCodes? : Option Codes := do
  let literals ← Code.ofLengths? fixedLiteralLengths
  let distances ← Code.ofLengths? (List.replicate 32 5)
  return ⟨literals, distances⟩

/-- The order in which the lengths of the code for code lengths are given. -/
def lengthOrder : List Nat :=
  [16, 17, 18, 0, 8, 7, 9, 6, 10, 5, 11, 4, 12, 3, 13, 2, 14, 1, 15]

/-- `n` numbers of three bits. -/
def takeTriples : (n : Nat) → List Bool → Option (List Nat × List Bool)
  | 0, bits => some ([], bits)
  | n + 1, bits => do
    let (v, bits) ← takeBits 3 bits
    let (vs, bits) ← takeTriples n bits
    return (v :: vs, bits)

/-- Code lengths under a code, until there are `count` of them. `found` holds the lengths found so
far, the newest first. -/
def takeLengths (c : Code) (count : Nat) :
    (fuel : Nat) → (found : List Nat) → List Bool → Option (List Nat × List Bool)
  | 0, _, _ => none
  | fuel + 1, found, bits =>
    if count < found.length then none
    else if found.length = count then some (found.reverse, bits)
    else do
      let (s, bits) ← c.symbol bits
      if s < 16 then takeLengths c count fuel (s :: found) bits
      else if s = 16 then
        let last ← found.head?
        let (v, bits) ← takeBits 2 bits
        takeLengths c count fuel (List.replicate (3 + v) last ++ found) bits
      else if s = 17 then
        let (v, bits) ← takeBits 3 bits
        takeLengths c count fuel (List.replicate (3 + v) 0 ++ found) bits
      else
        let (v, bits) ← takeBits 7 bits
        takeLengths c count fuel (List.replicate (11 + v) 0 ++ found) bits

/-- The codes at the start of a block that brings its own. -/
def takeCodes (bits : List Bool) : Option (Codes × List Bool) := do
  let (hlit, bits) ← takeBits 5 bits
  let (hdist, bits) ← takeBits 5 bits
  let (hclen, bits) ← takeBits 4 bits
  let literalCount := hlit + 257
  let distanceCount := hdist + 1
  if 286 < literalCount ∨ 30 < distanceCount then none
  let (given, bits) ← takeTriples (hclen + 4) bits
  let table := lengthOrder.zip given
  let ordered := (List.range 19).map fun s => (table.lookup s).getD 0
  let c ← Code.ofLengths? ordered
  let count := literalCount + distanceCount
  let (lengths, bits) ← takeLengths c count (count + 1) [] bits
  let literals ← Code.ofLengths? (lengths.take literalCount)
  let distances ← Code.ofLengths? (lengths.drop literalCount)
  return (⟨literals, distances⟩, bits)

/-- The output after the symbols up to the end of a block. -/
def symbols (c : Codes) :
    (fuel : Nat) → Array UInt8 → List Bool → Option (Array UInt8 × List Bool)
  | 0, _, _ => none
  | fuel + 1, out, bits => do
    let (s, bits) ← c.literals.symbol bits
    if s < 256 then symbols c fuel (out.push (.ofNat s)) bits
    else if s = 256 then return (out, bits)
    else
      let range ← lengthRanges[s - 257]?
      let (n, bits) ← inRange range bits
      let (d, bits) ← c.distances.symbol bits
      let range ← distanceRanges[d]?
      let (distance, bits) ← inRange range bits
      symbols c fuel (repeatFrom distance n out) bits

/-- Takes `n` octets that are stored as they are. -/
def takeOctets : (n : Nat) → Array UInt8 → List Bool → Option (Array UInt8 × List Bool)
  | 0, out, bits => some (out, bits)
  | n + 1, out, bits => do
    let (v, bits) ← takeBits 8 bits
    takeOctets n (out.push (.ofNat v)) bits

/-- The output after a stored block. Bits up to the next octet are skipped; the length is given
twice, the second time with all bits inverted. -/
def stored (out : Array UInt8) (bits : List Bool) : Option (Array UInt8 × List Bool) := do
  let bits := bits.drop (bits.length % 8)
  let (n, bits) ← takeBits 16 bits
  let (m, bits) ← takeBits 16 bits
  if n + m = 0xFFFF then takeOctets n out bits else none

/-- The output after one block, and whether it is the last one. -/
def block (out : Array UInt8) (bits : List Bool) : Option (Bool × Array UInt8 × List Bool) := do
  let (final, bits) ← takeBits 1 bits
  let (kind, bits) ← takeBits 2 bits
  let (out, bits) ←
    if kind = 0 then stored out bits
    else if kind = 1 then do
      let c ← fixedCodes?
      symbols c (bits.length + 1) out bits
    else if kind = 2 then do
      let (c, bits) ← takeCodes bits
      symbols c (bits.length + 1) out bits
    else none
  return (final = 1, out, bits)

/-- The output after all blocks, and the bits after the last one. -/
def blocks : (fuel : Nat) → Array UInt8 → List Bool → Option (Array UInt8 × List Bool)
  | 0, _, _ => none
  | fuel + 1, out, bits => do
    let (final, out, bits) ← block out bits
    if final then return (out, bits) else blocks fuel out bits

/-- The output of compressed data, and the bits after it. -/
def inflate (bits : List Bool) : Option (Array UInt8 × List Bool) :=
  blocks (bits.length + 1) #[] bits

end ExplicitSelf.Gzip
