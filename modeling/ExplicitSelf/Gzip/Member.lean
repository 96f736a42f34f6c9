import ExplicitSelf.Digest.Block
import ExplicitSelf.Gzip.Checksum
import ExplicitSelf.Gzip.Deflate

/-!
# gzip: members with their headers and checks

A gzip stream is one member or several, one directly after the other, and its content is what they
hold in this order. A member is a header, compressed data, and the check and the size of what the
data holds. `gunzip` reads a whole stream and refuses it if anything in it is wrong: an unknown
method, a reserved flag, a check that fails, an end too early, or octets after the last member that
are no member. `store` writes a member that holds its content uncompressed.
-/
namespace ExplicitSelf.Gzip

open Text (Octets)
open Digest (littleEndian ofLittleEndian)

/-- The first two octets of every member. -/
def magic : Octets := [0x1F, 0x8B]

/-! ## Flags of a header -/

def flagCheck : Nat := 1
def flagExtra : Nat := 2
def flagName : Nat := 3
def flagComment : Nat := 4

/-- The longest name or comment of a header. -/
def maxField : Nat := 65535

/-- Splits off `n` octets, if there are so many. -/
def takeOctets? (n : Nat) (bs : Octets) : Option (Octets × Octets) :=
  if n ≤ bs.length then some (bs.take n, bs.drop n) else none

/-- What stands after the zero octet that ends a name or comment. -/
def afterField (bs : Octets) : Option Octets :=
  if (bs.takeWhile (· ≠ 0)).length ≤ maxField then
    match bs.dropWhile (· ≠ 0) with
    | [] => none
    | _ :: r => some r
  else none

/-- What stands after an extra field, which starts with its length. -/
def afterExtra (bs : Octets) : Option Octets := do
  let (n, bs) ← takeOctets? 2 bs
  let (_, bs) ← takeOctets? (ofLittleEndian n) bs
  return bs

/-- What stands after the header of a member. A header may carry a check of its own octets. -/
def afterHeader (bs : Octets) : Option Octets := do
  let (fixed, r) ← takeOctets? 10 bs
  let flags := (fixed.getD 3 0).toNat
  if fixed.take 2 ≠ magic ∨ fixed.getD 2 0 ≠ 8 ∨ 32 ≤ flags then none
  let r ← if flags.testBit flagExtra then afterExtra r else some r
  let r ← if flags.testBit flagName then afterField r else some r
  let r ← if flags.testBit flagComment then afterField r else some r
  if flags.testBit flagCheck then
    let (check, rest) ← takeOctets? 2 r
    let header := bs.take (bs.length - r.length)
    if ofLittleEndian check = (crc32 header).toNat % 65536 then some rest else none
  else some r

/-- The content of the member in front, and what stands after it. -/
def member (bs : Octets) : Option (Octets × Octets) := do
  let data ← afterHeader bs
  let (out, bits) ← inflate (bitsOf data)
  let (check, r) ← takeOctets? 4 (data.drop (data.length - bits.length / 8))
  let (size, r) ← takeOctets? 4 r
  let content := out.toList
  if ofLittleEndian check = (crc32 content).toNat
      ∧ ofLittleEndian size = content.length % UInt32.size then
    some (content, r)
  else none

/-- The contents of all members, `fuel` bounding their number. -/
def members : (fuel : Nat) → Octets → Option Octets
  | 0, _ => none
  | fuel + 1, bs => do
    let (content, r) ← member bs
    if r.isEmpty then return content
    let more ← members fuel r
    return content ++ more

def gunzip (bs : Octets) : Option Octets :=
  members (bs.length + 1) bs

/-! ## Writing -/

def storedBlock (final : Bool) (content : Octets) : Octets :=
  let n := content.length
  [if final then 1 else 0] ++ littleEndian 2 n ++ littleEndian 2 (0xFFFF - n) ++ content

/-- Compressed data that stores its content, in blocks of at most 65535 octets. -/
def storedBlocks (content : Octets) : Octets :=
  ((Digest.chunks 65534 content).flatMap (storedBlock false)) ++ storedBlock true []

def store (content : Octets) : Octets :=
  magic ++ [8, 0, 0, 0, 0, 0, 0, 255] ++ storedBlocks content
    ++ littleEndian 4 (crc32 content).toNat ++ littleEndian 4 (content.length % UInt32.size)

end ExplicitSelf.Gzip
