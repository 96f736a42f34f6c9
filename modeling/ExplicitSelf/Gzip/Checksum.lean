import ExplicitSelf.Text.Utf8

/-!
# The cyclic redundancy check of a gzip member

CRC-32 with the reflected polynomial `0xEDB88320`: the register starts with all bits set, takes in
one octet at a time by eight shifts, and is inverted at the end.
-/
namespace ExplicitSelf.Gzip

open Text (Octets)

def crcShift (c : UInt32) : UInt32 :=
  if c &&& 1 = 1 then (c >>> 1) ^^^ 0xEDB88320 else c >>> 1

def crcOctet (c : UInt32) (b : UInt8) : UInt32 :=
  Nat.repeat crcShift 8 (c ^^^ b.toUInt32)

def crc32 (bs : Octets) : UInt32 :=
  bs.foldl crcOctet 0xFFFFFFFF ^^^ 0xFFFFFFFF

end ExplicitSelf.Gzip
