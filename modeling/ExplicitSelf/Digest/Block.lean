import ExplicitSelf.Text.Utf8

/-!
# Blocks and words of a message digest

A message digest reads its message as blocks of 64 octets and each block as sixteen 32-bit words.
The message is closed by one octet `0x80`, zeros up to eight octets before the end of a block, and
its length in bits. The two digests of this project differ in the order of the octets in a word and
of the octets in the length, so both orders are here. A digest is shown as hexadecimal digits.
-/
namespace ExplicitSelf.Digest

open Text (Octets)

/-- The octets of a number, least significant first, `n` of them. -/
def littleEndian : (n value : Nat) → Octets
  | 0, _ => []
  | n + 1, value => .ofNat (value % 256) :: littleEndian n (value / 256)

/-- The octets of a number, most significant first, `n` of them. -/
def bigEndian (n value : Nat) : Octets :=
  (littleEndian n value).reverse

/-- The number whose octets these are, least significant first. -/
def ofLittleEndian : Octets → Nat
  | [] => 0
  | b :: bs => b.toNat + 256 * ofLittleEndian bs

/-- The number whose octets these are, most significant first. -/
def ofBigEndian (bs : Octets) : Nat :=
  ofLittleEndian bs.reverse

/-- The message closed so that it is a whole number of blocks; `size` writes its length. -/
def pad (size : Nat → Octets) (message : Octets) : Octets :=
  let n := message.length
  message ++ [0x80] ++ List.replicate ((119 - n % 64) % 64) 0 ++ size (8 * n)

/-- Cuts a list into pieces of `k + 1` elements; a shorter last piece is kept. -/
def chunks {α : Type} (k : Nat) (xs : List α) : List (List α) :=
  match xs with
  | [] => []
  | x :: r => (x :: r.take k) :: chunks k (r.drop k)
  termination_by xs.length
  decreasing_by
    simp only [List.length_drop, List.length_cons]
    omega

def rotateLeft (w : UInt32) (n : UInt32) : UInt32 :=
  (w <<< n) ||| (w >>> (32 - n))

def rotateRight (w : UInt32) (n : UInt32) : UInt32 :=
  (w >>> n) ||| (w <<< (32 - n))

/-! ## Hexadecimal digits -/

def hexDigit (n : Nat) : Char :=
  if n < 10 then .ofNat (48 + n) else .ofNat (87 + n)

/-- Two lower case digits for each octet. -/
def hex (bs : Octets) : String :=
  .ofList (bs.flatMap fun b => [hexDigit (b.toNat / 16), hexDigit (b.toNat % 16)])

end ExplicitSelf.Digest
