/-!
# UTF-8: the octets of a text and the first fault of octets that are none

A text is a list of characters, a file is a list of octets. `encode` writes a text, `decode` reads
one back or says where the octets stop being a text and how many of them are to blame. `decodeLossy`
reads anything, with one replacement character for each stretch that is to blame.

Offsets into a text are counted in octets. `splitAt?` cuts a text at such an offset, and refuses
an offset inside a character or past the end; `isBoundary` says whether it would.

* `encode`, `decode`, `Fault.message`, `decodeLossy`: octets and texts.
* `width`, `size`, `splitAt?`, `isBoundary`: offsets in octets.
-/
namespace ExplicitSelf.Text

/-- Octets as a file holds them. -/
abbrev Octets := List UInt8

/-! ## Writing -/

/-- The number of octets of a character. -/
def width (c : Char) : Nat :=
  if c.toNat < 0x80 then 1
  else if c.toNat < 0x800 then 2
  else if c.toNat < 0x10000 then 3
  else 4

/-- The number of octets of a text. -/
def size : List Char → Nat
  | [] => 0
  | c :: cs => width c + size cs

/-- The octets of a character: six bits in each octet after the first. -/
def encodeChar (c : Char) : Octets :=
  let n := c.toNat
  if n < 0x80 then [.ofNat n]
  else if n < 0x800 then [.ofNat (0xC0 + n / 64), .ofNat (0x80 + n % 64)]
  else if n < 0x10000 then
    [.ofNat (0xE0 + n / 4096), .ofNat (0x80 + n / 64 % 64), .ofNat (0x80 + n % 64)]
  else
    [.ofNat (0xF0 + n / 262144), .ofNat (0x80 + n / 4096 % 64), .ofNat (0x80 + n / 64 % 64),
      .ofNat (0x80 + n % 64)]

def encode (cs : List Char) : Octets :=
  cs.flatMap encodeChar

/-! ## Reading -/

/-- Where octets stop being a text. `length` is the number of octets to blame, or `none` when the
octets end inside a character. -/
structure Fault where
  index : Nat
  length : Option Nat
  deriving DecidableEq, Repr

def Fault.message (f : Fault) : String :=
  match f.length with
  | some n => s!"invalid utf-8 sequence of {n} bytes from index {f.index}"
  | none => s!"incomplete utf-8 byte sequence from index {f.index}"

def isContinuation (b : UInt8) : Bool :=
  0x80 ≤ b.toNat && b.toNat < 0xC0

/-- Whether `b` may follow the first octet `a` of a three-octet character: no overlong form, no
surrogate. -/
def follows3 (a b : UInt8) : Bool :=
  if a.toNat = 0xE0 then 0xA0 ≤ b.toNat && b.toNat < 0xC0
  else if a.toNat = 0xED then 0x80 ≤ b.toNat && b.toNat < 0xA0
  else isContinuation b

/-- Whether `b` may follow the first octet `a` of a four-octet character: no overlong form, nothing
above U+10FFFF. -/
def follows4 (a b : UInt8) : Bool :=
  if a.toNat = 0xF0 then 0x90 ≤ b.toNat && b.toNat < 0xC0
  else if a.toNat = 0xF4 then 0x80 ≤ b.toNat && b.toNat < 0x90
  else isContinuation b

def char2 (a b : UInt8) : Char :=
  .ofNat ((a.toNat - 0xC0) * 64 + (b.toNat - 0x80))

def char3 (a b c : UInt8) : Char :=
  .ofNat ((a.toNat - 0xE0) * 4096 + (b.toNat - 0x80) * 64 + (c.toNat - 0x80))

def char4 (a b c d : UInt8) : Char :=
  .ofNat ((a.toNat - 0xF0) * 262144 + (b.toNat - 0x80) * 4096 + (c.toNat - 0x80) * 64
    + (d.toNat - 0x80))

/-- What stands at the front of some octets. -/
inductive Front where
  /-- A character, as many octets as its width. -/
  | char (c : Char)
  /-- `length` octets that are part of no character. -/
  | damaged (length : Nat)
  /-- The octets end inside a character. -/
  | cut
  deriving DecidableEq, Repr

/-- The front of the octets `a :: r`. A character is refused at its first octet that fits none, so
the octets to blame are those before it. -/
def front (a : UInt8) (r : Octets) : Front :=
  if a.toNat < 0x80 then .char (.ofNat a.toNat)
  else if 0xC2 ≤ a.toNat ∧ a.toNat < 0xE0 then
    match r with
    | [] => .cut
    | b :: _ => if isContinuation b then .char (char2 a b) else .damaged 1
  else if 0xE0 ≤ a.toNat ∧ a.toNat < 0xF0 then
    match r with
    | [] => .cut
    | [b] => if follows3 a b then .cut else .damaged 1
    | b :: c :: _ =>
      if follows3 a b then
        if isContinuation c then .char (char3 a b c) else .damaged 2
      else .damaged 1
  else if 0xF0 ≤ a.toNat ∧ a.toNat < 0xF5 then
    match r with
    | [] => .cut
    | [b] => if follows4 a b then .cut else .damaged 1
    | [b, c] =>
      if follows4 a b then
        if isContinuation c then .cut else .damaged 2
      else .damaged 1
    | b :: c :: d :: _ =>
      if follows4 a b then
        if isContinuation c then
          if isContinuation d then .char (char4 a b c d) else .damaged 3
        else .damaged 2
      else .damaged 1
  else .damaged 1

/-- Reads octets as a text. `i` is the index of the first of them and `skip` the number of octets
that still belong to what was read before. -/
def decodeFrom : (i skip : Nat) → Octets → Except Fault (List Char)
  | _, _, [] => .ok []
  | i, skip + 1, _ :: r => decodeFrom (i + 1) skip r
  | i, 0, a :: r =>
    match front a r with
    | .char c => (decodeFrom (i + 1) (width c - 1) r).map (c :: ·)
    | .damaged n => .error ⟨i, some n⟩
    | .cut => .error ⟨i, none⟩

def decode (bs : Octets) : Except Fault (List Char) :=
  decodeFrom 0 0 bs

/-- The character that stands for octets that are no text. -/
def replacement : Char := '\uFFFD'

/-- As `decodeLossy`, past the `skip` octets that belong to what was read before. -/
def decodeLossyFrom : (skip : Nat) → Octets → List Char
  | _, [] => []
  | skip + 1, _ :: r => decodeLossyFrom skip r
  | 0, a :: r =>
    match front a r with
    | .char c => c :: decodeLossyFrom (width c - 1) r
    | .damaged n => replacement :: decodeLossyFrom (n - 1) r
    | .cut => [replacement]

/-- Reads octets as a text, with a replacement character for each stretch that is none. -/
def decodeLossy (bs : Octets) : List Char :=
  decodeLossyFrom 0 bs

/-! ## Offsets -/

/-- Cuts a text at an offset, or refuses an offset that is no boundary between characters. -/
def splitAt? : Nat → List Char → Option (List Char × List Char)
  | 0, cs => some ([], cs)
  | _ + 1, [] => none
  | n + 1, c :: cs =>
    if width c ≤ n + 1 then
      (splitAt? (n + 1 - width c) cs).map fun (l, r) => (c :: l, r)
    else none

/-- Whether an offset is a boundary between characters of the text, its ends included. -/
def isBoundary (n : Nat) (cs : List Char) : Bool :=
  (splitAt? n cs).isSome

end ExplicitSelf.Text
