import ExplicitSelf.Text.Utf8

/-!
# JSON documents

`Json.read?` reads the octets of a document into a `Value`. The value keeps what a document says and
leaves what it means to those who use it: a number is its digits, an object its members in order,
repeated names included. A string whose octets or escapes spell no text is still a value, one
without text, since a reader that skips the value never looks inside.
-/
namespace ExplicitSelf.Json

open Text (Octets)

inductive Value where
  | null
  | bool (b : Bool)
  /-- A number, as written. -/
  | number (text : List Char)
  /-- A string; without a text if it is not valid Unicode. -/
  | string (text : Option String)
  | array (items : List Value)
  | object (members : List (Option String × Value))

def octet (c : Char) : UInt8 := .ofNat c.toNat

def skipBlanks (bs : Octets) : Octets :=
  bs.dropWhile fun b => b = 0x20 || b = 0x0A || b = 0x0D || b = 0x09

/-- What stands after an ASCII text in front. -/
def after? (word : String) (bs : Octets) : Option Octets :=
  let w := word.toList.map octet
  if w.isPrefixOf bs then some (bs.drop w.length) else none

/-! ## Numbers -/

def isDigit (b : UInt8) : Bool :=
  0x30 ≤ b && b ≤ 0x39

def digits (bs : Octets) : Octets × Octets :=
  (bs.takeWhile isDigit, bs.dropWhile isDigit)

def someDigits? (bs : Octets) : Option (Octets × Octets) :=
  match digits bs with
  | ([], _) => none
  | (ds, r) => some (ds, r)

/-- The digits before the point: a zero alone, or digits that start with no zero. -/
def whole? (bs : Octets) : Option (Octets × Octets) :=
  match someDigits? bs with
  | some (d :: ds, r) => if d = 0x30 ∧ ds ≠ [] then none else some (d :: ds, r)
  | _ => none

/-- A point and the digits after it, if there is a point. -/
def fraction? (bs : Octets) : Option (Octets × Octets) :=
  match bs with
  | 0x2E :: r => (someDigits? r).map fun (ds, r) => (0x2E :: ds, r)
  | r => some ([], r)

def exponent? (bs : Octets) : Option (Octets × Octets) :=
  match bs with
  | e :: r =>
    if e = 0x65 ∨ e = 0x45 then
      match r with
      | s :: t =>
        if s = 0x2B ∨ s = 0x2D then (someDigits? t).map fun (ds, r) => (e :: s :: ds, r)
        else (someDigits? r).map fun (ds, r) => (e :: ds, r)
      | [] => none
    else some ([], bs)
  | [] => some ([], [])

/-- A number in front, as written. -/
def number? (bs : Octets) : Option (List Char × Octets) := do
  let (sign, r) : Octets × Octets := match bs with
    | 0x2D :: r => ([0x2D], r)
    | r => ([], r)
  let (w, r) ← whole? r
  let (f, r) ← fraction? r
  let (e, r) ← exponent? r
  return ((sign ++ w ++ f ++ e).map fun b => Char.ofNat b.toNat, r)

/-! ## Strings -/

def hexValue? (b : UInt8) : Option Nat :=
  if isDigit b then some (b.toNat - 0x30)
  else if 0x61 ≤ b ∧ b ≤ 0x66 then some (b.toNat - 0x57)
  else if 0x41 ≤ b ∧ b ≤ 0x46 then some (b.toNat - 0x37)
  else none

def hex4? : Octets → Option (Nat × Octets)
  | a :: b :: c :: d :: r => do
    let a ← hexValue? a
    let b ← hexValue? b
    let c ← hexValue? c
    let d ← hexValue? d
    return (((a * 16 + b) * 16 + c) * 16 + d, r)
  | _ => none

/-- Whether a code unit is the first half of a pair. -/
def isHigh (n : Nat) : Bool := 0xD800 ≤ n && n < 0xDC00

/-- Whether a code unit is the second half of a pair. -/
def isLow (n : Nat) : Bool := 0xDC00 ≤ n && n < 0xE000

/-- The second half of a pair in front, as an escape. -/
def lowEscape? : Octets → Option (Nat × Octets)
  | 0x5C :: 0x75 :: r => (hex4? r).bind fun (n, r) => if isLow n then some (n, r) else none
  | _ => none

def shortEscape? (b : UInt8) : Option UInt8 :=
  if b = 0x22 ∨ b = 0x5C ∨ b = 0x2F then some b
  else if b = 0x62 then some 0x08
  else if b = 0x66 then some 0x0C
  else if b = 0x6E then some 0x0A
  else if b = 0x72 then some 0x0D
  else if b = 0x74 then some 0x09
  else none

/-- A string while it is read: its octets, the newest first, and whether all escapes so far were
characters. -/
structure Pending where
  octets : Octets
  valid : Bool

def Pending.add (p : Pending) (bs : Octets) : Pending :=
  { p with octets := bs.reverse ++ p.octets }

def Pending.text? (p : Pending) : Option String :=
  if p.valid then
    match Text.decode p.octets.reverse with
    | .ok cs => some (.ofList cs)
    | .error _ => none
  else none

/-- The rest of a string after its opening quote; `fuel` is a bound on its length. -/
def string? : (fuel : Nat) → Pending → Octets → Option (Option String × Octets)
  | 0, _, _ => none
  | _ + 1, _, [] => none
  | fuel + 1, p, b :: r =>
    if b = 0x22 then some (p.text?, r)
    else if b < 0x20 then none
    else if b = 0x5C then
      match r with
      | [] => none
      | e :: r =>
        if e = 0x75 then
          match hex4? r with
          | none => none
          | some (n, r) =>
            if isHigh n then
              match lowEscape? r with
              | some (m, r) =>
                let c := Char.ofNat (0x10000 + (n - 0xD800) * 0x400 + (m - 0xDC00))
                string? fuel (p.add (Text.encodeChar c)) r
              | none => string? fuel { p with valid := false } r
            else if isLow n then string? fuel { p with valid := false } r
            else string? fuel (p.add (Text.encodeChar (Char.ofNat n))) r
        else
          match shortEscape? e with
          | none => none
          | some c => string? fuel (p.add [c]) r
    else string? fuel (p.add [b]) r

/-- A string in front, its opening quote included. -/
def quoted? (bs : Octets) : Option (Option String × Octets) :=
  match bs with
  | 0x22 :: r => string? (r.length + 1) ⟨[], true⟩ r
  | _ => none

/-! ## Values -/

mutual

/-- A value in front, blanks before it allowed; `fuel` bounds the number of steps. -/
def value? : (fuel : Nat) → Octets → Option (Value × Octets)
  | 0, _ => none
  | fuel + 1, bs =>
    match skipBlanks bs with
    | [] => none
    | b :: r =>
      if b = octet '"' then (quoted? (b :: r)).map fun (s, r) => (.string s, r)
      else if b = octet '[' then
        match skipBlanks r with
        | 0x5D :: r => some (.array [], r)
        | r => (items? fuel r).map fun (vs, r) => (.array vs, r)
      else if b = octet '{' then
        match skipBlanks r with
        | 0x7D :: r => some (.object [], r)
        | r => (members? fuel r).map fun (ms, r) => (.object ms, r)
      else if b = octet 't' then (after? "true" (b :: r)).map fun r => (.bool true, r)
      else if b = octet 'f' then (after? "false" (b :: r)).map fun r => (.bool false, r)
      else if b = octet 'n' then (after? "null" (b :: r)).map fun r => (.null, r)
      else (number? (b :: r)).map fun (n, r) => (.number n, r)

/-- The items of an array that is not empty, with its closing bracket. -/
def items? : (fuel : Nat) → Octets → Option (List Value × Octets)
  | 0, _ => none
  | fuel + 1, bs =>
    match value? fuel bs with
    | none => none
    | some (v, r) =>
      match skipBlanks r with
      | 0x5D :: r => some ([v], r)
      | 0x2C :: r => (items? fuel r).map fun (vs, r) => (v :: vs, r)
      | _ => none

/-- The members of an object that is not empty, with its closing brace. -/
def members? : (fuel : Nat) → Octets → Option (List (Option String × Value) × Octets)
  | 0, _ => none
  | fuel + 1, bs =>
    match quoted? (skipBlanks bs) with
    | none => none
    | some (k, r) =>
      match skipBlanks r with
      | 0x3A :: r =>
        match value? fuel r with
        | none => none
        | some (v, r) =>
          match skipBlanks r with
          | 0x7D :: r => some ([(k, v)], r)
          | 0x2C :: r => (members? fuel r).map fun (ms, r) => ((k, v) :: ms, r)
          | _ => none
      | _ => none

end

/-- Reads a document: one value, with nothing but blanks around it. -/
def read? (bs : Octets) : Option Value :=
  match value? (bs.length + 1) bs with
  | some (v, r) => if (skipBlanks r).isEmpty then some v else none
  | none => none

/-! ## Reading values of a known shape -/

/-- How deep arrays and objects may be nested where their content is looked at. -/
def maxDepth : Nat := 127

namespace Value

def optionalText? : Value → Option (Option String)
  | .null => some none
  | .string (some s) => some (some s)
  | _ => none

/-- The value of a number of plain decimal digits. -/
def natural? (text : List Char) : Option Nat :=
  if text.all fun c => '0' ≤ c && c ≤ '9' then
    some (text.foldl (fun n c => n * 10 + (c.toNat - 48)) 0)
  else none

/-- A 32-bit number that may be missing. Only plain digits are one. -/
def optionalWord? : Value → Option (Option UInt32)
  | .null => some none
  | .number text =>
    match natural? text with
    | some n => if n < UInt32.size then some (some (.ofNat n)) else none
    | none => none
  | _ => none

/-- The values of known fields, in the order of `names`: from an object by name, from an array by
position. Unknown members are skipped, but each name must be a text, known names may not be
repeated, and an array may not be longer than the names. -/
def fields? (names : List String) : Value → Option (List (Option Value))
  | .object members =>
    if members.all (fun m => m.1.isSome)
        && names.all (fun n => (members.filter fun m => m.1 = some n).length ≤ 1) then
      some (names.map fun n => (members.find? fun m => m.1 = some n).map (·.2))
    else none
  | .array items =>
    if items.length ≤ names.length then
      some ((items.map some) ++ List.replicate (names.length - items.length) none)
    else none
  | _ => none

/-- Reads a field with a default for a missing one. -/
def fieldOr {α : Type} (default : α) (read : Value → Option α) : Option Value → Option α
  | none => some default
  | some v => read v

end Value

end ExplicitSelf.Json
