import ExplicitSelf.Text.Digits
import ExplicitSelf.Text.Split

/-!
# TOML: strings, numbers and times

Readers of the scalars of TOML. Each takes what is left of a document and gives the value and what
is left after it, or nothing. Lines end in a line feed, with or without a carriage return before it,
and a carriage return stands nowhere else.
-/
namespace ExplicitSelf.Toml

/-- A scalar. Only texts and whole numbers keep their value. -/
inductive Scalar where
  | text (s : String)
  | whole (n : Int)
  | truth
  | float
  | time
  deriving DecidableEq, Repr

def isSpace (c : Char) : Bool := c = ' ' || c = '\t'

/-- Characters of a line: all but control characters, tabs apart. -/
def isLineChar (c : Char) : Bool :=
  c = '\t' || (0x20 ≤ c.toNat && c.toNat ≠ 0x7F)

def skipSpaces (cs : List Char) : List Char := cs.dropWhile isSpace

/-- What stands after a line end in front. -/
def newline? : List Char → Option (List Char)
  | '\n' :: r => some r
  | '\r' :: '\n' :: r => some r
  | _ => none

/-! ## Strings -/

/-- The character whose number exactly `n` hexadecimal digits in front spell. -/
def unicode? (n : Nat) (cs : List Char) : Option (Char × List Char) :=
  if cs.length < n then none
  else
    (Text.number? 16 (cs.take n)).bind fun v =>
      if v.isValidChar then some (.ofNat v, cs.drop n) else none

/-- The character that an escape stands for, after its backslash. -/
def escape? : List Char → Option (Char × List Char)
  | 'b' :: r => some ('\x08', r)
  | 't' :: r => some ('\t', r)
  | 'n' :: r => some ('\n', r)
  | 'f' :: r => some ('\x0C', r)
  | 'r' :: r => some ('\r', r)
  | '"' :: r => some ('"', r)
  | '\\' :: r => some ('\\', r)
  | 'u' :: r => unicode? 4 r
  | 'U' :: r => unicode? 8 r
  | _ => none

/-- The rest of a string on one line, after its opening quote. `fuel` bounds its length. -/
def basic? : (fuel : Nat) → List Char → Option (List Char × List Char)
  | 0, _ => none
  | _ + 1, [] => none
  | _ + 1, '"' :: r => some ([], r)
  | fuel + 1, '\\' :: r =>
    (escape? r).bind fun (c, r) => (basic? fuel r).map fun (cs, r) => (c :: cs, r)
  | fuel + 1, c :: r =>
    if isLineChar c then (basic? fuel r).map fun (cs, r) => (c :: cs, r) else none

/-- The rest of a string without escapes on one line, after its opening quote. -/
def literal? : List Char → Option (List Char × List Char)
  | [] => none
  | '\'' :: r => some ([], r)
  | c :: r => if isLineChar c then (literal? r).map fun (cs, r) => (c :: cs, r) else none

/-- The quotes at the end of a string of several lines: three close it, and up to two before them
belong to it. -/
def closing? (q : Char) (cs : List Char) : Option (List Char × List Char) :=
  let n := (cs.takeWhile (· = q)).length
  if 3 ≤ n then
    let inner := min (n - 3) 2
    some (List.replicate inner q, cs.drop (inner + 3))
  else none

/-- What stands after a backslash that ends a line: the next line without its indentation. -/
def continuation? (cs : List Char) : Option (List Char) :=
  (newline? (skipSpaces cs)).map fun r =>
    let rec skip : (fuel : Nat) → List Char → List Char
      | 0, cs => cs
      | fuel + 1, cs =>
        match newline? (skipSpaces cs) with
        | some r => skip fuel r
        | none => skipSpaces cs
    skip (r.length + 1) r

/-- The rest of a string of several lines, after its opening quotes. -/
def multiBasic? : (fuel : Nat) → List Char → Option (List Char × List Char)
  | 0, _ => none
  | _ + 1, [] => none
  | fuel + 1, c :: r =>
    match closing? '"' (c :: r) with
    | some closed => some closed
    | none =>
      if c = '\\' then
        match escape? r with
        | some (d, r) => (multiBasic? fuel r).map fun (cs, r) => (d :: cs, r)
        | none => (continuation? r).bind (multiBasic? fuel)
      else if isLineChar c then (multiBasic? fuel r).map fun (cs, r) => (c :: cs, r)
      else
        match newline? (c :: r) with
        | some r => (multiBasic? fuel r).map fun (cs, r) => ('\n' :: cs, r)
        | none => none

/-- The rest of a string of several lines without escapes, after its opening quotes. -/
def multiLiteral? : (fuel : Nat) → List Char → Option (List Char × List Char)
  | 0, _ => none
  | _ + 1, [] => none
  | fuel + 1, c :: r =>
    match closing? '\'' (c :: r) with
    | some closed => some closed
    | none =>
      if isLineChar c then (multiLiteral? fuel r).map fun (cs, r) => (c :: cs, r)
      else
        match newline? (c :: r) with
        | some r => (multiLiteral? fuel r).map fun (cs, r) => ('\n' :: cs, r)
        | none => none

def dropNewline (cs : List Char) : List Char := (newline? cs).getD cs

def string? (cs : List Char) : Option (List Char × List Char) :=
  match cs with
  | '"' :: '"' :: '"' :: r => multiBasic? (r.length + 1) (dropNewline r)
  | '\'' :: '\'' :: '\'' :: r => multiLiteral? (r.length + 1) (dropNewline r)
  | '"' :: r => basic? (r.length + 1) r
  | '\'' :: r => literal? r
  | _ => none

/-! ## Numbers -/

/-- Digits in front, with single underscores between them; without the underscores. -/
def digits? (base : Nat) (cs : List Char) : Option (List Char × List Char) :=
  let run := cs.takeWhile fun c => (Text.digit? base c).isSome || c = '_'
  let groups := Text.splitOn '_' run
  if groups.any (·.isEmpty) then none else some (groups.flatten, cs.drop run.length)

def digitsValue (base : Nat) (ds : List Char) : Nat :=
  (Text.number? base ds).getD 0

/-- The sign in front: whether it is a minus. -/
def sign (cs : List Char) : Bool × List Char :=
  match cs with
  | '+' :: r => (false, r)
  | '-' :: r => (true, r)
  | r => (false, r)

/-- Decimal digits that start with no zero, unless it stands alone. -/
def whole? (cs : List Char) : Option (List Char × List Char) :=
  match digits? 10 cs with
  | some ('0' :: _ :: _, _) => none
  | r => r

/-- Whole numbers stay below this bound; negative ones may reach it. -/
def integerBound : Nat := UInt64.size / 2

/-- A whole number of 64 bits in front. -/
def integer? (cs : List Char) : Option (Scalar × List Char) :=
  let marked (base : Nat) (r : List Char) : Option (Scalar × List Char) :=
    (digits? base r).bind fun (ds, r) =>
      let n := digitsValue base ds
      if n < integerBound then some (.whole n, r) else none
  match cs with
  | '0' :: 'x' :: r => marked 16 r
  | '0' :: 'o' :: r => marked 8 r
  | '0' :: 'b' :: r => marked 2 r
  | _ =>
    let (negative, r) := sign cs
    (whole? r).bind fun (ds, r) =>
      let n := digitsValue 10 ds
      if negative then (if n ≤ integerBound then some (.whole (-(n : Int)), r) else none)
      else if n < integerBound then some (.whole n, r)
      else none

/-- An exponent in front: its value and what is left. -/
def exponent? (cs : List Char) : Option (Int × List Char) :=
  match cs with
  | e :: r =>
    if e = 'e' ∨ e = 'E' then
      let (negative, r) := sign r
      (digits? 10 r).map fun (ds, r) =>
        let n := (digitsValue 10 ds : Int)
        (if negative then -n else n, r)
    else none
  | [] => none

/-- A number with a fraction or an exponent in front. A positive one has to be finite. -/
def decimal? (cs : List Char) : Option (Scalar × List Char) := do
  let (negative, r) := sign cs
  let (ds, r) ← whole? r
  let (fs, r, hasFraction) ← match r with
    | '.' :: r => (digits? 10 r).map fun (fs, r) => (fs, r, true)
    | r => some ([], r, false)
  let (e, r, hasExponent) ← match r.head? with
    | some c =>
      if c = 'e' ∨ c = 'E' then (exponent? r).map fun (e, r) => (e, r, true)
      else some (0, r, false)
    | none => some (0, r, false)
  if !hasFraction ∧ !hasExponent then none
  else if !negative ∧ !Text.isFinite (ds ++ fs) (e - fs.length) then none
  else return (.float, r)

/-- A number in front that has a name. -/
def namedFloat? (cs : List Char) : Option (Scalar × List Char) :=
  match (sign cs).2 with
  | 'i' :: 'n' :: 'f' :: r => some (.float, r)
  | 'n' :: 'a' :: 'n' :: r => some (.float, r)
  | _ => none

/-! ## Times -/

/-- A number of exactly `n` digits in front, between two bounds. -/
def fixed? (n least most : Nat) (cs : List Char) : Option (Nat × List Char) :=
  let ds := cs.take n
  if ds.length = n ∧ ds.all Char.isDigit then
    let v := digitsValue 10 ds
    if least ≤ v ∧ v ≤ most then some (v, cs.drop n) else none
  else none

def past? (x : Char) : List Char → Option (List Char)
  | c :: r => if c = x then some r else none
  | [] => none

def daysOf (year month : Nat) : Nat :=
  if month = 2 then
    if (year % 4 = 0 ∧ year % 100 ≠ 0) ∨ year % 400 = 0 then 29 else 28
  else if month = 4 ∨ month = 6 ∨ month = 9 ∨ month = 11 then 30
  else 31

def date? (cs : List Char) : Option (List Char) := do
  let (year, r) ← fixed? 4 0 9999 cs
  let (month, r) ← fixed? 2 1 12 (← past? '-' r)
  let (_, r) ← fixed? 2 1 (daysOf year month) (← past? '-' r)
  return r

def clock? (cs : List Char) : Option (List Char) := do
  let (_, r) ← fixed? 2 0 23 cs
  let (_, r) ← fixed? 2 0 59 (← past? ':' r)
  let (_, r) ← fixed? 2 0 60 (← past? ':' r)
  match r with
  | '.' :: f :: r => if f.isDigit then return r.dropWhile Char.isDigit else none
  | r => return r

/-- A time zone in front; nothing if there is none. -/
def zone? (cs : List Char) : Option (List Char) :=
  match cs with
  | c :: r =>
    if c = 'Z' ∨ c = 'z' then some r
    else if c = '+' ∨ c = '-' then do
      let (_, r) ← fixed? 2 0 23 r
      let (_, r) ← fixed? 2 0 59 (← past? ':' r)
      return r
    else some cs
  | [] => some []

/-- A date, a time of day, or both in front. -/
def time? (cs : List Char) : Option (Scalar × List Char) :=
  match date? cs with
  | some r =>
    let joined :=
      match r with
      | c :: t => if c = 'T' ∨ c = 't' ∨ c = ' ' then (clock? t).map zone? else none
      | [] => none
    match joined with
    | some zoned => zoned.map fun r => (.time, r)
    | none => some (.time, r)
  | none => (clock? cs).map fun r => (.time, r)

/-! ## Scalars -/

def scalar? (cs : List Char) : Option (Scalar × List Char) :=
  match cs with
  | [] => none
  | c :: _ =>
    if c = '"' ∨ c = '\'' then (string? cs).map fun (s, r) => (.text (.ofList s), r)
    else if c = 't' then (Text.afterPrefix? "true".toList cs).map fun r => (.truth, r)
    else if c = 'f' then (Text.afterPrefix? "false".toList cs).map fun r => (.truth, r)
    else if c.isDigit ∨ c = '+' ∨ c = '-' then
      (time? cs).or ((decimal? cs).or ((namedFloat? cs).or (integer? cs)))
    else namedFloat? cs

end ExplicitSelf.Toml
