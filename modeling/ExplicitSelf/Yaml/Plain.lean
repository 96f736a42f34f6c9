import ExplicitSelf.Text.Digits

/-!
# YAML: what plain scalars mean

A scalar without quotes may spell null, a truth value or a number, and is a text otherwise
(`Meaning.ofPlain`). Whole numbers are decimal, or hexadecimal, octal or binary with a mark; more
than 128 bits are too many. A decimal number with a leading zero is a text, and so is one too large
for a double, since it would be infinite.
-/
namespace ExplicitSelf.Yaml

/-- What a plain scalar spells. -/
inductive Meaning where
  | null
  | truth
  | whole
  | float
  | text
  deriving DecidableEq, Repr

def spellsNull (s : List Char) : Bool :=
  ["null", "Null", "NULL", "~"].contains (String.ofList s)

def spellsTruth (s : List Char) : Bool :=
  ["true", "True", "TRUE", "false", "False", "FALSE"].contains (String.ofList s)

/-! ## Whole numbers -/

def afterSign (s : List Char) : List Char :=
  match s with
  | '+' :: r => r
  | '-' :: r => r
  | r => r

/-- Whether a text has only digits and a leading zero, so that it is no number. -/
def hasLeadingZero (s : List Char) : Bool :=
  match afterSign s with
  | '0' :: d :: r => (d :: r).all Char.isDigit
  | _ => false

/-- Whether digits spell a number up to `most`. -/
def isWithin (most base : Nat) (cs : List Char) : Bool :=
  (Text.number? base cs).any (· ≤ most)

/-- Whether a text spells a number up to `most` after its sign, with a mark or without. -/
def isMagnitude (most : Nat) (s : List Char) : Bool :=
  match s with
  | '0' :: 'x' :: r => isWithin most 16 r
  | '0' :: 'o' :: r => isWithin most 8 r
  | '0' :: 'b' :: r => isWithin most 2 r
  | r => !hasLeadingZero r && isWithin most 10 r

def spellsWhole (s : List Char) : Bool :=
  match s with
  | '+' :: r => isMagnitude (Nat.pow 2 128 - 1) r
  | '-' :: r => isMagnitude (Nat.pow 2 127) r
  | r => isMagnitude (Nat.pow 2 128 - 1) r

/-! ## Decimal fractions -/

def exponent? (s : List Char) : Option Int :=
  match s with
  | '-' :: r => (Text.number? 10 r).map fun n => -(n : Int)
  | '+' :: r => (Text.number? 10 r).map fun n => (n : Int)
  | r => (Text.number? 10 r).map fun n => (n : Int)

/-- The digits and the decimal exponent of a number without a sign. -/
def decimal? (s : List Char) : Option (List Char × Int) := do
  let mantissa := s.takeWhile fun c => c ≠ 'e' && c ≠ 'E'
  let e ← match s.drop mantissa.length with
    | [] => some 0
    | _ :: r => exponent? r
  let whole := mantissa.takeWhile (· ≠ '.')
  let fraction := (mantissa.drop whole.length).drop 1
  let ds := whole ++ fraction
  if ds.isEmpty ∨ !ds.all Char.isDigit then none
  else return (ds, e - fraction.length)

/-- Whether a text spells a number with a fraction or an exponent, infinity, or no number. -/
def spellsFloat (s : List Char) : Bool :=
  let finite (r : List Char) : Bool := (decimal? r).any fun (ds, e) => Text.isFinite ds e
  let infinity (r : List Char) : Bool := [".inf", ".Inf", ".INF"].contains (String.ofList r)
  match s with
  | '+' :: r => infinity r || finite r
  | '-' :: r => infinity r || finite r
  | r => infinity r || [".nan", ".NaN", ".NAN"].contains (String.ofList r) || finite r

def Meaning.ofPlain (s : List Char) : Meaning :=
  if s.isEmpty ∨ spellsNull s then .null
  else if spellsTruth s then .truth
  else if spellsWhole s then .whole
  else if !hasLeadingZero s ∧ spellsFloat s then .float
  else .text

end ExplicitSelf.Yaml
