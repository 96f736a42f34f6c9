/-!
# Digits and the numbers they spell

Digits spell a number in a base up to sixteen, where letters of either case stand for the digits
from ten on (`number?`). Decimal digits with a power of ten are a finite double unless the nearest
double is infinite (`isFinite`).
-/
namespace ExplicitSelf.Text

/-- The value of a digit in a base up to sixteen. -/
def digit? (base : Nat) (c : Char) : Option Nat :=
  let value :=
    if '0' ≤ c ∧ c ≤ '9' then some (c.toNat - 48)
    else if 'a' ≤ c ∧ c ≤ 'f' then some (c.toNat - 87)
    else if 'A' ≤ c ∧ c ≤ 'F' then some (c.toNat - 55)
    else none
  value.filter (· < base)

/-- The number that digits spell, if there is at least one. -/
def number? (base : Nat) (ds : List Char) : Option Nat :=
  if ds.isEmpty then none
  else ds.foldlM (fun n d => (digit? base d).map (n * base + ·)) 0

/-- The numbers from here on are infinite as doubles. -/
def infiniteFrom : Nat := Nat.pow 2 1024 - Nat.pow 2 970

/-- Whether decimal digits times a power of ten are a finite double. Far from the limit the number
of digits decides. -/
def isFinite (ds : List Char) (power : Int) : Bool :=
  let ds := ds.dropWhile (· = '0')
  let order := (ds.length : Int) + power
  if ds.isEmpty ∨ order ≤ 300 then true
  else if 310 < order then false
  else
    match number? 10 ds with
    | none => false
    | some n =>
      if 0 ≤ power then n * Nat.pow 10 power.toNat < infiniteFrom
      else n < infiniteFrom * Nat.pow 10 (-power).toNat

end ExplicitSelf.Text
