/-!
# Blank characters

The characters with the Unicode property `White_Space`: what separates words in a text of any
language, line ends included. `trimBlank` drops them at both ends.
-/
namespace ExplicitSelf.Text

/-- The code points of blank characters, as closed ranges. -/
def blankRanges : List (Nat × Nat) :=
  [(0x09, 0x0D), (0x20, 0x20), (0x85, 0x85), (0xA0, 0xA0), (0x1680, 0x1680), (0x2000, 0x200A),
   (0x2028, 0x2029), (0x202F, 0x202F), (0x205F, 0x205F), (0x3000, 0x3000)]

def isBlank (c : Char) : Bool :=
  blankRanges.any fun (a, b) => a ≤ c.toNat && c.toNat ≤ b

def trimBlank (cs : List Char) : List Char :=
  ((cs.dropWhile isBlank).reverse.dropWhile isBlank).reverse

end ExplicitSelf.Text
