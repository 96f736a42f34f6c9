import ExplicitSelf.Glob.Pattern
import ExplicitSelf.Path.Basic

/-!
# Globs: which paths a pattern matches

A pattern is matched against the octets of a path, as a whole. `Token.rests` gives what can be left
of the octets after a token; `restsAll` follows a list of tokens from a set of such rests.
A class looks at single octets too, so its members above ASCII count by their octets.

Patterns that are settled by the file name alone never match a path that ends in a dot, since such
a path has no file name (`Glob.needsName`).
-/
namespace ExplicitSelf

namespace Glob

open Text (Octets)
open Path (slash)

/-- A text and all its rests, the longest first. -/
def tails : Octets → List Octets
  | [] => [[]]
  | b :: bs => (b :: bs) :: tails bs

def afterSlash? : Octets → Option Octets
  | b :: bs => if b = slash then some bs else none
  | [] => none

def afterOctets? : (front : Octets) → Octets → Option Octets
  | [], bs => some bs
  | _ :: _, [] => none
  | a :: as, b :: bs => if a = b then afterOctets? as bs else none

/-- Whether a class range holds an octet. Between characters of several octets a range goes from the
last octet of the first to the first octet of the last, and the other octets stand for themselves.
-/
def inRange (range : Char × Char) (b : UInt8) : Bool :=
  let lo := Text.encodeChar range.1
  let hi := Text.encodeChar range.2
  if range.1 = range.2 then lo.contains b
  else
    lo.dropLast.contains b || hi.tail.contains b
      || (decide (lo.getLast?.getD 0 ≤ b) && decide (b ≤ hi.head?.getD 0))

def inClass (negated : Bool) (ranges : List (Char × Char)) (b : UInt8) : Bool :=
  (ranges.any fun r => inRange r b) != negated

mutual

/-- What can be left of a text after a token. -/
def Token.rests : Token → Octets → List Octets
  | .literal c, bs => (afterOctets? (Text.encodeChar c) bs).toList
  | .any, bs => bs.tail?.toList
  | .star, bs => tails bs
  | .directories, bs => bs :: (tails bs).filterMap afterSlash?
  | .beneath, bs => (afterSlash? bs).toList.flatMap tails
  | .between, bs =>
    (afterSlash? bs).toList.flatMap fun r => r :: (tails r).filterMap afterSlash?
  | .oneOf negated ranges, b :: bs => if inClass negated ranges b then [bs] else []
  | .oneOf _ _, [] => []
  | .choice [], bs => [bs]
  | .choice (t :: ts), bs => restsAny (t :: ts) bs

/-- What can be left after a list of tokens, of any of the texts `from`. -/
def restsAll : List Token → (from_ : List Octets) → List Octets
  | [], from_ => from_
  | t :: ts, from_ => restsAll ts (from_.flatMap t.rests).eraseDups

/-- What can be left after one of several lists of tokens. -/
def restsAny : List (List Token) → Octets → List Octets
  | [], _ => []
  | ts :: rest, bs => restsAll ts [bs] ++ restsAny rest bs

end

def matchesOctets (ts : List Token) (bs : Octets) : Bool :=
  (restsAll ts [bs]).contains []

/-! ## Patterns for a file name -/

/-- The characters of tokens that are all literals. -/
def literals? : List Token → Option (List Char)
  | [] => some []
  | .literal c :: ts => (literals? ts).map (c :: ·)
  | _ :: _ => none

def afterDirectories : List Token → List Token
  | .directories :: ts => ts
  | ts => ts

def afterStar : List Token → List Token
  | .star :: ts => ts
  | ts => ts

/-- Any directories, and a name after them. -/
def isNamePattern : List Token → Bool
  | .directories :: ts =>
    match literals? ts with
    | some cs => !cs.isEmpty && !cs.contains '/'
    | none => false
  | _ => false

/-- A star, a dot, and an extension after them. -/
def isExtensionPattern (ts : List Token) : Bool :=
  match afterDirectories ts with
  | .star :: .literal '.' :: rest =>
    match literals? rest with
    | some cs => !cs.contains '.' && !cs.contains '/'
    | none => false
  | _ => false

/-- Ends in a dot, and is more than a text or the ending of one. -/
def isDotPattern (ts : List Token) : Bool :=
  (match ts.getLast? with
    | some (.literal '.') => true
    | _ => false)
    && (literals? (afterStar (afterDirectories ts))).isNone

end Glob

namespace Glob

/-- Whether the pattern is settled by the file name. -/
def needsName (g : Glob) : Bool :=
  isNamePattern g.tokens || isExtensionPattern g.tokens || isDotPattern g.tokens

/-- Whether the pattern matches a path, by its octets. -/
def isMatch (g : Glob) (p : Path) : Bool :=
  match g.tokens with
  | [.directories] => true
  | ts =>
    !(g.needsName && p.octets.getLast? = some Path.dot) && matchesOctets ts p.octets

end Glob

/-! ## Excludes -/

/-- Patterns of files to leave out. -/
structure Excludes where
  globs : List Glob

namespace Excludes

def none : Excludes := ⟨[]⟩

structure Invalid where
  pattern : String
  fault : Glob.Fault
  deriving DecidableEq, Repr

def Invalid.message (e : Invalid) : String :=
  "invalid exclude pattern " ++ "`" ++ e.pattern ++ "`: " ++ e.fault.message e.pattern

/-- Reads patterns; the first that cannot be read is the error. -/
def parse : List String → Except Invalid Excludes
  | [] => .ok none
  | p :: ps =>
    match Glob.parse p with
    | .error fault => .error ⟨p, fault⟩
    | .ok g => (parse ps).map fun e => ⟨g :: e.globs⟩

def isMatch (e : Excludes) (p : Path) : Bool :=
  e.globs.any fun g => g.isMatch p

end Excludes

end ExplicitSelf
