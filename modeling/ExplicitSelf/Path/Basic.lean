import ExplicitSelf.Text.Split
import ExplicitSelf.Text.Utf8

/-!
# Names and paths

A name is a list of octets, as the machine keeps it: most names are the octets of a text, but they
need not be (`Name.text?`). A path is a list of octets too, with slashes between its names. What it
means is the list of its components: the root, the current directory (only at the front), the parent
directory, and names. Repeated slashes, a slash at the end, and a current directory anywhere but at
the front mean nothing, yet the octets keep them, and a path is always shown as it was written, with
a replacement character for each stretch of octets that is no text (`Path.text`). Paths are equal,
and ordered, by their components (`Path.same`, `Path.le`).

* `components`, `isAbsolute`, `fileName?`, `extension?`: reading a path.
* `parent?`, `ancestors`: the directories above; their octets are fronts of the path's own.
* `join`, `ofComponents`: building paths.
-/
namespace ExplicitSelf

open Text (Octets)

/-- A name in a directory: any octets, whether they are a text or not. -/
structure Name where
  octets : Octets
  deriving DecidableEq, Repr, Inhabited

namespace Name

def ofText (s : String) : Name := ⟨Text.encode s.toList⟩

instance : Coe String Name := ⟨ofText⟩

/-- The text of a name, if it is the octets of one. -/
def text? (n : Name) : Option String :=
  (Text.decode n.octets).toOption.map .ofList

/-- How a name is shown: its text, with replacement characters for octets that are none. -/
def text (n : Name) : String :=
  .ofList (Text.decodeLossy n.octets)

end Name

/-- A path: any octets, whether they are a text or not. -/
structure Path where
  octets : Octets
  deriving DecidableEq, Repr, Inhabited

/-- One step of a path. -/
inductive Component where
  | root
  | current
  | parent
  | name (n : Name)
  deriving DecidableEq, Repr

/-- How a component stands among others: root, current, parent, then names by their octets. -/
def Component.le : Component → Component → Bool
  | .root, _ => true
  | _, .root => false
  | .current, _ => true
  | _, .current => false
  | .parent, _ => true
  | _, .parent => false
  | .name n, .name m => decide (n.octets ≤ m.octets)

def Component.listLe : List Component → List Component → Bool
  | [], _ => true
  | _ :: _, [] => false
  | a :: as, b :: bs => if a = b then listLe as bs else a.le b

namespace Path

@[match_pattern] abbrev slash : UInt8 := 0x2F

@[match_pattern] abbrev dot : UInt8 := 0x2E

def ofText (s : String) : Path := ⟨Text.encode s.toList⟩

instance : Coe String Path := ⟨ofText⟩

/-- How a path is shown: its text, with replacement characters for octets that are none. -/
def text (p : Path) : String :=
  .ofList (Text.decodeLossy p.octets)

def isAbsolute (p : Path) : Bool :=
  p.octets.head? = some slash

/-- The pieces between slashes, without the slash of the root. -/
def pieces (p : Path) : List Octets :=
  match p.octets with
  | slash :: bs => Text.splitOn slash bs
  | bs => Text.splitOn slash bs

/-- Whether a piece means nothing where it is not in front. -/
def isIdle (piece : Octets) : Bool :=
  piece = [] || piece = [dot]

def componentOf (piece : Octets) : Component :=
  if piece = [dot, dot] then .parent else .name ⟨piece⟩

def componentsOf (pieces : List Octets) : List Component :=
  (pieces.filter fun p => !isIdle p).map componentOf

/-- What a path means. -/
def components (p : Path) : List Component :=
  if p.isAbsolute then .root :: componentsOf p.pieces
  else
    match p.pieces with
    | [dot] :: ps => .current :: componentsOf ps
    | ps => componentsOf ps

def same (p q : Path) : Bool :=
  p.components = q.components

def le (p q : Path) : Bool :=
  Component.listLe p.components q.components

/-! ## Names -/

/-- The names of a path, without dots. -/
def normalNames (p : Path) : List Name :=
  p.components.filterMap fun
    | .name n => some n
    | _ => none

/-- The last component, if it is a name. -/
def fileName? (p : Path) : Option Name :=
  match p.components.getLast? with
  | some (.name n) => some n
  | _ => none

/-- What stands after the last dot of a name, unless the name starts with that dot. -/
def extensionOf? (name : Octets) : Option Octets :=
  let r := name.reverse
  match r.dropWhile (· ≠ dot) with
  | [] => none
  | [_] => none
  | _ :: _ :: _ => some (r.takeWhile (· ≠ dot)).reverse

def extension? (p : Path) : Option Name :=
  p.fileName?.bind fun n => (extensionOf? n.octets).map .mk

/-! ## Directories above -/

/-- Drops the pieces at the end that mean nothing; `front` tells whether the list starts at the
front of a relative path, where a current directory counts. -/
def dropIdle (front : Bool) (pieces : List Octets) : List Octets :=
  let kept := (pieces.reverse.dropWhile isIdle).reverse
  if kept.isEmpty ∧ front ∧ pieces.head? = some [dot] then [[dot]] else kept

/-- The directory that a path stands in, as a front of its octets. -/
def parent? (p : Path) : Option Path :=
  let front := !p.isAbsolute
  match dropIdle front p.pieces with
  | [] => none
  | ps =>
    let above := Text.joinWith slash (dropIdle front ps.dropLast)
    some ⟨if front then above else slash :: above⟩

/-- A path and the directories above it, nearest first; `fuel` bounds their number. -/
def ancestorsUpTo : (fuel : Nat) → Path → List Path
  | 0, p => [p]
  | fuel + 1, p =>
    match p.parent? with
    | none => [p]
    | some q => p :: ancestorsUpTo fuel q

def ancestors (p : Path) : List Path :=
  ancestorsUpTo p.pieces.length p

/-! ## Building -/

/-- A path below another; an absolute path stays as it is. -/
def join (p q : Path) : Path :=
  if q.isAbsolute then q
  else if p.octets.isEmpty ∨ p.octets.getLast? = some slash then ⟨p.octets ++ q.octets⟩
  else ⟨p.octets ++ slash :: q.octets⟩

def child (p : Path) (name : Name) : Path :=
  p.join ⟨name.octets⟩

/-- The octets of a component after the root. -/
def componentOctets : Component → Octets
  | .root => []
  | .current => [dot]
  | .parent => [dot, dot]
  | .name n => n.octets

/-- The plainest path with these components. -/
def ofComponents : List Component → Path
  | .root :: cs => ⟨slash :: Text.joinWith slash (cs.map componentOctets)⟩
  | cs => ⟨Text.joinWith slash (cs.map componentOctets)⟩

end Path

end ExplicitSelf
