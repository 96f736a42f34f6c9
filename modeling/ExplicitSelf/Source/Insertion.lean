import ExplicitSelf.Text.Utf8

/-!
# Insertions into a text

A set of insertions is applied from the last offset to the first, so that an offset always refers
to the text as it was. Nothing is inserted unless everything can be: `apply` answers all
`conflicts`, or the new text with the offsets in the order of work.

A conflict is an offset past the end, an offset inside a character, or a second insertion at an
offset. Offsets are judged in descending order, and one offset can be at fault twice.
-/
namespace ExplicitSelf.Source

open Text (size splitAt? isBoundary)

/-- A text to be put in front of the octet at an offset. mirrors `Insertion` -/
structure Insertion where
  offset : Nat
  text : List Char
  deriving DecidableEq, Repr

/-- mirrors `Conflict` -/
inductive Conflict where
  | outOfBounds (offset size : Nat)
  | insideCharacter (offset : Nat)
  | duplicate (offset : Nat)
  deriving DecidableEq, Repr

def Conflict.message : Conflict → String
  | .outOfBounds o n => s!"offset {o} is past the end of the text ({n} bytes)"
  | .insideCharacter o => s!"offset {o} is inside a character"
  | .duplicate o => s!"more than one insertion at offset {o}"

/-- The conflict of a single offset with the text. -/
def placement? (text : List Char) (offset : Nat) : Option Conflict :=
  if size text < offset then some (.outOfBounds offset (size text))
  else if isBoundary offset text then none
  else some (.insideCharacter offset)

/-- All conflicts of offsets in descending order; `previous` is the offset before them. -/
def conflicts (text : List Char) : (previous : Option Nat) → List Nat → List Conflict
  | _, [] => []
  | previous, o :: os =>
    (placement? text o).toList
      ++ (if previous = some o then [.duplicate o] else [])
      ++ conflicts text (some o) os

/-- Insertions with the last offset first; equal offsets keep their order. -/
def descending (xs : List Insertion) : List Insertion :=
  xs.mergeSort fun x y => y.offset ≤ x.offset

/-- Puts a text in front of the octet at an offset. -/
def insertAt (text : List Char) (x : Insertion) : List Char :=
  match splitAt? x.offset text with
  | some (l, r) => l ++ x.text ++ r
  | none => text

/-- The new text, and the offsets in the order in which they were filled. -/
structure Applied where
  text : List Char
  order : List Nat
  deriving DecidableEq, Repr

/-- Applies all insertions, or none of them. mirrors `apply_insertions` -/
def applyInsertions (text : List Char) (xs : List Insertion) : Except (List Conflict) Applied :=
  let sorted := descending xs
  let order := sorted.map (·.offset)
  match conflicts text none order with
  | [] => .ok ⟨sorted.foldl insertAt text, order⟩
  | cs => .error cs

end ExplicitSelf.Source
