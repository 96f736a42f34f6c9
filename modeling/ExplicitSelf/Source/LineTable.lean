import ExplicitSelf.Text.Utf8

/-!
# Positions in a source text

A position in a text is a byte offset, a line with a column, or an offset in UTF-16 units. Lines and
columns count from 1, columns count octets, and a line ends after its line feed. A `LineTable`
holds, for every line, where it starts in octets and in UTF-16 units and whether it is ASCII; the
conversions look a line up and finish inside it. On an ASCII line they only add; on any other line
they read the characters again.

* `LineTable.ofText`: the table of a text.
* `lineLength?`, `offsetAt?`, `lineColumn?`: lines and columns.
* `unitOffset?`, `byteOffset?`: UTF-16 units.
* `charBefore?`: the character that ends at an offset.

Offsets are machine words of 64 bits and lines and columns of 32 bits. `lineColumn?` keeps the low
32 bits. The sums and differences of `byteOffset?` are checked: one that is no word ends the program
(`Overflow`).
-/
namespace ExplicitSelf.Source

open Text (width size splitAt? isBoundary)

/-- The number of UTF-16 units of a character. -/
def units (c : Char) : Nat :=
  if c.toNat < 0x10000 then 1 else 2

/-- The number of UTF-16 units of a text. -/
def unitCount : List Char → Nat
  | [] => 0
  | c :: cs => units c + unitCount cs

def isAscii (c : Char) : Bool :=
  c.toNat < 0x80

/-- A line and a column, both counted from 1. mirrors `LineColumn` -/
structure LineColumn where
  line : UInt32
  column : UInt32
  deriving DecidableEq, Repr

def LineColumn.render (p : LineColumn) : String :=
  s!"{p.line.toNat}:{p.column.toNat}"

/-- A text with the start of each line in octets, its start in UTF-16 units, and whether the line is
ASCII. mirrors `PositionIndex` -/
structure LineTable where
  text : List Char
  starts : List Nat
  unitStarts : List Nat
  ascii : List Bool
  deriving DecidableEq, Repr

/-- What a table says about the lines that end in `cs`: the starts of the lines after the current
one, and the flags from the current line on. The current line is ASCII so far if `flag`, and `cs`
starts at offset `i` and unit `u`. -/
def tabulate : (i u : Nat) → (flag : Bool) → List Char → List Nat × List Nat × List Bool
  | _, _, flag, [] => ([], [], [flag])
  | i, u, flag, c :: cs =>
    if c = '\n' then
      let (s, t, l) := tabulate (i + width c) (u + units c) true cs
      ((i + width c) :: s, (u + units c) :: t, (flag && isAscii c) :: l)
    else tabulate (i + width c) (u + units c) (flag && isAscii c) cs

/-- mirrors `PositionIndex.new` -/
def LineTable.ofText (text : List Char) : LineTable :=
  let (s, t, l) := tabulate 0 0 true text
  ⟨text, 0 :: s, 0 :: t, l⟩

namespace LineTable

/-- The number of octets of line `line`, its line feed included. mirrors `line_len` -/
def lineLength? (t : LineTable) (line : UInt32) : Option Nat :=
  if line = 0 then none
  else
    let i := line.toNat - 1
    t.starts[i]?.map fun start => t.starts.getD (i + 1) (size t.text) - start

/-- The offset of a line and column. A column may stand directly after the last octet of a line only
on the last line. mirrors `offset_at` -/
def offsetAt? (t : LineTable) (line column : UInt32) : Option Nat :=
  if column = 0 then none
  else
    match t.starts[line.toNat - 1]?, t.lineLength? line with
    | some start, some n =>
      let c := column.toNat - 1
      if n < c ∨ (c = n ∧ line.toNat ≠ t.starts.length) then none else some (start + c)
    | _, _ => none

/-- The last of the starts, in ascending order, that is at most `n`, by its index.
mirrors `line_index` -/
def lineIndex (starts : List Nat) (n : Nat) : Nat :=
  (starts.takeWhile (· ≤ n)).length - 1

/-- The line and column of an offset. mirrors `line_column` -/
def lineColumn? (t : LineTable) (offset : Nat) : Option LineColumn :=
  if size t.text < offset then none
  else
    let i := lineIndex t.starts offset
    some ⟨.ofNat (i + 1), .ofNat (offset - t.starts.getD i 0 + 1)⟩

def after (t : LineTable) (offset : Nat) : List Char :=
  ((splitAt? offset t.text).map (·.2)).getD []

/-- The UTF-16 offset of a byte offset, if that is a boundary between characters.
mirrors `utf16_offset` -/
def unitOffset? (t : LineTable) (offset : Nat) : Option Nat :=
  if isBoundary offset t.text then
    let i := lineIndex t.starts offset
    let start := t.starts.getD i 0
    let inside :=
      if t.ascii.getD i false then offset - start
      else unitCount (((splitAt? (offset - start) (t.after start)).map (·.1)).getD [])
    some (t.unitStarts.getD i 0 + inside)
  else none

/-- A sum or a difference that is no word. The program panics there and gives no answer at all. -/
inductive Overflow where
  | addition
  | subtraction
  deriving DecidableEq, Repr

def addWords (a b : Nat) : Except Overflow Nat :=
  if a + b < UInt64.size then .ok (a + b) else .error .addition

def subWords (a b : Nat) : Except Overflow Nat :=
  if b ≤ a then .ok (a - b) else .error .subtraction

/-- The offset at which `target` units are reached; `cs` starts at offset `i` and unit `u`. -/
def scanUnits (target : Nat) : (i u : Nat) → List Char → Except Overflow (Option Nat)
  | i, u, [] => .ok (if u = target then some i else none)
  | i, u, c :: cs =>
    if u = target then .ok (some i)
    else if target < u then .ok none
    else do scanUnits target (← addWords i (width c)) (← addWords u (units c)) cs

/-- The byte offset of a UTF-16 offset, if that is a boundary between characters.
mirrors `byte_offset` -/
def byteOffset? (t : LineTable) (offset : Nat) : Except Overflow (Option Nat) :=
  let i := lineIndex t.unitStarts offset
  let u := t.unitStarts.getD i 0
  let start := t.starts.getD i 0
  if t.ascii.getD i false then do
    let byte ← addWords start (← subWords offset u)
    return if byte ≤ size t.text then some byte else none
  else scanUnits offset start u (t.after start)

/-- The character that ends at an offset. mirrors `char_before` -/
def charBefore? (t : LineTable) (offset : Nat) : Option Char :=
  (splitAt? offset t.text).bind fun (l, _) => l.getLast?

end LineTable

end ExplicitSelf.Source
