import ExplicitSelf.Text.Digits
import ExplicitSelf.Yaml.Cursor

/-!
# YAML: scalars

The text of a scalar in its three spellings: plain, between quotes, and as a block of lines. Line
ends inside a plain or quoted scalar are folded (`Fold.text`): one is a space, and each one more
stands for itself. Each reader gives the text and the cursor after it, or nothing if the spelling is
wrong; `fuel` bounds the characters that it reads.
-/
namespace ExplicitSelf.Yaml

inductive Style where
  | plain
  | quoted
  | block
  deriving DecidableEq, Repr

/-! ## Folding -/

/-- What was read between two words of a scalar: gaps, then a first line end and those after it. -/
structure Fold where
  gaps : List Char := []
  broken : Bool := false
  first : List Char := []
  others : List Char := []

/-- The text that folded white space stands for. -/
def Fold.text (f : Fold) : List Char :=
  if f.broken then
    if f.first = ['\n'] then (if f.others.isEmpty then [' '] else f.others)
    else f.first ++ f.others
  else f.gaps

/-- Reads white space. In front of column `least` of a new line a tab is an error. -/
def readFold? (least : Int) : (fuel : Nat) → Fold → Cursor → Option (Fold × Cursor)
  | 0, _, _ => none
  | fuel + 1, f, c =>
    match c.rest with
    | [] => some (f, c)
    | x :: _ =>
      if isGap x then
        if f.broken ∧ x = '\t' ∧ (c.column : Int) < least then none
        else if f.broken then readFold? least fuel f (c.skip 1)
        else readFold? least fuel { f with gaps := f.gaps ++ [x] } (c.skip 1)
      else if isBreak x then
        let (b, c) := c.takeBreak
        if f.broken then readFold? least fuel { f with others := f.others ++ b } c
        else readFold? least fuel { f with gaps := [], broken := true, first := b } c
      else some (f, c)

/-! ## Plain scalars -/

/-- Whether a character ends a plain scalar inside a flow collection. -/
def endsFlowPlain (x : Char) : Bool :=
  [',', '[', ']', '{', '}'].contains x

/-- The run of characters in front that belong to a plain scalar. Inside a flow collection a colon
may not stand right before an indicator. -/
def plainRun? (flow : Bool) : List Char → Option (List Char)
  | [] => some []
  | x :: r =>
    if isGap x || isBreak x then some []
    else if flow ∧ x = ':' ∧ (r.head?.any fun y => endsFlowPlain y || y = '?') then none
    else if (x = ':' ∧ atWordEnd r) ∨ (flow ∧ endsFlowPlain x) then some []
    else (plainRun? flow r).map (x :: ·)

/-- A plain scalar while it is read: `text` so far, and the white space after it. -/
structure PlainText where
  text : List Char
  fold : Fold
  cursor : Cursor

/-- Reads a plain scalar whose further lines start at column `least` or later. -/
def readPlain? (flow : Bool) (least : Int) : (fuel : Nat) → PlainText → Option PlainText
  | 0, _ => none
  | fuel + 1, p =>
    let c := p.cursor
    if c.atDocumentMarker || c.sees '#' then some p
    else
      match plainRun? flow c.rest with
      | none => none
      | some [] => some p
      | some run =>
        let text := p.text ++ p.fold.text ++ run
        let c := c.skip run.length
        match readFold? least (c.rest.length + 1) {} c with
        | none => none
        | some (f, d) =>
          let q : PlainText := ⟨text, f, d⟩
          if d.index = c.index then some q
          else if !flow ∧ (d.column : Int) < least then some q
          else readPlain? flow least fuel q

/-! ## Quoted scalars -/

/-- The character that a short escape stands for. -/
def shortEscape? (x : Char) : Option Char :=
  match x with
  | '0' => some '\x00'
  | 'a' => some '\x07'
  | 'b' => some '\x08'
  | 't' => some '\t'
  | '\t' => some '\t'
  | 'n' => some '\n'
  | 'v' => some '\x0B'
  | 'f' => some '\x0C'
  | 'r' => some '\r'
  | 'e' => some '\x1B'
  | ' ' => some ' '
  | '"' => some '"'
  | '/' => some '/'
  | '\\' => some '\\'
  | 'N' => some '\u0085'
  | '_' => some '\u00a0'
  | 'L' => some '\u2028'
  | 'P' => some '\u2029'
  | _ => none

/-- The number of digits of a hexadecimal escape. -/
def escapeLength? (x : Char) : Option Nat :=
  match x with
  | 'x' => some 2
  | 'u' => some 4
  | 'U' => some 8
  | _ => none

/-- The character after a backslash and how many characters spell it. -/
def escape? : List Char → Option (Char × Nat)
  | [] => none
  | x :: r =>
    match escapeLength? x with
    | some n =>
      if r.length < n then none
      else
        (Text.number? 16 (r.take n)).bind fun v =>
          if v.isValidChar then some (Char.ofNat v, n + 1) else none
    | none => (shortEscape? x).map fun c => (c, 1)

/-- How a run of quoted characters ends. -/
inductive RunEnd where
  | quote
  /-- White space, or the end of the stream. -/
  | gap
  /-- A backslash before a line end. -/
  | continued

/-- A run of quoted characters without white space: the text, how many characters spell it, and how
it ends. -/
def quotedRun? (single : Bool) : (fuel : Nat) → List Char → Option (List Char × Nat × RunEnd)
  | 0, _ => none
  | _ + 1, [] => some ([], 0, .gap)
  | fuel + 1, x :: r =>
    let more (y : Char) (n : Nat) (r : List Char) :=
      (quotedRun? single fuel r).map fun (cs, k, e) => (y :: cs, n + k, e)
    if isGap x || isBreak x then some ([], 0, .gap)
    else if single then
      if x = '\'' then
        match r with
        | '\'' :: r => more '\'' 2 r
        | _ => some ([], 0, .quote)
      else more x 1 r
    else if x = '"' then some ([], 0, .quote)
    else if x = '\\' then
      match r with
      | [] => none
      | y :: _ =>
        if isBreak y then some ([], 1, .continued)
        else
          match escape? r with
          | some (z, n) => more z (n + 1) (r.drop n)
          | none => none
    else more x 1 r

/-- Reads a quoted scalar after its opening quote; `text` is what was read before. -/
def readQuoted? (single : Bool) : (fuel : Nat) → (text : List Char) → Cursor →
    Option (List Char × Cursor)
  | 0, _, _ => none
  | fuel + 1, text, c =>
    if c.atDocumentMarker || c.rest.isEmpty then none
    else
      match quotedRun? single (c.rest.length + 1) c.rest with
      | none => none
      | some (run, n, .quote) => some (text ++ run, (c.skip n).skip 1)
      | some (run, n, .gap) =>
        let c := c.skip n
        match readFold? 0 (c.rest.length + 1) {} c with
        | some (f, d) => readQuoted? single fuel (text ++ run ++ f.text) d
        | none => none
      | some (run, n, .continued) =>
        let c := (c.skip n).skipBreak
        match readFold? 0 (c.rest.length + 1) { broken := true } c with
        | some (f, d) => readQuoted? single fuel (text ++ run ++ f.text) d
        | none => none

/-! ## Block scalars -/

/-- What becomes of the line ends at the end of a block. -/
inductive Chomp where
  | strip
  | clip
  | keep
  deriving DecidableEq

/-- The header of a block scalar: how it ends, and how much deeper it is indented, if given. -/
def blockHeader? (c : Cursor) : Option (Chomp × Option Nat × Cursor) :=
  let chomp? (c : Cursor) : Option (Chomp × Cursor) :=
    if c.sees '+' then some (.keep, c.skip 1)
    else if c.sees '-' then some (.strip, c.skip 1)
    else none
  let digit? (c : Cursor) : Option (Option Nat × Cursor) :=
    match c.peek? with
    | some d =>
      if d = '0' then none
      else if d.isDigit then some (some (d.toNat - 48), c.skip 1)
      else some (none, c)
    | none => some (none, c)
  match chomp? c with
  | some (k, c) => (digit? c).map fun (n, c) => (k, n, c)
  | none =>
    (digit? c).map fun (n, c) =>
      match n, chomp? c with
      | some _, some (k, c) => (k, n, c)
      | _, _ => (.clip, n, c)

/-- Reads the empty lines before a line of a block and its indentation. `indent` is the indentation
of the block, zero while it is not known; `deepest` is the deepest line so far. A tab in the
indentation is an error. -/
def blockBreaks? (indent : Nat) : (fuel deepest : Nat) → (breaks : List Char) → Cursor →
    Option (Nat × List Char × Cursor)
  | 0, _, _, _ => none
  | fuel + 1, deepest, breaks, c =>
    let spaces := (c.rest.takeWhile (· = ' ')).length
    let c := c.skip (if indent = 0 then spaces else min spaces (indent - c.column))
    let deepest := max deepest c.column
    if (indent = 0 ∨ c.column < indent) ∧ c.sees '\t' then none
    else if c.rest.isEmpty ∨ !atLineEnd c.rest then some (deepest, breaks, c)
    else
      let (b, c) := c.takeBreak
      blockBreaks? indent fuel deepest (breaks ++ b) c

/-- Reads the lines of a block. `lead` is the line end of the line before, `breaks` those of empty
lines after it, and `gapped` tells whether the line before started with a gap. -/
def blockLines? (literal : Bool) (indent : Nat) : (fuel : Nat) → (text lead breaks : List Char) →
    (gapped : Bool) → Cursor → Option (List Char × List Char × List Char × Cursor)
  | 0, _, _, _, _, _ => none
  | fuel + 1, text, lead, breaks, gapped, c =>
    match c.rest with
    | [] => some (text, lead, breaks, c)
    | x :: _ =>
      if c.column ≠ indent then some (text, lead, breaks, c)
      else
        let gap := isGap x
        let joined :=
          if !literal ∧ lead = ['\n'] ∧ !gapped ∧ !gap then
            (if breaks.isEmpty then [' '] else breaks)
          else lead ++ breaks
        let (line, c) := c.takeWhile (!isBreak ·)
        let (b, c) := c.takeBreak
        match blockBreaks? indent (c.rest.length + 1) 0 [] c with
        | none => none
        | some (_, bs, c) => blockLines? literal indent fuel (text ++ joined ++ line) b bs gap c

/-- Reads a block scalar after its indicator, in a block indented by `parent`. -/
def readBlock? (literal : Bool) (parent : Int) (c : Cursor) : Option (List Char × Cursor) := do
  let (chomp, deeper, c) ← blockHeader? c
  let c ← c.finishLine?
  let given := match deeper with
    | some n => if 0 ≤ parent then parent.toNat + n else n
    | none => 0
  let (deepest, breaks, c) ← blockBreaks? given (c.rest.length + 1) 0 [] c
  let indent := if given = 0 then max (max deepest (parent + 1).toNat) 1 else given
  let (text, lead, breaks, c) ←
    blockLines? literal indent (c.rest.length + 1) [] [] breaks false c
  let tail := match chomp with
    | .strip => []
    | .clip => lead
    | .keep => lead ++ breaks
  return (text ++ tail, c)

end ExplicitSelf.Yaml
