import ExplicitSelf.Yaml.Scalar

/-!
# YAML: the tokens of a stream

Tokens are the marks and scalars of a stream, together with marks that the layout implies: where a
block collection starts, where it ends, and where a key does. A block collection lasts as long as
its lines are indented as deep as its first. A key without a mark of its own is known only by the
colon after it, so the scanner notes each place where a key may start (`SimpleKey`) and puts the
marks in front of it later; such a key stands on one line and is at most 1024 characters long.

`Token.scan?` gives all tokens of a stream, or nothing if the stream is not well-formed.
-/
namespace ExplicitSelf.Yaml

inductive Token where
  | streamEnd
  | documentStart
  | documentEnd
  | version (major minor : Nat)
  | tagDirective (handle expansion : List Char)
  | blockSequenceStart
  | blockMappingStart
  | blockEnd
  | flowSequenceStart
  | flowSequenceEnd
  | flowMappingStart
  | flowMappingEnd
  | blockEntry
  | flowEntry
  | key
  | value
  | alias (name : List Char)
  | anchor (name : List Char)
  | tag (handle suffix : List Char)
  | scalar (text : List Char) (style : Style)
  deriving DecidableEq, Repr

/-! ## Anchors, tags and directives -/

/-- Characters that may follow the name of an anchor. -/
def endsAnchor (r : List Char) : Bool :=
  atWordEnd r || r.head?.any ['?', ':', ',', ']', '}', '%', '@', '`'].contains

/-- The name of an anchor or an alias, after its mark. -/
def anchorName? (c : Cursor) : Option (List Char × Cursor) :=
  let (name, c) := c.takeWhile isWord
  if name.isEmpty ∨ !endsAnchor c.rest then none else some (name, c)

/-- Characters of a tag; commas and brackets only where they cannot end a flow collection. -/
def isTagChar (free : Bool) (x : Char) : Bool :=
  isWord x || [';', '/', '?', ':', '@', '&', '=', '+', '$', '.', '%', '!', '~', '*', '\'', '(',
    ')'].contains x || (free && [',', '[', ']'].contains x)

/-- The number of octets of a character, by its first octet. -/
def octetWidth? (n : Nat) : Option Nat :=
  if n < 0x80 then some 1
  else if 0xC0 ≤ n ∧ n < 0xE0 then some 2
  else if 0xE0 ≤ n ∧ n < 0xF0 then some 3
  else if 0xF0 ≤ n ∧ n < 0xF8 then some 4
  else none

/-- Whether the percent escapes of a tag spell characters; `due` octets of one are still missing. -/
def escapesValid : (due : Nat) → List Char → Bool
  | due, [] => due = 0
  | due, '%' :: a :: b :: r =>
    match Text.number? 16 [a, b] with
    | none => false
    | some n =>
      if due = 0 then
        match octetWidth? n with
        | some w => escapesValid (w - 1) r
        | none => false
      else 0x80 ≤ n && n < 0xC0 && escapesValid (due - 1) r
  | due, x :: r => x ≠ '%' && due = 0 && escapesValid 0 r

/-- Replaces the percent escapes of ASCII characters. -/
def unescapeTag : List Char → List Char
  | [] => []
  | '%' :: a :: b :: r =>
    match Text.number? 16 [a, b] with
    | some n => Char.ofNat n :: unescapeTag r
    | none => '%' :: unescapeTag (a :: b :: r)
  | x :: r => x :: unescapeTag r

/-- The characters of a tag in front, with escapes replaced. -/
def tagText? (free : Bool) (c : Cursor) : Option (List Char × Cursor) :=
  let (text, c) := c.takeWhile (isTagChar free)
  if escapesValid 0 text then some (unescapeTag text, c) else none

/-- The handle of a tag: an exclamation mark, or a word between two. -/
def tagHandle? (c : Cursor) : Option (List Char × Cursor) :=
  if c.sees '!' then
    let (name, c) := (c.skip 1).takeWhile isWord
    if c.sees '!' then some ('!' :: name ++ ['!'], c.skip 1) else some ('!' :: name, c)
  else none

/-- A tag in front: its handle and its suffix. A tag of only an exclamation mark has no handle. -/
def readTag? (flow : Bool) (c : Cursor) : Option (Token × Cursor) := do
  let (handle, suffix, c) ←
    if (c.rest.drop 1).head? = some '<' then do
      let (text, c) ← tagText? true (c.skip 2)
      if text.isEmpty ∨ !c.sees '>' then none else some ([], text, c.skip 1)
    else do
      let (handle, c) ← tagHandle? c
      let (text, c) ← tagText? false c
      if 1 < handle.length ∧ handle.getLast? = some '!' then
        if text.isEmpty then none else some (handle, text, c)
      else
        let suffix := handle.drop 1 ++ text
        some (if suffix.isEmpty then ([], ['!'], c) else (['!'], suffix, c))
  if atWordEnd c.rest ∨ (flow ∧ c.sees ',') then return (.tag handle suffix, c) else none

/-- A number of at most nine digits. -/
def versionNumber? (c : Cursor) : Option (Nat × Cursor) :=
  let (ds, c) := c.takeWhile Char.isDigit
  if ds.isEmpty ∨ 9 < ds.length then none
  else some (ds.foldl (fun n d => n * 10 + (d.toNat - 48)) 0, c)

/-- A directive in front, with the rest of its line. -/
def readDirective? (c : Cursor) : Option (Token × Cursor) := do
  let (name, c) := (c.skip 1).takeWhile isWord
  if !atWordEnd c.rest then none
  else if name = "YAML".toList then
    let (major, c) ← versionNumber? (c.skipWhile isGap)
    if !c.sees '.' then none
    let (minor, c) ← versionNumber? (c.skip 1)
    let c ← c.finishLine?
    return (.version major minor, c)
  else if name = "TAG".toList then
    let (handle, c) ← tagHandle? (c.skipWhile isGap)
    if handle ≠ ['!'] ∧ (handle.length = 1 ∨ handle.getLast? ≠ some '!') then none
    if !(c.peek?.any isGap) then none
    let (text, c) ← tagText? true (c.skipWhile isGap)
    if text.isEmpty ∨ !atWordEnd c.rest then none
    let c ← c.finishLine?
    return (.tagDirective handle text, c)
  else none

/-! ## The scanner -/

/-- A place where a key may start: `position` counts the tokens before it. A required key has to be
one, by its indentation. -/
structure SimpleKey where
  required : Bool
  position : Nat
  index : Nat
  line : Nat
  column : Nat

/-- A stream while it is scanned. `tokens` has the newest first, and `count` is their number; `keys`
has the place of a possible key for each open flow collection, the innermost first, and one for the
blocks outside; `indents` are the indentations of the blocks around the current one. -/
structure Scanner where
  cursor : Cursor
  tokens : List Token := []
  count : Nat := 0
  keys : List (Option SimpleKey) := [none]
  indent : Int := -1
  indents : List Int := []
  keyAllowed : Bool := true

namespace Scanner

def inFlow (s : Scanner) : Bool := 1 < s.keys.length

def push (s : Scanner) (t : Token) : Scanner :=
  { s with tokens := t :: s.tokens, count := s.count + 1 }

/-- Adds a token before the one at `position`. -/
def insert (s : Scanner) (position : Nat) (t : Token) : Scanner :=
  let n := s.count - position
  { s with tokens := s.tokens.take n ++ t :: s.tokens.drop n, count := s.count + 1 }

def advance (s : Scanner) (n : Nat) : Scanner :=
  { s with cursor := s.cursor.skip n }

/-- Gives up the possible keys that are too far back; a required one may not be. -/
def dropStaleKeys? (s : Scanner) : Option Scanner :=
  let stale (k : SimpleKey) : Bool :=
    k.line < s.cursor.line || k.index + 1024 < s.cursor.index
  if s.keys.any fun k => k.any fun k => stale k && k.required then none
  else some { s with keys := s.keys.map fun k => k.filter (!stale ·) }

/-- Gives up the possible key of the current collection. -/
def dropKey? (s : Scanner) : Option Scanner :=
  match s.keys with
  | [] => some s
  | k :: ks => if k.any (·.required) then none else some { s with keys := none :: ks }

/-- Notes that a key may start here. -/
def noteKey? (s : Scanner) : Option Scanner :=
  if s.keyAllowed then
    let k : SimpleKey :=
      { required := !s.inFlow && decide (s.indent = s.cursor.column)
        position := s.count
        index := s.cursor.index
        line := s.cursor.line
        column := s.cursor.column }
    s.dropKey?.map fun s => { s with keys := some k :: s.keys.drop 1 }
  else some s

/-- Starts a block collection at a column deeper than the current one, with its first token before
`position`. -/
def openBlock (s : Scanner) (column position : Nat) (t : Token) : Scanner :=
  if !s.inFlow ∧ s.indent < column then
    { s.insert position t with indent := column, indents := s.indent :: s.indents }
  else s

/-- Ends the block collections deeper than a column. -/
def closeBlocks (column : Int) : (indents : List Int) → Scanner → Scanner
  | [], s => s
  | i :: is, s =>
    if column < s.indent then
      closeBlocks column is { s.push .blockEnd with indent := i, indents := is }
    else s

/-- Ends the block collections deeper than a column, outside of flow collections. -/
def unroll (s : Scanner) (column : Int) : Scanner :=
  if s.inFlow then s else closeBlocks column s.indents s

/-- Goes past white space and comments. Where a key may start, a tab is no white space. -/
def skipToToken : (fuel : Nat) → Scanner → Scanner
  | 0, s => s
  | fuel + 1, s =>
    let c := s.cursor
    let c := if c.column = 0 ∧ c.sees '\uFEFF' then c.skip 1 else c
    let c := c.skipWhile fun x => x = ' ' || ((s.inFlow || !s.keyAllowed) && x = '\t')
    let c := if c.sees '#' then c.skipWhile (!isBreak ·) else c
    if !c.rest.isEmpty ∧ atLineEnd c.rest then
      skipToToken fuel
        { s with cursor := c.skipBreak, keyAllowed := s.keyAllowed || !s.inFlow }
    else { s with cursor := c }

/-- Adds the token of a mark of `n` characters that ends all blocks. -/
def boundary? (s : Scanner) (t : Token) (n : Nat) : Option Scanner :=
  (s.unroll (-1)).dropKey?.map fun s => { (s.push t).advance n with keyAllowed := false }

def openFlow? (s : Scanner) (t : Token) : Option Scanner :=
  s.noteKey?.map fun s => { (s.push t).advance 1 with keys := none :: s.keys, keyAllowed := true }

def closeFlow? (s : Scanner) (t : Token) : Option Scanner :=
  s.dropKey?.map fun s =>
    { (s.push t).advance 1 with
      keys := if s.inFlow then s.keys.drop 1 else s.keys
      keyAllowed := false }

def flowEntry? (s : Scanner) : Option Scanner :=
  s.dropKey?.map fun s => { (s.push .flowEntry).advance 1 with keyAllowed := true }

def blockEntry? (s : Scanner) : Option Scanner :=
  if !s.inFlow ∧ !s.keyAllowed then none
  else
    (s.openBlock s.cursor.column s.count .blockSequenceStart).dropKey?.map fun s =>
      { (s.push .blockEntry).advance 1 with keyAllowed := true }

def key? (s : Scanner) : Option Scanner :=
  if !s.inFlow ∧ !s.keyAllowed then none
  else
    (s.openBlock s.cursor.column s.count .blockMappingStart).dropKey?.map fun s =>
      { (s.push .key).advance 1 with keyAllowed := !s.inFlow }

/-- Starts a value; the key before it may have to be marked first. -/
def value? (s : Scanner) : Option Scanner :=
  match s.keys with
  | some k :: ks =>
    let s := (s.insert k.position .key).openBlock k.column k.position .blockMappingStart
    some { (s.push .value).advance 1 with keys := none :: ks, keyAllowed := false }
  | _ =>
    if !s.inFlow ∧ !s.keyAllowed then none
    else
      let s := s.openBlock s.cursor.column s.count .blockMappingStart
      some { (s.push .value).advance 1 with keyAllowed := !s.inFlow }

/-- Adds a token that may start a key, with the cursor after it. -/
def wordToken? (s : Scanner) (read : Cursor → Option (Token × Cursor)) : Option Scanner := do
  let s ← s.noteKey?
  let (t, c) ← read s.cursor
  return { s.push t with cursor := c, keyAllowed := false }

def blockScalar? (s : Scanner) (literal : Bool) : Option Scanner := do
  let s ← s.dropKey?
  let (text, c) ← readBlock? literal s.indent (s.cursor.skip 1)
  return { s.push (.scalar text .block) with cursor := c, keyAllowed := true }

def quotedScalar? (s : Scanner) (single : Bool) : Option Scanner :=
  s.wordToken? fun c =>
    (readQuoted? single (c.rest.length + 1) [] (c.skip 1)).map fun (text, c) =>
      (.scalar text .quoted, c)

/-- Adds a plain scalar. After a line end a key may start. -/
def plainScalar? (s : Scanner) : Option Scanner := do
  let s ← s.noteKey?
  let p ← readPlain? s.inFlow (s.indent + 1) (s.cursor.rest.length + 1) ⟨[], {}, s.cursor⟩
  return { s.push (.scalar p.text .plain) with cursor := p.cursor, keyAllowed := p.fold.broken }

/-- Characters that mark something other than a plain scalar. -/
def indicators : List Char :=
  ['-', '?', ':', ',', '[', ']', '{', '}', '#', '&', '*', '!', '|', '>', '\'', '"', '%', '@', '`']

/-- Whether a plain scalar may start with these characters. -/
def startsPlain (flow : Bool) (x : Char) (r : List Char) : Bool :=
  !(x = '\t' || indicators.contains x)
    || (x = '-' && !(r.head?.any isGap))
    || (!flow && (x = '?' || x = ':') && !atWordEnd r)

/-- Adds the next token, which starts with `x`. -/
def token? (s : Scanner) (x : Char) (r : List Char) : Option Scanner :=
  let c := s.cursor
  if c.column = 0 ∧ x = '%' then do
    let s ← (s.unroll (-1)).dropKey?
    let (t, c) ← readDirective? s.cursor
    return { s.push t with cursor := c, keyAllowed := false }
  else if c.atMarker '-' then s.boundary? .documentStart 3
  else if c.atMarker '.' then s.boundary? .documentEnd 3
  else if x = '[' then s.openFlow? .flowSequenceStart
  else if x = '{' then s.openFlow? .flowMappingStart
  else if x = ']' then s.closeFlow? .flowSequenceEnd
  else if x = '}' then s.closeFlow? .flowMappingEnd
  else if x = ',' then s.flowEntry?
  else if x = '-' ∧ atWordEnd r then s.blockEntry?
  else if x = '?' ∧ (s.inFlow ∨ atWordEnd r) then s.key?
  else if x = ':' ∧ (s.inFlow ∨ atWordEnd r) then s.value?
  else if x = '*' then
    s.wordToken? fun c => (anchorName? (c.skip 1)).map fun (n, c) => (.alias n, c)
  else if x = '&' then
    s.wordToken? fun c => (anchorName? (c.skip 1)).map fun (n, c) => (.anchor n, c)
  else if x = '!' then s.wordToken? (readTag? s.inFlow)
  else if x = '|' ∧ !s.inFlow then s.blockScalar? true
  else if x = '>' ∧ !s.inFlow then s.blockScalar? false
  else if x = '\'' then s.quotedScalar? true
  else if x = '"' then s.quotedScalar? false
  else if startsPlain s.inFlow x r then s.plainScalar?
  else none

/-- Scans to the end of the stream; `fuel` bounds the number of tokens. -/
def run? : (fuel : Nat) → Scanner → Option (List Token)
  | 0, _ => none
  | fuel + 1, s => do
    let s := s.skipToToken (s.cursor.rest.length + 1)
    let s ← s.dropStaleKeys?
    let s := s.unroll s.cursor.column
    match s.cursor.rest with
    | [] =>
      let s ← (s.unroll (-1)).dropKey?
      return (s.push .streamEnd).tokens.reverse
    | x :: r =>
      let s ← s.token? x r
      run? fuel s

end Scanner

def Token.scan? (text : List Char) : Option (List Token) :=
  if text.all isAllowed then
    Scanner.run? (text.length + 1) { cursor := { rest := text } }
  else none

end ExplicitSelf.Yaml
