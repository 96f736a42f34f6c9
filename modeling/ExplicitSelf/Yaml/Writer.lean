import ExplicitSelf.Yaml.Cursor
import ExplicitSelf.Yaml.Plain

/-!
# YAML: writing records

`Yaml.render` writes a record of texts, numbers and lists of texts, one field a line. A text is
written plain where it reads back as the same text, between single quotes where only its characters
or its meaning forbid that, as a block of lines if it has line feeds, and between double quotes if a
character has to be escaped. Lines are never folded.
-/
namespace ExplicitSelf.Yaml

/-! ## What a text allows -/

def isPrintable (c : Char) : Bool :=
  let n := c.toNat
  n = 0x0A || (0x20 ≤ n && n ≤ 0x7E) || (0xA0 ≤ n && n ≤ 0xD7FF)
    || (0xE000 ≤ n && n ≤ 0xFFFD && n ≠ 0xFEFF) || 0x10000 ≤ n

/-- Whether a character in front of a text would read as a mark. -/
def startsMark : List Char → Bool
  | [] => false
  | c :: r =>
    ['#', ',', '[', ']', '{', '}', '&', '*', '!', '|', '>', '\'', '"', '%', '@', '`'].contains c
      || (['?', ':', '-'].contains c && atWordEnd r)

/-- Whether a text has a mark inside: a colon before a gap, or a number sign after one. -/
def hasMark : List Char → Bool
  | a :: b :: r =>
    (b = ':' && atWordEnd r) || (b = '#' && atWordEnd [a]) || hasMark (b :: r)
  | _ => false

def startsDocument (s : List Char) : Bool :=
  ['-', '-', '-'].isPrefixOf s || ['.', '.', '.'].isPrefixOf s

/-- Whether two tests hold for neighbours in a text. -/
def hasPair (p q : Char → Bool) : List Char → Bool
  | a :: b :: r => (p a && q b) || hasPair p q (b :: r)
  | _ => false

/-- Whether a text starts or ends with a space or a line end. -/
def hasEdge (s : List Char) : Bool :=
  let p (c : Char) : Bool := c = ' ' || isBreak c
  s.head?.any p || s.getLast?.any p

/-- Whether only double quotes will do. -/
def needsEscapes (s : List Char) : Bool :=
  s.any (!isPrintable ·) || hasPair (· = ' ') isBreak s

def allowsPlain (s : List Char) : Bool :=
  !(needsEscapes s || hasEdge s || s.any isBreak || startsMark s || hasMark s
    || startsDocument s)

def allowsSingle (s : List Char) : Bool :=
  !(needsEscapes s || hasPair isBreak (· = ' ') s)

def allowsBlock (s : List Char) : Bool :=
  !(needsEscapes s || s.getLast? = some ' ')

/-! ## The spellings -/

/-- How deep the lines of a text are indented. -/
def indentation : List Char := [' ', ' ']

/-- The characters of a text between single quotes; `broken` after a line end. -/
def singleQuoted : (broken : Bool) → List Char → List Char
  | broken, [] => if broken then indentation else []
  | broken, c :: r =>
    if isBreak c then c :: singleQuoted true r
    else
      (if broken then indentation else []) ++ (if c = '\'' then ['\'', '\''] else [c])
        ++ singleQuoted false r

def upperHex (n : Nat) : Char :=
  if n < 10 then .ofNat (48 + n) else .ofNat (55 + n)

/-- The last `k` hexadecimal digits of a number. -/
def upperHexDigits : (k n : Nat) → List Char
  | 0, _ => []
  | k + 1, n => upperHexDigits k (n / 16) ++ [upperHex (n % 16)]

def escapeText (c : Char) : List Char :=
  match c with
  | '\x00' => ['\\', '0']
  | '\x07' => ['\\', 'a']
  | '\x08' => ['\\', 'b']
  | '\t' => ['\\', 't']
  | '\n' => ['\\', 'n']
  | '\x0B' => ['\\', 'v']
  | '\x0C' => ['\\', 'f']
  | '\r' => ['\\', 'r']
  | '\x1B' => ['\\', 'e']
  | '"' => ['\\', '"']
  | '\\' => ['\\', '\\']
  | '\u0085' => ['\\', 'N']
  | '\u2028' => ['\\', 'L']
  | '\u2029' => ['\\', 'P']
  | c =>
    let n := c.toNat
    if n ≤ 0xFF then '\\' :: 'x' :: upperHexDigits 2 n
    else if n ≤ 0xFFFF then '\\' :: 'u' :: upperHexDigits 4 n
    else '\\' :: 'U' :: upperHexDigits 8 n

/-- The characters of a text between double quotes. -/
def doubleQuoted (s : List Char) : List Char :=
  s.flatMap fun c =>
    if !isPrintable c || isBreak c || c = '"' || c = '\\' then escapeText c else [c]

/-- The lines of a block; `broken` at the start of a line. -/
def blockText : (broken : Bool) → List Char → List Char
  | _, [] => []
  | broken, c :: r =>
    if isBreak c then c :: blockText true r
    else (if broken then indentation else []) ++ c :: blockText false r

/-- The header of a block: its indentation if the text does not show it, and how it ends. -/
def blockHeader (s : List Char) : List Char :=
  let deep : List Char := if s.head?.any fun c => c = ' ' || isBreak c then ['2'] else []
  let chomp : List Char :=
    match s.reverse with
    | [] => ['-']
    | a :: r =>
      if !isBreak a then ['-']
      else
        match r with
        | [] => ['+']
        | b :: _ => if isBreak b then ['+'] else []
  '|' :: deep ++ chomp

/-- A text as a block, with the line end after it. -/
def block (s : List Char) : List Char :=
  blockHeader s ++ '\n' :: blockText true s
    ++ (if s.getLast?.any isBreak then [] else ['\n'])

/-- A text and the end of its line. -/
def renderText (s : List Char) : List Char :=
  if s.contains '\n' ∧ allowsBlock s then block s
  else if !s.contains '\n' ∧ Meaning.ofPlain s = .text ∧ !hasLeadingZero s ∧ allowsPlain s then
    s ++ ['\n']
  else if !s.contains '\n' ∧ allowsSingle s then '\'' :: singleQuoted false s ++ ['\'', '\n']
  else '"' :: doubleQuoted s ++ ['"', '\n']

/-! ## Records -/

inductive Field where
  | text (s : String)
  | number (n : Nat)
  | list (items : List String)

def renderField (name : String) : Field → List Char
  | .text s => name.toList ++ ':' :: ' ' :: renderText s.toList
  | .number n => s!"{name}: {n}\n".toList
  | .list [] => s!"{name}: []\n".toList
  | .list items =>
    name.toList ++ ':' :: '\n' :: items.flatMap fun s => '-' :: ' ' :: renderText s.toList

def render (fields : List (String × Field)) : String :=
  .ofList (fields.flatMap fun (name, f) => renderField name f)

end ExplicitSelf.Yaml
