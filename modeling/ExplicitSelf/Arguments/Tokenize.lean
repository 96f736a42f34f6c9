import ExplicitSelf.Text.Split
import ExplicitSelf.Text.Utf8

/-!
# Argument lines: from the text of an invocation to its arguments

A build log holds an invocation as one line of text. Arguments are separated by spaces; a space
belongs to an argument when it stands between double quotes or after a backslash. `tokenize` reads
such a line in four stages, each a function of its own:

* `protect` drops the quotes and replaces each space between them by a placeholder;
* `trimSpaces` drops the spaces at both ends of what is left;
* `unescape` replaces each backslash with the space after it by a placeholder;
* `fields` cuts at the spaces, drops empty pieces and turns placeholders into spaces.

The placeholder is the NUL character, so a NUL in the line reads as a space inside an argument. The
stages see the line after its quotes are gone: a backslash and a space that had only quotes between
them count as a pair.
-/
namespace ExplicitSelf.Arguments

/-- Stands for a space inside an argument while a line is cut. -/
def placeholder : Char := '\x00'

/-- A quote that is never closed, by the offset of the quote in octets. mirrors `TokenizeError` -/
structure UnterminatedQuote where
  position : Nat
  deriving DecidableEq, Repr

def UnterminatedQuote.message (e : UnterminatedQuote) : String :=
  s!"unterminated quote starting at byte {e.position}"

/-- Drops the quotes, and protects the spaces between them; `quoted` tells whether the text starts
between quotes. -/
def protect : (quoted : Bool) → List Char → List Char
  | _, [] => []
  | quoted, c :: cs =>
    if c = '"' then protect (!quoted) cs
    else if quoted ∧ c = ' ' then placeholder :: protect quoted cs
    else c :: protect quoted cs

def endsQuoted : (quoted : Bool) → List Char → Bool
  | quoted, [] => quoted
  | quoted, c :: cs => if c = '"' then endsQuoted (!quoted) cs else endsQuoted quoted cs

/-- The offset of the last quote, `i` being the offset of the text. -/
def lastQuote? : (i : Nat) → List Char → Option Nat
  | _, [] => none
  | i, c :: cs =>
    (lastQuote? (i + Text.width c) cs).or (if c = '"' then some i else none)

def dropSpaces (cs : List Char) : List Char :=
  cs.dropWhile (· = ' ')

def trimSpaces (cs : List Char) : List Char :=
  (dropSpaces (dropSpaces cs).reverse).reverse

/-- Protects each space that follows a backslash, and drops the backslash. -/
def unescape : List Char → List Char
  | [] => []
  | '\\' :: ' ' :: cs => placeholder :: unescape cs
  | c :: cs => c :: unescape cs

/-- Turns each placeholder into the space it stands for. -/
def reveal (cs : List Char) : List Char :=
  cs.map fun c => if c = placeholder then ' ' else c

/-- The arguments of a protected text. -/
def fields (cs : List Char) : List (List Char) :=
  ((Text.splitOn ' ' cs).filter (!·.isEmpty)).map reveal

/-- The arguments of a line, by its characters. -/
def tokenizeChars (line : List Char) : Except UnterminatedQuote (List (List Char)) :=
  if endsQuoted false line then .error ⟨(lastQuote? 0 line).getD 0⟩
  else .ok (fields (unescape (trimSpaces (protect false line))))

/-- The arguments of a line. mirrors `tokenize_arguments` -/
def tokenize (line : String) : Except UnterminatedQuote (List String) :=
  (tokenizeChars line.toList).map (·.map String.ofList)

end ExplicitSelf.Arguments
