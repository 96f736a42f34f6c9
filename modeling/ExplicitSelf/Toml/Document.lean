import ExplicitSelf.Keyed
import ExplicitSelf.Toml.Scalar

/-!
# TOML documents

A document is a table of values. Tables arise in four ways: by a header, by being on the way to one,
by a dotted key, and in braces. A table can be added to only where that is plain from how it arose
(`Kind`), and no key may be given twice. `Document.read?` reads a document.
-/
namespace ExplicitSelf.Toml

/-- How a table arose. -/
inductive Kind where
  /-- By a header of its own. -/
  | header
  /-- On the way to a header. -/
  | implied
  /-- On the way to a dotted key. -/
  | dotted
  /-- Between braces; complete. -/
  | inline
  deriving DecidableEq, Repr

/-- A value of a document. -/
inductive Value where
  | scalar (s : Scalar)
  | array (items : List Value)
  | table (kind : Kind) (entries : List (String × Value))
  /-- The tables of an array of tables. -/
  | tables (items : List (List (String × Value)))

abbrev Entries := List (String × Value)

def lookup? (key : String) (es : Entries) : Option Value :=
  Keyed.get? (· = ·) key es

def putEntry (key : String) (v : Value) (es : Entries) : Entries :=
  Keyed.put (· = ·) key v es

/-- Applies a change to the table at a path below a table, making tables on the way. A path of a
dotted key cannot lead into a table with a header. -/
def within (isDotted : Bool) (change : Kind → Entries → Option Entries) :
    (path : List String) → Kind → Entries → Option Entries
  | [], kind, es => change kind es
  | key :: path, _, es =>
    match lookup? key es with
    | none =>
      let kind : Kind := if isDotted then .dotted else .implied
      (within isDotted change path kind []).map fun inner => putEntry key (.table kind inner) es
    | some (.table kind inner) =>
      if kind = .inline ∨ (isDotted ∧ kind = .header) then none
      else (within isDotted change path kind inner).map fun inner =>
        putEntry key (.table kind inner) es
    | some (.tables items) =>
      match items.getLast? with
      | none => none
      | some inner => (within isDotted change path .header inner).map fun inner =>
        putEntry key (.tables (items.dropLast ++ [inner])) es
    | some _ => none

/-- Gives a key below a table its value. -/
def define (path : List String) (key : String) (v : Value) (kind : Kind) (es : Entries) :
    Option Entries :=
  within true (fun kind es =>
    if decide (kind = .dotted) = path.isEmpty ∨ (lookup? key es).isSome then none
    else some (es ++ [(key, v)])) path kind es

/-- Starts a table by a header. -/
def startTable (key : String) (es : Entries) : Option Entries :=
  match lookup? key es with
  | none => some (es ++ [(key, .table .header [])])
  | some (.table .implied inner) => some (putEntry key (.table .header inner) es)
  | some _ => none

/-- Starts one more table of an array of tables by a header. -/
def startItem (key : String) (es : Entries) : Option Entries :=
  match lookup? key es with
  | none => some (es ++ [(key, .tables [[]])])
  | some (.tables items) => some (putEntry key (.tables (items ++ [[]])) es)
  | some _ => none

/-! ## Keys and values -/

/-- How deep values and keys may be nested. -/
def maxDepth : Nat := 80

def isKeyChar (c : Char) : Bool :=
  c.isAlphanum || c = '_' || c = '-'

def simpleKey? (cs : List Char) : Option (String × List Char) :=
  match cs with
  | '"' :: r => (basic? (r.length + 1) r).map fun (s, r) => (.ofList s, r)
  | '\'' :: r => (literal? r).map fun (s, r) => (.ofList s, r)
  | _ =>
    match cs.takeWhile isKeyChar with
    | [] => none
    | name => some (.ofList name, cs.drop name.length)

/-- The parts of a key in front, with spaces around each. -/
def keyParts? : (fuel : Nat) → List Char → Option (List String × List Char)
  | 0, _ => none
  | fuel + 1, cs =>
    match simpleKey? (skipSpaces cs) with
    | none => none
    | some (k, r) =>
      match skipSpaces r with
      | '.' :: r => (keyParts? fuel r).map fun (ks, r) => (k :: ks, r)
      | r => some ([k], r)

/-- A key in front: the path to its table, its last part, and what is left. -/
def key? (cs : List Char) : Option (List String × String × List Char) :=
  match keyParts? (cs.length + 1) cs with
  | none => none
  | some (ks, r) =>
    if maxDepth ≤ ks.length then none
    else
      match ks.getLast? with
      | some k => some (ks.dropLast, k, r)
      | none => none

/-- A comment in front, up to the end of its line. -/
def skipComment? (cs : List Char) : Option (List Char) :=
  match cs with
  | '#' :: r => some (r.dropWhile isLineChar)
  | r => some r

/-- White space, comments and line ends in front. -/
def skipLines : (fuel : Nat) → List Char → Option (List Char)
  | 0, cs => some cs
  | fuel + 1, cs =>
    match skipSpaces cs with
    | '#' :: r => (newline? (r.dropWhile isLineChar)).bind (skipLines fuel)
    | cs =>
      match newline? cs with
      | some r => skipLines fuel r
      | none => some cs

mutual

/-- A value in front, `depth` levels below the top; `fuel` bounds the number of steps. -/
def value? (depth : Nat) : (fuel : Nat) → List Char → Option (Value × List Char)
  | 0, _ => none
  | fuel + 1, cs =>
    match cs with
    | '[' :: r =>
      if maxDepth ≤ depth + 1 then none
      else (items? (depth + 1) fuel r).map fun (vs, r) => (.array vs, r)
    | '{' :: r =>
      if maxDepth ≤ depth + 1 then none
      else
        match skipSpaces r with
        | '}' :: r => some (.table .inline [], r)
        | r => (members? (depth + 1) fuel [] r).map fun (es, r) => (.table .inline es, r)
    | _ => (scalar? cs).map fun (s, r) => (.scalar s, r)

/-- The items of an array and its closing bracket. -/
def items? (depth : Nat) : (fuel : Nat) → List Char → Option (List Value × List Char)
  | 0, _ => none
  | fuel + 1, cs =>
    match skipLines cs.length cs with
    | none => none
    | some (']' :: r) => some ([], r)
    | some r =>
      match value? depth fuel r with
      | none => none
      | some (v, r) =>
        match skipLines r.length r with
        | some (',' :: r) => (items? depth fuel r).map fun (vs, r) => (v :: vs, r)
        | some (']' :: r) => some ([v], r)
        | _ => none

/-- The entries of a table in braces that is not empty, and its closing brace. -/
def members? (depth : Nat) : (fuel : Nat) → Entries → List Char → Option (Entries × List Char)
  | 0, _, _ => none
  | fuel + 1, es, cs =>
    match key? cs with
    | some (path, key, '=' :: r) =>
      match value? depth fuel (skipSpaces r) with
      | none => none
      | some (v, r) =>
        match define path key v .inline es with
        | none => none
        | some es =>
          match skipSpaces r with
          | ',' :: r => members? depth fuel es r
          | '}' :: r => some (es, r)
          | _ => none
    | _ => none

end

/-! ## Lines -/

/-- The end of a line: spaces and a comment may stand before it. -/
def lineEnd? (cs : List Char) : Option (List Char) :=
  match skipComment? (skipSpaces cs) with
  | some [] => some []
  | some r => newline? r
  | none => none

/-- A document while it is read: its entries, and the path of the last header. -/
structure Pending where
  entries : Entries
  path : List String

/-- A header in front, with its closing bracket. -/
def header? (close : List Char) (start : String → Entries → Option Entries) (p : Pending)
    (cs : List Char) : Option (Pending × List Char) := do
  let (path, key, r) ← key? cs
  let r ← Text.afterPrefix? close r
  let es ← within false (fun _ => start key) path .header p.entries
  return (⟨es, path ++ [key]⟩, r)

def definition? (p : Pending) (cs : List Char) : Option (Pending × List Char) := do
  let (path, key, r) ← key? cs
  let r ← past? '=' r
  let (v, r) ← value? 0 (cs.length + 1) (skipSpaces r)
  let es ← within false (fun _ => define path key v .header) p.path .header p.entries
  return ({ p with entries := es }, r)

/-- Reads the lines of a document; `fuel` bounds their number. -/
def readLines? : (fuel : Nat) → Pending → List Char → Option Entries
  | 0, _, _ => none
  | fuel + 1, p, cs =>
    match skipSpaces cs with
    | [] => some p.entries
    | '[' :: '[' :: r => do
      let (p, r) ← header? [']', ']'] startItem p r
      readLines? fuel p (← lineEnd? r)
    | '[' :: r => do
      let (p, r) ← header? [']'] startTable p r
      readLines? fuel p (← lineEnd? r)
    | c :: r =>
      if c = '#' ∨ c = '\n' ∨ c = '\r' then do readLines? fuel p (← lineEnd? (c :: r))
      else do
        let (p, r) ← definition? p (c :: r)
        readLines? fuel p (← lineEnd? r)

/-- Reads a document; a mark of the byte order may stand in front. -/
def read? (text : List Char) : Option Entries :=
  let text := match text with
    | '\uFEFF' :: r => r
    | r => r
  readLines? (text.length + 1) ⟨[], []⟩ text

end ExplicitSelf.Toml
