import ExplicitSelf.FileTree.Machine

/-!
# File trees

A file tree is a finite map from places to entries: directories, files with content, mode and time
of change, and symbolic links. A `Place` is where an entry is, by the names from the root, without
links or dots in between. A path is turned into a place by following it name by name
(`FileTree.resolve`), which can fail as it can on a machine (`IoError`). The content of a file is
what its entry says (`content`); whether it can be read is up to the machine (`read`).

* `stat`, `isFile`, `isDirectory`, `content`, `read`, `readText`, `names`: looking.
* `set`, `erase`: changing the entry of one place.
* `install`, `remove`: setting up a tree.
-/
namespace ExplicitSelf

/-- Where an entry is: the names from the root. -/
abbrev Place := List Name

inductive Entry where
  | directory
  | file (content : Text.Octets) (mode : Nat) (modified : Nat)
  | link (target : Path)
  deriving DecidableEq, Repr

def Entry.isFile : Entry → Bool
  | .file _ _ _ => true
  | _ => false

def Entry.isDirectory : Entry → Bool
  | .directory => true
  | _ => false

/-- A file tree, the place of the working directory, the time that new files get, and the machine
that keeps it all. -/
structure FileTree where
  entries : List (Place × Entry)
  working : Place
  now : Nat := 0
  machine : Machine := .reliable

namespace FileTree

/-- The entry at a place. The root is always a directory. -/
def entryAt? (t : FileTree) (place : Place) : Option Entry :=
  if place = [] then some .directory else (t.entries.find? (·.1 = place)).map (·.2)

def set (t : FileTree) (place : Place) (e : Entry) : FileTree :=
  { t with entries := (place, e) :: t.entries.filter (·.1 ≠ place) }

def erase (t : FileTree) (place : Place) : FileTree :=
  { t with entries := t.entries.filter (·.1 ≠ place) }

/-- The names in a directory, by its place. -/
def namesAt (t : FileTree) (place : Place) : List Name :=
  t.entries.filterMap fun (p, _) =>
    match p.getLast? with
    | some name => if p.dropLast = place then some name else none
    | none => none

/-! ## Following paths -/

/-- How many links may be followed on the way to a place. -/
def maxLinks : Nat := 40

/-- How many octets a name may have. -/
def maxName : Nat := 255

/-- How many octets a path may have. -/
def maxPath : Nat := 4095

/-- Follows `pieces` from a place. A link at the end is followed only if `last` says so; `links`
more may be followed on the way. -/
def follow (t : FileTree) (last : Bool) (links : Nat) (place : Place) (pieces : List Name) :
    Except IoError Place :=
  match pieces with
  | [] => .ok place
  | name :: rest =>
    if t.entryAt? place ≠ some .directory then .error .notADirectory
    else if name = "" ∨ name = "." then follow t last links place rest
    else if name = ".." then follow t last links place.dropLast rest
    else if maxName < name.octets.length then .error .nameTooLong
    else
      match t.entryAt? (place ++ [name]) with
      | none => .error .notFound
      | some (.link target) =>
        if rest = [] ∧ !last then .ok (place ++ [name])
        else
          match links with
          | 0 => .error .tooManyLinks
          | links + 1 =>
            if target.octets.isEmpty then .error .notFound
            else
              follow t last links (if target.isAbsolute then [] else place)
                (target.pieces.map Name.mk ++ rest)
      | some _ => follow t last links (place ++ [name]) rest
  termination_by (links, pieces.length)

/-- The place of a path; a link at the end is followed if `last` says so. -/
def resolve (t : FileTree) (last : Bool) (p : Path) : Except IoError Place :=
  if p.octets.contains 0 then .error .nulInName
  else if p.octets.isEmpty then .error .notFound
  else if maxPath < p.octets.length then .error .nameTooLong
  else
    follow t last maxLinks (if p.isAbsolute then [] else t.working) (p.pieces.map Name.mk)

/-- The entry that a path leads to. -/
def stat (t : FileTree) (p : Path) : Except IoError Entry :=
  match t.resolve true p with
  | .error e => .error e
  | .ok place =>
    match t.entryAt? place with
    | some e => .ok e
    | none => .error .notFound

def isFile (t : FileTree) (p : Path) : Bool :=
  match t.stat p with
  | .ok e => e.isFile
  | .error _ => false

def isDirectory (t : FileTree) (p : Path) : Bool :=
  match t.stat p with
  | .ok e => e.isDirectory
  | .error _ => false

/-! ## Reading -/

/-- The content of the file that a path leads to. -/
def content (t : FileTree) (p : Path) : Except IoError Text.Octets :=
  match t.stat p with
  | .error e => .error e
  | .ok (.file content _ _) => .ok content
  | .ok .directory => .error .isADirectory
  | .ok (.link _) => .error .tooManyLinks

/-- The content of a file, unless it is refused. -/
def contentUnless (t : FileTree) (refusal : Option IoError) (p : Path) :
    Except IoError Text.Octets :=
  match refusal with
  | some e => .error e
  | none => t.content p

def read (t : FileTree) (p : Path) : Except IoError Text.Octets :=
  t.contentUnless (t.machine.refusesRead p) p

/-- Reads a file once more before it is replaced. -/
def reread (t : FileTree) (p : Path) : Except IoError Text.Octets :=
  t.contentUnless (t.machine.refusesReread p) p

/-- The content of a file as a text. -/
def readText (t : FileTree) (p : Path) : Except IoError String :=
  match t.read p with
  | .error e => .error e
  | .ok content =>
    match Text.decode content with
    | .ok cs => .ok (.ofList cs)
    | .error _ => .error .notUtf8

def names (t : FileTree) (p : Path) : Except IoError (List Name) :=
  match t.resolve true p with
  | .error e => .error e
  | .ok place =>
    if t.entryAt? place = some .directory then .ok (t.namesAt place) else .error .notADirectory

/-! ## Installing entries -/

/-- Makes the directories on the way that `names` are from a place, following links, and gives the
place of the last. -/
def makeDirectories (t : FileTree) : (place : Place) → (names : List Name) → FileTree × Place
  | place, [] => (t, place)
  | place, n :: ns =>
    match t.follow true maxLinks place [n] with
    | .ok inner => makeDirectories t inner ns
    | .error _ => makeDirectories (t.set (place ++ [n]) .directory) (place ++ [n]) ns

/-- Puts an entry at a path, and makes the directories above it. A file goes where a link leads. -/
def install (t : FileTree) (path : Path) (e : Entry) : FileTree :=
  let names := path.normalNames
  let (t, above) := t.makeDirectories [] names.dropLast
  let here := above ++ names.getLast?.toList
  let place :=
    if e.isFile then
      match t.follow true maxLinks above names.getLast?.toList with
      | .ok place => place
      | .error _ => here
    else here
  t.set place e

/-- Removes what is at a path, with all that is inside. -/
def remove (t : FileTree) (path : Path) : Except IoError FileTree :=
  (t.resolve false path).map fun place =>
    { t with entries := t.entries.filter fun (p, _) => !place.isPrefixOf p }

def mode (t : FileTree) (path : Path) : Except IoError Nat :=
  (t.stat path).map fun
    | .file _ mode _ => mode
    | _ => 0o755

/-- When the file that a path leads to was changed. -/
def modified (t : FileTree) (path : Path) : Except IoError Nat :=
  (t.stat path).map fun
    | .file _ _ modified => modified
    | _ => 0

end FileTree

end ExplicitSelf
