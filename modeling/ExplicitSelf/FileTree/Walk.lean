import ExplicitSelf.FileTree.Basic

/-!
# Walking a file tree

`FileTree.walk` lists the entries below a directory, each before those inside it, by their names
from there. It can leave out entries with all that is inside them, and it can follow links. A link
that leads nowhere, or back to a directory on the way, then ends the walk.

Directories are opened, and links are followed, by their whole paths from the start. So a way with
too many links on it, or with too long a path, ends the walk too.
-/
namespace ExplicitSelf

inductive WalkError where
  | io (e : IoError)
  /-- A link back to a directory on the way. -/
  | loop
  deriving DecidableEq, Repr

/-- An entry that a walk meets: its names from the start, and what it is. -/
structure Visit where
  names : List Name
  entry : Entry
  deriving DecidableEq, Repr

namespace FileTree

structure WalkOptions where
  follow : Bool
  /-- Whether to leave out an entry, by its names from the start. -/
  skips : List Name → Bool

def below (start : Path) (names : List Name) : Path :=
  names.foldl Path.child start

def visitPath (start : Path) (v : Visit) : Path :=
  below start v.names

/-- The entry at a place, or what a link there leads to if links are followed; with the place. The
entry has this path. -/
def target (t : FileTree) (o : WalkOptions) (above : List Place) (path : Path) (place : Place)
    (e : Entry) : Except WalkError (Place × Entry) :=
  match e with
  | .link _ =>
    if o.follow then
      match t.resolve true path with
      | .error e => .error (.io e)
      | .ok place =>
        match t.entryAt? place with
        | some .directory => if above.contains place then .error .loop else .ok (place, .directory)
        | some e => .ok (place, e)
        | none => .error (.io .notFound)
    else .ok (place, e)
  | e => .ok (place, e)

/-- The visits of the names in a directory, one after the other. -/
def walkNames (visit : Name → Except WalkError (List Visit)) :
    List Name → Except WalkError (List Visit)
  | [] => .ok []
  | n :: ns =>
    match visit n with
    | .error e => .error e
    | .ok vs => (walkNames visit ns).map (vs ++ ·)

/-- The visits of one name in the directory at `place`, which has `names` from the start and `above`
on the way, itself included. A directory is walked by `inside`. -/
def visitName (t : FileTree) (o : WalkOptions) (start : Path)
    (inside : List Place → List Name → Except WalkError (List Visit)) (above : List Place)
    (names : List Name) (place : Place) (name : Name) : Except WalkError (List Visit) :=
  let names := names ++ [name]
  match t.entryAt? (place ++ [name]) with
  | none => .ok []
  | some e =>
    match t.target o above (below start names) (place ++ [name]) e with
    | .error e => .error e
    | .ok (inner, e) =>
      if o.skips names then .ok []
      else if e = .directory then (inside (inner :: above) names).map (⟨names, e⟩ :: ·)
      else .ok [⟨names, e⟩]

/-- The visits below the directory with `names` from the start, which has `above` on the way, itself
included. Each name makes the path longer, so the length that a path may have bounds the depth. -/
def walkFrom (t : FileTree) (o : WalkOptions) (start : Path) : (depth : Nat) →
    (above : List Place) → (names : List Name) → Except WalkError (List Visit)
  | 0, _, _ => .error (.io .nameTooLong)
  | depth + 1, above, names =>
    match t.resolve true (below start names) with
    | .error e => .error (.io e)
    | .ok place =>
      walkNames (t.visitName o start (walkFrom t o start depth) above names place) (t.namesAt place)

/-- The entry at the start of a walk and all entries below it. A link at the start is followed. -/
def walk (t : FileTree) (o : WalkOptions) (start : Path) : Except WalkError (List Visit) :=
  match t.resolve true start with
  | .error e => .error (.io e)
  | .ok place =>
    match t.entryAt? place with
    | none => .error (.io .notFound)
    | some .directory =>
      (walkFrom t o start (maxPath + 1) [place] []).map (⟨[], .directory⟩ :: ·)
    | some e => .ok [⟨[], e⟩]

end FileTree

end ExplicitSelf
