import ExplicitSelf.FileTree.Basic

/-!
# Replacing a file call by call

`FileTree.replace` puts a new file in the place of an old one, with the mode of the old. It makes
the calls of `replacement` one after the other. The first that is refused, or that fails, ends it,
and the temporary file is removed. A link is replaced by the new file itself.
-/
namespace ExplicitSelf

open Text (Octets)

/-- A replacement under way: the files, the place of the temporary file, and the mode of the old
one. -/
structure Work where
  tree : FileTree
  temporary : Option Place
  mode : Nat

namespace Work

/-- Changes content and mode of the temporary file. -/
def edit (w : Work) (change : Octets → Nat → Octets × Nat) : Except IoError Work :=
  match w.temporary with
  | none => .error .notFound
  | some p =>
    match w.tree.entryAt? p with
    | some (.file content mode modified) =>
      let (content, mode) := change content mode
      .ok { w with tree := w.tree.set p (.file content mode modified) }
    | _ => .error .notFound

/-- The mode of a temporary file before it gets another. -/
def temporaryMode : Nat := 0o600

def createIn (w : Work) (directory : Path) : Except IoError Work :=
  match w.tree.resolve true directory with
  | .error e => .error e
  | .ok place =>
    if w.tree.entryAt? place = some .directory then
      let p := place ++ [(w.tree.machine.fresh (w.tree.namesAt place)).1]
      .ok { w with tree := w.tree.set p (.file [] temporaryMode w.tree.now), temporary := some p }
    else .error .notADirectory

def rename (w : Work) (path : Path) : Except IoError Work :=
  match w.temporary.bind fun p => (w.tree.entryAt? p).map fun e => (p, e) with
  | none => .error .notFound
  | some (p, e) =>
    match w.tree.resolve false path with
    | .error e => .error e
    | .ok place =>
      if w.tree.entryAt? place = some .directory then .error .isADirectory
      else .ok { w with tree := (w.tree.erase p).set place e, temporary := none }

def dispose (w : Work) : FileTree :=
  match w.temporary with
  | none => w.tree
  | some p => w.tree.erase p

/-- The directory that new files next to a path are made in. -/
def directoryOf (path : Path) : Path :=
  match path.parent? with
  | some parent => if parent.octets.isEmpty then "." else parent
  | none => "."

/-- What a call does that is not refused. -/
def act (path : Path) (content : Octets) (w : Work) : Call → Except IoError Work
  | .look => (w.tree.mode path).map fun mode => { w with mode }
  | .create => w.createIn (directoryOf path)
  | .write => w.edit fun _ mode => (content, mode)
  | .flush => .ok w
  | .permit => w.edit fun content _ => (content, w.mode)
  | .rename => w.rename path

/-- What is left of a call that is refused: part of the content may be written. -/
def halt (path : Path) (content : Octets) (w : Work) : Call → Work
  | .write =>
    match w.edit fun _ mode => (content.take (w.tree.machine.written path), mode) with
    | .ok w => w
    | .error _ => w
  | _ => w

/-- Makes calls up to the first that fails. -/
def run (path : Path) (content : Octets) : List Call → Work → Work × Except IoError Unit
  | [], w => (w, .ok ())
  | c :: cs, w =>
    match w.tree.machine.refuses c path with
    | some e => (w.halt path content c, .error e)
    | none =>
      match w.act path content c with
      | .error e => (w, .error e)
      | .ok w => run path content cs w

end Work

namespace FileTree

def replacement : List Call := [.look, .create, .write, .flush, .permit, .rename]

/-- Replaces the content of a file. The files are those after it, whether it succeeds or not.
mirrors `atomic_replace` -/
def replace (t : FileTree) (path : Path) (content : Octets) : FileTree × Except IoError Unit :=
  let (w, r) := Work.run path content replacement ⟨t, none, 0⟩
  (w.dispose, r)

end FileTree

end ExplicitSelf
