import ExplicitSelf.Digest.Sha256
import ExplicitSelf.Error
import ExplicitSelf.FileTree.Replace
import ExplicitSelf.Lint.Violation
import ExplicitSelf.Source.Insertion

/-!
# Inserting `self.` into a file

A file is overwritten only if it still has the content that was looked at, and as a whole
(`FileTree.replace`). Any call can be refused on the way; then the file is what it was.
-/
namespace ExplicitSelf.Lint

def selfText : List Char := "self.".toList

/-- mirrors `RewriteError` -/
inductive OverwriteError where
  | apply (path : Path) (conflicts : List Source.Conflict)
  | write (path : Path) (cause : IoError)
  /-- The file has changed; with both digests. -/
  | changed (path : Path) (expected actual : String)
  deriving DecidableEq, Repr

def OverwriteError.message : OverwriteError → String
  | .apply path conflicts =>
    s!"cannot insert into {path.text}: " ++ "; ".intercalate (conflicts.map (·.message))
  | .write path cause => s!"cannot write {path.text}: {cause.message}"
  | .changed path expected actual =>
    s!"{path.text} changed since it was analysed (expected {expected}, found {actual})"

def OverwriteError.path : OverwriteError → Path
  | .apply path _ => path
  | .write path _ => path
  | .changed path _ _ => path

def OverwriteError.toError (e : OverwriteError) : Error := .write e.path e.message

/-- The digest of a file's content. mirrors `ContentHash.compute` -/
def contentDigest (content : Text.Octets) : String :=
  Digest.hex (Digest.Sha256.digest content)

/-- The insertions that mend violations. -/
def insertions (vs : List Violation) : List Source.Insertion :=
  vs.map fun v => ⟨v.offset, selfText⟩

/-- Inserts `self.` before each violation of a file that had the text `before`. Gives the files
after it, whether it succeeds or not, and the new text. mirrors `overwrite` -/
def overwrite (t : FileTree) (path : Path) (before : String) (vs : List Violation) :
    FileTree × Except OverwriteError String :=
  match Source.applyInsertions before.toList (insertions vs) with
  | .error conflicts => (t, .error (.apply path conflicts))
  | .ok applied =>
    match t.reread path with
    | .error e => (t, .error (.write path e))
    | .ok content =>
      let expected := contentDigest (Text.encode before.toList)
      let actual := contentDigest content
      if expected = actual then
        match t.replace path (Text.encode applied.text) with
        | (t, .ok ()) => (t, .ok (.ofList applied.text))
        | (t, .error e) => (t, .error (.write path e))
      else (t, .error (.changed path expected actual))

end ExplicitSelf.Lint
