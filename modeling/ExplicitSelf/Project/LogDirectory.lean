import ExplicitSelf.Digest.Md5
import ExplicitSelf.Path.Basic

/-!
# Where the build logs of a project are

The build products of a project lie in a directory named for the project and a hash of its path. The
hash is the MD5 digest of the path in letters: each half of the digest is a number, written in base
26 with fourteen digits from `a` to `z`.
-/
namespace ExplicitSelf.Project

/-- The number of letters for half a digest. -/
def halfLength : Nat := 14

def letter (d : Nat) : Char := .ofNat (97 + d % 26)

/-- The last `n` digits of a number in base 26, the most significant first. mirrors `base26` -/
def base26 : (n value : Nat) → List Char
  | 0, _ => []
  | n + 1, value => base26 n (value / 26) ++ [letter (value % 26)]

def halfLetters (half : Text.Octets) : List Char :=
  base26 halfLength (Digest.ofBigEndian half)

/-- The hash of a project's path. mirrors `hash_string_for_path` -/
def pathHash (path : String) : String :=
  let d := Digest.Md5.digest (Text.encode path.toList)
  .ofList (halfLetters (d.take 8) ++ halfLetters (d.drop 8))

/-- The name of a project: its file name up to the first dot, with underscores for spaces. -/
def shortName (project : Path) : String :=
  let name := (project.fileName?.getD "").text.toList
  .ofList ((name.takeWhile (· ≠ '.')).map fun c => if c = ' ' then '_' else c)

/-- The directory of a project's build logs, `derived` being the directory of all build products.
mirrors `log_directory_for_project` -/
def logDirectory (derived project : Path) : Path :=
  ((derived.child s!"{shortName project}-{pathHash project.text}").child "Logs").child "Build"

end ExplicitSelf.Project
