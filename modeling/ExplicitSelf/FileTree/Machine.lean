import ExplicitSelf.Path.Basic

/-!
# The machine that keeps a file tree

A call to read or to replace a file can be refused for reasons that no entry shows: a permission is
missing, the disk is full, the device fails. A `Machine` says what it refuses. A write can be
refused when part of it is done. The one call that is never refused is to remove a temporary file,
since nobody could clean up after it.

The name of a temporary file is the machine's choice. It comes with the proof that the directory
does not have it, so a machine cannot take a file for its own.
-/
namespace ExplicitSelf

inductive IoError where
  | notFound
  | permissionDenied
  | notADirectory
  | isADirectory
  | tooManyLinks
  | nameTooLong
  | notExecutable
  | storageFull
  | deviceFailure
  | nulInName
  | nulInArgument
  | notUtf8
  deriving DecidableEq, Repr

def IoError.message : IoError → String
  | .notFound => "No such file or directory (os error 2)"
  | .permissionDenied => "Permission denied (os error 13)"
  | .notADirectory => "Not a directory (os error 20)"
  | .isADirectory => "Is a directory (os error 21)"
  | .tooManyLinks => "Too many levels of symbolic links (os error 40)"
  | .nameTooLong => "File name too long (os error 36)"
  | .notExecutable => "Exec format error (os error 8)"
  | .storageFull => "No space left on device (os error 28)"
  | .deviceFailure => "Input/output error (os error 5)"
  | .nulInName => "file name contained an unexpected NUL byte"
  | .nulInArgument => "nul byte found in provided data"
  | .notUtf8 => "stream did not contain valid UTF-8"

/-- A name that an entry can have. -/
def FileTree.IsName (n : Name) : Prop :=
  n ≠ "" ∧ n ≠ "." ∧ n ≠ ".." ∧ Path.slash ∉ n.octets

instance (n : Name) : Decidable (FileTree.IsName n) :=
  inferInstanceAs (Decidable (_ ∧ _))

/-- The calls by which a file is replaced: its mode is looked up, a temporary file is made next to
it, written, flushed and given the mode, and takes its name. -/
inductive Call where
  | look
  | create
  | write
  | flush
  | permit
  | rename
  deriving DecidableEq, Repr

structure Machine where
  /-- Why the file at a path cannot be read, if it cannot. -/
  refusesRead : Path → Option IoError
  /-- The same when the file is read once more before it is replaced. -/
  refusesReread : Path → Option IoError
  /-- Why a call to replace the file at a path is refused, if it is. -/
  refuses : Call → Path → Option IoError
  /-- How many octets of the new content are written before the rest is refused. -/
  written : Path → Nat
  /-- The name of a new file in a directory with these names. -/
  fresh : (names : List Name) → { n : Name // FileTree.IsName n ∧ n ∉ names }

namespace Machine

/-- A name longer than all others. -/
def longerName (names : List Name) : Name :=
  ⟨.replicate ((names.map Name.octets).flatten.length + 1) 0x74⟩

theorem longerName_ne (names : List Name) {n : Name} (h : n.octets.head? ≠ some 0x74) :
    longerName names ≠ n := by
  intro heq
  apply h
  rw [← heq]
  rfl

theorem longerName_notMem (names : List Name) : longerName names ∉ names := by
  intro hmem
  have hsub : (longerName names).octets.Sublist (names.map Name.octets).flatten :=
    List.sublist_flatten_of_mem (List.mem_map_of_mem hmem)
  have hle := hsub.length_le
  rw [longerName, List.length_replicate] at hle
  omega

theorem isName_longerName (names : List Name) : FileTree.IsName (longerName names) := by
  refine ⟨longerName_ne names (by decide), longerName_ne names (by decide),
    longerName_ne names (by decide), fun hslash => ?_⟩
  exact absurd (List.eq_of_mem_replicate hslash) (by decide)

/-- A machine that refuses nothing. -/
def reliable : Machine where
  refusesRead _ := none
  refusesReread _ := none
  refuses _ _ := none
  written _ := 0
  fresh names := ⟨longerName names, isName_longerName names, longerName_notMem names⟩

end Machine

end ExplicitSelf
