import ExplicitSelf.FileTree.Basic
import ExplicitSelf.Project.LogDirectory

/-!
# The project of a source file

A source file belongs to the nearest project above it that has build logs. In each directory the
first workspace counts, or else the first project, in the order of their paths.
-/
namespace ExplicitSelf.Project

/-- The extensions of projects, the better first. -/
def extensions : List Name := ["xcworkspace", "xcodeproj"]

/-- The paths in a directory, sorted; none if it cannot be listed. -/
def listing (t : FileTree) (directory : Path) : List Path :=
  match t.names directory with
  | .ok names => (names.map directory.child).mergeSort Path.le
  | .error _ => []

/-- The project in a directory. mirrors `project_in_directory` -/
def inDirectory? (t : FileTree) (directory : Path) : Option Path :=
  let paths := listing t directory
  extensions.findSome? fun e => paths.find? fun p => p.extension? = some e

/-- The project in a directory, if it has build logs. -/
def withLogs? (t : FileTree) (derived directory : Path) : Option Path :=
  (inDirectory? t directory).filter fun p => t.isDirectory (logDirectory derived p)

/-- The directories above a source file, nearest first, without the last one. -/
def searched (file : Path) : List Path :=
  match file.parent? with
  | none => []
  | some start => start.ancestors.takeWhile fun d => d.parent?.isSome

/-- The project of a source file. mirrors `project_for_source_file` -/
def ofSource? (t : FileTree) (derived file : Path) : Option Path :=
  (searched file).findSome? (withLogs? t derived)

end ExplicitSelf.Project
