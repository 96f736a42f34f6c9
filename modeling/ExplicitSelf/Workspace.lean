import ExplicitSelf.Error
import ExplicitSelf.FileTree.Walk
import ExplicitSelf.Glob.Match
import ExplicitSelf.Path.Normalize

/-!
# The files to lint

A path names one file or a directory of files. Below a directory every Swift file counts that is
reached without a link, except in directories of build products and version control, and except what
the patterns of the configuration leave out. Patterns see the path of a file from the directory.
-/
namespace ExplicitSelf.Workspace

def skippedNames : List String := [".git", ".hg", ".svn", ".build", ".swiftpm"]

def isSkippedName (name : Name) : Bool :=
  skippedNames.contains name.text

def isSwiftName (name : Name) : Bool :=
  Path.extensionOf? name.octets = some (Text.encode "swift".toList)

/-- mirrors `is_swift_file` -/
def isSwiftFile (p : Path) : Bool :=
  p.extension? = some ("swift" : Name)

def options : FileTree.WalkOptions where
  follow := false
  skips names := names.getLast?.any isSkippedName

/-- The path from the start of a walk. -/
def relative (v : Visit) : Path :=
  ⟨Text.joinWith Path.slash (v.names.map Name.octets)⟩

def isWanted (excludes : Excludes) (v : Visit) : Bool :=
  v.entry.isFile && v.names.getLast?.any isSwiftName && !excludes.isMatch (relative v)

def walkMessage (root : Path) : WalkError → String
  | .io e => s!"IO error for operation on {root.text}: {e.message}"
  | .loop => s!"File system loop found below {root.text}"

/-- The files to lint at a path, sorted. mirrors `files_to_lint` -/
def files (t : FileTree) (excludes : Excludes) (path : Path) : Except Error (List Path) :=
  match Path.absolute? (.ofComponents (.root :: t.working.map .name)) path with
  | none => .error (.invalidArguments s!"{path.text}: cannot make an empty path absolute")
  | some absolute =>
    let root := absolute.normalize
    if t.isFile root then .ok (if isSwiftFile root then [root] else [])
    else if !t.isDirectory root then .error (.invalidArguments s!"{root.text} does not exist")
    else
      match t.walk options root with
      | .error e => .error (.setup (walkMessage root e) (some root))
      | .ok visits =>
        .ok (((visits.filter (isWanted excludes)).map (FileTree.visitPath root)).mergeSort Path.le)

end ExplicitSelf.Workspace
