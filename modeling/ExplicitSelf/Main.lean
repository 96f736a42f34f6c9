import ExplicitSelf.CommandLine

/-!
# The program

The files that a run can look at are taken into a file tree, the arguments are carried out on it,
and what comes of it is printed and written back. No other program is started from here: a question
to the service ends as if its program may not be run.
-/
namespace ExplicitSelf.Main

def pathOf (place : Place) : String := "/" ++ "/".intercalate (place.map (·.text))

/-- What is on the disk at a place. A link is taken to lead straight to its end. -/
def entryAt (place : Place) : IO (Option Entry) := do
  let path := (← IO.currentDir) / pathOf place
  match (← path.symlinkMetadata.toBaseIO) with
  | .error _ => return none
  | .ok found =>
    match found.type with
    | .dir => return some .directory
    | .symlink =>
      if (← path.pathExists) then return some (.link (.ofText (← IO.FS.realPath path).toString))
      else return some (.link "")
    | .file =>
      match (← (IO.FS.readBinFile path).toBaseIO) with
      | .ok content => return some (.file content.toList 0o755 found.modified.sec.toNat)
      | .error _ => return none
    | .other => return none

/-- The names on the disk in a directory. -/
def namesOf (place : Place) : IO (List Name) := do
  match (← ((← IO.currentDir) / pathOf place).readDir.toBaseIO) with
  | .ok found => return found.toList.map fun e => .ofText e.fileName
  | .error _ => return []

/-- Takes in what is at a place with all that is inside, and what links lead to. -/
partial def takeAll (t : FileTree) (place : Place) : IO FileTree := do
  if (t.entryAt? place).any (!·.isDirectory) then return t
  match (← entryAt place) with
  | none => return t
  | some .directory =>
    (← namesOf place).foldlM (fun t n => takeAll t (place ++ [n])) (t.set place .directory)
  | some (.link target) =>
    let t := t.set place (.link target)
    let inner := target.normalNames
    if (t.entryAt? inner).isSome then return t else takeAll (t.makeDirectories [] inner).1 inner
  | some e => return t.set place e

/-- Takes in the directories in a directory, without what is inside them. -/
def takeDirectories (t : FileTree) (place : Place) : IO FileTree := do
  (← namesOf place).foldlM (fun t n => do
    let inner := place ++ [n]
    if (t.entryAt? inner).isSome then return t
    if (← ((← IO.currentDir) / pathOf inner).isDir) then return t.set inner .directory
    return t) t

/-- Takes in what a path leads to, and the directories on the way. -/
def takePath (t : FileTree) (path : Path) : IO FileTree := do
  let start := (Path.ofText (← IO.currentDir).toString).join path
  match (← (IO.FS.realPath start.text).toBaseIO) with
  | .error _ => return t
  | .ok real =>
    let place := (Path.ofText real.toString).normalNames
    let t ← (List.range place.length).foldlM (fun t n => takeDirectories t (place.take n)) t
    let t ← takeAll (t.makeDirectories [] place.dropLast).1 place
    if (t.stat start).toOption.isSome then return t
    return t.install start (.link (.ofText (pathOf place)))

/-- The paths that a run looks at. -/
def pathsOf (o : Lint.Options) (env : Lint.Environment) : List Path :=
  .ofText "." :: o.path :: o.log.toList ++ o.config.toList ++ o.sourcekitten.toList
    ++ (env.home.map ArgumentSource.derivedDataBelow).toList
    ++ env.search.map (·.child Service.SourceKitten.programName)

/-- Takes in all that a run looks at; the configuration can name one place more. -/
def takeFor (o : Lint.Options) (env : Lint.Environment) : IO FileTree := do
  let working := (Path.ofText (← IO.currentDir).toString).normalNames
  let t ← (pathsOf o env).foldlM takePath { entries := [], working }
  match Lint.configure t o with
  | .ok c => (c.derivedData.toList ++ c.sourcekitten.toList).foldlM takePath t
  | .error _ => return t

def environment : IO Lint.Environment := do
  let home := (← IO.getEnv "HOME").filter (!·.isEmpty)
  let search := (Text.splitOn ':' ((← IO.getEnv "PATH").getD "").toList).filter (!·.isEmpty)
  return ⟨home.map .ofText, search.map fun cs => .ofText (.ofList cs)⟩

/-- Starts nothing. -/
def launch : Service.Launcher := fun _ _ _ _ => .notStarted .permissionDenied

def treeFor (env : Lint.Environment) (arguments : List String) : IO FileTree :=
  match CommandLine.parse arguments with
  | .run a => takeFor a.options env
  | _ => return { entries := [], working := [] }

end ExplicitSelf.Main

/-- Carries out the arguments and gives the exit code. -/
def main (arguments : List String) : IO UInt32 := do
  let env ← ExplicitSelf.Main.environment
  let t ← ExplicitSelf.Main.treeFor env arguments
  let e := ExplicitSelf.CommandLine.execute ExplicitSelf.Main.launch t env arguments
  for (place, content) in e.changed t do
    IO.FS.writeBinFile (ExplicitSelf.Main.pathOf place) ⟨content.toArray⟩
  for line in e.printed do
    IO.println line
  for line in e.told do
    IO.eprintln line
  return e.exit.toUInt32
