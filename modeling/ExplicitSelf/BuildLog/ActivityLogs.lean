import ExplicitSelf.BuildLog.Decode
import ExplicitSelf.BuildLog.Invocation
import ExplicitSelf.Error
import ExplicitSelf.FileTree.Walk

/-!
# Activity logs

The build logs of a project are files with a suffix of their own, at any depth below its log
directory. The newest counts most. `ActivityLogs` is a list of logs in that order; each is read when
it is first needed and never again, so that later changes to the file are not seen. A log that
cannot be read is skipped, and so is an invocation that cannot.
-/
namespace ExplicitSelf.BuildLog

/-- mirrors `BuildLogError` -/
inductive ReadError where
  | io (path : Path) (cause : IoError)
  | decode (path : Path) (cause : DecodeError)
  deriving DecidableEq, Repr

def ReadError.message : ReadError → String
  | .io path cause => s!"cannot read {path.text}: {cause.message}"
  | .decode path cause => s!"cannot decode {path.text}: {cause.message}"

def ReadError.path : ReadError → Path
  | .io path _ => path
  | .decode path _ => path

def ReadError.toError (e : ReadError) : Error := .setup e.message (some e.path)

/-- mirrors `read_log` -/
def readLog (t : FileTree) (path : Path) : Except ReadError String :=
  match t.read path with
  | .error e => .error (.io path e)
  | .ok bs =>
    match decode bs with
    | .ok text => .ok text
    | .error e => .error (.decode path e)

/-! ## Finding logs -/

def logSuffix : String := ".xcactivitylog"

/-- A log file: when it was changed, and its path. -/
structure LogFile where
  modified : Nat
  path : Path

/-- Newer logs come first; logs of one time are ordered by path. -/
def LogFile.before (a b : LogFile) : Bool :=
  if a.modified = b.modified then a.path.le b.path else b.modified < a.modified

def logOptions : FileTree.WalkOptions where
  follow := true
  skips _ := false

/-- Whether a path has the name of a log file: a text that ends in the suffix. A name that is no
text is none. -/
def isLogName (p : Path) : Bool :=
  (p.fileName?.getD ⟨p.octets⟩).text?.any fun s => Text.endsWith s.toList logSuffix.toList

/-- The log files among visits, each with the time at which it was changed. -/
def logFiles (t : FileTree) (root : Path) : List Visit → Except WalkError (List LogFile)
  | [] => .ok []
  | v :: vs =>
    let path := FileTree.visitPath root v
    if v.entry.isFile && isLogName path then
      match t.modified path with
      | .error e => .error (.io e)
      | .ok modified => (logFiles t root vs).map (⟨modified, path⟩ :: ·)
    else logFiles t root vs

/-- The logs at a path, the newest first. mirrors `activity_logs` -/
def activityLogs (t : FileTree) (root : Path) : Except WalkError (List Path) :=
  match t.walk logOptions root with
  | .error e => .error e
  | .ok vs =>
    (logFiles t root vs).map fun files => (files.mergeSort LogFile.before).map (·.path)

/-! ## Logs with their contents -/

/-- What is known of a log. -/
inductive Contents where
  /-- Not read yet. -/
  | unread
  /-- It could not be read. -/
  | unreadable
  | text (s : String)
  deriving DecidableEq, Repr

/-- A log and what is known of it. -/
structure Log where
  path : Path
  contents : Contents := .unread
  deriving DecidableEq, Repr

abbrev ActivityLogs := List Log

def ActivityLogs.ofPaths (paths : List Path) : ActivityLogs :=
  paths.map fun p => { path := p }

/-- mirrors `ActivityLogs.discover` -/
def ActivityLogs.discover (t : FileTree) (root : Path) : Except WalkError ActivityLogs :=
  (activityLogs t root).map .ofPaths

/-- One log whose contents are known. mirrors `ActivityLogs.preloaded` -/
def ActivityLogs.preloaded (path : Path) (contents : String) : ActivityLogs :=
  [{ path, contents := .text contents }]

/-- Reads a log unless that was done before. mirrors `ActivityLogs.contents` -/
def Log.load (t : FileTree) (log : Log) : Log × List Record :=
  match log.contents with
  | .unread =>
    match readLog t log.path with
    | .ok text => ({ log with contents := .text text }, [])
    | .error e =>
      ({ log with contents := .unreadable }, [⟨.warn, s!"Skipping activity log: {e.message}"⟩])
  | _ => (log, [])

/-- The answer of a search: the arguments, the logs with what was read, and the records. -/
structure Search where
  arguments : Option (List String)
  logs : ActivityLogs
  records : List Record

/-- Searches logs in order for the invocation of a file.
mirrors `ActivityLogs.find_compile_command` -/
def find (t : FileTree) (file : Path) : ActivityLogs → Search
  | [] => ⟨none, [], []⟩
  | log :: rest =>
    let (log, loading) := log.load t
    match log.contents with
    | .text contents =>
      let s := scan contents file
      let records := loading ++ s.records file
      match s.result with
      | .ok (some args) => ⟨some args, log :: rest, records⟩
      | .ok none =>
        let more := find t file rest
        ⟨more.arguments, log :: more.logs, records ++ more.records⟩
      | .error e =>
        let more := find t file rest
        let record : Record :=
          ⟨.warn, s!"Malformed invocation for {file.text} in {log.path.text}: {e.message}"⟩
        ⟨more.arguments, log :: more.logs, records ++ record :: more.records⟩
    | _ =>
      let more := find t file rest
      ⟨more.arguments, log :: more.logs, loading ++ more.records⟩

end ExplicitSelf.BuildLog
