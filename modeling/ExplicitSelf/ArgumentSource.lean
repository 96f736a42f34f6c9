import ExplicitSelf.BuildLog.ActivityLogs
import ExplicitSelf.Plan.Load
import ExplicitSelf.Project.Find

/-!
# Where compiler arguments come from

The arguments of a source file come from activity logs, from a build plan, or from the logs of the
project that the file belongs to. `ArgumentSource.open_` chooses by what it is pointed at, and
`resolve` looks up a file. Logs keep what they have read, so a look-up also gives the source for the
next one.
-/
namespace ExplicitSelf

open BuildLog (ActivityLogs)

/-- mirrors `ArgumentSource` -/
inductive ArgumentSource where
  | activityLogs (logs : ActivityLogs)
  | buildPlan (plan : Plan)
  /-- The build products of all projects, and the logs of the projects seen so far. -/
  | derivedData (root : Path) (projects : List (Path × ActivityLogs))

namespace ArgumentSource

/-- Where build products are, below the home directory. mirrors `default_derived_data_root` -/
def derivedDataBelow (home : Path) : Path :=
  home.join "Library/Developer/Xcode/DerivedData"

/-- Opens the source that `log` names: a directory of logs, a plan or a log; without one, the build
products at `derived`, or else those below the home directory. mirrors `ArgumentSource.open` -/
def open_ (t : FileTree) (home log derived : Option Path) (delimiter : Option String) :
    Except Error (ArgumentSource × List Record) :=
  match log with
  | none =>
    match derived.or (home.map derivedDataBelow) with
    | none => .error (.setup "cannot determine the DerivedData directory" none)
    | some root =>
      .ok (.derivedData root [],
        [⟨.info, s!"Resolving arguments from DerivedData at {root.text}"⟩])
  | some log =>
    if t.isDirectory log then
      match ActivityLogs.discover t log with
      | .error _ => .error (.setup "cannot scan log directory" (some log))
      | .ok logs =>
        .ok (.activityLogs logs,
          [⟨.info, s!"Resolving arguments from {logs.length} activity logs"⟩])
    else if log.extension? = some ("yaml" : Name) ∨ log.extension? = some ("yml" : Name) then
      match Plan.load t delimiter log with
      | .error e => .error e.toError
      | .ok plan =>
        .ok (.buildPlan plan, [⟨.info, s!"Resolving arguments from build plan {log.text}"⟩])
    else
      match BuildLog.readLog t log with
      | .error e => .error e.toError
      | .ok contents =>
        .ok (.activityLogs (.preloaded log contents),
          [⟨.info, s!"Resolving arguments from activity log {log.text}"⟩])

/-- The answer to a look-up: the arguments if there are any, the source after it, and records. -/
structure Resolution where
  result : Except Error (Option (List String))
  source : ArgumentSource
  records : List Record

/-- The logs of a project: those seen before, or those that are there now. mirrors `logs_for` -/
def projectLogs (t : FileTree) (root : Path) (projects : List (Path × ActivityLogs))
    (project : Path) : Except WalkError ActivityLogs :=
  match Keyed.get? Path.same project projects with
  | some logs => .ok logs
  | none => ActivityLogs.discover t (Project.logDirectory root project)

/-- Looks up the arguments of a source file. mirrors `ArgumentSource.resolve` -/
def resolve (t : FileTree) (file : Path) (source : ArgumentSource) : Resolution :=
  match source with
  | .activityLogs logs =>
    let s := BuildLog.find t file logs
    ⟨.ok s.arguments, .activityLogs s.logs, s.records⟩
  | .buildPlan plan => ⟨.ok (plan.arguments? file), source, []⟩
  | .derivedData root projects =>
    match Project.ofSource? t root file with
    | none => ⟨.ok none, source, []⟩
    | some project =>
      match projectLogs t root projects project with
      | .error _ =>
        ⟨.error (.resolution file s!"cannot scan logs of {project.text}"), source, []⟩
      | .ok logs =>
        let s := BuildLog.find t file logs
        ⟨.ok s.arguments, .derivedData root (Keyed.put Path.same project s.logs projects),
          s.records⟩

end ArgumentSource

end ExplicitSelf
