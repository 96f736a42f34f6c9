import ExplicitSelf.ArgumentSource
import ExplicitSelf.Lint.Classify
import ExplicitSelf.Lint.Overwrite
import ExplicitSelf.Lint.Summary
import ExplicitSelf.Service.Basic

/-!
# Linting files

`lintFile` does the work of one file: it looks up the compiler arguments, reads the file, asks the
service for its index, classifies the candidates, and reports or mends the violations. `lintFiles`
does so for one file after the other. When the service is gone, no further file is started, and the
run ends in that error.
-/
namespace ExplicitSelf.Lint

/-- The work on one file: what became of it, the files and the argument source after it, and what it
said. -/
structure Task where
  outcome : Outcome
  tree : FileTree
  source : ArgumentSource
  records : List Record := []
  report : List Block := []
  queries : List Service.Query := []

/-- The end of the work on a file whose candidates are classified. -/
def settle (mode : Mode) (t : FileTree) (file : Path) (text : String) (c : Classification) :
    Ending × FileTree × List Record × List Block :=
  if c.violations.isEmpty then (.kept, t, [], [])
  else
    match mode with
    | .report => (.kept, t, [], [⟨file, report c.violations⟩])
    | .overwrite =>
      match overwrite t file text c.violations with
      | (t, .ok _) => (.overwritten, t, [], [])
      | (t, .error e) => (.unwritten, t, [⟨.error, e.toError.message⟩], [])

/-- A query that failed: the record of it, unless it ends the run, and the outcome.
mirrors `FileTask.fail` -/
def queryFailed (file : Path) (e : Service.Error) : Outcome × List Record :=
  if e.isFatal then (.failed (some e), [])
  else (.failed none, [⟨.error, s!"Semantic query failed for {file.text}: {e.message}"⟩])

/-- Lints a file with known arguments and text. -/
def lintText (service : Service) (mode : Mode) (t : FileTree) (source : ArgumentSource)
    (file : Path) (arguments : List String) (text : String) : Task :=
  let (t, answer) := service.index t file arguments
  let asked : Service.Query := .index file arguments
  match answer with
  | .error e =>
    let (outcome, records) := queryFailed file e
    { outcome, tree := t, source, records, queries := [asked] }
  | .ok node =>
    let table := Source.LineTable.ofText text.toList
    let ask (offset : Nat) := service.cursor t file offset arguments
    let inquiry := classify ask file table (Index.candidates table node)
    let queries := asked :: inquiry.asked.map fun o => .cursor file o arguments
    match inquiry.result with
    | .error e =>
      let (outcome, records) := queryFailed file e
      { outcome, tree := t, source, records := inquiry.records ++ records, queries }
    | .ok c =>
      let (ending, t, records, report) := settle mode t file text c
      { outcome := .linted c.violations.length c.failures.length ending
        tree := t
        source
        records := inquiry.records ++ records
        report
        queries }

/-- mirrors `FileTask.lint` -/
def lintFile (service : Service) (mode : Mode) (t : FileTree) (source : ArgumentSource)
    (file : Path) : Task :=
  let r := source.resolve t file
  match r.result with
  | .error e =>
    { outcome := .skipped
      tree := t
      source := r.source
      records := r.records ++ [⟨.warn, e.message⟩] }
  | .ok none =>
    let message := s!"Couldn't find compiler arguments for file. Skipping: {file.text}"
    { outcome := .skipped
      tree := t
      source := r.source
      records := r.records ++ [⟨.warn, message⟩] }
  | .ok (some arguments) =>
    match t.readText file with
    | .error e =>
      { outcome := .failed none
        tree := t
        source := r.source
        records := r.records ++ [⟨.error, s!"Cannot read {file.text}: {e.message}"⟩] }
    | .ok text =>
      let task := lintText service mode t r.source file arguments text
      { task with records := r.records ++ task.records }

/-- A run: what it has done so far, and the error that aborted it. -/
structure Run where
  tree : FileTree
  source : ArgumentSource
  fatal : Option Service.Error := none
  summary : Summary := {}
  records : List Record := []
  report : List Block := []
  queries : List Service.Query := []

/-- Goes on with the next file. -/
def Run.step (service : Service) (mode : Mode) (r : Run) (file : Path) : Run :=
  if r.fatal.isSome then { r with summary := r.summary + .ofOutcome .notStarted }
  else
    let task := lintFile service mode r.tree r.source file
    let fatal := match task.outcome with
      | .failed fatal => fatal
      | _ => none
    let aborting := fatal.toList.map fun e =>
      (⟨.error, s!"Semantic service unavailable, aborting: {e.message}"⟩ : Record)
    { tree := task.tree
      source := task.source
      fatal
      summary := r.summary + .ofOutcome task.outcome
      records := r.records ++ task.records ++ aborting
      report := r.report ++ task.report
      queries := r.queries ++ task.queries }

/-- Lints files one after the other. -/
def lintFiles (service : Service) (mode : Mode) (t : FileTree) (source : ArgumentSource)
    (files : List Path) : Run :=
  let r := files.foldl (Run.step service mode) { tree := t, source := source }
  { r with records := r.records ++ r.summary.records }

def Run.result (r : Run) : Except Error Summary :=
  match r.fatal with
  | some e => .error (.ofService e)
  | none => .ok r.summary

end ExplicitSelf.Lint
