import ExplicitSelf.Config
import ExplicitSelf.Lint.Run
import ExplicitSelf.Service.SourceKitten
import ExplicitSelf.Workspace

/-!
# From options to a run

Before any file is linted, the configuration is read, the files are listed and the argument source
is opened, in this order; the first failure ends the run. Options go before the configuration.
-/
namespace ExplicitSelf.Lint

/-- mirrors `LintOptions` -/
structure Options where
  log : Option Path := none
  path : Path
  overwrite : Bool := false
  jobs : Option Nat := none
  config : Option Path := none
  sourcekitten : Option Path := none
  /-- Seconds that one query may take. -/
  timeout : Option Nat := none
  deriving Repr

/-- What a run takes from its surroundings besides files. -/
structure Environment where
  /-- The home directory, if there is one. -/
  home : Option Path
  search : Service.SearchPath

def Options.mode (o : Options) : Mode :=
  if o.overwrite then .overwrite else .report

/-- The directory whose configuration holds. mirrors `LintOptions.lint_root` -/
def Options.configDirectory (t : FileTree) (o : Options) : Path :=
  if t.isFile o.path then o.path.parent?.getD "." else o.path

/-- The configuration with the options put over it. -/
def Options.apply (o : Options) (c : Config) : Config :=
  { c with
    jobs := o.jobs.getD c.jobs
    sourcekitten := o.sourcekitten.or c.sourcekitten
    queryTimeout := o.timeout.getD c.queryTimeout }

def ofConfigError (e : Config.Error) : Error :=
  .setup e.message e.path?

/-- mirrors `LintRun` -/
structure Prepared where
  config : Config
  files : List Path
  source : ArgumentSource
  mode : Mode
  records : List Record

def configure (t : FileTree) (o : Options) : Except Error Config :=
  match (match o.config with
    | some path => Config.load t path
    | none => Config.loadFrom t (o.configDirectory t)) with
  | .ok c => .ok (o.apply c)
  | .error e => .error (ofConfigError e)

/-- mirrors `prepare` -/
def prepare (t : FileTree) (env : Environment) (o : Options) : Except Error Prepared := do
  let config ← configure t o
  let excludes ← match config.excludes with
    | .ok e => .ok e
    | .error e => .error (ofConfigError e)
  let files ← Workspace.files t excludes o.path
  if files.isEmpty then .error (.noInput o.path)
  else
    let (source, records) ←
      ArgumentSource.open_ t env.home o.log config.derivedData config.planDelimiter
    return { config, files, source, mode := o.mode, records }

/-- The end of a run: its result, the files after it, and what it said. -/
structure Finished where
  result : Except Error Summary
  tree : FileTree
  records : List Record := []
  report : List Block := []
  queries : List Service.Query := []
  /-- The program that was asked. -/
  program : Option Service.SourceKitten := none

/-- Lints the files of a prepared run. -/
def Prepared.run (p : Prepared) (service : Service) (t : FileTree) (announcement : String) :
    Finished :=
  let r := lintFiles service p.mode t p.source p.files
  { result := r.result
    tree := r.tree
    records := p.records ++ ⟨.info, announcement⟩ :: r.records
    report := r.report
    queries := r.queries }

/-- mirrors `run_with_service` -/
def runWith (service : Service) (t : FileTree) (env : Environment) (o : Options) : Finished :=
  match prepare t env o with
  | .error e => { result := .error e, tree := t }
  | .ok p => p.run service t s!"Linting {p.files.length} Swift files"

/-- Runs with the program `sourcekitten`. mirrors `run` -/
def run (launch : Service.Launcher) (t : FileTree) (env : Environment) (o : Options) : Finished :=
  match prepare t env o with
  | .error e => { result := .error e, tree := t }
  | .ok p =>
    match Service.SourceKitten.locate t env.search p.config.sourcekitten p.config.queryTimeout with
    | .error e => { result := .error (.ofService e), tree := t, records := p.records }
    | .ok k =>
      let announcement := s!"Linting {p.files.length} Swift files with {k.executable.text}"
      { p.run (k.service launch) t announcement with program := some k }

end ExplicitSelf.Lint
