import ExplicitSelf.Record
import ExplicitSelf.Service.Error

/-!
# What became of the files of a run

Each file of a run has one outcome. A summary counts outcomes, violations and failures, and
summaries are added up. The exit code tells whether a report has violations.
-/
namespace ExplicitSelf.Lint

/-- Whether violations are reported or mended. mirrors `RewriteMode` -/
inductive Mode where
  | report
  | overwrite
  deriving DecidableEq, Repr

/-- How a linted file ended up. -/
inductive Ending where
  /-- It has no violations, or they were reported. -/
  | kept
  | overwritten
  /-- It has violations and could not be overwritten. -/
  | unwritten
  deriving DecidableEq, Repr

/-- What became of a file. -/
inductive Outcome where
  /-- The run had been aborted. -/
  | notStarted
  /-- It has no compiler arguments. -/
  | skipped
  /-- It could not be read, or a query failed; the failure is kept if it ends the run. -/
  | failed (fatal : Option Service.Error)
  | linted (violations failures : Nat) (ending : Ending)
  deriving DecidableEq, Repr

/-- mirrors `RunSummary` -/
structure Summary where
  filesLinted : Nat := 0
  filesSkipped : Nat := 0
  filesFailed : Nat := 0
  filesNotStarted : Nat := 0
  violations : Nat := 0
  filesOverwritten : Nat := 0
  classificationFailures : Nat := 0
  writeFailures : Nat := 0
  deriving DecidableEq, Repr

namespace Summary

/-- mirrors `RunSummary.merge` -/
def add (a b : Summary) : Summary where
  filesLinted := a.filesLinted + b.filesLinted
  filesSkipped := a.filesSkipped + b.filesSkipped
  filesFailed := a.filesFailed + b.filesFailed
  filesNotStarted := a.filesNotStarted + b.filesNotStarted
  violations := a.violations + b.violations
  filesOverwritten := a.filesOverwritten + b.filesOverwritten
  classificationFailures := a.classificationFailures + b.classificationFailures
  writeFailures := a.writeFailures + b.writeFailures

instance : Add Summary := ⟨add⟩

def ofOutcome : Outcome → Summary
  | .notStarted => { filesNotStarted := 1 }
  | .skipped => { filesSkipped := 1 }
  | .failed _ => { filesFailed := 1 }
  | .linted violations failures ending =>
    { filesLinted := 1
      violations
      classificationFailures := failures
      filesOverwritten := if ending = .overwritten then 1 else 0
      writeFailures := if ending = .unwritten then 1 else 0 }

/-- mirrors `any_violation_found` -/
def hasViolations (s : Summary) : Bool := 0 < s.violations

/-- mirrors `RunSummary.exit_code` -/
def exitCode (mode : Mode) (s : Summary) : Nat :=
  if mode = .report ∧ s.hasViolations then 1 else 0

/-- The records at the end of a run. mirrors `RunSummary.log` -/
def records (s : Summary) : List Record :=
  ⟨.info, s!"Linted {s.filesLinted} files ({s.filesSkipped} skipped, {s.filesFailed} failed): "
    ++ s!"{s.violations} violations, {s.filesOverwritten} files rewritten, "
    ++ s!"{s.classificationFailures} failed queries"⟩
  :: if 0 < s.writeFailures then [⟨.error, s!"{s.writeFailures} files could not be rewritten"⟩]
    else []

end Summary

/-- The number of workers of a run, for the number that was asked for and the number of cores.
mirrors `worker_count` -/
def workers (jobs cores : Nat) : Nat :=
  if 0 < jobs then jobs else max cores 1

end ExplicitSelf.Lint
