import ExplicitSelf.Path.Basic

/-!
# Violations and their report

A violation is a reference to an instance member without an explicit `self.`. A report has one line
for each, by offset.
-/
namespace ExplicitSelf.Lint

/-- A reference that lacks `self.`, by its offset in octets and its position. mirrors `Violation` -/
structure Violation where
  file : Path
  offset : Nat
  line : UInt32
  column : UInt32
  deriving DecidableEq, Repr

/-- mirrors `format_diagnostic` -/
def Violation.diagnostic (v : Violation) : String :=
  s!"{v.file.text}:{v.line.toNat}:{v.column.toNat}: error: Missing explicit reference to 'self.'"

/-- The lines of a report, by offset; violations at one offset keep their order. mirrors `report` -/
def report (vs : List Violation) : List String :=
  (vs.mergeSort fun v w => v.offset ≤ w.offset).map Violation.diagnostic

/-- The report of one file, which is written at once. -/
structure Block where
  file : Path
  lines : List String
  deriving DecidableEq, Repr

end ExplicitSelf.Lint
