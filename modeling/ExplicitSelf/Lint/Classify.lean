import ExplicitSelf.Error
import ExplicitSelf.Index.Candidate
import ExplicitSelf.Lint.Violation
import ExplicitSelf.Record
import ExplicitSelf.Service.Cursor

/-!
# Which candidates are violations

Each offset is looked at once. A reference right after a dot is qualified already; about any other
the service is asked, and it is a violation if the service finds an instance member there. A query
that fails is a failure of that offset, unless the service is gone: that ends the inquiry.
-/
namespace ExplicitSelf.Lint

open Source (LineTable)

/-- mirrors `Classification` -/
structure Classification where
  violations : List Violation := []
  failures : List Error := []
  alreadyQualified : Nat := 0
  queries : Nat := 0
  deriving DecidableEq, Repr

/-- An inquiry: the offsets that the service was asked about, the records, and the result. -/
structure Inquiry where
  asked : List Nat
  records : List Record
  result : Except Service.Error Classification

namespace Inquiry

def empty : Inquiry := ⟨[], [], .ok {}⟩

def qualified (i : Inquiry) : Inquiry :=
  { i with result := i.result.map fun c => { c with alreadyQualified := c.alreadyQualified + 1 } }

def fatal (offset : Nat) (e : Service.Error) : Inquiry :=
  ⟨[offset], [], .error e⟩

def failed (file : Path) (offset : Nat) (e : Service.Error) (i : Inquiry) : Inquiry where
  asked := offset :: i.asked
  records := ⟨.warn, s!"Cursor query failed at {file.text}:{offset}: {e.message}"⟩ :: i.records
  result := i.result.map fun c =>
    { c with
      failures := .classification file offset e.message :: c.failures
      queries := c.queries + 1 }

/-- Adds an answered query in front, and its violation if it has one. -/
def answered (offset : Nat) (v : Option Violation) (i : Inquiry) : Inquiry where
  asked := offset :: i.asked
  records := i.records
  result := i.result.map fun c =>
    { c with violations := v.toList ++ c.violations, queries := c.queries + 1 }

end Inquiry

def isInstanceMember (cursor : Service.Cursor) : Bool :=
  (cursor.kind.bind Index.Reason.ofKind?).isSome

/-- The violation at an offset where the service found a symbol. -/
def violation? (file : Path) (table : LineTable) (offset : Nat) (cursor : Service.Cursor) :
    Option Violation :=
  if isInstanceMember cursor then
    (table.lineColumn? offset).map fun p => ⟨file, offset, p.line, p.column⟩
  else none

/-- Inquires about offsets in order, leaving out those that were `seen`. -/
def inquire (ask : Nat → Except Service.Error Service.Cursor) (file : Path) (table : LineTable) :
    (seen : List Nat) → List Nat → Inquiry
  | _, [] => .empty
  | seen, o :: os =>
    if seen.contains o then inquire ask file table seen os
    else if table.charBefore? o = some '.' then
      (inquire ask file table (o :: seen) os).qualified
    else
      match ask o with
      | .ok cursor =>
        (inquire ask file table (o :: seen) os).answered o (violation? file table o cursor)
      | .error e =>
        if e.isFatal then .fatal o e
        else (inquire ask file table (o :: seen) os).failed file o e

/-- mirrors `classify` -/
def classify (ask : Nat → Except Service.Error Service.Cursor) (file : Path) (table : LineTable)
    (candidates : List Index.Candidate) : Inquiry :=
  inquire ask file table [] (candidates.map (·.offset))

end ExplicitSelf.Lint
