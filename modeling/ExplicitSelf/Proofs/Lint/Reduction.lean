import ExplicitSelf.Lint.Summary
import Mathlib.Algebra.BigOperators.Group.List.Basic
import Mathlib.Algebra.GroupWithZero.Nat

/-!
# Merging summaries

Workers merge the summaries of their files in an order that nobody fixes, two at a time, and start
from an empty summary as often as they like. `Reduction` is one such way. Summaries are a
commutative monoid, so only the summaries that were merged matter.

Results:
* `Reduction.total_eq`: reductions of the same summaries have the same total.
* `files_sum`: each file is counted once, whatever became of it.
* `filesNotStarted_sum`, `violations_sum`, `settled_sum`: what the other counts are in terms of
  outcomes.
-/
namespace ExplicitSelf.Lint

namespace Summary

attribute [ext] Summary

instance : Zero Summary := ⟨{}⟩

@[simp] theorem add_filesLinted (a b : Summary) :
    (a + b).filesLinted = a.filesLinted + b.filesLinted := rfl

@[simp] theorem add_filesSkipped (a b : Summary) :
    (a + b).filesSkipped = a.filesSkipped + b.filesSkipped := rfl

@[simp] theorem add_filesFailed (a b : Summary) :
    (a + b).filesFailed = a.filesFailed + b.filesFailed := rfl

@[simp] theorem add_filesNotStarted (a b : Summary) :
    (a + b).filesNotStarted = a.filesNotStarted + b.filesNotStarted := rfl

@[simp] theorem add_violations (a b : Summary) :
    (a + b).violations = a.violations + b.violations := rfl

@[simp] theorem add_filesOverwritten (a b : Summary) :
    (a + b).filesOverwritten = a.filesOverwritten + b.filesOverwritten := rfl

@[simp] theorem add_classificationFailures (a b : Summary) :
    (a + b).classificationFailures = a.classificationFailures + b.classificationFailures := rfl

@[simp] theorem add_writeFailures (a b : Summary) :
    (a + b).writeFailures = a.writeFailures + b.writeFailures := rfl

instance : AddCommMonoid Summary where
  add_assoc a b c := by ext <;> simp [Nat.add_assoc]
  zero_add a := by ext <;> exact Nat.zero_add _
  add_zero a := by ext <;> exact Nat.add_zero _
  add_comm a b := by ext <;> simp [Nat.add_comm]
  nsmul := nsmulRec

/-- A count that merging adds up is the sum of its parts. -/
theorem count_sum {f : Summary → Nat} (hzero : f 0 = 0) (hadd : ∀ a b, f (a + b) = f a + f b)
    (ss : List Summary) : f ss.sum = (ss.map f).sum :=
  map_list_sum (⟨⟨f, hzero⟩, hadd⟩ : Summary →+ Nat) ss

/-- The number of files that a summary is about. -/
def files (s : Summary) : Nat :=
  s.filesLinted + s.filesSkipped + s.filesFailed + s.filesNotStarted

end Summary

/-! ## Reductions -/

/-- A way to merge summaries: which are merged first, and where an empty one comes in. -/
inductive Reduction where
  | empty
  | one (s : Summary)
  | merge (l r : Reduction)

namespace Reduction

/-- The summaries that are merged. -/
def parts : Reduction → List Summary
  | empty => []
  | one s => [s]
  | merge l r => l.parts ++ r.parts

def total : Reduction → Summary
  | empty => {}
  | one s => s
  | merge l r => l.total + r.total

theorem total_eq_sum (r : Reduction) : r.total = r.parts.sum := by
  induction r with
  | empty => rfl
  | one s => rw [total, parts, List.sum_singleton]
  | merge l r ihl ihr => rw [total, parts, List.sum_append, ihl, ihr]

/-- The total of a reduction of summaries is their sum, in whatever order they are merged. -/
theorem total_eq {r : Reduction} {ss : List Summary} (h : r.parts.Perm ss) : r.total = ss.sum := by
  rw [total_eq_sum, h.sum_eq]

theorem exists_parts (ss : List Summary) : ∃ r : Reduction, r.parts = ss := by
  induction ss with
  | nil => exact ⟨.empty, rfl⟩
  | cons s ss ih =>
    obtain ⟨r, hr⟩ := ih
    exact ⟨.merge (.one s) r, by rw [parts, parts, hr, List.singleton_append]⟩

end Reduction

/-! ## Outcomes -/

/-- The violations of an outcome. -/
def Outcome.violations : Outcome → Nat
  | .linted violations _ _ => violations
  | _ => 0

/-- Whether a file was to be overwritten and its end is known. -/
def Outcome.isSettled : Outcome → Bool
  | .linted _ _ ending => ending ≠ .kept
  | _ => false

theorem files_sum (os : List Outcome) :
    (os.map Summary.ofOutcome).sum.files = os.length := by
  have hadd : ∀ a b : Summary, (a + b).files = a.files + b.files := by
    intro a b
    simp only [Summary.files, Summary.add_filesLinted, Summary.add_filesSkipped,
      Summary.add_filesFailed, Summary.add_filesNotStarted]
    omega
  have hone : ∀ o, (Summary.ofOutcome o).files = 1 := by
    intro o; cases o <;> rfl
  rw [Summary.count_sum rfl hadd, List.map_map]
  simp [Function.comp_def, hone]

theorem filesNotStarted_sum (os : List Outcome) :
    (os.map Summary.ofOutcome).sum.filesNotStarted = os.count .notStarted := by
  induction os with
  | nil => rfl
  | cons o os ih =>
    rw [List.map_cons, List.sum_cons, Summary.add_filesNotStarted, ih, List.count_cons,
      Nat.add_comm]
    cases o <;> rfl

theorem violations_sum (os : List Outcome) :
    (os.map Summary.ofOutcome).sum.violations = (os.map Outcome.violations).sum := by
  rw [Summary.count_sum rfl Summary.add_violations, List.map_map]
  congr 2
  funext o
  cases o <;> rfl

theorem settled_sum (os : List Outcome) :
    (os.map Summary.ofOutcome).sum.filesOverwritten + (os.map Summary.ofOutcome).sum.writeFailures =
      os.countP Outcome.isSettled := by
  induction os with
  | nil => rfl
  | cons o os ih =>
    rw [List.map_cons, List.sum_cons, List.countP_cons, Summary.add_filesOverwritten,
      Summary.add_writeFailures, ← ih]
    have hone : (Summary.ofOutcome o).filesOverwritten + (Summary.ofOutcome o).writeFailures =
        if o.isSettled = true then 1 else 0 := by
      cases o with
      | linted violations failures ending => cases ending <;> rfl
      | _ => rfl
    omega

end ExplicitSelf.Lint
