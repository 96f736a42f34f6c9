import ExplicitSelf.Lint.Overwrite
import ExplicitSelf.Proofs.Source.Splice

/-!
# What overwriting inserts

The insertions that mend violations write `self.` in front of each offset at fault (`selfMark`).
They can be applied exactly if these offsets are boundaries of the text and no two are equal.

Results:
* `textAt_insertions`: what the insertions write in front of an offset.
* `applyInsertions_insertions`, `of_applyInsertions_insertions`: when they are applied, and to what.
-/
namespace ExplicitSelf.Lint

open Source (splice textAt Fits)
open Text (isBoundary)

/-- What is inserted in front of an offset, if some offsets are at fault. -/
def selfMark (os : List Nat) (o : Nat) : List Char :=
  if o ∈ os then selfText else []

theorem fits_selfMark {os : List Nat} {text : List Char}
    (h : ∀ o ∈ os, isBoundary o text = true) : Fits (selfMark os) 0 text := by
  intro o _ hne
  by_cases ho : o ∈ os
  · exact h o ho
  · simp [selfMark, ho] at hne

theorem insertions_offset (vs : List Violation) :
    (insertions vs).map (·.offset) = vs.map (·.offset) := by
  simp [insertions]

theorem textAt_insertions {vs : List Violation} (h : (vs.map (·.offset)).Nodup) :
    textAt (insertions vs) = selfMark (vs.map (·.offset)) := by
  funext o
  unfold selfMark
  split
  · rename_i ho
    obtain ⟨v, hv, rfl⟩ := List.mem_map.1 ho
    have hx : (⟨v.offset, selfText⟩ : Source.Insertion) ∈ insertions vs :=
      List.mem_map.2 ⟨v, hv, rfl⟩
    exact Source.textAt_of_mem (by rw [insertions_offset]; exact h) hx
  · rename_i ho
    exact Source.textAt_of_notMem (by rw [insertions_offset]; exact ho)

theorem applyInsertions_insertions {text : List Char} {vs : List Violation}
    (h : (vs.map (·.offset)).Nodup) (hb : ∀ o ∈ vs.map (·.offset), isBoundary o text = true) :
    Source.applyInsertions text (insertions vs) =
      .ok ⟨splice (selfMark (vs.map (·.offset))) 0 text,
        (Source.descending (insertions vs)).map (·.offset)⟩ := by
  rw [← textAt_insertions h]
  refine Source.applyInsertions_eq_ok (fun x hx => hb _ ?_) (by rw [insertions_offset]; exact h)
  rw [← insertions_offset]
  exact List.mem_map_of_mem hx

theorem of_applyInsertions_insertions {text : List Char} {vs : List Violation}
    {applied : Source.Applied} (h : Source.applyInsertions text (insertions vs) = .ok applied) :
    (vs.map (·.offset)).Nodup ∧ (∀ o ∈ vs.map (·.offset), isBoundary o text = true) ∧
      applied.text = splice (selfMark (vs.map (·.offset))) 0 text := by
  obtain ⟨hb, hn⟩ := Source.boundaries_of_applyInsertions h
  rw [insertions_offset] at hn
  have hb' : ∀ o ∈ vs.map (·.offset), isBoundary o text = true := by
    rw [← insertions_offset]
    exact List.forall_mem_map.2 hb
  refine ⟨hn, hb', ?_⟩
  rw [applyInsertions_insertions hn hb'] at h
  cases h
  rfl

end ExplicitSelf.Lint
