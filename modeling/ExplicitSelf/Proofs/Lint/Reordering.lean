import ExplicitSelf.Proofs.Lint.Convergence
import ExplicitSelf.Proofs.Lint.Questions

/-!
# The order of candidates does not show

Candidates come in the order of the walk over an index, and more than once if the index says so.
Neither can be seen in the report of a file or in its new text. Repetitions go when the first
occurrences are taken. What is left is in another order if the candidates are, and so are the
violations. But there is one violation at an offset at most, and the report and the insertions are
sorted by offset.

Insertions at one offset keep their order when they are sorted. They are a conflict, and a conflict
names the offset only, so the order does not show then either.

Results:
* `descending_offsets`, `descending_eq`: what sorting makes of insertions in two orders.
* `applyInsertions_eq_of_perm`: the order of insertions does not matter, whether they are applied or
  not.
* `firsts_perm`: candidates at the same offsets have the same first occurrences, in some order.
* `report_eq_of_perm`: violations in two orders have the same report.
* `classify_reordered`: candidates at the same offsets have the same report and the same new text.
-/
namespace ExplicitSelf

/-! ## Insertions -/

namespace Source

variable {xs ys : List Insertion}

theorem descending_perm_descending (h : xs.Perm ys) : (descending xs).Perm (descending ys) :=
  ((descending_perm xs).trans h).trans (descending_perm ys).symm

/-- The offsets of insertions, sorted, do not depend on their order. -/
theorem descending_offsets (h : xs.Perm ys) :
    (descending xs).map (·.offset) = (descending ys).map (·.offset) := by
  have hperm := (descending_perm_descending h).map (·.offset)
  have hxs : ((descending xs).map (·.offset)).Pairwise (· ≥ ·) :=
    List.pairwise_map.2 (descending_pairwise xs)
  have hys : ((descending ys).map (·.offset)).Pairwise (· ≥ ·) :=
    List.pairwise_map.2 (descending_pairwise ys)
  exact hperm.eq_of_pairwise' hxs hys

/-- Insertions at different offsets, sorted, do not depend on their order. -/
theorem descending_eq (h : xs.Perm ys) (hn : (xs.map (·.offset)).Nodup) :
    descending xs = descending ys := by
  have hys : (ys.map (·.offset)).Nodup := (h.map _).nodup_iff.1 hn
  refine (descending_perm_descending h).eq_of_pairwise (fun x y _ _ hxy hyx => ?_)
    (descending_pairwise_lt hn) (descending_pairwise_lt hys)
  omega

/-- The order of insertions does not matter. Either all offsets are different boundaries, and
sorting gives one list of insertions, or there is a conflict, and conflicts are about offsets
alone. -/
theorem applyInsertions_eq_of_perm (text : List Char) (h : xs.Perm ys) :
    applyInsertions text xs = applyInsertions text ys := by
  unfold applyInsertions
  simp only
  rw [← descending_offsets h]
  cases hc : conflicts text none ((descending xs).map (·.offset)) with
  | cons conflict rest => rfl
  | nil =>
    obtain ⟨-, hn⟩ := (conflicts_descending_eq_nil_iff text xs).1 hc
    simp only
    rw [descending_eq h hn]

end Source

/-! ## Violations -/

namespace Lint

open Source (LineTable)

theorem firsts_perm {os ps : List Nat} (h : ∀ o, o ∈ os ↔ o ∈ ps) :
    (firsts [] os).Perm (firsts [] ps) := by
  rw [List.perm_ext_iff_of_nodup (nodup_firsts [] os) (nodup_firsts [] ps)]
  intro o
  simp [mem_firsts, h o]

section
variable (ask : Nat → Except Service.Error Service.Cursor) (file : Path) (table : LineTable)

theorem tally_violations_perm {os ps : List Nat} (h : os.Perm ps) :
    (tally ask file table os).violations.Perm (tally ask file table ps).violations :=
  (h.filter _).filterMap _

theorem nodup_tally_violations {os : List Nat} (h : os.Nodup) :
    ((tally ask file table os).violations.map (·.offset)).Nodup := by
  rw [tally, violations_offset]
  exact (h.filter _).filter _

/-- A violation is what its offset makes it. -/
theorem tally_violations_eq_map (os : List Nat) :
    ((tally ask file table os).violations.map (·.offset)).map (violationOf file table) =
      (tally ask file table os).violations := by
  rw [List.map_map]
  refine (List.map_congr_left fun v hv => ?_).trans (List.map_id _)
  obtain ⟨o, -, ho⟩ := List.mem_filterMap.1 hv
  obtain ⟨p, hp, rfl⟩ := violationAt_position ask file table ho
  exact violationOf_eq file hp

/-- Offsets in another order have the same report. -/
theorem report_eq_of_perm {os ps : List Nat} (h : os.Perm ps) (hn : os.Nodup) :
    report (tally ask file table os).violations = report (tally ask file table ps).violations := by
  have hos := nodup_tally_violations ask file table hn
  have hps := nodup_tally_violations ask file table (h.nodup_iff.1 hn)
  have hset :=
    List.toFinset_eq_of_perm _ _ ((tally_violations_perm ask file table h).map (·.offset))
  rw [← tally_violations_eq_map ask file table os, ← tally_violations_eq_map ask file table ps,
    report_eq_map file table hos, report_eq_map file table hps, hset]

end

/-- Candidates at the same offsets, in any order and any number of times, have the same report and
the same insertions, applied or refused. And insertions are applied or refused in the same way in
any order. -/
theorem classify_reordered (text : List Char) :
    (∀ (ask : Nat → Except Service.Error Service.Cursor) (file : Path)
      (cs ds : List Index.Candidate),
      NeverGone ask → (∀ o, o ∈ cs.map (·.offset) ↔ o ∈ ds.map (·.offset)) →
      ∃ c d, (classify ask file (.ofText text) cs).result = .ok c ∧
        (classify ask file (.ofText text) ds).result = .ok d ∧
        report c.violations = report d.violations ∧
        Source.applyInsertions text (insertions c.violations) =
          Source.applyInsertions text (insertions d.violations)) ∧
    ∀ xs ys : List Source.Insertion, xs.Perm ys →
      Source.applyInsertions text xs = Source.applyInsertions text ys := by
  refine ⟨fun ask file cs ds hask h => ?_, fun xs ys => Source.applyInsertions_eq_of_perm text⟩
  have hperm := firsts_perm h
  refine ⟨_, _, classify_result file _ cs fun x _ => hask x.offset,
    classify_result file _ ds fun x _ => hask x.offset,
    report_eq_of_perm ask file _ hperm (nodup_firsts [] _), ?_⟩
  exact Source.applyInsertions_eq_of_perm text ((tally_violations_perm ask file _ hperm).map _)

/-- Two insertions at one offset are refused in either order, also beside one inside a character. -/
theorem classify_reordered_mixed :
    (∃ c d, (classify (mixedAnswers 7) "/A" (.ofText "é.x x y".toList)
          [⟨3, .property⟩, ⟨5, .property⟩, ⟨5, .method⟩, ⟨7, .property⟩]).result = .ok c ∧
        (classify (mixedAnswers 7) "/A" (.ofText "é.x x y".toList)
          [⟨7, .method⟩, ⟨5, .property⟩, ⟨3, .property⟩]).result = .ok d ∧
        report c.violations = report d.violations) ∧
      Source.applyInsertions "é.x x y".toList [⟨5, ['a']⟩, ⟨1, ['b']⟩, ⟨5, ['c']⟩] =
        Source.applyInsertions "é.x x y".toList [⟨5, ['c']⟩, ⟨5, ['a']⟩, ⟨1, ['b']⟩] := by
  obtain ⟨hclassify, hinsert⟩ := classify_reordered "é.x x y".toList
  refine ⟨?_, hinsert _ _ (by decide)⟩
  obtain ⟨c, d, hc, hd, hreport, -⟩ := hclassify (mixedAnswers 7) "/A"
    [⟨3, .property⟩, ⟨5, .property⟩, ⟨5, .method⟩, ⟨7, .property⟩]
    [⟨7, .method⟩, ⟨5, .property⟩, ⟨3, .property⟩] (neverGone_mixedAnswers 7) fun o => by
      simp only [List.map_cons, List.map_nil, List.mem_cons, List.not_mem_nil, or_false]
      omega
  exact ⟨c, d, hc, hd, hreport⟩

end Lint

end ExplicitSelf
