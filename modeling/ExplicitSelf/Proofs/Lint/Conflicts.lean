import ExplicitSelf.Proofs.Lint.Reordering

/-!
# How the violations of a file can conflict

Insertions are refused for three reasons: an offset past the end of the text, two insertions at one
offset, and an offset inside a character. An index may give cause for all of them, since it can name
any line and column, and the same one again and again. Only the third is left when its references
are classified. A line and column that are not in the text are no candidate, and an offset is asked
about once. But columns count octets, so a column may well stand inside a character.

Results:
* `conflicts_of_descending`: the conflicts of different offsets in the text.
* `nodup_violations`, `violation_le_size`: the violations of a file are at different offsets in its
  text.
* `classify_conflicts`: their insertions are applied, or each refused offset is inside a character.
-/
namespace ExplicitSelf

/-! ## Different offsets in a text -/

namespace Source

open Text (size isBoundary)

/-- Offsets in the text, in strictly descending order, conflict only inside characters. -/
theorem conflicts_of_descending {text : List Char} {os : List Nat} {previous : Option Nat}
    (hs : (previous.toList ++ os).Pairwise (· > ·)) (hle : ∀ o ∈ os, o ≤ size text) :
    conflicts text previous os = (os.filter fun o => !isBoundary o text).map .insideCharacter := by
  induction os generalizing previous with
  | nil => rfl
  | cons o os ih =>
    have hle' : ¬size text < o := Nat.not_lt.2 (hle o (.head _))
    have hne : previous ≠ some o := by
      intro he
      rw [he] at hs
      simp at hs
    have hs' : ((some o).toList ++ os).Pairwise (· > ·) := (List.pairwise_append.1 hs).2.1
    have hrest := ih hs' fun p hp => hle p (.tail _ hp)
    rw [conflicts, hrest, placement?, if_neg hle', if_neg hne, List.filter_cons]
    cases isBoundary o text <;> simp

variable {text : List Char} {xs : List Insertion}

/-- Insertions at different offsets in the text are refused only inside characters, the last
first. -/
theorem eq_of_applyInsertions_eq_error (hn : (xs.map (·.offset)).Nodup)
    (hle : ∀ x ∈ xs, x.offset ≤ size text) {cs : List Conflict}
    (h : applyInsertions text xs = .error cs) :
    cs ≠ [] ∧ cs = (((descending xs).map (·.offset)).filter fun o => !isBoundary o text).map
      .insideCharacter := by
  have hs : ((none : Option Nat).toList ++ (descending xs).map (·.offset)).Pairwise (· > ·) :=
    List.pairwise_map.2 (descending_pairwise_lt hn)
  have hle' : ∀ o ∈ (descending xs).map (·.offset), o ≤ size text := by
    intro o ho
    obtain ⟨x, hx, rfl⟩ := List.mem_map.1 ho
    exact hle x ((descending_perm xs).mem_iff.1 hx)
  unfold applyInsertions at h
  simp only at h
  split at h
  · cases h
  · rename_i hne
    cases h
    exact ⟨hne, conflicts_of_descending hs hle'⟩

end Source

/-! ## The violations of a file -/

namespace Lint

open Source (LineTable applyInsertions Conflict)
open Text (size isBoundary)

section
variable {ask : Nat → Except Service.Error Service.Cursor} {file : Path} {table : LineTable}
  {candidates : List Index.Candidate} {c : Classification}

theorem tally_of_classify (h : (classify ask file table candidates).result = .ok c) :
    c = tally ask file table (firsts [] (candidates.map (·.offset))) := by
  rw [(classify_spec file table candidates ask).2, findings] at h
  split at h
  · cases h
  · exact (Except.ok.inj h).symm

/-- An offset is a violation once. -/
theorem nodup_violations (h : (classify ask file table candidates).result = .ok c) :
    (c.violations.map (·.offset)).Nodup := by
  rw [tally_of_classify h]
  exact nodup_tally_violations ask file table (nodup_firsts [] _)

/-- A violation has a line and a column, so it is in the text. -/
theorem violation_le_size (h : (classify ask file table candidates).result = .ok c) {v : Violation}
    (hv : v ∈ c.violations) : v.offset ≤ size table.text := by
  rw [tally_of_classify h] at hv
  obtain ⟨o, _, ho⟩ := List.mem_filterMap.1 hv
  obtain ⟨p, _, rfl⟩ := violationAt_position ask file table ho
  exact ((exists_violationAt_iff ask file table o).2 ⟨_, ho⟩).1

end

/-- The insertions of a file's violations are applied exactly if all violations are at boundaries.
If they are refused, then for being inside a character and nothing else: each violation inside one
is named once. -/
theorem classify_conflicts (ask : Nat → Except Service.Error Service.Cursor) (file : Path)
    (text : List Char) (root : Index.Node) (c : Classification)
    (h : (classify ask file (.ofText text) (Index.candidates (.ofText text) root)).result = .ok c) :
    ((∃ applied, applyInsertions text (insertions c.violations) = .ok applied) ↔
      ∀ v ∈ c.violations, isBoundary v.offset text = true) ∧
    ∀ cs, applyInsertions text (insertions c.violations) = .error cs →
      ∃ os, os ≠ [] ∧ os.Pairwise (· > ·) ∧
        (∀ o, o ∈ os ↔ o ∈ c.violations.map (·.offset) ∧ isBoundary o text = false) ∧
        cs = os.map .insideCharacter := by
  have hoffsets := insertions_offset c.violations
  have hn := nodup_violations h
  rw [← hoffsets] at hn
  have hle : ∀ x ∈ insertions c.violations, x.offset ≤ size text := by
    intro x hx
    obtain ⟨v, hv, rfl⟩ := List.mem_map.1 hx
    exact violation_le_size h hv
  refine ⟨⟨fun ⟨applied, happlied⟩ v hv => ?_, fun hb => ?_⟩, fun cs hcs => ?_⟩
  · exact (Source.boundaries_of_applyInsertions happlied).1 ⟨v.offset, selfText⟩
      (List.mem_map.2 ⟨v, hv, rfl⟩)
  · refine ⟨_, Source.applyInsertions_eq_ok (fun x hx => ?_) hn⟩
    obtain ⟨v, hv, rfl⟩ := List.mem_map.1 hx
    exact hb v hv
  · obtain ⟨hne, heq⟩ := Source.eq_of_applyInsertions_eq_error hn hle hcs
    refine ⟨_, ?_, ?_, fun o => ?_, heq⟩
    · intro hnil
      rw [heq, hnil] at hne
      exact hne rfl
    · exact (List.pairwise_map.2 (Source.descending_pairwise_lt hn)).filter _
    · rw [List.mem_filter, ((Source.descending_perm _).map _).mem_iff, hoffsets]
      simp

/-! References inside a character, at one offset twice, at the end of the text and past it. -/

def tangledIndex : Index.Node :=
  .container [sampleReference 2 [], sampleReference 3 [sampleReference 3 []], sampleReference 6 [],
    sampleReference 40 []]

theorem classify_conflicts_tangled :
    ∃ c, ∃ os : List Nat, (classify (goneFrom 50) "/A" (.ofText "éa b".toList)
        (Index.candidates (.ofText "éa b".toList) tangledIndex)).result = .ok c ∧
      c.violations.map (·.offset) = [1, 2, 5] ∧
      (∀ o, o ∈ os ↔ o ∈ [1, 2, 5] ∧ isBoundary o "éa b".toList = false) ∧
      applyInsertions "éa b".toList (insertions c.violations) =
        .error (os.map .insideCharacter) := by
  have hc : (classify (goneFrom 50) "/A" (.ofText "éa b".toList)
      (Index.candidates (.ofText "éa b".toList) tangledIndex)).result =
        .ok ⟨[⟨"/A", 1, 1, 2⟩, ⟨"/A", 2, 1, 3⟩, ⟨"/A", 5, 1, 6⟩], [], 0, 3⟩ := by cbv
  have hrefused : applyInsertions "éa b".toList (insertions [⟨"/A", 1, 1, 2⟩, ⟨"/A", 2, 1, 3⟩,
      ⟨"/A", 5, 1, 6⟩]) = .error [.insideCharacter 1] := by cbv
  obtain ⟨os, _, _, hmem, hos⟩ := (classify_conflicts _ _ _ _ _ hc).2 _ hrefused
  exact ⟨_, os, hc, rfl, hmem, hos ▸ hrefused⟩

end Lint

end ExplicitSelf
