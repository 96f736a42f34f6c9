import ExplicitSelf.Proofs.Lint.Inquiry
import ExplicitSelf.Proofs.Lint.Insertions
import ExplicitSelf.Proofs.Source.Positions

/-!
# Overwriting converges in one pass

After `self.` is inserted before each violation, every offset of the old text has moved by five
octets for each violation at or before it (`shifted`). A violation now stands after a dot. What
stands before any other offset is what stood there, also next to an insertion, at the start, past
the end and inside a character.

Results:
* `charBefore?_splice`: what stands before a moved offset.
* `shifted_eq_added`, `shifted_injective`: offsets move by what is inserted at or before them, and
  stay apart.
* `violations_offset`: the offsets of the violations, among those that the service was asked about.
* `classify_overwritten`: classifying the new text finds no violation, the old failures, and one
  more qualified reference for each old violation.
-/
namespace ExplicitSelf.Lint

open Source (LineTable splice added Fits)
open Text (size splitAt? isBoundary)

/-! ## Before a moved offset -/

/-- What stands before a moved offset is the end of what was inserted there, or else what stood
before it. -/
theorem charBefore?_splice {mark : Nat → List Char} {text : List Char} (h : Fits mark 0 text)
    (o : Nat) :
    (LineTable.ofText (splice mark 0 text)).charBefore? (o + added mark 0 o) =
      if mark o = [] then (LineTable.ofText text).charBefore? o else (mark o).getLast? := by
  have hcut := Source.splitAt?_splice 0 o text h (Nat.zero_le o)
  rw [Nat.sub_zero] at hcut
  have hnew : (LineTable.ofText (splice mark 0 text)).charBefore? (o + added mark 0 o) =
      (splitAt? o text).bind fun cut => (splice mark 0 cut.1).getLast? := by
    have hlast := congrArg (fun l : Option (List Char) => l.bind List.getLast?) hcut
    simp only [Option.bind_map, Function.comp_def] at hlast
    exact hlast
  rw [hnew]
  cases hs : splitAt? o text with
  | none =>
    have hmark : mark o = [] := by
      by_contra hne
      have hb := h o (Nat.zero_le o) hne
      rw [Nat.sub_zero, isBoundary, hs] at hb
      cases hb
    rw [if_pos hmark, LineTable.charBefore?, LineTable.ofText_text, hs]
    rfl
  | some cut =>
    obtain ⟨l, r⟩ := cut
    obtain ⟨_, hl⟩ := Text.splitAt?_eq_some_iff.1 hs
    rw [LineTable.charBefore?, LineTable.ofText_text, hs]
    simp only [Option.bind_some]
    rw [Source.getLast?_splice, Nat.zero_add, hl]

/-- The new text is as much longer as is inserted. -/
theorem size_splice {mark : Nat → List Char} {text : List Char} (h : Fits mark 0 text) :
    size (splice mark 0 text) = size text + added mark 0 (size text) := by
  have hcut := Source.splitAt?_splice 0 (size text) text h (Nat.zero_le _)
  have hall := Text.splitAt?_append text []
  rw [List.append_nil] at hall
  rw [Nat.sub_zero, hall, Option.map_some, Option.map_eq_some_iff] at hcut
  obtain ⟨⟨l, r⟩, hlr, hl⟩ := hcut
  simp only at hl
  rw [← hl]
  exact (Text.splitAt?_eq_some_iff.1 hlr).2

/-! ## Moved offsets -/

/-- Where an offset goes when `self.` is inserted before violations. -/
def shifted (vs : List Violation) (o : Nat) : Nat :=
  o + 5 * (vs.filter fun v => v.offset ≤ o).length

theorem added_selfMark {os : List Nat} (h : os.Nodup) (o : Nat) :
    added (selfMark os) 0 o = 5 * (os.filter (· ≤ o)).length := by
  have hsize : ∀ j, size (selfMark os j) = if j ∈ os then 5 else 0 := by
    intro j
    unfold selfMark
    split <;> decide
  have hset : (Finset.Ico 0 (o + 1)).filter (· ∈ os) = (os.filter (· ≤ o)).toFinset := by
    ext j
    simp only [Finset.mem_filter, Finset.mem_Ico, List.mem_toFinset, List.mem_filter,
      decide_eq_true_eq, Nat.zero_le, true_and, Nat.lt_succ_iff]
    exact And.comm
  unfold added
  rw [Finset.sum_congr rfl fun j _ => hsize j, ← Finset.sum_filter, hset,
    Finset.sum_const_nat fun _ _ => rfl, List.toFinset_card_of_nodup (h.filter _), Nat.mul_comm]

/-- Offsets move by what is inserted at or before them. -/
theorem shifted_eq_added {vs : List Violation} (h : (vs.map (·.offset)).Nodup) (o : Nat) :
    shifted vs o = o + added (selfMark (vs.map (·.offset))) 0 o := by
  rw [added_selfMark h, shifted, List.filter_map, List.length_map]
  rfl

theorem shifted_lt {vs : List Violation} {a b : Nat} (h : a < b) : shifted vs a < shifted vs b := by
  have hle : (vs.filter fun v => v.offset ≤ a).length ≤
      (vs.filter fun v => v.offset ≤ b).length := by
    rw [← List.countP_eq_length_filter, ← List.countP_eq_length_filter]
    refine List.countP_mono_left fun v _ hv => ?_
    simp only [decide_eq_true_eq] at hv ⊢
    omega
  unfold shifted
  omega

/-- Different offsets go to different offsets. -/
theorem shifted_injective (vs : List Violation) : Function.Injective (shifted vs) := by
  intro a b h
  rcases Nat.lt_trichotomy a b with hlt | heq | hgt
  · exact absurd h (Nat.ne_of_lt (shifted_lt hlt))
  · exact heq
  · exact absurd h.symm (Nat.ne_of_lt (shifted_lt hgt))

/-! ## The violations among the offsets -/

theorem offset_of_violationAt {ask : Nat → Except Service.Error Service.Cursor} {file : Path}
    {table : LineTable} {o : Nat} {v : Violation} (h : violationAt ask file table o = some v) :
    v.offset = o := by
  unfold violationAt violation? at h
  split at h
  · split at h
    · obtain ⟨p, _, rfl⟩ := Option.map_eq_some_iff.1 h
      rfl
    · cases h
  · cases h

/-- The offsets of violations are those with a violation. -/
theorem violations_offset (ask : Nat → Except Service.Error Service.Cursor) (file : Path)
    (table : LineTable) (os : List Nat) :
    (os.filterMap (violationAt ask file table)).map (·.offset) =
      os.filter fun o => (violationAt ask file table o).isSome := by
  induction os with
  | nil => rfl
  | cons o os ih =>
    rw [List.filterMap_cons, List.filter_cons]
    cases hv : violationAt ask file table o with
    | none => exact ih
    | some v =>
      simp only [List.map_cons, Option.isSome_some, if_true]
      rw [ih, offset_of_violationAt hv]

/-- A failure with its offset moved. -/
def moveFailure (move : Nat → Nat) : Error → Error
  | .classification path offset message => .classification path (move offset) message
  | e => e

theorem failureAt_moved {ask ask' : Nat → Except Service.Error Service.Cursor} {move : Nat → Nat}
    (h : ∀ o, ask' (move o) = ask o) (file : Path) (o : Nat) :
    failureAt ask' file (move o) = (failureAt ask file o).map (moveFailure move) := by
  unfold failureAt
  rw [h]
  cases ask o <;> rfl

/-- Where there is no violation in the old text there is none in the new one. -/
theorem violationAt_moved {ask ask' : Nat → Except Service.Error Service.Cursor} {move : Nat → Nat}
    (h : ∀ o, ask' (move o) = ask o) (file : Path) {table table' : LineTable} {o : Nat}
    (hpast : size table.text < o → size table'.text < move o)
    (hnone : violationAt ask file table o = none) :
    violationAt ask' file table' (move o) = none := by
  unfold violationAt violation? at hnone ⊢
  rw [h]
  cases ha : ask o with
  | error e => rfl
  | ok cursor =>
    rw [ha] at hnone
    simp only at hnone ⊢
    split
    · rename_i hm
      rw [if_pos hm, Option.map_eq_none_iff] at hnone
      have hout : size table.text < o := by
        by_contra hin
        obtain ⟨p, hp⟩ := table.exists_lineColumn? (Nat.le_of_not_lt hin)
        rw [hp] at hnone
        cases hnone
      rw [table'.lineColumn?_eq_none (hpast hout)]
      rfl
    · rfl

/-! ## The new text -/

section
variable {ask ask' : Nat → Except Service.Error Service.Cursor} {file : Path}
  {table table' : LineTable} {move : Nat → Nat} {qs : List Nat}

/-- Among the offsets of an inquiry, the violations are those with a violation and no dot. -/
theorem mem_violations_iff {o : Nat} (ho : o ∈ qs) :
    o ∈ (tally ask file table qs).violations.map (·.offset) ↔
      isQualified table o = false ∧ (violationAt ask file table o).isSome = true := by
  rw [tally, violations_offset, unqualified, List.mem_filter, List.mem_filter]
  simp [ho]

/-- Offsets that are not qualified in the new text are those that were neither qualified nor
violations. -/
theorem unqualified_moved
    (hdot : ∀ o, isQualified table' (move o) = (isQualified table o ||
      decide (o ∈ (tally ask file table qs).violations.map (·.offset)))) :
    unqualified table' (qs.map move) =
      ((unqualified table qs).filter fun o => (violationAt ask file table o).isNone).map move := by
  unfold unqualified
  rw [List.filter_map, List.filter_filter]
  congr 1
  refine List.filter_congr fun o ho => ?_
  have hv := @mem_violations_iff ask file table qs o ho
  rw [Function.comp, hdot o]
  cases hq : isQualified table o <;> cases hs : violationAt ask file table o <;>
    simp_all

/-- Failures are not at violations, so all of them are left. -/
theorem failures_moved (hask : ∀ o, ask' (move o) = ask o) (os : List Nat) :
    ((os.filter fun o => (violationAt ask file table o).isNone).map move).filterMap
        (failureAt ask' file) =
      (os.filterMap (failureAt ask file)).map (moveFailure move) := by
  rw [List.filterMap_map, List.filterMap_filter, List.map_filterMap]
  refine List.filterMap_congr fun o _ => ?_
  rw [Function.comp, failureAt_moved hask]
  split
  · rfl
  · rename_i hv
    unfold violationAt at hv
    unfold failureAt
    cases ha : ask o with
    | ok cursor => rfl
    | error e =>
      rw [ha] at hv
      exact absurd rfl hv

/-- If violations become qualified and nothing else changes, there are none in the new text. -/
theorem tally_violations_moved (hask : ∀ o, ask' (move o) = ask o)
    (hdot : ∀ o, isQualified table' (move o) = (isQualified table o ||
      decide (o ∈ (tally ask file table qs).violations.map (·.offset))))
    (hpast : ∀ o, size table.text < o → size table'.text < move o) :
    (tally ask' file table' (qs.map move)).violations = [] := by
  rw [tally, unqualified_moved hdot, List.filterMap_map, List.filterMap_eq_nil_iff]
  intro o ho
  rw [List.mem_filter, Option.isNone_iff_eq_none] at ho
  exact violationAt_moved hask file (hpast o) ho.2

/-- Each violation becomes one more qualified reference. -/
theorem tally_qualified_moved
    (hdot : ∀ o, isQualified table' (move o) = (isQualified table o ||
      decide (o ∈ (tally ask file table qs).violations.map (·.offset)))) :
    (tally ask' file table' (qs.map move)).alreadyQualified =
      (tally ask file table qs).alreadyQualified + (tally ask file table qs).violations.length := by
  have hnew := length_qualified table' (qs.map move)
  rw [unqualified_moved hdot, List.length_map, List.length_map] at hnew
  have hold := length_qualified table qs
  have hsplit := List.length_eq_length_filter_add (l := unqualified table qs)
    fun o => (violationAt ask file table o).isSome
  rw [← violations_offset, List.length_map] at hsplit
  simp only [Option.not_isSome] at hsplit
  simp only [tally]
  omega

end

/-! ## The overwritten text -/

section
variable {text : List Char} {vs : List Violation} {applied : Source.Applied}

/-- A violation stands after a dot in the new text, and any other offset if it did in the old. -/
theorem isQualified_shifted
    (h : Source.applyInsertions text (insertions vs) = .ok applied) (o : Nat) :
    isQualified (.ofText applied.text) (shifted vs o) =
      (isQualified (.ofText text) o || decide (o ∈ vs.map (·.offset))) := by
  obtain ⟨hn, hb, htext⟩ := of_applyInsertions_insertions h
  unfold isQualified
  rw [htext, shifted_eq_added hn, charBefore?_splice (fits_selfMark hb)]
  by_cases ho : o ∈ vs.map (·.offset)
  · have hmark : selfMark (vs.map (·.offset)) o = selfText := if_pos ho
    rw [hmark, decide_eq_true ho, Bool.or_true]
    rfl
  · have hmark : selfMark (vs.map (·.offset)) o = [] := if_neg ho
    rw [if_pos hmark, decide_eq_false ho, Bool.or_false]

/-- What was past the end of the old text is past the end of the new one. -/
theorem size_lt_shifted
    (h : Source.applyInsertions text (insertions vs) = .ok applied) {o : Nat} (ho : size text < o) :
    size applied.text < shifted vs o := by
  obtain ⟨hn, hb, htext⟩ := of_applyInsertions_insertions h
  rw [htext, size_splice (fits_selfMark hb), ← shifted_eq_added hn]
  exact shifted_lt ho

end

/-- Overwriting converges in one pass. In the new text, with the candidates moved and a service that
answers as before, there is no violation, each failure is left, and each violation has become a
qualified reference. -/
theorem classify_overwritten {ask : Nat → Except Service.Error Service.Cursor}
    (hask : NeverGone ask) (file : Path) (text : List Char) (candidates : List Index.Candidate) :
    ∃ c, (classify ask file (.ofText text) candidates).result = .ok c ∧
      ∀ applied, Source.applyInsertions text (insertions c.violations) = .ok applied →
      ∀ ask' : Nat → Except Service.Error Service.Cursor,
        (∀ o, ask' (shifted c.violations o) = ask o) →
        ∃ c', (classify ask' file (.ofText applied.text)
            (candidates.map fun x => { x with offset := shifted c.violations x.offset })).result =
              .ok c' ∧
          c'.violations = [] ∧
          c'.failures = c.failures.map (moveFailure (shifted c.violations)) ∧
          c'.alreadyQualified = c.alreadyQualified + c.violations.length := by
  let c := tally ask file (.ofText text) (firsts [] (candidates.map (·.offset)))
  refine ⟨c, classify_result file _ candidates fun x _ => hask x.offset, ?_⟩
  intro applied happly ask' hask'
  have hdot := isQualified_shifted happly
  have hpast := fun o => @size_lt_shifted text c.violations applied happly o
  have hmoved : firsts [] ((candidates.map fun x =>
        { x with offset := shifted c.violations x.offset }).map (·.offset)) =
      (firsts [] (candidates.map (·.offset))).map (shifted c.violations) := by
    rw [← firsts_map (shifted_injective c.violations), List.map_nil, List.map_map, List.map_map]
    rfl
  have hresult := classify_result file (.ofText applied.text) (candidates.map fun x =>
      { x with offset := shifted c.violations x.offset }) (fun x hx e he => by
    obtain ⟨y, _, rfl⟩ := List.mem_map.1 hx
    exact hask y.offset e ((hask' _).symm.trans he))
  rw [hmoved] at hresult
  refine ⟨_, hresult, tally_violations_moved hask' hdot hpast, ?_, tally_qualified_moved hdot⟩
  rw [tally, unqualified_moved hdot, failures_moved hask']
  rfl

/-! One reference after a dot, one at fault that occurs twice, and one that is not answered. -/

def mixedAnswers (unanswered o : Nat) : Except Service.Error Service.Cursor :=
  if o = unanswered then .error (.decode "cursorinfo") else .ok { kind := some Index.propertyKind }

theorem neverGone_mixedAnswers (unanswered : Nat) : NeverGone (mixedAnswers unanswered) := by
  intro o e h
  unfold mixedAnswers at h
  split at h
  · cases h; rfl
  · cases h

theorem classify_overwritten_mixed :
    NeverGone (mixedAnswers 7) ∧
    ∃ c, (classify (mixedAnswers 12) "/A" (.ofText "é.x self.x y".toList)
        [⟨3, .property⟩, ⟨10, .property⟩, ⟨10, .method⟩, ⟨12, .property⟩]).result = .ok c ∧
      c.violations = [] ∧
      c.failures = [.classification "/A" 12 "cannot decode cursorinfo response"] ∧
      c.alreadyQualified = 2 := by
  refine ⟨neverGone_mixedAnswers 7, ?_⟩
  obtain ⟨c, hc, hnext⟩ := classify_overwritten (neverGone_mixedAnswers 7) "/A" "é.x x y".toList
    [⟨3, .property⟩, ⟨5, .property⟩, ⟨5, .method⟩, ⟨7, .property⟩]
  have hold : (classify (mixedAnswers 7) "/A" (.ofText "é.x x y".toList)
      [⟨3, .property⟩, ⟨5, .property⟩, ⟨5, .method⟩, ⟨7, .property⟩]).result =
        .ok ⟨[⟨"/A", 5, 1, 6⟩],
          [.classification "/A" 7 "cannot decode cursorinfo response"], 1, 2⟩ := rfl
  rw [hold] at hc
  cases hc
  have happly : Source.applyInsertions "é.x x y".toList (insertions [⟨"/A", 5, 1, 6⟩]) =
      .ok ⟨"é.x self.x y".toList, _⟩ :=
    applyInsertions_insertions (by decide) (by decide)
  refine hnext _ happly (mixedAnswers 12) fun o => ?_
  have hmove : shifted [⟨"/A", 5, 1, 6⟩] o = 12 ↔ o = 7 := by
    unfold shifted
    by_cases h : 5 ≤ o
    · simp [h]
    · simp [h]
      omega
  unfold mixedAnswers
  simp only [hmove]

end ExplicitSelf.Lint
