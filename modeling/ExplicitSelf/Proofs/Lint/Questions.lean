import ExplicitSelf.Proofs.Lint.Lacking

/-!
# What the service is asked, and until when

The `questions` of an inquiry are the offsets that it has to ask about: the offsets without
repetitions, in the order of their first occurrence, and of these the ones without a dot in front.
An inquiry asks them in order. It ends with the first fatal answer, and if there is none, each
question is a violation, a failure or neither by its own answer.

Results:
* `firsts_eq_eraseDups`: what an inquiry has not seen yet are the first occurrences.
* `untilFatal_eq_self`, `untilFatal_append`: how far an inquiry gets.
* `listed_violations`, `listed_failures`: which questions become violations and failures.
* `classify_questions`: all that an inquiry asks and answers.
-/
namespace ExplicitSelf.Lint

open Source (LineTable)
open Text (size)

/-! ## Questions -/

/-- The offsets that have to be asked about. -/
def questions (table : LineTable) (os : List Nat) : List Nat :=
  os.eraseDups.filter fun o => table.charBefore? o ≠ some '.'

theorem firsts_eq_eraseDups (seen os : List Nat) :
    firsts seen os = (os.filter fun o => !seen.contains o).eraseDups := by
  induction os generalizing seen with
  | nil => rfl
  | cons o os ih =>
    rw [firsts, List.filter_cons]
    split
    · rename_i hseen
      simp only [hseen, Bool.not_true, Bool.false_eq_true, if_false]
      exact ih seen
    · rename_i hseen
      simp only [hseen, Bool.not_false, if_true]
      rw [List.eraseDups_cons, ih, List.filter_filter]
      congr 3
      funext p
      by_cases hp : p = o <;> simp [hp]

theorem unqualified_firsts (table : LineTable) (os : List Nat) :
    unqualified table (firsts [] os) = questions table os := by
  have hall : os.filter (fun o => !([] : List Nat).contains o) = os := by simp
  rw [firsts_eq_eraseDups, hall, unqualified, questions]
  congr 1
  funext o
  simp [isQualified]

theorem nodup_questions (table : LineTable) (os : List Nat) : (questions table os).Nodup := by
  rw [← unqualified_firsts]
  exact (nodup_firsts [] os).filter _

/-- The first occurrences are as many as there are different offsets. -/
theorem length_firsts (os : List Nat) : (firsts [] os).length = os.toFinset.card := by
  rw [← List.toFinset_card_of_nodup (nodup_firsts [] os)]
  congr 1
  ext o
  simp [mem_firsts]

/-! ## Up to a fatal answer -/

section
variable {ask : Nat → Except Service.Error Service.Cursor}

/-- The answer says that the service is gone. -/
def IsFatalAnswer (answer : Except Service.Error Service.Cursor) : Prop :=
  ∃ e, answer = .error e ∧ e.isFatal = true

theorem fatalAt_eq_some_iff {o : Nat} {e : Service.Error} :
    fatalAt ask o = some e ↔ ask o = .error e ∧ e.isFatal = true := by
  unfold fatalAt
  cases ask o with
  | ok cursor => simp
  | error e' =>
    simp only [Option.ite_none_right_eq_some, Option.some.injEq, Except.error.injEq]
    grind

theorem fatalAt_eq_none_iff_not {o : Nat} : fatalAt ask o = none ↔ ¬IsFatalAnswer (ask o) := by
  rw [fatalAt_eq_none_iff]
  simp [IsFatalAnswer]

theorem untilFatal_eq_self {os : List Nat} (h : ∀ o ∈ os, fatalAt ask o = none) :
    untilFatal ask os = os := by
  induction os with
  | nil => rfl
  | cons o os ih =>
    rw [untilFatal, h o (.head _), ih fun p hp => h p (.tail _ hp)]
    rfl

theorem untilFatal_append {before after : List Nat} {o : Nat} {e : Service.Error}
    (h : ∀ p ∈ before, fatalAt ask p = none) (ho : fatalAt ask o = some e) :
    untilFatal ask (before ++ o :: after) = before ++ [o] := by
  induction before with
  | nil => simp [untilFatal, ho]
  | cons p before ih =>
    rw [List.cons_append, untilFatal, h p (.head _), ih fun q hq => h q (.tail _ hq)]
    rfl

theorem untilFatal_prefix_self (ask : Nat → Except Service.Error Service.Cursor) (os : List Nat) :
    untilFatal ask os <+: os := by
  induction os with
  | nil => exact List.prefix_rfl
  | cons o os ih =>
    rw [untilFatal]
    split
    · exact ⟨os, rfl⟩
    · exact (List.prefix_cons_inj o).2 ih

end

/-! ## Violations and failures -/

/-- The entries `ys` are about the chosen offsets among `qs`, one about each and in their order. -/
def Listed {β : Type} (qs : List Nat) (Chosen : Nat → Prop) (About : Nat → β → Prop) (ys : List β) :
    Prop :=
  ∃ os, os.Sublist qs ∧ (∀ o, o ∈ os ↔ o ∈ qs ∧ Chosen o) ∧ List.Forall₂ About os ys

theorem listed_filterMap {β : Type} {Chosen : Nat → Prop} {About : Nat → β → Prop}
    {f : Nat → Option β} (qs : List Nat) (hchosen : ∀ o, Chosen o ↔ ∃ y, f o = some y)
    (habout : ∀ o y, f o = some y → About o y) : Listed qs Chosen About (qs.filterMap f) := by
  induction qs with
  | nil => exact ⟨[], .slnil, by simp, .nil⟩
  | cons q qs ih =>
    obtain ⟨os, hsub, hmem, hlist⟩ := ih
    cases hq : f q with
    | none =>
      rw [List.filterMap_cons_none hq]
      refine ⟨os, hsub.cons q, fun o => ?_, hlist⟩
      have hnot : ¬Chosen q := by
        rw [hchosen, hq]
        simp
      rw [hmem, List.mem_cons]
      constructor
      · exact fun h => ⟨.inr h.1, h.2⟩
      · rintro ⟨rfl | ho, hc⟩
        · exact absurd hc hnot
        · exact ⟨ho, hc⟩
    | some y =>
      rw [List.filterMap_cons_some hq]
      refine ⟨q :: os, hsub.cons_cons q, fun o => ?_, .cons (habout q y hq) hlist⟩
      have hc : Chosen q := (hchosen q).2 ⟨y, hq⟩
      rw [List.mem_cons, hmem, List.mem_cons]
      constructor
      · rintro (rfl | h)
        · exact ⟨.inl rfl, hc⟩
        · exact ⟨.inr h.1, h.2⟩
      · rintro ⟨rfl | ho, h⟩
        · exact .inl rfl
        · exact .inr ⟨ho, h⟩

section
variable (ask : Nat → Except Service.Error Service.Cursor) (file : Path) (table : LineTable)

theorem exists_violationAt_iff (o : Nat) :
    (o ≤ size table.text ∧ FindsMember (ask o)) ↔ ∃ v, violationAt ask file table o = some v := by
  by_cases ho : o ≤ size table.text
  · rw [violationAt_eq ask file table ho, ← findsMember_iff]
    by_cases hf : findsMember (ask o) = true <;> simp [ho, hf]
  · have hpast : table.lineColumn? o = none := by
      rw [LineTable.lineColumn?, if_pos (by omega)]
    have hnone : violationAt ask file table o = none := by
      unfold violationAt violation?
      cases ask o with
      | error e => rfl
      | ok cursor => simp [hpast]
    simp [ho, hnone]

theorem violationAt_position {o : Nat} {v : Violation} (h : violationAt ask file table o = some v) :
    ∃ p, table.lineColumn? o = some p ∧ v = ⟨file, o, p.line, p.column⟩ := by
  have ho := ((exists_violationAt_iff ask file table o).2 ⟨v, h⟩).1
  obtain ⟨p, hp⟩ := table.exists_lineColumn? ho
  refine ⟨p, hp, ?_⟩
  rw [violationAt_eq ask file table ho, violationOf_eq file hp] at h
  split at h
  · exact (Option.some.inj h).symm
  · cases h

/-- The violations are about the questions in the text at which the service finds a member. -/
theorem listed_violations (qs : List Nat) :
    Listed qs (fun o => o ≤ size table.text ∧ FindsMember (ask o))
      (fun o v => ∃ p, table.lineColumn? o = some p ∧ v = ⟨file, o, p.line, p.column⟩)
      (qs.filterMap (violationAt ask file table)) :=
  listed_filterMap qs (exists_violationAt_iff ask file table) fun _ _ =>
    violationAt_position ask file table

/-- The failures are about the questions that are answered with an error. -/
theorem listed_failures (qs : List Nat) :
    Listed qs (fun o => ∃ e, ask o = .error e)
      (fun o f => ∃ e, ask o = .error e ∧ f = Error.classification file o e.message)
      (qs.filterMap (failureAt ask file)) := by
  refine listed_filterMap qs (fun o => ?_) fun o f h => ?_
  · unfold failureAt
    cases ask o <;> simp
  · unfold failureAt at h
    cases hanswer : ask o with
    | ok cursor =>
      rw [hanswer] at h
      cases h
    | error e =>
      rw [hanswer] at h
      cases h
      exact ⟨e, rfl, rfl⟩

end

/-! ## The inquiry -/

section
variable {ask : Nat → Except Service.Error Service.Cursor} (file : Path) (table : LineTable)
  (candidates : List Index.Candidate)

theorem classify_spec (ask : Nat → Except Service.Error Service.Cursor) :
    (classify ask file table candidates).asked =
        untilFatal ask (questions table (candidates.map (·.offset))) ∧
      (classify ask file table candidates).result =
        findings ask file table (firsts [] (candidates.map (·.offset))) := by
  rw [← unqualified_firsts]
  exact inquire_spec ask file table [] _

/-- Without a fatal answer all questions are asked, and they and the qualified offsets are all there
are. -/
theorem classify_unbroken
    (h : ∀ o ∈ questions table (candidates.map (·.offset)), ¬IsFatalAnswer (ask o)) :
    (classify ask file table candidates).asked = questions table (candidates.map (·.offset)) ∧
      ∃ c, (classify ask file table candidates).result = .ok c ∧
        c.violations = (questions table (candidates.map (·.offset))).filterMap
          (violationAt ask file table) ∧
        c.failures = (questions table (candidates.map (·.offset))).filterMap (failureAt ask file) ∧
        c.queries = (questions table (candidates.map (·.offset))).length ∧
        c.alreadyQualified + c.queries = (candidates.map (·.offset)).toFinset.card := by
  have hnone := fun o ho => fatalAt_eq_none_iff_not.2 (h o ho)
  have hasked := (classify_spec file table candidates ask).1
  have hresult := inquire_result file table [] (candidates.map (·.offset)) fun o ho =>
    fatalAt_eq_none_iff.1 (hnone o (by rwa [← unqualified_firsts]))
  refine ⟨hasked.trans (untilFatal_eq_self hnone), _, hresult, ?_, ?_, ?_, ?_⟩
  · rw [tally, unqualified_firsts]
  · rw [tally, unqualified_firsts]
  · rw [tally, unqualified_firsts]
  · rw [← length_firsts, length_qualified table]
    rfl

/-- The first fatal answer is the result, and its question is the last that is asked. -/
theorem classify_broken
    (h : ∃ o ∈ questions table (candidates.map (·.offset)), IsFatalAnswer (ask o)) :
    ∃ before o after e, questions table (candidates.map (·.offset)) = before ++ o :: after ∧
      (∀ p ∈ before, ¬IsFatalAnswer (ask p)) ∧ ask o = .error e ∧ e.isFatal = true ∧
      (classify ask file table candidates).asked = before ++ [o] ∧
      (classify ask file table candidates).result = .error e := by
  obtain ⟨hasked, hresult⟩ := classify_spec file table candidates ask
  obtain ⟨q, hq, e', he'⟩ := h
  have hsome : ((questions table (candidates.map (·.offset))).findSome? (fatalAt ask)).isSome =
      true := by
    rw [List.findSome?_isSome_iff]
    exact ⟨q, hq, by rw [fatalAt_eq_some_iff.2 he']; rfl⟩
  obtain ⟨e, hfirst⟩ := Option.isSome_iff_exists.1 hsome
  rw [findings, unqualified_firsts, hfirst] at hresult
  obtain ⟨before, o, after, hsplit, ho, hbefore⟩ := List.findSome?_eq_some_iff.1 hfirst
  obtain ⟨hanswer, hfatal⟩ := fatalAt_eq_some_iff.1 ho
  rw [hsplit, untilFatal_append hbefore ho] at hasked
  exact ⟨before, o, after, e, hsplit, fun p hp => fatalAt_eq_none_iff_not.1 (hbefore p hp), hanswer,
    hfatal, hasked, hresult⟩

end

/-- Without a fatal answer all questions are asked in order, and each counts by its own answer. With
one, the first of them is the result, and its question is the last that is asked. Nothing is asked
twice, and nothing about an offset after a dot. -/
theorem classify_questions (ask : Nat → Except Service.Error Service.Cursor) (file : Path)
    (text : List Char) (candidates : List Index.Candidate) :
    let table := LineTable.ofText text
    let qs := questions table (candidates.map (·.offset))
    let inquiry := classify ask file table candidates
    ((∀ o ∈ qs, ¬IsFatalAnswer (ask o)) →
      inquiry.asked = qs ∧ ∃ c, inquiry.result = .ok c ∧
        Listed qs (fun o => o ≤ size text ∧ FindsMember (ask o))
          (fun o v => ∃ p, table.lineColumn? o = some p ∧
            v = ⟨file, o, p.line, p.column⟩) c.violations ∧
        Listed qs (fun o => ∃ e, ask o = .error e)
          (fun o f => ∃ e, ask o = .error e ∧ f = .classification file o e.message) c.failures ∧
        c.queries = qs.length ∧
        c.alreadyQualified + c.queries = (candidates.map (·.offset)).toFinset.card) ∧
    ((∃ o ∈ qs, IsFatalAnswer (ask o)) →
      ∃ before o after e, qs = before ++ o :: after ∧ (∀ p ∈ before, ¬IsFatalAnswer (ask p)) ∧
        ask o = .error e ∧ e.isFatal = true ∧
        inquiry.asked = before ++ [o] ∧ inquiry.result = .error e) ∧
    inquiry.asked.Nodup ∧ ∀ o ∈ inquiry.asked, table.charBefore? o ≠ some '.' := by
  intro table qs inquiry
  have hfront : inquiry.asked <+: qs := by
    rw [(classify_spec file table candidates ask).1]
    exact untilFatal_prefix_self ask qs
  refine ⟨fun hnone => ?_, classify_broken file table candidates,
    hfront.sublist.nodup (nodup_questions _ _), fun o ho => ?_⟩
  · obtain ⟨hasked, c, hc, hviolations, hfailures, hcounts⟩ :=
      classify_unbroken file table candidates hnone
    refine ⟨hasked, c, hc, ?_, ?_, hcounts⟩
    · rw [hviolations]
      exact listed_violations ask file table qs
    · rw [hfailures]
      exact listed_failures ask file qs
  · simpa using (List.mem_filter.1 (hfront.subset ho)).2

/-! One reference after a dot, one that occurs twice, one past the end of the text, and one behind
it. -/

def scatteredCandidates : List Index.Candidate :=
  [⟨3, .property⟩, ⟨5, .property⟩, ⟨5, .method⟩, ⟨40, .property⟩, ⟨7, .method⟩]

/-- Finds a property everywhere, but is gone from an offset on. -/
def goneFrom (gone o : Nat) : Except Service.Error Service.Cursor :=
  if gone ≤ o then .error (.unavailable "gone") else .ok { kind := some Index.propertyKind }

theorem classify_questions_scattered :
    (classify (goneFrom 50) "/A" (.ofText "é.x x y".toList) scatteredCandidates).asked =
      [5, 40, 7] ∧
      ∃ e, (classify (goneFrom 6) "/A" (.ofText "é.x x y".toList) scatteredCandidates).result =
        .error e ∧
        e.isFatal = true := by
  have hqs : questions (.ofText "é.x x y".toList) (scatteredCandidates.map (·.offset)) =
      [5, 40, 7] := by
    decide
  refine ⟨?_, ?_⟩
  · have hquestions := (classify_questions (goneFrom 50) "/A" "é.x x y".toList
      scatteredCandidates).1
    refine (hquestions fun o ho => ?_).1.trans hqs
    rw [hqs] at ho
    rintro ⟨e, he, -⟩
    have hlt : ¬50 ≤ o := by
      simp only [List.mem_cons, List.not_mem_nil, or_false] at ho
      omega
    rw [goneFrom, if_neg hlt] at he
    cases he
  · obtain ⟨before, o, after, e, -, -, -, hfatal, -, hresult⟩ :=
      (classify_questions (goneFrom 6) "/A" "é.x x y".toList scatteredCandidates).2.1
        ⟨40, by rw [hqs]; decide, .unavailable "gone", rfl, rfl⟩
    exact ⟨e, hresult, hfatal⟩

end ExplicitSelf.Lint
