import ExplicitSelf.Lint.Classify
import Mathlib.Data.List.Basic

/-!
# What an inquiry finds, offset by offset

`inquire` goes over the offsets once and keeps those it has seen. What it finds can be read off the
first occurrences of the offsets (`firsts`), each by itself: an offset after a dot is qualified, any
other is asked about, and the answer decides what it is. The first answer that the service is gone
ends the inquiry.

Results:
* `mem_firsts`, `nodup_firsts`, `firsts_map`: the first occurrences are the offsets without
  repetitions, and moving all offsets moves them too.
* `inquire_spec`: what an inquiry asks and finds, up to the first fatal answer.
* `inquire_result`: without one, the result is the `tally` of the first occurrences.
* `inquire_file`: the violations of an inquiry are in its file.
-/
namespace ExplicitSelf.Lint

open Source (LineTable)

/-! ## First occurrences -/

/-- The offsets in the order of their first occurrence, without those that were `seen`. -/
def firsts : (seen os : List Nat) → List Nat
  | _, [] => []
  | seen, o :: os => if seen.contains o then firsts seen os else o :: firsts (o :: seen) os

theorem mem_firsts {o : Nat} {seen os : List Nat} : o ∈ firsts seen os ↔ o ∈ os ∧ o ∉ seen := by
  induction os generalizing seen with
  | nil => simp [firsts]
  | cons p os ih =>
    rw [firsts]
    split
    · rename_i hp
      rw [List.contains_iff_mem] at hp
      rw [ih, List.mem_cons]
      constructor
      · rintro ⟨h1, h2⟩; exact ⟨.inr h1, h2⟩
      · rintro ⟨rfl | h1, h2⟩
        · exact absurd hp h2
        · exact ⟨h1, h2⟩
    · rename_i hp
      rw [List.contains_iff_mem] at hp
      rw [List.mem_cons, ih, List.mem_cons, List.mem_cons]
      constructor
      · rintro (rfl | ⟨h1, h2⟩)
        · exact ⟨.inl rfl, hp⟩
        · exact ⟨.inr h1, fun h => h2 (.inr h)⟩
      · rintro ⟨h1, h2⟩
        by_cases he : o = p
        · exact .inl he
        · refine .inr ⟨h1.resolve_left he, ?_⟩
          rintro (h | h)
          · exact he h
          · exact h2 h

theorem nodup_firsts (seen os : List Nat) : (firsts seen os).Nodup := by
  induction os generalizing seen with
  | nil => exact List.nodup_nil
  | cons p os ih =>
    rw [firsts]
    split
    · exact ih seen
    · rw [List.nodup_cons]
      refine ⟨fun h => ?_, ih (p :: seen)⟩
      exact (mem_firsts.1 h).2 (List.mem_cons_self)

/-- Moving offsets apart from each other moves their first occurrences. -/
theorem firsts_map {f : Nat → Nat} (hf : Function.Injective f) (seen os : List Nat) :
    firsts (seen.map f) (os.map f) = (firsts seen os).map f := by
  induction os generalizing seen with
  | nil => rfl
  | cons p os ih =>
    have hc : (seen.map f).contains (f p) = seen.contains p := by
      rw [Bool.eq_iff_iff, List.contains_iff_mem, List.contains_iff_mem,
        List.mem_map_of_injective hf]
    rw [List.map_cons, firsts, firsts, hc]
    split
    · exact ih seen
    · rw [List.map_cons, ← ih (p :: seen), List.map_cons]

/-! ## The tally -/

/-- Whether a dot stands before an offset. -/
def isQualified (table : LineTable) (o : Nat) : Bool :=
  table.charBefore? o = some '.'

section
variable (ask : Nat → Except Service.Error Service.Cursor) (file : Path) (table : LineTable)

/-- The violation at an offset that the service is asked about. -/
def violationAt (o : Nat) : Option Violation :=
  match ask o with
  | .ok cursor => violation? file table o cursor
  | .error _ => none

/-- The failure at an offset that the service is asked about. -/
def failureAt (o : Nat) : Option Error :=
  match ask o with
  | .ok _ => none
  | .error e => some (.classification file o e.message)

/-- The offsets that the service is asked about. -/
def unqualified (os : List Nat) : List Nat :=
  os.filter fun o => !isQualified table o

/-- Each offset is either qualified or asked about. -/
theorem length_qualified (os : List Nat) :
    os.length = (os.filter (isQualified table)).length + (unqualified table os).length :=
  List.length_eq_length_filter_add _

/-- What is found at offsets, each by itself. -/
def tally (os : List Nat) : Classification where
  violations := (unqualified table os).filterMap (violationAt ask file table)
  failures := (unqualified table os).filterMap (failureAt ask file)
  alreadyQualified := (os.filter (isQualified table)).length
  queries := (unqualified table os).length

theorem tally_cons_qualified {o : Nat} (os : List Nat) (h : isQualified table o = true) :
    tally ask file table (o :: os) =
      { tally ask file table os with
        alreadyQualified := (tally ask file table os).alreadyQualified + 1 } := by
  simp [tally, unqualified, h]

theorem tally_cons_unqualified {o : Nat} (os : List Nat) (h : isQualified table o = false) :
    tally ask file table (o :: os) =
      { tally ask file table os with
        violations := (violationAt ask file table o).toList ++ (tally ask file table os).violations
        failures := (failureAt ask file o).toList ++ (tally ask file table os).failures
        queries := (tally ask file table os).queries + 1 } := by
  simp only [tally, unqualified, h, List.filter_cons, Bool.not_false, if_true,
    List.filterMap_cons, List.length_cons, Bool.false_eq_true, if_false]
  cases violationAt ask file table o <;> cases failureAt ask file o <;> rfl

/-! ## The first fatal answer -/

/-- The error of an offset at which the service is gone. -/
def fatalAt (o : Nat) : Option Service.Error :=
  match ask o with
  | .ok _ => none
  | .error e => if e.isFatal then some e else none

/-- The offsets up to and including the first at which the service is gone. -/
def untilFatal : List Nat → List Nat
  | [] => []
  | o :: os => if (fatalAt ask o).isSome then [o] else o :: untilFatal os

/-- What is known about offsets, each by itself: the first fatal error, or else the tally. -/
def findings (os : List Nat) : Except Service.Error Classification :=
  match (unqualified table os).findSome? (fatalAt ask) with
  | some e => .error e
  | none => .ok (tally ask file table os)

theorem findings_cons_qualified {o : Nat} (os : List Nat) (h : isQualified table o = true) :
    findings ask file table (o :: os) = (findings ask file table os).map fun c =>
      { c with alreadyQualified := c.alreadyQualified + 1 } := by
  have hskip : unqualified table (o :: os) = unqualified table os := by simp [unqualified, h]
  rw [findings, findings, hskip, tally_cons_qualified ask file table os h]
  cases (unqualified table os).findSome? (fatalAt ask) <;> rfl

theorem unqualified_cons {o : Nat} (os : List Nat) (h : isQualified table o = false) :
    unqualified table (o :: os) = o :: unqualified table os := by
  simp [unqualified, h]

theorem findings_cons_asked {o : Nat} (os : List Nat) (h : isQualified table o = false)
    (hgone : fatalAt ask o = none) :
    findings ask file table (o :: os) = (findings ask file table os).map fun c =>
      { c with
        violations := (violationAt ask file table o).toList ++ c.violations
        failures := (failureAt ask file o).toList ++ c.failures
        queries := c.queries + 1 } := by
  rw [findings, findings, unqualified_cons table os h, List.findSome?_cons, hgone,
    tally_cons_unqualified ask file table os h]
  cases (unqualified table os).findSome? (fatalAt ask) <;> rfl

theorem findings_cons_fatal {o : Nat} {e : Service.Error} (os : List Nat)
    (h : isQualified table o = false) (hgone : fatalAt ask o = some e) :
    findings ask file table (o :: os) = .error e := by
  rw [findings, unqualified_cons table os h, List.findSome?_cons, hgone]

end

/-- An inquiry asks about the first occurrences that are not qualified, until the service is gone,
and its result is the findings about the first occurrences. -/
theorem inquire_spec (ask : Nat → Except Service.Error Service.Cursor) (file : Path)
    (table : LineTable) (seen os : List Nat) :
    (inquire ask file table seen os).asked = untilFatal ask (unqualified table (firsts seen os)) ∧
      (inquire ask file table seen os).result = findings ask file table (firsts seen os) := by
  induction os generalizing seen with
  | nil => exact ⟨rfl, rfl⟩
  | cons o os ih =>
    rw [inquire, firsts]
    split
    · exact ih seen
    · obtain ⟨hasked, hresult⟩ := ih (o :: seen)
      split
      · rename_i hdot
        have hq : isQualified table o = true := by simpa [isQualified] using hdot
        refine ⟨?_, ?_⟩
        · simpa [Inquiry.qualified, unqualified, hq] using hasked
        · rw [findings_cons_qualified ask file table _ hq, ← hresult]
          rfl
      · rename_i hdot
        have hq : isQualified table o = false := by simpa [isQualified] using hdot
        rw [unqualified_cons table _ hq, untilFatal]
        cases hanswer : ask o with
        | ok cursor =>
          have hgone : fatalAt ask o = none := by rw [fatalAt, hanswer]
          refine ⟨?_, ?_⟩
          · simp [Inquiry.answered, hasked, hgone]
          · rw [findings_cons_asked ask file table _ hq hgone, ← hresult, violationAt, failureAt,
              hanswer]
            rfl
        | error e =>
          cases he : e.isFatal with
          | false =>
            have hgone : fatalAt ask o = none := by simp [fatalAt, hanswer, he]
            simp only [he, Bool.false_eq_true, if_false]
            refine ⟨?_, ?_⟩
            · simp [Inquiry.failed, hasked, hgone]
            · rw [findings_cons_asked ask file table _ hq hgone, ← hresult, violationAt, failureAt,
                hanswer]
              rfl
          | true =>
            have hgone : fatalAt ask o = some e := by simp [fatalAt, hanswer, he]
            simp only [he, if_true]
            refine ⟨?_, ?_⟩
            · simp [Inquiry.fatal, hgone]
            · rw [findings_cons_fatal ask file table _ hq hgone]
              rfl

theorem fatalAt_eq_none_iff {ask : Nat → Except Service.Error Service.Cursor} {o : Nat} :
    fatalAt ask o = none ↔ ∀ e, ask o = .error e → e.isFatal = false := by
  unfold fatalAt
  cases hanswer : ask o with
  | ok cursor => simp
  | error e => simp

/-- The result of an inquiry is the tally of its first occurrences, if the service is there for all
of them that it is asked about. -/
theorem inquire_result {ask : Nat → Except Service.Error Service.Cursor} (file : Path)
    (table : LineTable) (seen os : List Nat)
    (hask : ∀ o ∈ unqualified table (firsts seen os), ∀ e, ask o = .error e → e.isFatal = false) :
    (inquire ask file table seen os).result = .ok (tally ask file table (firsts seen os)) := by
  have hnone : (unqualified table (firsts seen os)).findSome? (fatalAt ask) = none :=
    List.findSome?_eq_none_iff.2 fun o ho => fatalAt_eq_none_iff.2 (hask o ho)
  rw [(inquire_spec ask file table seen os).2, findings, hnone]

theorem classify_result {ask : Nat → Except Service.Error Service.Cursor} (file : Path)
    (table : LineTable) (candidates : List Index.Candidate)
    (hask : ∀ c ∈ candidates, ∀ e, ask c.offset = .error e → e.isFatal = false) :
    (classify ask file table candidates).result =
      .ok (tally ask file table (firsts [] (candidates.map (·.offset)))) := by
  refine inquire_result file table [] _ fun o ho => ?_
  have hfirst := (mem_firsts.1 (List.mem_of_mem_filter ho)).1
  obtain ⟨c, hc, rfl⟩ := List.mem_map.1 hfirst
  exact hask c hc

/-- The service is never gone. -/
def NeverGone (ask : Nat → Except Service.Error Service.Cursor) : Prop :=
  ∀ o e, ask o = .error e → e.isFatal = false

/-! ## The file of a violation -/

theorem violation?_file {file : Path} {table : LineTable} {o : Nat} {cursor : Service.Cursor}
    {v : Violation} (h : violation? file table o cursor = some v) : v.file = file := by
  unfold violation? at h
  split at h
  · obtain ⟨p, _, rfl⟩ := Option.map_eq_some_iff.1 h
    rfl
  · cases h

theorem exists_of_map_eq_ok {ε α β : Type} {f : α → β} {x : Except ε α} {b : β}
    (h : x.map f = .ok b) : ∃ a, x = .ok a ∧ f a = b := by
  cases x with
  | error e => cases h
  | ok a => cases h; exact ⟨a, rfl, rfl⟩

/-- All violations of an inquiry are in its file. -/
theorem inquire_file {ask : Nat → Except Service.Error Service.Cursor} {file : Path}
    {table : LineTable} {seen os : List Nat} {c : Classification}
    (h : (inquire ask file table seen os).result = .ok c) : ∀ v ∈ c.violations, v.file = file := by
  induction os generalizing seen c with
  | nil => cases h; simp
  | cons o os ih =>
    rw [inquire] at h
    split at h
    · exact ih h
    · split at h
      · obtain ⟨c', hc', rfl⟩ := exists_of_map_eq_ok h
        exact fun v hv => ih hc' v hv
      · split at h
        · rename_i cursor _
          obtain ⟨c', hc', rfl⟩ := exists_of_map_eq_ok h
          intro v hv
          rcases List.mem_append.1 hv with hv | hv
          · exact violation?_file (Option.mem_toList.1 hv)
          · exact ih hc' v hv
        · split at h
          · cases h
          · obtain ⟨c', hc', rfl⟩ := exists_of_map_eq_ok h
            exact fun v hv => ih hc' v hv

end ExplicitSelf.Lint
