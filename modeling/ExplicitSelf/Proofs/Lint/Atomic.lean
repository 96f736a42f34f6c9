import ExplicitSelf.Lint.Overwrite
import ExplicitSelf.Proofs.FileTree.Replace
import ExplicitSelf.Proofs.FileTree.Links
import ExplicitSelf.Proofs.Lint.Insertions

/-!
# Overwriting is all or nothing

`overwrite` gives the files after it also when it fails, so that one can ask what is left. The
machine may refuse any call on the way.

**What is assumed of the machine.** For what is left, that it removes its temporary file when asked
to: whatever else is refused, a failure leaves the files as they were, and a success has replaced
one file. For the kind of the error, a machine that refuses a call gives a write error, so success
is decided by the content only where nothing is refused. The content is compared by digests, so a
collision of the two digests would let a changed file be overwritten. It is excluded where the
contents are compared, for these two and no others.

A path may lead to a file through a link. Then the link is replaced and not the file behind it,
which keeps its content, and so do all paths that lead to it by another way.

Results:
* `overwrite_attempt`: all that can happen.
* `overwritten_set`: what a success leaves.
* `overwrite_of_applied`: a success, if the machine refuses nothing.
* `overwrite_atomic`: failure and success, and which error comes first.
-/
namespace ExplicitSelf.Lint

open Source (applyInsertions splice)
open Text (encode)

/-- All that can happen when a file is overwritten, with the files and the answer after it. -/
inductive Attempt (t : FileTree) (path : Path) (before : String) (vs : List Violation) :
    FileTree × Except OverwriteError String → Prop
  | conflicting {cs : List Source.Conflict}
      (conflicts : applyInsertions before.toList (insertions vs) = .error cs) :
    Attempt t path before vs (t, .error (.apply path cs))
  | unread {applied : Source.Applied} {e : IoError}
      (happlied : applyInsertions before.toList (insertions vs) = .ok applied)
      (hread : t.reread path = .error e) :
    Attempt t path before vs (t, .error (.write path e))
  | changed {applied : Source.Applied} {content : Text.Octets}
      (happlied : applyInsertions before.toList (insertions vs) = .ok applied)
      (hread : t.reread path = .ok content)
      (hdigest : contentDigest (encode before.toList) ≠ contentDigest content) :
    Attempt t path before vs
      (t, .error (.changed path (contentDigest (encode before.toList)) (contentDigest content)))
  | refused {applied : Source.Applied} {content : Text.Octets} {c : Call} {e : IoError}
      (happlied : applyInsertions before.toList (insertions vs) = .ok applied)
      (hread : t.reread path = .ok content)
      (hdigest : contentDigest (encode before.toList) = contentDigest content)
      (hc : c ∈ FileTree.replacement) (he : t.machine.refuses c path = some e) :
    Attempt t path before vs (t, .error (.write path e))
  | done {applied : Source.Applied} {content : Text.Octets} {place : Place} {mode : Nat}
      (happlied : applyInsertions before.toList (insertions vs) = .ok applied)
      (hread : t.reread path = .ok content)
      (hdigest : contentDigest (encode before.toList) = contentDigest content)
      (hopen : ∀ c ∈ FileTree.replacement, t.machine.refuses c path = none)
      (hplace : t.resolve false path = .ok place) (hmode : t.mode path = .ok mode) :
    Attempt t path before vs
      (t.set place (.file (encode applied.text) mode t.now), .ok (.ofList applied.text))

theorem overwrite_attempt (t : FileTree) (path : Path) (before : String) (vs : List Violation) :
    Attempt t path before vs (overwrite t path before vs) := by
  unfold overwrite
  cases happlied : applyInsertions before.toList (insertions vs) with
  | error cs => exact .conflicting happlied
  | ok applied =>
    simp only
    cases hread : t.reread path with
    | error e => exact .unread happlied hread
    | ok content =>
      simp only
      by_cases hdigest : contentDigest (encode before.toList) = contentDigest content
      · rw [if_pos hdigest]
        rcases replace_cases (FileTree.content_of_reread hread) (encode applied.text) with
          ⟨hopen, place, mode, hplace, hmode, h⟩ | ⟨c, hc, e, he, h⟩
        · rw [h]
          exact .done happlied hread hdigest hopen hplace hmode
        · rw [h]
          exact .refused happlied hread hdigest hc he
      · rw [if_neg hdigest]
        exact .changed happlied hread hdigest

section
variable {t : FileTree} {path : Path} {before : String} {vs : List Violation}

theorem attempt_of_eq {r : FileTree × Except OverwriteError String}
    (h : overwrite t path before vs = r) : Attempt t path before vs r :=
  h ▸ overwrite_attempt t path before vs

theorem attempt_of_answer {r : Except OverwriteError String}
    (h : (overwrite t path before vs).2 = r) :
    Attempt t path before vs ((overwrite t path before vs).1, r) :=
  attempt_of_eq (Prod.ext rfl h)

/-- A file is not overwritten if any call for it is refused. -/
theorem overwrite_of_refused {c : Call} {e : IoError} (hc : c ∈ FileTree.replacement)
    (he : t.machine.refuses c path = some e) :
    ∃ e', overwrite t path before vs = (t, .error e') := by
  have h := overwrite_attempt t path before vs
  generalize overwrite t path before vs = r at h ⊢
  cases h with
  | done _ _ _ hopen _ _ =>
    rw [hopen c hc] at he
    cases he
  | _ => exact ⟨_, rfl⟩

end

/-! ## What a success leaves -/

/-- A file was overwritten with a new text, and nothing else was changed. -/
structure Overwritten (t t' : FileTree) (path : Path) (before : String) (vs : List Violation)
    (new : String) : Prop where
  /-- The new text has `self.` in front of each violation. -/
  text : new.toList = splice (selfMark (vs.map (·.offset))) 0 before.toList
  /-- The file has the new text. -/
  content : t'.content path = .ok (encode new.toList)
  /-- It has the mode that it had. -/
  mode : ∃ mode, t.mode path = .ok mode ∧ t'.mode path = .ok mode
  /-- Another entry is at one place only, and paths that do not lead there lead to what they led
  to. -/
  others : ∃ place, t.resolve false path = .ok place ∧
    (∀ q, q ≠ place → t'.entryAt? q = t.entryAt? q) ∧
    ∀ other, t'.resolve true other ≠ .ok place → ∀ e, t'.stat other = .ok e ↔ t.stat other = .ok e

theorem overwritten_set {t : FileTree} {path : Path} {old : Text.Octets}
    (hcontent : t.content path = .ok old) {before : String} {vs : List Violation}
    {applied : Source.Applied}
    (happlied : applyInsertions before.toList (insertions vs) = .ok applied) {place : Place}
    {mode : Nat} (hplace : t.resolve false path = .ok place) (hmode : t.mode path = .ok mode) :
    Overwritten t (t.set place (.file (encode applied.text) mode t.now)) path before vs
      (.ofList applied.text) := by
  obtain ⟨p, x, _, _, hp, _, _, hend⟩ := FileTree.exists_place_of_content hcontent
  rw [hplace] at hp
  cases hp
  have hset := t.entryAt_set place (.file (encode applied.text) mode t.now) hend.ne_nil
  refine ⟨?_, ?_, ⟨mode, hmode, ?_⟩, place, hplace, fun q hq => ?_, fun other hother e => ?_⟩
  · rw [String.toList_ofList]
    exact (of_applyInsertions_insertions happlied).2.2
  · rw [String.toList_ofList]
    exact FileTree.content_set_self hend hplace
  · have hstat := FileTree.stat_of_resolve (FileTree.resolve_set_self hend hplace true)
      ((hset place).trans (if_pos rfl))
    rw [FileTree.mode, hstat]
    rfl
  · rw [hset, if_neg hq]
  · exact FileTree.stat_set_iff hend hother e

/-- Insertions that can be applied to a file that still has the text are written to its place, if
the machine lets them. -/
theorem overwrite_of_applied {t : FileTree} {file : Path} {text : String} {vs : List Violation}
    {applied : Source.Applied}
    (happlied : applyInsertions text.toList (insertions vs) = .ok applied)
    (hcontent : t.content file = .ok (encode text.toList)) (hopen : t.Writable file) :
    ∃ p x mode, t.resolve false file = .ok p ∧ t.resolve true file = .ok x ∧ t.EndsAt p x ∧
      overwrite t file text vs =
        (t.set p (.file (encode applied.text) mode t.now), .ok (.ofList applied.text)) := by
  obtain ⟨p, x, mode, hp, hx, hend, hreplace⟩ := hopen.replace hcontent (encode applied.text)
  refine ⟨p, x, mode, hp, hx, hend, ?_⟩
  simp only [overwrite, happlied, hopen.reread, hcontent, if_true, hreplace]

/-! ## All or nothing -/

section
variable {t : FileTree} {path : Path} {before : String} {vs : List Violation}

theorem Attempt.tree_of_error {t' : FileTree} {e : OverwriteError}
    (h : Attempt t path before vs (t', .error e)) : t' = t := by
  cases h with
  | conflicting _ => rfl
  | unread _ _ => rfl
  | changed _ _ _ => rfl
  | refused _ _ _ _ _ => rfl

theorem Attempt.overwritten {t' : FileTree} {new : String}
    (h : Attempt t path before vs (t', .ok new)) : Overwritten t t' path before vs new := by
  cases h with
  | done happlied hread _ _ hplace hmode =>
    exact overwritten_set (FileTree.content_of_reread hread) happlied hplace hmode

theorem Attempt.conflicts_eq {t' : FileTree} {cs : List Source.Conflict}
    (h : Attempt t path before vs (t', .error (.apply path cs))) :
    applyInsertions before.toList (insertions vs) = .error cs := by
  cases h with
  | conflicting conflicts => exact conflicts

/-- Conflicts come first, whatever the machine has. -/
theorem error_apply_iff {cs : List Source.Conflict} :
    (overwrite t path before vs).2 = .error (.apply path cs) ↔
      applyInsertions before.toList (insertions vs) = .error cs := by
  constructor
  · intro h
    exact (attempt_of_answer h).conflicts_eq
  · intro h
    rw [overwrite, h]

variable {applied : Source.Applied} {content : Text.Octets}
  (happlied : applyInsertions before.toList (insertions vs) = .ok applied)
include happlied

theorem error_write_of_reread {e : IoError} (h : t.reread path = .error e) :
    (overwrite t path before vs).2 = .error (.write path e) := by
  simp only [overwrite, happlied, h]

/-- A file that can be read is found changed if its digest is another. -/
theorem error_changed_iff (hread : t.reread path = .ok content) :
    (∃ expected actual,
      (overwrite t path before vs).2 = .error (.changed path expected actual)) ↔
      contentDigest (encode before.toList) ≠ contentDigest content := by
  constructor
  · intro ⟨expected, actual, h⟩ hdigest
    simp only [overwrite, happlied, hread, if_pos hdigest] at h
    split at h <;> cases h
  · intro hdigest
    simp only [overwrite, happlied, hread, if_neg hdigest]
    exact ⟨_, _, rfl⟩

/-- With the same digest, it is overwritten or a call is refused. -/
theorem ok_or_refused (hread : t.reread path = .ok content)
    (hdigest : contentDigest (encode before.toList) = contentDigest content) :
    (∀ c ∈ FileTree.replacement, t.machine.refuses c path = none) ∧
      (∃ new, (overwrite t path before vs).2 = .ok new) ∨
    ∃ c ∈ FileTree.replacement, ∃ e, t.machine.refuses c path = some e ∧
      (overwrite t path before vs).2 = .error (.write path e) := by
  rcases replace_cases (FileTree.content_of_reread hread) (encode applied.text) with
    ⟨hopen, place, mode, _, _, h⟩ | ⟨c, hc, e, he, h⟩
  · refine .inl ⟨hopen, .ofList applied.text, ?_⟩
    simp only [overwrite, happlied, hread, if_pos hdigest, h]
  · refine .inr ⟨c, hc, e, he, ?_⟩
    simp only [overwrite, happlied, hread, if_pos hdigest, h]

end

/-- Whatever calls the machine refuses, an error leaves the files as they were. A success has put
`self.` in front of each violation of this file and changed nothing else. Conflicts come first, then
files that cannot be read, then files that were changed, then calls that are refused. -/
theorem overwrite_atomic (t : FileTree) (path : Path) (before : String) (vs : List Violation) :
    (∀ e, (overwrite t path before vs).2 = .error e → (overwrite t path before vs).1 = t) ∧
    (∀ new, (overwrite t path before vs).2 = .ok new →
      Overwritten t (overwrite t path before vs).1 path before vs new) ∧
    (∀ cs, (overwrite t path before vs).2 = .error (.apply path cs) ↔
      applyInsertions before.toList (insertions vs) = .error cs) ∧
    ∀ applied, applyInsertions before.toList (insertions vs) = .ok applied →
      (∀ e, t.reread path = .error e → (overwrite t path before vs).2 = .error (.write path e)) ∧
      ∀ content, t.reread path = .ok content →
        (contentDigest (encode before.toList) = contentDigest content →
          encode before.toList = content) →
        ((∃ expected actual,
          (overwrite t path before vs).2 = .error (.changed path expected actual)) ↔
            encode before.toList ≠ content) ∧
        (encode before.toList = content →
          (∀ c ∈ FileTree.replacement, t.machine.refuses c path = none) ∧
            (∃ new, (overwrite t path before vs).2 = .ok new) ∨
          ∃ c ∈ FileTree.replacement, ∃ e, t.machine.refuses c path = some e ∧
            (overwrite t path before vs).2 = .error (.write path e)) := by
  refine ⟨fun e h => (attempt_of_answer h).tree_of_error,
    fun new h => (attempt_of_answer h).overwritten, fun cs => error_apply_iff,
    fun applied happlied => ⟨fun e => error_write_of_reread happlied,
      fun content hread hcollision => ⟨?_, fun hsame => ?_⟩⟩⟩
  · rw [error_changed_iff happlied hread, ne_eq, ne_eq, not_iff_not]
    exact ⟨hcollision, fun h => by rw [h]⟩
  · exact ok_or_refused happlied hread (by rw [hsame])

/-! A file and a link to it, on machines that refuse nothing, to read the file again, and to write
more than three octets. -/

def linkedSource (machine : Machine) : FileTree where
  entries := [(["A.swift"], .file (encode "x".toList) 0o640 1), (["L.swift"], .link "A.swift")]
  working := []
  machine := machine

def lockedMachine : Machine :=
  { Machine.reliable with refusesReread := fun _ => some .permissionDenied }

def fullMachine : Machine :=
  { Machine.reliable with
    refuses := fun c _ => if c = .write then some .storageFull else none
    written := fun _ => 3 }

theorem stat_linkedSource (machine : Machine) :
    (linkedSource machine).stat "/L.swift" = .ok (.file (encode "x".toList) 0o640 1) := by
  have htrue : (linkedSource machine).resolve true "/L.swift" = .ok ["A.swift"] :=
    FileTree.resolve_reach 2 (by decide) rfl
  exact FileTree.stat_of_resolve htrue rfl

theorem overwrite_atomic_linked :
    (∃ t', overwrite (linkedSource .reliable) "/L.swift" "x" [⟨"/L.swift", 0, 1, 1⟩] =
        (t', .ok "self.x") ∧
      t'.content "/L.swift" = .ok (encode "self.x".toList) ∧ t'.mode "/L.swift" = .ok 0o640 ∧
      t'.entryAt? ["A.swift"] = some (.file (encode "x".toList) 0o640 1)) ∧
    (∃ expected actual,
      overwrite (linkedSource .reliable) "/L.swift" "xy" [⟨"/L.swift", 0, 1, 1⟩] =
        (linkedSource .reliable, .error (.changed "/L.swift" expected actual))) ∧
    overwrite (linkedSource lockedMachine) "/L.swift" "x" [⟨"/L.swift", 0, 1, 1⟩] =
      (linkedSource lockedMachine, .error (.write "/L.swift" .permissionDenied)) ∧
    overwrite (linkedSource fullMachine) "/L.swift" "x" [⟨"/L.swift", 0, 1, 1⟩] =
      (linkedSource fullMachine, .error (.write "/L.swift" .storageFull)) := by
  have happlied : applyInsertions "x".toList (insertions [⟨"/L.swift", 0, 1, 1⟩]) = _ :=
    applyInsertions_insertions (by decide) (by decide)
  have hcontent : ∀ machine, (linkedSource machine).content "/L.swift" = .ok (encode "x".toList) :=
    fun machine => FileTree.content_eq_ok_iff.2 ⟨_, _, stat_linkedSource machine⟩
  refine ⟨?_, ?_, ?_, ?_⟩
  · obtain ⟨_, hok, _, hguard⟩ :=
      overwrite_atomic (linkedSource .reliable) "/L.swift" "x" [⟨"/L.swift", 0, 1, 1⟩]
    have hfalse : (linkedSource .reliable).resolve false "/L.swift" = .ok ["L.swift"] :=
      FileTree.resolve_reach 1 (by decide) (by decide)
    rcases ((hguard _ happlied).2 _ (hcontent _) fun _ => rfl).2 rfl with
      ⟨_, new, hnew⟩ | ⟨c, _, e, he, _⟩
    · obtain ⟨htext, hnow, ⟨mode, hmode, hmode'⟩, place, hplace, hothers, _⟩ := hok new hnew
      obtain rfl : new = "self.x" := String.toList_inj.1 (htext.trans rfl)
      rw [FileTree.mode, stat_linkedSource] at hmode
      cases hmode
      rw [hfalse] at hplace
      cases hplace
      exact ⟨_, Prod.ext rfl hnew, hnow, hmode', (hothers _ (by decide)).trans rfl⟩
    · cases he
  · obtain ⟨herror, _, _, hguard⟩ :=
      overwrite_atomic (linkedSource .reliable) "/L.swift" "xy" [⟨"/L.swift", 0, 1, 1⟩]
    have happlied' : applyInsertions "xy".toList (insertions [⟨"/L.swift", 0, 1, 1⟩]) = _ :=
      applyInsertions_insertions (by decide) (by decide)
    have hdigest : contentDigest (encode "xy".toList) ≠ contentDigest (encode "x".toList) := by
      decide +kernel
    obtain ⟨expected, actual, h⟩ := ((hguard _ happlied').2 _ (hcontent _)
      fun hsame => absurd hsame hdigest).1.2 (by decide)
    exact ⟨expected, actual, Prod.ext (herror _ h) h⟩
  · obtain ⟨herror, _, _, hguard⟩ :=
      overwrite_atomic (linkedSource lockedMachine) "/L.swift" "x" [⟨"/L.swift", 0, 1, 1⟩]
    have h := (hguard _ happlied).1 .permissionDenied rfl
    exact Prod.ext (herror _ h) h
  · obtain ⟨herror, _, _, hguard⟩ :=
      overwrite_atomic (linkedSource fullMachine) "/L.swift" "x" [⟨"/L.swift", 0, 1, 1⟩]
    rcases ((hguard _ happlied).2 _ (hcontent _) fun _ => rfl).2 rfl with
      ⟨hopen, _⟩ | ⟨c, _, e, he, h⟩
    · cases hopen .write (by decide)
    · have hwrite : (if c = .write then some IoError.storageFull else none) = some e := he
      split at hwrite <;> cases hwrite
      exact Prod.ext (herror _ h) h

end ExplicitSelf.Lint
