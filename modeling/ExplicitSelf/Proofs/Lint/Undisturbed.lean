import ExplicitSelf.Proofs.Lint.Atomic
import ExplicitSelf.Proofs.Lint.Tasks

/-!
# A task is not disturbed by others

Suppose that the service answers by the file alone, and that the path of a task's file leads where
it led at the start of the run, to the same entry. Then whatever else other tasks have done, the
next step of the task is the one that it would take alone: its fate stays the same, and its end is
its fate.

Results:
* `overwrite_unchanged`: overwriting a file that no one has changed.
* `Goes.fate`, `Goes.looks`, `Goes.prints`: what a step of a task does, in a world that
  others have changed.
* `Ends.fate`, `Ends.looks`: what its end does.
* `begunFate_cases`: what the fate of a task can be.
-/
namespace ExplicitSelf

/-- A service that answers by the file, its content, the arguments and the offset alone, and changes
no files. -/
structure Service.Steady (service : Service) : Prop where
  files : ∀ t file arguments, (service.index t file arguments).1 = t
  index : ∀ t t' file arguments, t.SameContent t' file →
    (service.index t file arguments).2 = (service.index t' file arguments).2
  cursor : ∀ t t' file o arguments, t.SameContent t' file →
    service.cursor t file o arguments = service.cursor t' file o arguments

theorem Service.Steady.index_eq {service : Service} (h : service.Steady) {t t' t₁ : FileTree}
    {file : Path} (hc : t.SameContent t' file) {arguments : List String}
    {answer : Except Service.Error Index.Node}
    (hi : service.index t file arguments = (t₁, answer)) :
    t₁ = t ∧ service.index t' file arguments = (t', answer) := by
  have hfiles := h.files t file arguments
  have hindex := h.index t t' file arguments hc
  rw [hi] at hfiles hindex
  exact ⟨hfiles, Prod.ext (h.files t' file arguments) hindex.symm⟩

theorem Service.Steady.readOnly {service : Service} (h : service.Steady) :
    service.answers.ReadOnly :=
  fun _ _ _ _ _ hi => (h.index_eq (.refl _ _) hi).1

namespace Lint

/-- The path of a file leads where it led, to the same entry, if it led anywhere. -/
structure Unchanged (t₀ t : FileTree) (file : Path) : Prop where
  entry : ∀ e, t.stat file = .ok e ↔ t₀.stat file = .ok e
  place : ∀ e, t₀.stat file = .ok e → ∀ last, t.resolve last file = t₀.resolve last file
  ends : ∀ q, t.Ends file q → t₀.Ends file q
  now : t.now = t₀.now
  machine : t.machine = t₀.machine

/-- What the end of a task does to the files `t`, if it makes `t₀` into `alone`. -/
inductive Rewrites (t₀ : FileTree) (file : Path) (alone : FileTree) :
    FileTree → FileTree → Prop where
  | keep {t : FileTree} (ha : alone = t₀) : Rewrites t₀ file alone t t
  | write {t : FileTree} {q x : Place} {old content : Text.Octets} {mode : Nat}
    (hend : t.EndsAt q x) (hq : t₀.Ends file q) (hx : t₀.Ends file x)
    (hcontent : t.content file = .ok old)
    (hr : t.replace file content = (t.set q (.file content mode t₀.now), .ok ()))
    (ha : alone = t₀.set q (.file content mode t₀.now)) :
    Rewrites t₀ file alone t (t.set q (.file content mode t₀.now))

/-! ## Overwriting -/

section
variable {t₀ t : FileTree} {file : Path}

theorem Unchanged.refl (t : FileTree) (file : Path) : Unchanged t t file :=
  ⟨fun _ => Iff.rfl, fun _ _ _ => rfl, fun _ => id, rfl, rfl⟩

theorem Unchanged.content (h : Unchanged t₀ t file) : t.SameContent t₀ file := by
  intro content
  rw [FileTree.content_eq_ok_iff, FileTree.content_eq_ok_iff]
  exact exists_congr fun _ => exists_congr fun _ => h.entry _

theorem Unchanged.readText (h : Unchanged t₀ t file) (text : String) :
    t.readText file = .ok text ↔ t₀.readText file = .ok text := by
  rw [FileTree.readText_eq_ok_iff, FileTree.readText_eq_ok_iff]
  exact exists_congr fun content => and_congr_left' (h.content.sameReading h.machine content)

theorem Unchanged.reread (h : Unchanged t₀ t file) (content : Text.Octets) :
    t.reread file = .ok content ↔ t₀.reread file = .ok content := by
  unfold FileTree.reread
  rw [FileTree.contentUnless_eq_ok_iff, FileTree.contentUnless_eq_ok_iff, h.machine,
    h.content content]

/-- A file of another path is replaced. -/
theorem Unchanged.set (h : Unchanged t₀ t file) {q x : Place} (hend : t.EndsAt q x)
    (hq : ¬t.Ends file q) (hx : ¬t.Ends file x) (content : Text.Octets) (mode modified : Nat) :
    Unchanged t₀ (t.set q (.file content mode modified)) file := by
  refine ⟨fun e => ?_, fun e he last => ?_, fun p hp => h.ends p (.of_set_other hend hx hp), h.now,
    h.machine⟩
  · exact (FileTree.stat_set_other hend hx hq e).trans (h.entry e)
  · obtain ⟨y, hy, _⟩ := FileTree.resolve_of_stat ((h.entry e).2 he)
    rcases FileTree.resolve_set_other hend hx last with hsame | ⟨hmany, _⟩
    · exact hsame.trans (h.place e he last)
    · rw [hmany] at hy
      cases hy

/-- A file that no one has changed is replaced as at the start, and at the same place, or a call for
it is refused as at the start. -/
theorem replace_unchanged (h : Unchanged t₀ t file) {old : Text.Octets}
    (hcontent : t₀.content file = .ok old) (content : Text.Octets) :
    (∃ e e₀, t.replace file content = (t, .error e) ∧ t₀.replace file content = (t₀, .error e₀)) ∨
      ∃ t' alone, t.replace file content = (t', .ok ()) ∧
        t₀.replace file content = (alone, .ok ()) ∧ Rewrites t₀ file alone t t' := by
  obtain ⟨mode, modified, hstat⟩ := FileTree.content_eq_ok_iff.1 hcontent
  have hcontent' := (h.content old).2 hcontent
  have hmode : t.mode file = t₀.mode file := by
    rw [FileTree.mode, FileTree.mode, (h.entry _).2 hstat, hstat]
  rcases replace_cases hcontent' content with ⟨hopen, q, m, hq, hm, hr⟩ | ⟨c, hc, e, he, hr⟩
  · rcases replace_cases hcontent content with ⟨_, q₀, m₀, hq₀, hm₀, hr₀⟩ | ⟨c, hc, e, he, _⟩
    · -- both go through: the place and the mode are the same
      rw [h.place _ hstat, hq₀] at hq
      rw [hmode, hm₀] at hm
      cases hq
      cases hm
      obtain ⟨p, x, _, hp, hx, hend, _⟩ := FileTree.of_replace hcontent' hr
      rw [h.place _ hstat, hq₀] at hp
      rw [h.place _ hstat] at hx
      cases hp
      rw [h.now] at hr
      exact .inr ⟨_, _, hr, hr₀, .write hend (.of_resolve hq₀) (.of_resolve hx) hcontent' hr rfl⟩
    · rw [← h.machine, hopen c hc] at he
      cases he
  · rcases replace_cases hcontent content with ⟨hopen, _⟩ | ⟨_, _, e₀, _, hr₀⟩
    · rw [h.machine, hopen c hc] at he
      cases he
    · exact .inl ⟨e, e₀, hr, hr₀⟩

/-- A file that no one has changed is overwritten as at the start, and at the same place. -/
theorem overwrite_unchanged (h : Unchanged t₀ t file) (text : String) (vs : List Violation) :
    (∃ e e₀, overwrite t file text vs = (t, .error e) ∧
      overwrite t₀ file text vs = (t₀, .error e₀)) ∨
    ∃ new t' alone, overwrite t file text vs = (t', .ok new) ∧
      overwrite t₀ file text vs = (alone, .ok new) ∧ Rewrites t₀ file alone t t' := by
  unfold overwrite
  cases Source.applyInsertions text.toList (insertions vs) with
  | error conflicts => exact .inl ⟨_, _, rfl, rfl⟩
  | ok applied =>
    simp only
    cases hr : t₀.reread file with
    | error e =>
      cases hr' : t.reread file with
      | error e' => exact .inl ⟨_, _, rfl, rfl⟩
      | ok content =>
        rw [(h.reread content).1 hr'] at hr
        cases hr
    | ok old =>
      rw [(h.reread old).2 hr]
      simp only
      split
      · rcases replace_unchanged h (FileTree.content_of_reread hr) (Text.encode applied.text) with
          ⟨e, e₀, hreplace, hreplace₀⟩ | ⟨t', alone, hreplace, hreplace₀, hrewrites⟩
        · rw [hreplace, hreplace₀]
          exact .inl ⟨_, _, rfl, rfl⟩
        · rw [hreplace, hreplace₀]
          exact .inr ⟨_, t', alone, rfl, rfl, hrewrites⟩
      · exact .inl ⟨_, _, rfl, rfl⟩

end

/-! ## What a task comes to -/

/-- The lines that a task has yet to write while it has the lock. -/
def Progress.left? : Progress → Option (List String)
  | .reporting _ rest => some rest
  | _ => none

/-- What the work comes to from some progress on. -/
def Progress.fate (service : Service) (mode : Mode) (t : FileTree) (file : Path)
    (answer : Except Error (Option (List String))) : Progress → Fate
  | .begun => begunFate service mode t file answer
  | .resolved arguments => resolvedFate service mode t file arguments
  | .opened arguments text => openedFate service mode t file arguments text
  | .asking arguments text seen rest found =>
    askingFate service mode t file arguments text seen rest found
  | .reporting found _ =>
    ⟨.linted found.violations.length found.failures.length .kept, t, report found.violations⟩

/-- What a step that goes on does to the report, for a task with `lines` to report and what it has
left to write before and after. -/
inductive Prints (lines : List String) :
    World → Option (List String) → World → Option (List String) → Prop where
  | silent {w w' : World} (ho : w'.output = w.output) (hl : w'.locked = w.locked) :
    Prints lines w none w' none
  | lock {w w' : World} (hw : w.locked = false) (ho : w'.output = w.output)
    (hl : w'.locked = true) : Prints lines w none w' (some lines)
  | line {w w' : World} {line : String} {rest : List String} (ho : w'.output = w.output ++ [line])
    (hl : w'.locked = w.locked) : Prints lines w (some (line :: rest)) w' (some rest)

/-- What the end of a task does to the report. -/
inductive Closes (lines : List String) : World → Option (List String) → World → Prop where
  | silent {w w' : World} (hnone : lines = []) (ho : w'.output = w.output)
    (hl : w'.locked = w.locked) : Closes lines w none w'
  | unlock {w w' : World} (ho : w'.output = w.output) (hl : w'.locked = false) :
    Closes lines w (some []) w'

/-- The argument source before a step, or after a look-up. -/
def Looks (w : World) (file : Path) (source : ArgumentSource) : Prop :=
  source = w.source ∨ source = (w.source.resolve w.tree file).source

section
variable {service : Service} {mode : Mode} {t₀ : FileTree} {file : Path} {w w' : World}
  {answer : Except Error (Option (List String))} {p p' : Progress} {o : Outcome}

/-! ## The fate of a task whose next step is known -/

theorem begunFate_skip (h : ∀ arguments, answer ≠ .ok (some arguments)) :
    begunFate service mode t₀ file answer = ⟨.skipped, t₀, []⟩ := by
  unfold begunFate
  split
  · rename_i arguments
    exact absurd rfl (h arguments)
  · rfl

theorem resolvedFate_unread {arguments : List String} (h : ∀ text, t₀.readText file ≠ .ok text) :
    resolvedFate service mode t₀ file arguments = ⟨.failed none, t₀, []⟩ := by
  unfold resolvedFate
  split
  · rfl
  · rename_i text ht
    exact absurd ht (h text)

theorem openedFate_unindexed {arguments : List String} {text : String} {e : Service.Error}
    (h : service.index t₀ file arguments = (t₀, .error e)) :
    openedFate service mode t₀ file arguments text = ⟨(queryFailed file e).1, t₀, []⟩ := by
  rw [openedFate, h]

theorem openedFate_indexed {arguments : List String} {text : String} {root : Index.Node}
    (h : service.index t₀ file arguments = (t₀, .ok root)) :
    openedFate service mode t₀ file arguments text =
      askingFate service mode t₀ file arguments text [] (candidateOffsets text root) {} := by
  rw [openedFate, h]

/-! ## Steps that go on -/

/-- The service has the same answers for a file that no one has changed. -/
theorem glance_unchanged (hs : service.Steady) (hu : Unchanged t₀ w.tree file)
    {arguments : List String} {text : String} {offset : Nat}
    {reply : Except Service.Error Service.Cursor} {part : Except Service.Error Classification}
    (h : service.cursor w.tree file offset arguments = reply)
    (hpart : glance file (.ofText text.toList) offset reply = part) :
    glance file (.ofText text.toList) offset (service.cursor t₀ file offset arguments) = part := by
  rw [← hs.cursor _ _ _ _ _ hu.content, h, hpart]

/-- A step that goes on keeps the fate of the task. -/
theorem Goes.fate (hs : service.Steady) (hu : Unchanged t₀ w.tree file)
    (ha : (w.source.resolve w.tree file).result = answer)
    (h : Goes service.answers mode file w p w' p') :
    p'.fate service mode t₀ file answer = p.fate service mode t₀ file answer := by
  cases h with
  | resolve h =>
    rw [h] at ha
    subst ha
    rfl
  | read h => simp only [Progress.fate, resolvedFate, (hu.readText _).1 h]
  | index h => exact (openedFate_indexed (hs.index_eq hu.content h).2).symm
  | again h => exact (askingFate_again h).symm
  | dot hnew hdot => exact (askingFate_dot hnew hdot).symm
  | ask hnew hdot h hpart => exact (askingFate_ask hnew hdot (glance_unchanged hs hu h hpart)).symm
  | lock hm hv hl =>
    subst hm
    rw [Progress.fate, Progress.fate, askingFate_nil, classifiedFate_report _ _ _ hv]
  | line => rfl

theorem Goes.looks {answers : Answers} (h : Goes answers mode file w p w' p') :
    Looks w file w'.source := by
  cases h with
  | resolve _ => exact .inr rfl
  | _ => exact .inl rfl

theorem Goes.prints (service : Service) (t₀ : FileTree)
    (answer : Except Error (Option (List String))) {answers : Answers}
    (h : Goes answers mode file w p w' p') :
    Prints (p.fate service mode t₀ file answer).lines w p.left? w' p'.left? := by
  cases h with
  | lock hm hv hl =>
    subst hm
    rw [Progress.fate, askingFate_nil, classifiedFate_report _ _ _ hv]
    exact .lock hl rfl rfl
  | line => exact .line rfl rfl
  | _ => exact .silent rfl rfl

/-! ## The end of a task -/

/-- The fate of a task that ends when its file could not be overwritten, or was. -/
theorem fate_overwrite (hu : Unchanged t₀ w.tree file) {arguments : List String} {text : String}
    {seen : List Nat} {found : Classification} (hv : found.violations ≠ []) {t : FileTree}
    {r : Except OverwriteError String}
    (h : overwrite w.tree file text found.violations = (t, r)) :
    askingFate service .overwrite t₀ file arguments text seen [] found =
        ⟨.linted found.violations.length found.failures.length
          (if r.isOk then .overwritten else .unwritten),
          (overwrite t₀ file text found.violations).1, []⟩ ∧
      Rewrites t₀ file (overwrite t₀ file text found.violations).1 w.tree t := by
  rw [askingFate_nil]
  rcases overwrite_unchanged hu text found.violations with ⟨_, _, ho, ho₀⟩ |
    ⟨new, t', alone, ho, ho₀, hrewrites⟩
  · rw [ho] at h
    cases h
    rw [classifiedFate_unwritten _ _ hv ho₀, ho₀]
    exact ⟨rfl, .keep rfl⟩
  · rw [ho] at h
    cases h
    rw [classifiedFate_overwritten _ _ hv ho₀, ho₀]
    exact ⟨rfl, hrewrites⟩

theorem Ends.looks {answers : Answers} (h : Ends answers mode file w p w' o) :
    Looks w file w'.source := by
  cases h with
  | skip _ => exact .inr rfl
  | _ => exact .inl rfl

/-- A task ends in its fate. -/
theorem Ends.fate (hs : service.Steady) (hu : Unchanged t₀ w.tree file)
    (ha : (w.source.resolve w.tree file).result = answer)
    (h : Ends service.answers mode file w p w' o) :
    o = (p.fate service mode t₀ file answer).outcome ∧
      Rewrites t₀ file (p.fate service mode t₀ file answer).tree w.tree w'.tree ∧
      Closes (p.fate service mode t₀ file answer).lines w p.left? w' := by
  cases h with
  | skip h =>
    rw [ha] at h
    rw [Progress.fate, begunFate_skip h]
    exact ⟨rfl, .keep rfl, .silent rfl rfl rfl⟩
  | unread h =>
    have hunread : ∀ text, t₀.readText file ≠ .ok text := fun text ht => by
      rw [(hu.readText text).2 ht] at h
      cases h
    rw [Progress.fate, resolvedFate_unread hunread]
    exact ⟨rfl, .keep rfl, .silent rfl rfl rfl⟩
  | unindexed h =>
    obtain ⟨htree, h₀⟩ := hs.index_eq hu.content h
    rw [Progress.fate, openedFate_unindexed h₀, htree]
    exact ⟨rfl, .keep rfl, .silent rfl rfl rfl⟩
  | gone hnew hdot h hpart =>
    rw [Progress.fate, askingFate_gone hnew hdot (glance_unchanged hs hu h hpart)]
    exact ⟨rfl, .keep rfl, .silent rfl rfl rfl⟩
  | clean hv =>
    rw [Progress.fate, askingFate_nil, classifiedFate_clean _ _ _ _ hv]
    exact ⟨rfl, .keep rfl, .silent rfl rfl rfl⟩
  | overwritten hm hv h =>
    subst hm
    obtain ⟨hfate, hrewrites⟩ := fate_overwrite hu hv h
    rw [Progress.fate, hfate]
    exact ⟨rfl, hrewrites, .silent rfl rfl rfl⟩
  | unwritten hm hv h =>
    subst hm
    obtain ⟨hfate, hrewrites⟩ := fate_overwrite hu hv h
    rw [Progress.fate, hfate]
    exact ⟨rfl, hrewrites, .silent rfl rfl rfl⟩
  | reported => exact ⟨rfl, .keep rfl, .unlock rfl rfl⟩

/-- A task for which the service is gone has changed nothing but the log, and does not have the
lock. -/
theorem Ends.of_fatal (hs : service.Steady) {e : Service.Error}
    (h : Ends service.answers mode file w p w' (.failed (some e))) :
    w'.tree = w.tree ∧ w'.source = w.source ∧ w'.output = w.output ∧ w'.locked = w.locked ∧
      p.left? = none := by
  generalize ho : Outcome.failed (some e) = o at h
  cases h with
  | unindexed h => exact ⟨hs.readOnly _ _ _ _ _ h, rfl, rfl, rfl, rfl⟩
  | gone hnew hdot h hpart => exact ⟨rfl, rfl, rfl, rfl, rfl⟩
  | _ => cases ho

/-! ## What the fate of a task can be -/

/-- The fate of a task is that of a file without lines to report and without change, or comes from
the classification of its candidates. -/
theorem begunFate_cases (hs : service.Steady) {P : Fate → Prop} (t : FileTree) (file : Path)
    (answer : Except Error (Option (List String)))
    (hnot : ∀ o, (∀ violations failures ending, o ≠ .linted violations failures ending) →
      P ⟨o, t, []⟩)
    (hclass : ∀ arguments text root c,
      (classify (service.cursor t file · arguments) file (.ofText text.toList)
        (Index.candidates (.ofText text.toList) root)).result = .ok c →
      P (classifiedFate mode t file text c)) :
    P (begunFate service mode t file answer) := by
  have hfailed : ∀ e, P ⟨(queryFailed file e).1, t, []⟩ := fun e =>
    hnot _ fun violations failures ending => queryFailed_ne_linted file e violations failures ending
  unfold begunFate
  split
  · rename_i arguments
    unfold resolvedFate
    split
    · exact hnot _ (by simp)
    · rename_i text _
      cases hi : service.index t file arguments with
      | mk t₁ reply =>
        obtain ⟨_, hi⟩ := hs.index_eq (.refl t file) hi
        cases reply with
        | error e =>
          rw [openedFate_unindexed hi]
          exact hfailed e
        | ok root =>
          rw [openedFate_indexed hi, askingFate]
          split
          · exact hfailed _
          · rename_i c hc
            rw [Classification.empty_append]
            exact hclass arguments text root c hc
  · exact hnot _ (by simp)

/-- What a task does to the files. -/
theorem begunFate_rewrites (hs : service.Steady) (t : FileTree) (file : Path)
    (answer : Except Error (Option (List String))) :
    ∃ t', Rewrites t file (begunFate service mode t file answer).tree t t' := by
  refine begunFate_cases (P := fun f => ∃ t', Rewrites t file f.tree t t') hs t file answer
    (fun o _ => ⟨t, .keep rfl⟩) fun _ text _ c _ => ?_
  by_cases hv : c.violations = []
  · rw [classifiedFate_clean _ _ _ _ hv]
    exact ⟨t, .keep rfl⟩
  · cases mode with
    | report =>
      rw [classifiedFate_report _ _ _ hv]
      exact ⟨t, .keep rfl⟩
    | overwrite =>
      rcases overwrite_unchanged (.refl t file) text c.violations with ⟨_, _, ho, _⟩ |
        ⟨new, t', alone, ho, ho', hrewrites⟩
      · rw [classifiedFate_unwritten _ _ hv ho]
        exact ⟨t, .keep rfl⟩
      · rw [classifiedFate_overwritten _ _ hv ho']
        exact ⟨t', hrewrites⟩

end

end Lint

end ExplicitSelf
