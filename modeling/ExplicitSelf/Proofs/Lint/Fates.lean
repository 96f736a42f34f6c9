import ExplicitSelf.Proofs.Lint.Interleaving
import ExplicitSelf.Proofs.Lint.Undisturbed

/-!
# Tasks come to their fates

A run lints distinct files, and service and argument source answer by the file alone. Then each task
comes to the fate that it has alone, whatever the others do in between. It changes only its own
file, so others find theirs as they were.

Results:
* `Rewrites.unchanged`, `Rewrites.entry`: what the end of a task does to the files of others, and to
  the tree.
* `Sound.step`: each step of each task keeps the fates of all tasks, and what they did to the files,
  unless the service is gone.
-/
namespace ExplicitSelf.Lint

/-- What is linted, and with which service. -/
structure Setting extends Job where
  service : Service

/-- Files that differ from those at the start in the content of some files that are linted. -/
inductive Rewritten (t₀ : FileTree) (files : List Path) : FileTree → Prop where
  | same : Rewritten t₀ files t₀
  | replace {t t' : FileTree} {file : Path} {old content : Text.Octets} (h : Rewritten t₀ files t)
    (hf : file ∈ files) (hcontent : t.content file = .ok old)
    (hr : t.replace file content = (t', .ok ())) : Rewritten t₀ files t'

namespace Setting
variable (S : Setting)

/-- A state of the argument source that look-ups of the files can lead to. -/
inductive Asked : ArgumentSource → Prop where
  | same : Asked S.source
  | next {source : ArgumentSource} {t : FileTree} {file : Path} (h : Asked source)
    (ht : Rewritten S.tree S.files t) (hf : file ∈ S.files) : Asked (source.resolve t file).source

/-- The source answers by the file alone, whatever was looked up before and whatever the files that
are linted hold by now. -/
def SteadySource : Prop :=
  ∀ source t file, S.Asked source → Rewritten S.tree S.files t → file ∈ S.files →
    (source.resolve t file).result = (S.source.resolve S.tree file).result

/-- What the work on a file comes to alone. -/
def alone (file : Path) : Fate :=
  begunFate S.service S.mode S.tree file (S.source.resolve S.tree file).result

/-- A state that tasks reach with the service. -/
def Runs (s : State World Progress) : Prop :=
  S.toJob.Runs S.service.answers s

end Setting

/-! ## Files -/

section
variable {t₀ t t' alone : FileTree} {file other : Path}

theorem Rewritten.working {files : List Path} (h : Rewritten t₀ files t) :
    t.working = t₀.working ∧ t.now = t₀.now ∧ t.machine = t₀.machine := by
  induction h with
  | same => exact ⟨rfl, rfl, rfl⟩
  | replace _ _ hcontent hr ih =>
    obtain ⟨_, _, _, _, _, _, rfl⟩ := FileTree.of_replace hcontent hr
    exact ih

/-- A task that ends changes nothing for the others. -/
theorem Rewrites.unchanged (h : Rewrites t₀ file alone t t') (hu : Unchanged t₀ t other)
    (hapart : ∀ q, t₀.Ends file q → ¬t₀.Ends other q) : Unchanged t₀ t' other := by
  cases h with
  | keep ha => exact hu
  | @write q x old content mode hend hq hx hcontent hr ha =>
    exact hu.set hend (fun h => hapart q hq (hu.ends q h))
      (fun h => hapart x hx (hu.ends x h)) _ _ _

/-- The entry at a place after a task: that of before, or that of the task's own file. -/
theorem Rewrites.entry (h : Rewrites t₀ file alone t t') (q : Place) :
    alone.entryAt? q = t₀.entryAt? q ∧ t'.entryAt? q = t.entryAt? q ∨
      t'.entryAt? q = alone.entryAt? q ∧ t₀.Ends file q := by
  cases h with
  | keep ha => exact .inl ⟨by rw [ha], rfl⟩
  | @write p x old content mode hend hp hx hcontent hr ha =>
    rw [ha, FileTree.entryAt_set _ _ _ hend.ne_nil, FileTree.entryAt_set _ _ _ hend.ne_nil]
    by_cases hq : q = p
    · subst hq
      rw [if_pos rfl, if_pos rfl]
      exact .inr ⟨rfl, hp⟩
    · rw [if_neg hq, if_neg hq]
      exact .inl ⟨rfl, rfl⟩

theorem Rewrites.rewritten {files : List Path} (h : Rewrites t₀ file alone t t')
    (hf : file ∈ files) (ht : Rewritten t₀ files t) : Rewritten t₀ files t' := by
  cases h with
  | keep ha => exact ht
  | write hend hq hx hcontent hr ha => exact .replace ht hf hcontent hr

end

section
variable {S : Setting} {s s' : State World Progress} {i j : Nat} {file other : Path}

/-! ## The fates of tasks -/

/-- A phase that fits the fate of its task. -/
def Setting.SoundPhase (S : Setting) (file : Path) : Phase Progress → Prop
  | .waiting => True
  | .working p =>
    p.fate S.service S.mode S.tree file (S.source.resolve S.tree file).result = S.alone file
  | .raising e => (S.alone file).outcome = .failed (some e)
  | .storing _ => False
  | .done o => o = (S.alone file).outcome ∧ o.fatal? = none

/-- The task of some file is done. -/
def Setting.Done (S : Setting) (s : State World Progress) (file : Path) : Prop :=
  ∃ (j : Nat) (o : Outcome), S.files[j]? = some file ∧ s.phases[j]? = some (.done o)

/-- Tasks are on their way to their fates. Those that are not done find their files as they were,
and those that are have made of theirs what they make of them alone. -/
structure Sound (S : Setting) (s : State World Progress) : Prop where
  flag : s.aborted = false
  length : s.phases.length = S.files.length
  phase : ∀ (j : Nat) file phase, S.files[j]? = some file → s.phases[j]? = some phase →
    S.SoundPhase file phase
  unchanged : ∀ (j : Nat) file (phase : Phase Progress), S.files[j]? = some file →
    s.phases[j]? = some phase → (∀ o, phase ≠ .done o) → Unchanged S.tree s.world.tree file
  rewritten : Rewritten S.tree S.files s.world.tree
  asked : S.Asked s.world.source
  touched : ∀ file, S.Done s file → ∀ q,
    FileTree.entryAt? (S.alone file).tree q ≠ FileTree.entryAt? S.tree q →
      FileTree.entryAt? s.world.tree q = FileTree.entryAt? (S.alone file).tree q
  untouched : ∀ q,
    (∀ file, S.Done s file → FileTree.entryAt? (S.alone file).tree q = FileTree.entryAt? S.tree q) →
      FileTree.entryAt? s.world.tree q = FileTree.entryAt? S.tree q

theorem sound_initial (S : Setting) :
    Sound S (.initial Progress { tree := S.tree, source := S.source } S.files) := by
  have hdone : ∀ file,
      ¬S.Done (.initial Progress { tree := S.tree, source := S.source } S.files) file := by
    rintro file ⟨j, o, _, h⟩
    cases State.phase_initial h
  refine ⟨rfl, List.length_map _, fun j file phase _ h => ?_, fun j file _ _ _ _ => .refl _ _,
    .same, .same, fun file h => absurd h (hdone file), fun _ _ => rfl⟩
  rw [State.phase_initial h]
  trivial

/-- A task that is done stays so when another enters a phase. -/
theorem Setting.Done.enter {w : World} {old : Phase Progress} (h : S.Done s file)
    (hi : s.phases[i]? = some old) (hold : ∀ o, old ≠ .done o) (phase : Phase Progress)
    (event : Event) : S.Done ({ s with world := w }.enter i phase event) file := by
  obtain ⟨j, o, hj, hp⟩ := h
  refine ⟨j, o, hj, ?_⟩
  rw [State.enter_phases { s with world := w } hi, if_neg]
  · exact hp
  · rintro rfl
    rw [hi] at hp
    cases hp
    exact hold o rfl

/-- All phases fit the fates of their tasks when one task enters a phase that does. -/
theorem Sound.enter_phase (h : Sound S s) {w : World} {old phase : Phase Progress}
    (hi : s.phases[i]? = some old) (hf : S.files[i]? = some file) (hphase : S.SoundPhase file phase)
    (event : Event) (j : Nat) (g : Path) (p : Phase Progress) (hj : S.files[j]? = some g)
    (hp : ({ s with world := w }.enter i phase event).phases[j]? = some p) : S.SoundPhase g p := by
  rw [State.enter_phases { s with world := w } hi] at hp
  split at hp
  · rename_i hij
    subst hij
    rw [hf] at hj
    cases hj
    cases hp
    exact hphase
  · exact h.phase j g p hj hp

/-- A task goes on. -/
theorem Sound.move (h : Sound S s) {w : World} (hw : w.tree = s.world.tree) (ha : S.Asked w.source)
    {old phase : Phase Progress} (hi : s.phases[i]? = some old) (hf : S.files[i]? = some file)
    (hold : ∀ o, old ≠ .done o) (hphase : S.SoundPhase file phase) (hne : ∀ o, phase ≠ .done o)
    (event : Event) : Sound S ({ s with world := w }.enter i phase event) := by
  have hphases := State.enter_phases { s with world := w } hi phase event
  have hdone : ∀ g, S.Done ({ s with world := w }.enter i phase event) g → S.Done s g := by
    rintro g ⟨j, o, hj, hp⟩
    rw [hphases] at hp
    split at hp
    · cases hp; exact absurd rfl (hne o)
    · exact ⟨j, o, hj, hp⟩
  refine ⟨h.flag, (List.length_set ..).trans h.length, h.enter_phase hi hf hphase event, ?_,
    hw ▸ h.rewritten, ha, ?_, ?_⟩
  · intro j g p hj hp hp'
    rw [hphases] at hp
    simp only [State.enter, hw]
    split at hp
    · rename_i hij
      subst hij
      exact h.unchanged i g old hj hi hold
    · exact h.unchanged j g p hj hp hp'
  · intro g hg q hq
    simp only [State.enter, hw]
    exact h.touched g (hdone g hg) q hq
  · intro q hq
    simp only [State.enter, hw]
    exact h.untouched q fun g hg => hq g (hg.enter hi hold phase event)

/-- A task comes to its fate. -/
theorem Sound.finish (hs : S.service.Steady) (hd : S.Distinct) (h : Sound S s) {w : World}
    {old : Phase Progress} (hi : s.phases[i]? = some old) (hf : S.files[i]? = some file)
    (hold : ∀ o, old ≠ .done o) (ha : S.Asked w.source)
    (hw : Rewrites S.tree file (S.alone file).tree s.world.tree w.tree) {o : Outcome}
    (ho : S.SoundPhase file (.done o)) (event : Event) :
    Sound S ({ s with world := w }.enter i (.done o) event) := by
  have hmem := List.mem_of_getElem? hf
  have hphases := State.enter_phases { s with world := w } hi (.done o) event
  refine ⟨h.flag, (List.length_set ..).trans h.length, h.enter_phase hi hf ho event, ?_,
    hw.rewritten hmem h.rewritten, ha, ?_, ?_⟩
  · intro j g p hj hp hp'
    rw [hphases] at hp
    split at hp
    · cases hp
      exact absurd rfl (hp' o)
    · rename_i hij
      exact hw.unchanged (h.unchanged j g p hj hp hp') (hd.of_ne hij hf hj)
  · -- a place that a task makes new is its own
    intro g hg q hq
    obtain ⟨j, o', hj, hp⟩ := hg
    rw [hphases] at hp
    split at hp
    · rename_i hij
      subst hij
      rw [hf] at hj
      cases hj
      rcases hw.entry q with ⟨halone, _⟩ | ⟨hnew, _⟩
      · exact absurd halone hq
      · exact hnew
    · rename_i hij
      obtain ⟨t', hg⟩ := begunFate_rewrites hs S.tree g (S.source.resolve S.tree g).result
      rcases hg.entry q with ⟨halone, _⟩ | ⟨_, hgq⟩
      · exact absurd halone hq
      · rcases hw.entry q with ⟨_, hsame⟩ | ⟨_, hfq⟩
        · exact hsame.trans (h.touched g ⟨j, o', hj, hp⟩ q hq)
        · exact absurd hgq (hd.of_ne hij hf hj q hfq)
  · intro q hq
    have hself : FileTree.entryAt? (S.alone file).tree q = FileTree.entryAt? S.tree q := by
      refine hq file ⟨i, o, hf, ?_⟩
      rw [hphases, if_pos rfl]
    rcases hw.entry q with ⟨_, hsame⟩ | ⟨hnew, _⟩
    · exact hsame.trans (h.untouched q fun g hg => hq g (hg.enter hi hold (.done o) event))
    · exact hnew.trans hself

theorem Sound.answer (h : Sound S s) (hsource : S.SteadySource) (hf : S.files[i]? = some file) :
    (s.world.source.resolve s.world.tree file).result = (S.source.resolve S.tree file).result :=
  hsource _ _ _ h.asked h.rewritten (List.mem_of_getElem? hf)

theorem Sound.looks (h : Sound S s) (hf : S.files[i]? = some file) {source : ArgumentSource}
    (hl : Looks s.world file source) : S.Asked source := by
  rcases hl with rfl | rfl
  · exact h.asked
  · exact .next h.asked h.rewritten (List.mem_of_getElem? hf)

/-- The service is gone for some file. -/
def Setting.Gone (S : Setting) : Prop :=
  ∃ file ∈ S.files, (S.alone file).outcome.fatal? ≠ none

theorem Sound.step (hs : S.service.Steady) (hsource : S.SteadySource) (hd : S.Distinct)
    (h : Sound S s) (hstep : Step (lintWork S.service.answers S.mode) S.files i s s') :
    Sound S s' ∨ s'.aborted = true ∧ S.Gone := by
  cases hstep with
  | refuse hi ha => rw [h.flag] at ha; cases ha
  | start hi ha =>
    have hlt : i < S.files.length := h.length ▸ (List.getElem?_eq_some_iff.1 hi).1
    have hf := List.getElem?_eq_getElem hlt
    have hphase : S.SoundPhase S.files[i] (.working .begun) := rfl
    exact .inl (h.move rfl h.asked hi hf (by simp) hphase (by simp) _)
  | go hi hf hw =>
    have hu := h.unchanged i _ _ hf hi (by simp)
    have hfate := Goes.fate hs hu (h.answer hsource hf) hw
    have hphase : S.SoundPhase _ (.working _) := hfate.trans (h.phase i _ _ hf hi)
    exact .inl (h.move (Goes.tree_eq hs.readOnly hw) (h.looks hf (Goes.looks hw)) hi hf
      (by simp) hphase
      (by simp) _)
  | finish hi hf hw ho =>
    have hu := h.unchanged i _ _ hf hi (by simp)
    have hp := h.phase i _ _ hf hi
    obtain ⟨houtcome, hrewrites, _⟩ := Ends.fate hs hu (h.answer hsource hf) hw
    rw [hp] at houtcome hrewrites
    exact .inl (h.finish hs hd hi hf (by simp) (h.looks hf (Ends.looks hw)) hrewrites
      ⟨houtcome, ho⟩ _)
  | fail hi hf hw =>
    have hu := h.unchanged i _ _ hf hi (by simp)
    have hp := h.phase i _ _ hf hi
    obtain ⟨houtcome, _⟩ := Ends.fate hs hu (h.answer hsource hf) hw
    obtain ⟨htree, _⟩ := Ends.of_fatal hs hw
    rw [hp] at houtcome
    have hphase : S.SoundPhase _ (.raising _) := houtcome.symm
    exact .inl (h.move htree (h.looks hf (Ends.looks hw)) hi hf (by simp) hphase (by simp) _)
  | raise hi ha =>
    have hlt : i < S.files.length := h.length ▸ (List.getElem?_eq_some_iff.1 hi).1
    have hf := List.getElem?_eq_getElem hlt
    have hp := h.phase i _ _ hf hi
    refine .inr ⟨rfl, _, List.getElem_mem hlt, ?_⟩
    rw [show (S.alone _).outcome = _ from hp]
    simp [Outcome.fatal?]
  | late hi ha => rw [h.flag] at ha; cases ha
  | store hi =>
    have hlt : i < S.files.length := h.length ▸ (List.getElem?_eq_some_iff.1 hi).1
    exact (h.phase i _ _ (List.getElem?_eq_getElem hlt) hi).elim

end

end ExplicitSelf.Lint
