import ExplicitSelf.Proofs.Lint.Interleaving
import ExplicitSelf.Proofs.Lint.Reduction
import Mathlib.Data.List.Nodup
import Mathlib.Data.List.Perm.Basic

/-!
# A run is aborted once

Whatever the tasks of a run do, and in whatever order, all files are counted. If the service is gone
for several of them at once, one swap raises the flag, and the run ends in the error of its task.
The files that are not started are those whose tasks read the flag after that swap.

Until a swap raises the flag the run is `Quiet`. From then on it is `Raised`, and stays so for the
same task and error. Each step of each task preserves this.

Results:
* `Counted.step`, `Quiet.step`, `Raised.step`: what one step of a task preserves.
* `quiet_or_raised`, `Raised.reaches`: what a whole run preserves.
* `result_of_interleaving`: the counts and the result of a run.
-/
namespace ExplicitSelf.Lint

section
variable {σ π : Type} {W : Work σ π} {files : List Path} {s s' : State σ π} {i : Nat}
  {e : Service.Error} {before after : List Event}

/-! ## Each task reads the flag once -/

/-- There is a task for each file, and the tasks that have begun are those that read the flag, each
once. -/
structure Counted (files : List Path) (s : State σ π) : Prop where
  length : s.phases.length = files.length
  nodup : (readers s.history).Nodup
  begun : ∀ j, j ∈ readers s.history ↔ ∃ phase, s.phases[j]? = some phase ∧ phase ≠ .waiting

theorem counted_initial (w : σ) (files : List Path) : Counted files (State.initial π w files) := by
  refine ⟨List.length_map _, List.nodup_nil, fun j => ⟨fun h => (List.not_mem_nil h).elim, ?_⟩⟩
  rintro ⟨phase, hphase, hne⟩
  exact absurd (State.phase_initial hphase) hne

/-- A task that has not begun reads the flag. -/
theorem Counted.read (hc : Counted files s) (h : s.phases[i]? = some .waiting) {phase : Phase π}
    (hp : phase ≠ .waiting) : Counted files (s.enter i phase (.read i)) := by
  have hfresh : i ∉ readers s.history := by
    intro hi
    obtain ⟨old, hold, hne⟩ := (hc.begun i).1 hi
    rw [h] at hold
    cases hold
    exact hne rfl
  have hreaders : readers (s.enter i phase (.read i)).history = readers s.history ++ [i] := by
    rw [State.enter, readers_append]; rfl
  refine ⟨(List.length_set ..).trans hc.length, ?_, fun j => ?_⟩
  · rw [hreaders, List.nodup_append]
    refine ⟨hc.nodup, List.nodup_singleton i, ?_⟩
    rintro a ha b hb rfl
    exact hfresh (List.mem_singleton.1 hb ▸ ha)
  · rw [hreaders, List.mem_append, List.mem_singleton, s.enter_phases h]
    by_cases hj : i = j
    · subst hj
      rw [if_pos rfl]
      exact ⟨fun _ => ⟨phase, rfl, hp⟩, fun _ => .inr rfl⟩
    · rw [if_neg hj, ← hc.begun j]
      exact ⟨fun h => h.resolve_right (Ne.symm hj), .inl⟩

/-- A task that has begun does not read it again. -/
theorem Counted.move (hc : Counted files s) {old phase : Phase π} (h : s.phases[i]? = some old)
    (hold : old ≠ .waiting) (hp : phase ≠ .waiting) {event : Event} (hev : readers [event] = []) :
    Counted files (s.enter i phase event) := by
  have hreaders : readers (s.enter i phase event).history = readers s.history := by
    rw [State.enter, readers_append, hev, List.append_nil]
  refine ⟨(List.length_set ..).trans hc.length, hreaders ▸ hc.nodup, fun j => ?_⟩
  rw [hreaders, s.enter_phases h, hc.begun j]
  by_cases hj : i = j
  · subst hj
    rw [if_pos rfl]
    exact ⟨fun _ => ⟨phase, rfl, hp⟩, fun _ => ⟨old, h, hold⟩⟩
  · rw [if_neg hj]

/-- What is counted does not depend on the world, the flag or the slot. -/
theorem Counted.congr (hc : Counted files s) (hp : s'.phases = s.phases)
    (hh : s'.history = s.history) : Counted files s' := by
  refine ⟨?_, ?_, fun j => ?_⟩
  · rw [hp]
    exact hc.length
  · rw [hh]
    exact hc.nodup
  · rw [hh, hp]
    exact hc.begun j

theorem Counted.step (hc : Counted files s) (h : Step W files i s s') : Counted files s' := by
  cases h with
  | refuse h ha => exact hc.read h (by simp)
  | start h ha => exact hc.read h (by simp)
  | @go _ _ _ w h hf hw =>
    have hc' : Counted files { s with world := w } := hc.congr rfl rfl
    exact hc'.move h (by simp) (by simp) rfl
  | @finish _ _ w _ h hf hw ho =>
    have hc' : Counted files { s with world := w } := hc.congr rfl rfl
    exact hc'.move h (by simp) (by simp) rfl
  | @fail _ _ w _ h hf hw =>
    have hc' : Counted files { s with world := w } := hc.congr rfl rfl
    exact hc'.move h (by simp) (by simp) rfl
  | raise h ha =>
    have hc' : Counted files { s with aborted := true } := hc.congr rfl rfl
    exact hc'.move h (by simp) (by simp) rfl
  | late h ha => exact hc.move h (by simp) (by simp) rfl
  | @store e h =>
    have hc' : Counted files { s with slot := some e } := hc.congr rfl rfl
    exact hc'.move h (by simp) (by simp) rfl

/-! ## Until the flag is raised -/

/-- A phase that a task can be in while the flag is down. -/
def Phase.Calm : Phase π → Prop
  | .storing _ => False
  | .done o => o ≠ .notStarted ∧ o.fatal? = none
  | _ => True

/-- No swap has raised the flag. -/
structure Quiet (s : State σ π) : Prop where
  flag : s.aborted = false
  slot : s.slot = none
  calm : ∀ (j : Nat) (phase : Phase π), s.phases[j]? = some phase → phase.Calm
  swaps : ∀ j e, Event.swap j e false ∉ s.history

/-- The swap of task `i` has raised the flag, with the error `e`, between the events `before` and
`after`. -/
structure Raised (s : State σ π) (i : Nat) (e : Service.Error) (before after : List Event) :
    Prop where
  flag : s.aborted = true
  history : s.history = before ++ .swap i e false :: after
  once : ∀ j e', Event.swap j e' false ∉ before ∧ Event.swap j e' false ∉ after
  slot : s.phases[i]? = some (.storing e) ∧ s.slot = none ∨
    s.phases[i]? = some (.done (.failed (some e))) ∧ s.slot = some e
  storing : ∀ j e', s.phases[j]? = some (.storing e') → j = i
  late : ∀ j, s.phases[j]? = some (.done .notStarted) ↔ j ∈ readers after

theorem quiet_initial (w : σ) (files : List Path) : Quiet (State.initial π w files) := by
  refine ⟨rfl, rfl, fun j phase h => ?_, fun _ _ h => List.not_mem_nil h⟩
  rw [State.phase_initial h]
  trivial

theorem Quiet.world (hq : Quiet s) (w : σ) : Quiet { s with world := w } :=
  ⟨hq.flag, hq.slot, hq.calm, hq.swaps⟩

theorem Quiet.move (hq : Quiet s) {old phase : Phase π} (h : s.phases[i]? = some old)
    (hp : phase.Calm) {event : Event} (hev : ∀ j e, event ≠ .swap j e false) :
    Quiet (s.enter i phase event) := by
  refine ⟨hq.flag, hq.slot, fun j p hj => ?_, fun j e hm => ?_⟩
  · rw [s.enter_phases h] at hj
    split at hj
    · cases hj; exact hp
    · exact hq.calm j p hj
  · rcases List.mem_append.1 hm with hm | hm
    · exact hq.swaps j e hm
    · exact hev j e (List.mem_singleton.1 hm).symm

/-- The swap that raises the flag. -/
theorem Quiet.raise (hq : Quiet s) (h : s.phases[i]? = some (.raising e)) :
    Raised ({ s with aborted := true }.enter i (.storing e) (.swap i e false)) i e s.history
      [] := by
  have hphases := State.enter_phases { s with aborted := true } h (.storing e) (.swap i e false)
  refine ⟨rfl, rfl, fun j e' => ⟨hq.swaps j e', List.not_mem_nil⟩, .inl ⟨?_, hq.slot⟩, ?_, ?_⟩
  · rw [hphases, if_pos rfl]
  · intro j e' hj
    rw [hphases] at hj
    split at hj
    · rename_i hij; exact hij.symm
    · exact (hq.calm j _ hj).elim
  · intro j
    rw [hphases]
    refine ⟨fun hj => ?_, fun hj => (List.not_mem_nil hj).elim⟩
    split at hj
    · cases hj
    · exact absurd rfl (hq.calm j _ hj).1

theorem Quiet.step (hq : Quiet s) (h : Step W files i s s') :
    Quiet s' ∨ ∃ e, Raised s' i e s.history [] := by
  cases h with
  | refuse h ha => rw [hq.flag] at ha; cases ha
  | start h ha =>
    refine .inl (hq.move h ?_ (by simp))
    trivial
  | @go _ _ _ w h hf hw =>
    refine .inl ((hq.world w).move h ?_ (by simp))
    trivial
  | @finish _ _ w _ h hf hw ho =>
    refine .inl ((hq.world w).move h ?_ (by simp))
    exact ⟨W.ends_started hw, ho⟩
  | @fail _ _ w _ h hf hw =>
    refine .inl ((hq.world w).move h ?_ (by simp))
    trivial
  | raise h ha => exact .inr ⟨_, hq.raise h⟩
  | late h ha => rw [hq.flag] at ha; cases ha
  | store h => exact (hq.calm _ _ h).elim

/-! ## Once the flag is raised -/

theorem Raised.world (hr : Raised s i e before after) (w : σ) :
    Raised { s with world := w } i e before after :=
  ⟨hr.flag, hr.history, hr.once, hr.slot, hr.storing, hr.late⟩

/-- Another task moves on. It does not store, and is not started exactly if it reads the flag
now. -/
theorem Raised.move (hr : Raised s i e before after) {j : Nat} {old phase : Phase π}
    (h : s.phases[j]? = some old) (hne : i ≠ j) (hold : old ≠ .done .notStarted)
    (hp : ∀ e', phase ≠ .storing e') {event : Event} (hev : ∀ k e', event ≠ .swap k e' false)
    (hread : phase = .done .notStarted ∧ event = .read j ∨
      phase ≠ .done .notStarted ∧ readers [event] = []) :
    Raised (s.enter j phase event) i e before (after ++ [event]) := by
  have hphases := s.enter_phases h phase event
  refine ⟨hr.flag, ?_, fun k e' => ⟨(hr.once k e').1, fun hm => ?_⟩, ?_, ?_, ?_⟩
  · rw [State.enter, hr.history]; simp
  · rcases List.mem_append.1 hm with hm | hm
    · exact (hr.once k e').2 hm
    · exact hev k e' (List.mem_singleton.1 hm).symm
  · rw [hphases, if_neg (Ne.symm hne)]
    exact hr.slot
  · intro k e' hk
    rw [hphases] at hk
    split at hk
    · cases hk; exact absurd rfl (hp e')
    · exact hr.storing k e' hk
  · intro k
    rw [hphases, readers_append, List.mem_append]
    have hj : j ∉ readers after := by
      rw [← hr.late j, h]
      intro he
      cases he
      exact hold rfl
    by_cases hk : j = k
    · subst hk
      rw [if_pos rfl]
      rcases hread with ⟨rfl, rfl⟩ | ⟨hphase, hev'⟩
      · exact ⟨fun _ => .inr (List.mem_singleton.2 rfl), fun _ => rfl⟩
      · rw [hev']
        refine ⟨fun he => ?_, fun he => (he.elim hj List.not_mem_nil).elim⟩
        cases he
        exact absurd rfl hphase
    · rw [if_neg hk, hr.late k]
      refine ⟨.inl, fun hm => hm.resolve_right fun hm => ?_⟩
      rcases hread with ⟨rfl, rfl⟩ | ⟨_, hev'⟩
      · exact hk (List.mem_singleton.1 hm).symm
      · rw [hev'] at hm
        exact List.not_mem_nil hm

/-- The task that raised the flag stores its error. -/
theorem Raised.store (hr : Raised s i e before after) {j : Nat} {e' : Service.Error}
    (h : s.phases[j]? = some (.storing e')) :
    Raised ({ s with slot := some e' }.enter j (.done (.failed (some e'))) (.store j e')) i e before
      (after ++ [.store j e']) := by
  have hj : j = i := hr.storing j e' h
  subst hj
  have he : e' = e := by
    rcases hr.slot with ⟨hs, _⟩ | ⟨hs, _⟩
    · rw [h] at hs; cases hs; rfl
    · rw [h] at hs; cases hs
  subst he
  have hphases := State.enter_phases { s with slot := some e' } h (.done (.failed (some e')))
    (.store j e')
  refine ⟨hr.flag, ?_, fun k e'' => ⟨(hr.once k e'').1, fun hm => ?_⟩, .inr ⟨?_, rfl⟩, ?_, ?_⟩
  · rw [State.enter, hr.history]; simp
  · rcases List.mem_append.1 hm with hm | hm
    · exact (hr.once k e'').2 hm
    · cases List.mem_singleton.1 hm
  · rw [hphases, if_pos rfl]
  · intro k e'' hk
    rw [hphases] at hk
    split at hk
    · cases hk
    · exact hr.storing k e'' hk
  · intro k
    rw [hphases, readers_append, show readers [Event.store j e'] = [] from rfl, List.append_nil,
      ← hr.late k]
    split
    · rename_i hk
      subst hk
      rw [h]
      constructor <;> intro he <;> cases he
    · exact Iff.rfl

/-- A task that works, or is yet to begin or to swap, is not the one that raised the flag. -/
theorem Raised.other (hr : Raised s i e before after) {j : Nat} {old : Phase π}
    (h : s.phases[j]? = some old) (hstoring : ∀ e', old ≠ .storing e')
    (hdone : ∀ o, old ≠ .done o) :
    i ≠ j := by
  rintro rfl
  rcases hr.slot with ⟨hs, _⟩ | ⟨hs, _⟩
  · rw [h] at hs; cases hs; exact hstoring e rfl
  · rw [h] at hs; cases hs; exact hdone _ rfl

theorem Raised.step {j : Nat} (hr : Raised s i e before after) (h : Step W files j s s') :
    ∃ event, Raised s' i e before (after ++ [event]) := by
  cases h with
  | refuse h ha =>
    have hne := hr.other h (by simp) (by simp)
    exact ⟨_, hr.move h hne (by simp) (by simp) (by simp) (.inl ⟨rfl, rfl⟩)⟩
  | start h ha => rw [hr.flag] at ha; cases ha
  | @go _ _ _ w h hf hw =>
    have hne := hr.other h (by simp) (by simp)
    exact ⟨_, (hr.world w).move h hne (by simp) (by simp) (by simp) (.inr ⟨by simp, rfl⟩)⟩
  | @finish _ _ w _ h hf hw ho =>
    have hne := hr.other h (by simp) (by simp)
    have ho' := W.ends_started hw
    exact ⟨_, (hr.world w).move h hne (by simp) (by simp) (by simp)
      (.inr ⟨by simpa using ho', rfl⟩)⟩
  | @fail _ _ w _ h hf hw =>
    have hne := hr.other h (by simp) (by simp)
    exact ⟨_, (hr.world w).move h hne (by simp) (by simp) (by simp) (.inr ⟨by simp, rfl⟩)⟩
  | raise h ha => rw [hr.flag] at ha; cases ha
  | late h ha =>
    have hne := hr.other h (by simp) (by simp)
    exact ⟨_, hr.move h hne (by simp) (by simp) (by simp) (.inr ⟨by simp, rfl⟩)⟩
  | store h => exact ⟨_, hr.store h⟩

/-! ## Whole runs -/

theorem Counted.reaches (hc : Counted files s) (h : Reaches W files s s') : Counted files s' := by
  induction h with
  | refl => exact hc
  | tail _ hstep ih =>
    obtain ⟨j, hstep⟩ := hstep
    exact ih.step hstep

/-- The task and the error of a raised flag stay the same. -/
theorem Raised.reaches (hr : Raised s i e before after) (h : Reaches W files s s') :
    ∃ later, Raised s' i e before (after ++ later) := by
  induction h with
  | refl => exact ⟨[], by rw [List.append_nil]; exact hr⟩
  | tail _ hstep ih =>
    obtain ⟨j, hstep⟩ := hstep
    obtain ⟨later, ih⟩ := ih
    obtain ⟨event, hnext⟩ := ih.step hstep
    exact ⟨later ++ [event], by rw [← List.append_assoc]; exact hnext⟩

/-- In every run either no swap has raised the flag, or one has. -/
theorem quiet_or_raised (hq : Quiet s) (h : Reaches W files s s') :
    Quiet s' ∨ ∃ i e before after, Raised s' i e before after := by
  induction h with
  | refl => exact .inl hq
  | tail _ hstep ih =>
    obtain ⟨j, hstep⟩ := hstep
    rcases ih with hq | ⟨i, e, before, after, hr⟩
    · rcases hq.step hstep with hq | ⟨e, hr⟩
      · exact .inl hq
      · exact .inr ⟨_, _, _, _, hr⟩
    · obtain ⟨event, hr⟩ := hr.step hstep
      exact .inr ⟨_, _, _, _, hr⟩

end

/-! ## The result -/

section
variable {σ π : Type} {W : Work σ π} {files : List Path} {s : State σ π} {outcomes : List Outcome}

theorem phase_of_done (hdone : s.phases = outcomes.map .done) (j : Nat) :
    s.phases[j]? = (outcomes[j]?).map .done := by
  rw [hdone, List.getElem?_map]

theorem phase_eq_done_iff (hdone : s.phases = outcomes.map .done) {j : Nat} {o : Outcome} :
    s.phases[j]? = some (.done o) ↔ outcomes[j]? = some o := by
  rw [phase_of_done hdone, Option.map_eq_some_iff]
  constructor
  · rintro ⟨o', ho', he⟩
    cases he
    exact ho'
  · intro h
    exact ⟨o, h, rfl⟩

/-- Tasks are counted by their positions. -/
theorem count_notStarted {js : List Nat} (hn : js.Nodup)
    (h : ∀ j, outcomes[j]? = some .notStarted ↔ j ∈ js) :
    outcomes.count .notStarted = js.length := by
  rw [← List.length_idxsOf (s := 0)]
  refine List.Perm.length_eq ((List.perm_ext_iff_of_nodup List.nodup_idxsOf hn).2 fun j => ?_)
  rw [← h j, List.mem_idxsOf_iff_exists_getElem_pos, List.getElem?_eq_some_iff]
  simp

/-- Each task of a finished run has read the flag. -/
theorem Counted.readers_perm (hc : Counted files s) (hdone : s.phases = outcomes.map .done) :
    (readers s.history).Perm (List.range files.length) := by
  refine (List.perm_ext_iff_of_nodup hc.nodup List.nodup_range).2 fun j => ?_
  rw [hc.begun j, List.mem_range, ← hc.length]
  constructor
  · rintro ⟨phase, hphase, _⟩
    exact (List.getElem?_eq_some_iff.1 hphase).1
  · intro hj
    refine ⟨s.phases[j], List.getElem?_eq_getElem hj, fun hw => ?_⟩
    have hphase := phase_of_done hdone j
    rw [List.getElem?_eq_getElem hj, hw] at hphase
    obtain ⟨o, _, ho⟩ := Option.map_eq_some_iff.1 hphase.symm
    cases ho

/-- A finished run in which no swap raised the flag started all files, and the service was there. -/
theorem Quiet.finished (hq : Quiet s) (hdone : s.phases = outcomes.map .done) {o : Outcome}
    (ho : o ∈ outcomes) : o ≠ .notStarted ∧ o.fatal? = none := by
  obtain ⟨j, hj⟩ := List.getElem?_of_mem ho
  exact hq.calm j _ ((phase_eq_done_iff hdone).2 hj)

/-- The task that raised the flag has stored its error when the run is finished. -/
theorem Raised.finished {i : Nat} {e : Service.Error} {before after : List Event}
    (hr : Raised s i e before after) (hdone : s.phases = outcomes.map .done) :
    outcomes[i]? = some (.failed (some e)) ∧ s.slot = some e := by
  rcases hr.slot with ⟨hs, _⟩ | ⟨hs, hslot⟩
  · rw [phase_of_done hdone] at hs
    obtain ⟨o, _, ho⟩ := Option.map_eq_some_iff.1 hs
    cases ho
  · exact ⟨(phase_eq_done_iff hdone).1 hs, hslot⟩

/-- Whatever raised the flag of a finished run, its slot never had another error. -/
theorem slot_of_finished {w : σ} {s' : State σ π} {e : Service.Error}
    (hrun : Reaches W files (.initial π w files) s') (hnext : Reaches W files s' s)
    (hdone : s.phases = outcomes.map .done) (hslot : s.slot = some e) :
    s'.slot = none ∨ s'.slot = some e := by
  rcases quiet_or_raised (quiet_initial w files) hrun with hq | ⟨i, e', before, after, hr⟩
  · exact .inl hq.slot
  · obtain ⟨later, hr'⟩ := hr.reaches hnext
    obtain ⟨_, hslot'⟩ := hr'.finished hdone
    rw [hslot] at hslot'
    cases hslot'
    rcases hr.slot with ⟨_, h⟩ | ⟨_, h⟩
    · exact .inl h
    · exact .inr h

end

/-- Whatever the tasks do and in whatever order, each file is counted once. The run ends in an error
exactly if the service was gone for some file, namely in that of the task whose swap raised the
flag, which is never replaced. The files that were not started are those whose tasks read the flag
later. -/
theorem result_of_interleaving {σ π : Type} (W : Work σ π) (files : List Path) (w : σ)
    {s : State σ π} (hrun : Reaches W files (.initial π w files) s) {outcomes : List Outcome}
    (hdone : s.phases = outcomes.map .done) {r : Reduction}
    (hr : r.parts.Perm (outcomes.map .ofOutcome)) :
    r.total.filesLinted + r.total.filesSkipped + r.total.filesFailed + r.total.filesNotStarted =
        files.length ∧
      (readers s.history).Perm (List.range files.length) ∧
      ((∃ err, verdict s.slot r.total = .error err) ↔ ∃ e, .failed (some e) ∈ outcomes) ∧
      ((∀ e, .failed (some e) ∉ outcomes) → r.total.filesNotStarted = 0) ∧
      ((∃ e, .failed (some e) ∈ outcomes) →
        ∃ i e before after, s.history = before ++ .swap i e false :: after ∧
          (∀ j e', .swap j e' false ∉ before ∧ .swap j e' false ∉ after) ∧
          outcomes[i]? = some (.failed (some e)) ∧
          verdict s.slot r.total = .error (.ofService e) ∧
          (∀ s', Reaches W files (.initial π w files) s' → Reaches W files s' s →
            s'.slot = none ∨ s'.slot = some e) ∧
          (∀ j, outcomes[j]? = some .notStarted ↔ j ∈ readers after) ∧
          r.total.filesNotStarted = (readers after).length) := by
  have hc := (counted_initial w files).reaches hrun
  have hlength : outcomes.length = files.length := by
    rw [← hc.length, hdone, List.length_map]
  have htotal := r.total_eq hr
  have hcounts := files_sum outcomes
  have hnot := filesNotStarted_sum outcomes
  rw [← htotal] at hcounts hnot
  refine ⟨hcounts.trans hlength, hc.readers_perm hdone, ?_⟩
  rcases quiet_or_raised (quiet_initial w files) hrun with hq | ⟨i, e, before, after, hraised⟩
  · have hgone : ∀ e, .failed (some e) ∉ outcomes := by
      intro e he
      cases (hq.finished hdone he).2
    have hstarted : outcomes.count .notStarted = 0 :=
      List.count_eq_zero.2 fun h => (hq.finished hdone h).1 rfl
    refine ⟨⟨?_, ?_⟩, fun _ => hnot.trans hstarted, ?_⟩
    · rintro ⟨err, herr⟩
      rw [hq.slot] at herr
      cases herr
    · rintro ⟨e, he⟩
      exact absurd he (hgone e)
    · rintro ⟨e, he⟩
      exact absurd he (hgone e)
  · obtain ⟨hi, hslot⟩ := hraised.finished hdone
    have hverdict : verdict s.slot r.total = .error (.ofService e) := by rw [hslot]; rfl
    have hlate : ∀ j, outcomes[j]? = some .notStarted ↔ j ∈ readers after := by
      intro j
      rw [← phase_eq_done_iff hdone, hraised.late j]
    have hnodup : (readers after).Nodup := by
      have hn := hc.nodup
      rw [hraised.history, readers_append] at hn
      exact (List.nodup_append.1 hn).2.1
    refine ⟨⟨fun _ => ⟨e, List.mem_of_getElem? hi⟩, fun _ => ⟨_, hverdict⟩⟩,
      fun h => absurd (List.mem_of_getElem? hi) (h e), fun _ => ?_⟩
    exact ⟨i, e, before, after, hraised.history, hraised.once, hi, hverdict,
      fun s' h1 h2 => slot_of_finished h1 h2 hdone hslot, hlate,
      hnot.trans (count_notStarted hnodup hlate)⟩

/-! Three files. The service is gone for the first two at once; the second swaps the flag first, and
the third is not started. -/

/-- Work that ends at once in the outcome that is assigned to a file. -/
def assigned (outcome : Path → Outcome) (h : ∀ file, outcome file ≠ .notStarted) :
    Work Unit Unit where
  start := ()
  Goes _ _ _ _ _ := False
  Ends _ file _ _ o := o = outcome file
  ends_started := by rintro _ file _ _ _ rfl; exact h file

def raceWork : Work Unit Unit :=
  assigned (fun file => .failed (some (.unavailable file.text))) (by simp)

def raceFiles : List Path := ["/A", "/B", "/C"]

def raceOutcomes : List Outcome :=
  [.failed (some (.unavailable "/A")), .failed (some (.unavailable "/B")), .notStarted]

def raceEnd : State Unit Unit where
  world := ()
  aborted := true
  slot := some (.unavailable "/B")
  phases := raceOutcomes.map .done
  history := [.read 0, .read 1, .work 0, .work 1, .swap 1 (.unavailable "/B") false, .read 2,
    .swap 0 (.unavailable "/A") true, .store 1 (.unavailable "/B")]

theorem reaches_raceEnd : Reaches raceWork raceFiles (.initial Unit () raceFiles) raceEnd := by
  have h : Reaches raceWork raceFiles (.initial Unit () raceFiles) _ := .refl
  have h := h.next (i := 0) (.start rfl rfl)
  have h := h.next (i := 1) (.start rfl rfl)
  have h := h.next (i := 0) (.fail (w := ()) rfl rfl rfl)
  have h := h.next (i := 1) (.fail (w := ()) rfl rfl rfl)
  have h := h.next (i := 1) (.raise rfl rfl)
  have h := h.next (i := 2) (.refuse rfl rfl)
  have h := h.next (i := 0) (.late rfl rfl)
  exact h.next (i := 1) (.store rfl)

/-- The reduction of a worker that has the first file and of one that has the others. -/
def raceReduction : Reduction :=
  .merge (.merge .empty (.one { filesFailed := 1 }))
    (.merge (.one { filesFailed := 1 }) (.one { filesNotStarted := 1 }))

theorem result_of_interleaving_race :
    Reaches raceWork raceFiles (.initial Unit () raceFiles) raceEnd ∧
      ∃ i e before after, raceEnd.history = before ++ .swap i e false :: after ∧
        raceOutcomes[i]? = some (.failed (some e)) ∧
        verdict raceEnd.slot raceReduction.total = .error (.ofService e) ∧
        raceReduction.total.filesNotStarted = (readers after).length := by
  have hparts : raceReduction.parts.Perm (raceOutcomes.map Summary.ofOutcome) := .refl _
  obtain ⟨_, _, _, _, herror⟩ :=
    result_of_interleaving raceWork raceFiles () reaches_raceEnd rfl hparts
  obtain ⟨i, e, before, after, hhistory, _, hi, hverdict, _, _, hlate⟩ :=
    herror ⟨.unavailable "/A", .head _⟩
  exact ⟨reaches_raceEnd, i, e, before, after, hhistory, hi, hverdict, hlate⟩

end ExplicitSelf.Lint
