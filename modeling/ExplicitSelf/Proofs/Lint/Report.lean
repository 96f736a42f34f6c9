import ExplicitSelf.Proofs.Lint.Fates

/-!
# One block of lines for each file

A task writes to the report only while it has the lock, and it keeps the lock until all its lines
are written. So at each moment of a run the report has the lines of the tasks that are done, one
task after the other, and then the first lines of the task that has the lock.

Results:
* `Output.silent`, `Output.holder`: the report when a task does not write, and when it does.
* `Written.step`: each step of each task keeps the report in blocks.
-/
namespace ExplicitSelf.Lint

/-- The lines that a task has yet to write while it has the lock. -/
def Phase.left? : Phase Progress → Option (List String)
  | .working p => p.left?
  | _ => none

/-- The lines of a task's report. -/
def Setting.block (S : Setting) (j : Nat) : List String :=
  ((S.files[j]?).map fun file => (S.alone file).lines).getD []

section
variable {S : Setting} {s s' : State World Progress} {i : Nat} {file : Path} {order : List Nat}
  {w : World} {old phase : Phase Progress} {rest : List String}

theorem Setting.block_eq (hf : S.files[i]? = some file) : S.block i = (S.alone file).lines := by
  rw [Setting.block, hf]
  rfl

/-- The report, when tasks are done in some order. -/
inductive Output (S : Setting) (s : State World Progress) (order : List Nat) : Prop where
  /-- No task has the lock. -/
  | free (hl : s.world.locked = false)
    (hleft : ∀ (j : Nat) (phase : Phase Progress), s.phases[j]? = some phase → phase.left? = none)
    (ho : s.world.output = order.flatMap S.block)
  /-- One task has it, and has written a part of its lines. -/
  | held {i : Nat} {phase : Phase Progress} {rest written : List String}
    (hl : s.world.locked = true) (hi : s.phases[i]? = some phase) (hr : phase.left? = some rest)
    (honly : ∀ (j : Nat) (phase' : Phase Progress), s.phases[j]? = some phase' →
      phase'.left? ≠ none → j = i)
    (ho : s.world.output = order.flatMap S.block ++ written) (hb : S.block i = written ++ rest)

/-- The report has the lines of the tasks that are done, one after the other. -/
structure Written (S : Setting) (s : State World Progress) (order : List Nat) : Prop where
  nodup : order.Nodup
  done : ∀ j, j ∈ order ↔ ∃ o, s.phases[j]? = some (.done o)
  output : Output S s order

theorem written_initial (S : Setting) :
    Written S (.initial Progress { tree := S.tree, source := S.source } S.files) [] := by
  refine ⟨List.nodup_nil, fun j => ⟨fun h => (List.not_mem_nil h).elim, ?_⟩, .free rfl ?_ rfl⟩
  · rintro ⟨o, h⟩
    cases State.phase_initial h
  · intro j phase h
    rw [State.phase_initial h]
    rfl

/-- A task without the lock takes a step and does not take the lock. -/
theorem Output.silent (h : Output S s order) (hi : s.phases[i]? = some old)
    (hleft : old.left? = none) (hleft' : phase.left? = none) (ho : w.output = s.world.output)
    (hl : w.locked = s.world.locked) {order' : List Nat}
    (horder : order'.flatMap S.block = order.flatMap S.block) (event : Event) :
    Output S ({ s with world := w }.enter i phase event) order' := by
  have hphases := State.enter_phases { s with world := w } hi phase event
  cases h with
  | free hfree hnone hout =>
    refine .free (hl.trans hfree) (fun j p hj => ?_) ?_
    · rw [hphases] at hj
      split at hj
      · cases hj; exact hleft'
      · exact hnone j p hj
    · rw [horder]
      exact ho.trans hout
  | @held k p rest written hheld hk hr honly hout hb =>
    have hik : i ≠ k := by
      rintro rfl
      rw [hi] at hk
      cases hk
      rw [hleft] at hr
      cases hr
    refine .held (hl.trans hheld) ?_ hr (fun j p' hj hp' => ?_) ?_ hb
    · rw [hphases, if_neg hik]
      exact hk
    · rw [hphases] at hj
      split at hj
      · cases hj; exact absurd hleft' hp'
      · exact honly j p' hj hp'
    · rw [horder]
      exact ho.trans hout

/-- A task that has lines left to write has the lock, and no other has. -/
theorem Output.holder (h : Output S s order) (hi : s.phases[i]? = some old)
    (hleft : old.left? = some rest) :
    s.world.locked = true ∧
      (∀ (j : Nat) (p : Phase Progress), s.phases[j]? = some p → p.left? ≠ none → j = i) ∧
      ∃ written, s.world.output = order.flatMap S.block ++ written ∧
        S.block i = written ++ rest := by
  cases h with
  | free _ hnone _ =>
    have hn := hnone i old hi
    rw [hleft] at hn
    cases hn
  | held hheld hk hr honly hout hb =>
    obtain rfl := honly i old hi (by rw [hleft]; simp)
    rw [hi] at hk
    cases hk
    rw [hleft] at hr
    cases hr
    exact ⟨hheld, honly, _, hout, hb⟩

/-- A task goes on. -/
theorem Written.move (h : Written S s order) (hi : s.phases[i]? = some old)
    (hold : ∀ o, old ≠ .done o) (hne : ∀ o, phase ≠ .done o)
    (hp : Prints (S.block i) s.world old.left? w phase.left?) (event : Event) :
    Written S ({ s with world := w }.enter i phase event) order := by
  have hphases := State.enter_phases { s with world := w } hi phase event
  refine ⟨h.nodup, fun j => ?_, ?_⟩
  · rw [h.done j, hphases]
    split
    · rename_i hij
      subst hij
      rw [hi]
      constructor
      · rintro ⟨o, ho⟩; cases ho; exact absurd rfl (hold o)
      · rintro ⟨o, ho⟩; cases ho; exact absurd rfl (hne o)
    · exact Iff.rfl
  generalize hleft : old.left? = left at hp
  generalize hleft' : phase.left? = left' at hp
  cases hp with
  | silent ho hl => exact h.output.silent hi hleft hleft' ho hl rfl event
  | lock hfree ho hl =>
    cases h.output with
    | free _ hnone hout =>
      have hb : S.block i = [] ++ S.block i := rfl
      refine .held hl ?_ hleft' (fun j p hj hp => ?_) ?_ hb
      · rw [hphases, if_pos rfl]
      · rw [hphases] at hj
        split at hj
        · rename_i hij; exact hij.symm
        · exact absurd (hnone j p hj) hp
      · rw [List.append_nil]
        exact ho.trans hout
    | held hheld _ _ _ _ _ => rw [hfree] at hheld; cases hheld
  | @line _ line rest ho hl =>
    obtain ⟨hheld, honly, written, hout, hb⟩ := h.output.holder hi hleft
    have hb' : S.block i = (written ++ [line]) ++ rest := by
      rw [hb]
      simp
    refine .held (hl.trans hheld) ?_ hleft' (fun j p hj hp => ?_) ?_ hb'
    · rw [hphases, if_pos rfl]
    · rw [hphases] at hj
      split at hj
      · rename_i hij; exact hij.symm
      · exact honly j p hj hp
    · rw [← List.append_assoc, ← hout]
      exact ho

/-- A task comes to its end. -/
theorem Written.finish (h : Written S s order) (hi : s.phases[i]? = some old)
    (hold : ∀ o, old ≠ .done o) (hc : Closes (S.block i) s.world old.left? w) (o : Outcome)
    (event : Event) :
    Written S ({ s with world := w }.enter i (.done o) event) (order ++ [i]) := by
  have hphases := State.enter_phases { s with world := w } hi (.done o) event
  have hfresh : i ∉ order := by
    rw [h.done i, hi]
    rintro ⟨o', ho'⟩
    cases ho'
    exact hold o' rfl
  refine ⟨?_, fun j => ?_, ?_⟩
  · rw [List.nodup_append]
    refine ⟨h.nodup, by simp, ?_⟩
    rintro a ha b hb rfl
    exact hfresh (List.mem_singleton.1 hb ▸ ha)
  · rw [List.mem_append, List.mem_singleton, h.done j, hphases]
    split
    · rename_i hij
      subst hij
      exact ⟨fun _ => ⟨o, rfl⟩, fun _ => .inr rfl⟩
    · rename_i hij
      exact ⟨fun hj => hj.resolve_right (Ne.symm hij), .inl⟩
  have hflat : (order ++ [i]).flatMap S.block = order.flatMap S.block ++ S.block i := by simp
  generalize hleft : old.left? = left at hc
  cases hc with
  | silent hnil ho hl =>
    rw [hnil, List.append_nil] at hflat
    exact h.output.silent hi hleft rfl ho hl hflat event
  | unlock ho hl =>
    obtain ⟨_, honly, written, hout, hb⟩ := h.output.holder hi hleft
    refine .free hl (fun j p hj => ?_) ?_
    · rw [hphases] at hj
      split at hj
      · cases hj; rfl
      · rename_i hij
        by_contra hp
        exact hij (honly j p hj hp).symm
    · rw [hflat, hb, List.append_nil]
      exact ho.trans hout

theorem Written.step (hs : S.service.Steady) (hsource : S.SteadySource) (hsound : Sound S s)
    (h : Written S s order) (hstep : Step (lintWork S.service.answers S.mode) S.files i s s')
    (ha : s'.aborted = false) : ∃ order', Written S s' order' := by
  cases hstep with
  | refuse hi ha' => rw [hsound.flag] at ha'; cases ha'
  | start hi _ =>
    have hprints : Prints (S.block i) s.world (Phase.left? .waiting) s.world
        (Phase.left? (.working .begun)) := .silent rfl rfl
    exact ⟨order, h.move hi (by simp) (by simp) hprints _⟩
  | @go file p p' w hi hf hw =>
    have hp := Goes.prints S.service S.tree (S.source.resolve S.tree file).result hw
    rw [hsound.phase i _ _ hf hi, ← Setting.block_eq hf] at hp
    have hprints : Prints (S.block i) s.world (Phase.left? (.working p)) w
        (Phase.left? (.working p')) := hp
    exact ⟨order, h.move hi (by simp) (by simp) hprints _⟩
  | finish hi hf hw ho =>
    have hu := hsound.unchanged i _ _ hf hi (by simp)
    obtain ⟨_, _, hcloses⟩ := Ends.fate hs hu (hsound.answer hsource hf) hw
    rw [hsound.phase i _ _ hf hi, ← Setting.block_eq hf] at hcloses
    exact ⟨order ++ [i], h.finish hi (by simp) hcloses _ _⟩
  | @fail _ p w e hi hf hw =>
    obtain ⟨_, _, ho, hl, hleft⟩ := Ends.of_fatal hs hw
    have hprints : Prints (S.block i) s.world (Phase.left? (.working p)) w
        (Phase.left? (.raising e)) := by
      rw [Phase.left?, hleft]
      exact .silent ho hl
    exact ⟨order, h.move hi (by simp) (by simp) hprints _⟩
  | raise hi ha' => cases ha
  | late hi ha' => rw [hsound.flag] at ha'; cases ha'
  | store hi =>
    have hlt : i < S.files.length := hsound.length ▸ (List.getElem?_eq_some_iff.1 hi).1
    exact (hsound.phase i _ _ (List.getElem?_eq_getElem hlt) hi).elim

end

end ExplicitSelf.Lint
