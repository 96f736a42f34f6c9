import ExplicitSelf.Error
import ExplicitSelf.Lint.Summary
import ExplicitSelf.Path.Basic
import Mathlib.Logic.Relation

/-!
# Tasks side by side

The files of a run are tasks of workers. A task first reads the flag that says whether the run is
aborted. If it is not, the task works on its file. If the service is gone then, the task swaps the
flag, and if its swap was the one that raised it, it stores its error. Any task may take the next
step.

What the work on a file is, and what tasks share while they work, is left open (`Work`): only that
the work ends in an outcome, which is not that of a file that was never started.

* `Work`, `Phase`, `Event`, `State`: a run of tasks. A state remembers all events so far.
* `Step`: what one task can do next; `Reaches`: any number of steps, of any tasks.
* `readers`: the tasks that read the flag in a list of events.
-/
namespace ExplicitSelf.Lint

/-- The work on a file, by steps from one progress `π` to the next, in a world `σ` that tasks
share. -/
structure Work (σ π : Type) where
  start : π
  /-- The work goes on, in a world that it may have changed. -/
  Goes : σ → Path → π → σ → π → Prop
  /-- The work ends. -/
  Ends : σ → Path → π → σ → Outcome → Prop
  ends_started : ∀ {w file p w' o}, Ends w file p w' o → o ≠ .notStarted

/-- Where a task is. -/
inductive Phase (π : Type) where
  /-- It has not read the flag. -/
  | waiting
  | working (p : π)
  /-- The service is gone, and the task has yet to swap the flag. -/
  | raising (e : Service.Error)
  /-- Its swap raised the flag, and it has yet to store its error. -/
  | storing (e : Service.Error)
  | done (o : Outcome)

/-- What a task does, for the order in which tasks do it. -/
inductive Event where
  | read (i : Nat)
  | work (i : Nat)
  /-- The flag is swapped for a raised one; with what it was before. -/
  | swap (i : Nat) (e : Service.Error) (was : Bool)
  | store (i : Nat) (e : Service.Error)
  deriving DecidableEq, Repr

structure State (σ π : Type) where
  world : σ
  aborted : Bool
  slot : Option Service.Error
  phases : List (Phase π)
  history : List Event

section
variable {σ π : Type}

/-- The state in which no task has done anything. -/
def State.initial (π : Type) (w : σ) (files : List Path) : State σ π :=
  ⟨w, false, none, files.map fun _ => .waiting, []⟩

/-- A task goes on to another phase. -/
def State.enter (s : State σ π) (i : Nat) (phase : Phase π) (event : Event) : State σ π :=
  { s with phases := s.phases.set i phase, history := s.history ++ [event] }

/-- The error of an outcome that ends a run. -/
def Outcome.fatal? : Outcome → Option Service.Error
  | .failed fatal => fatal
  | _ => none

/-- What task `i` can do next. -/
inductive Step (W : Work σ π) (files : List Path) (i : Nat) : State σ π → State σ π → Prop where
  | refuse {s : State σ π} (h : s.phases[i]? = some .waiting) (ha : s.aborted = true) :
    Step W files i s (s.enter i (.done .notStarted) (.read i))
  | start {s : State σ π} (h : s.phases[i]? = some .waiting) (ha : s.aborted = false) :
    Step W files i s (s.enter i (.working W.start) (.read i))
  | go {s : State σ π} {file : Path} {p p' : π} {w : σ} (h : s.phases[i]? = some (.working p))
    (hf : files[i]? = some file) (hw : W.Goes s.world file p w p') :
    Step W files i s ({ s with world := w }.enter i (.working p') (.work i))
  | finish {s : State σ π} {file : Path} {p : π} {w : σ} {o : Outcome}
    (h : s.phases[i]? = some (.working p)) (hf : files[i]? = some file)
    (hw : W.Ends s.world file p w o) (ho : o.fatal? = none) :
    Step W files i s ({ s with world := w }.enter i (.done o) (.work i))
  | fail {s : State σ π} {file : Path} {p : π} {w : σ} {e : Service.Error}
    (h : s.phases[i]? = some (.working p)) (hf : files[i]? = some file)
    (hw : W.Ends s.world file p w (.failed (some e))) :
    Step W files i s ({ s with world := w }.enter i (.raising e) (.work i))
  | raise {s : State σ π} {e : Service.Error} (h : s.phases[i]? = some (.raising e))
    (ha : s.aborted = false) :
    Step W files i s ({ s with aborted := true }.enter i (.storing e) (.swap i e false))
  | late {s : State σ π} {e : Service.Error} (h : s.phases[i]? = some (.raising e))
    (ha : s.aborted = true) :
    Step W files i s (s.enter i (.done (.failed (some e))) (.swap i e true))
  | store {s : State σ π} {e : Service.Error} (h : s.phases[i]? = some (.storing e)) :
    Step W files i s ({ s with slot := some e }.enter i (.done (.failed (some e))) (.store i e))

/-- Any number of steps, of any tasks. -/
def Reaches (W : Work σ π) (files : List Path) : State σ π → State σ π → Prop :=
  Relation.ReflTransGen fun s s' => ∃ i, Step W files i s s'

theorem Reaches.next {W : Work σ π} {files : List Path} {s t u : State σ π} {i : Nat}
    (h : Reaches W files s t) (hstep : Step W files i t u) : Reaches W files s u :=
  Relation.ReflTransGen.tail h ⟨i, hstep⟩

/-- The result of a run, for the error in the slot and the merged summary. -/
def verdict (slot : Option Service.Error) (total : Summary) : Except Error Summary :=
  match slot with
  | some e => .error (.ofService e)
  | none => .ok total

/-- The tasks that read the flag, in the order of their reads. -/
def readers (events : List Event) : List Nat :=
  events.filterMap fun
    | .read i => some i
    | _ => none

/-! ## Entering a phase -/

theorem State.enter_phases (s : State σ π) {i : Nat} {old : Phase π} (h : s.phases[i]? = some old)
    (phase : Phase π) (event : Event) (j : Nat) :
    (s.enter i phase event).phases[j]? = if i = j then some phase else s.phases[j]? := by
  have hi := (List.getElem?_eq_some_iff.1 h).1
  simp only [State.enter, List.getElem?_set, hi, if_true]

theorem State.phase_initial {w : σ} {files : List Path} {j : Nat} {phase : Phase π}
    (h : (State.initial π w files).phases[j]? = some phase) : phase = .waiting := by
  rw [State.initial, List.getElem?_map] at h
  obtain ⟨_, _, rfl⟩ := Option.map_eq_some_iff.1 h
  rfl

theorem readers_append (a b : List Event) : readers (a ++ b) = readers a ++ readers b :=
  List.filterMap_append

end

end ExplicitSelf.Lint
