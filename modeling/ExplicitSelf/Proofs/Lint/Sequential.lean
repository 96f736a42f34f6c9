import ExplicitSelf.Proofs.Lint.Reduction
import ExplicitSelf.Proofs.Lint.Tasks

/-!
# One file after the other

`lintFiles` is one of the runs of tasks: the one in which each task goes on to its end before the
next begins. Its steps, taken in a row, are the work on the file as `lintFile` does it. In
particular there is a run in which all tasks come to their end.

Results:
* `comes_begun`: the steps of a task, with nothing in between, come to its fate.
* `reaches_linted`: the whole of a task, from its look at the flag.
* `lintFiles_reaches`: a run of tasks that does what `lintFiles` does.
-/
namespace ExplicitSelf.Lint

/-! ## A task alone -/

/-- The steps of a task, with nothing in between, from a progress to its end. -/
inductive Alone (answers : Answers) (mode : Mode) (file : Path) :
    World → Progress → World → Outcome → Prop where
  | ends {w w' : World} {p : Progress} {o : Outcome} (h : Ends answers mode file w p w' o) :
    Alone answers mode file w p w' o
  | goes {w w' w'' : World} {p p' : Progress} {o : Outcome} (h : Goes answers mode file w p w' p')
    (rest : Alone answers mode file w' p' w'' o) : Alone answers mode file w p w'' o

/-- A world in which no task has the lock, whatever the log. -/
structure World.AtRest (w : World) (tree : FileTree) (source : ArgumentSource)
    (output : List String) : Prop where
  tree_eq : w.tree = tree
  source_eq : w.source = source
  output_eq : w.output = output
  unlocked : w.locked = false

/-- The steps of a task, with nothing in between, come to a fate, and leave a source behind. -/
def Comes (service : Service) (mode : Mode) (file : Path) (w : World) (p : Progress)
    (source : ArgumentSource) (f : Fate) : Prop :=
  ∃ w', Alone service.answers mode file w p w' f.outcome ∧
    w'.AtRest f.tree source (w.output ++ f.lines)

section
variable {service : Service} {mode : Mode} {file : Path} {w w' : World} {p p' : Progress}
  {source : ArgumentSource} {f : Fate}

theorem Comes.of_goes (h : Goes service.answers mode file w p w' p') (ho : w'.output = w.output)
    (rest : Comes service mode file w' p' source f) : Comes service mode file w p source f := by
  obtain ⟨w'', hrest, hw''⟩ := rest
  exact ⟨w'', .goes h hrest, ho ▸ hw''⟩

/-- A task that ends with nothing reported. -/
theorem Comes.of_ends {o : Outcome} (h : Ends service.answers mode file w p w' o)
    (ho : w'.output = w.output) (hl : w'.locked = false) :
    Comes service mode file w p w'.source ⟨o, w'.tree, []⟩ :=
  ⟨w', .ends h, rfl, rfl, by rw [ho, List.append_nil], hl⟩

theorem comes_reporting (c : Classification) (rest : List String) (w : World) :
    Comes service mode file w (.reporting c rest) w.source
      ⟨.linted c.violations.length c.failures.length .kept, w.tree, rest⟩ := by
  induction rest generalizing w with
  | nil => exact ⟨_, .ends .reported, rfl, rfl, by rw [List.append_nil], rfl⟩
  | cons line rest ih =>
    obtain ⟨w', hrest, hw'⟩ := ih { w with output := w.output ++ [line] }
    rw [List.append_assoc, List.singleton_append] at hw'
    exact ⟨w', .goes .line hrest, hw'⟩

theorem comes_classified (hw : w.locked = false) (arguments : List String) (text : String)
    (seen : List Nat) (c : Classification) :
    Comes service mode file w (.asking arguments text seen [] c) w.source
      (classifiedFate mode w.tree file text c) := by
  by_cases hv : c.violations = []
  · rw [classifiedFate_clean _ _ _ _ hv]
    exact .of_ends (.clean hv) rfl hw
  · cases mode with
    | report =>
      rw [classifiedFate_report _ _ _ hv]
      exact .of_goes (.lock rfl hv hw) rfl (comes_reporting c _ { w with locked := true })
    | overwrite =>
      cases ho : overwrite w.tree file text c.violations with
      | mk t result =>
        cases result with
        | ok new =>
          rw [classifiedFate_overwritten _ _ hv ho]
          exact .of_ends (.overwritten rfl hv ho) rfl hw
        | error e =>
          rw [classifiedFate_unwritten _ _ hv ho]
          exact .of_ends (.unwritten rfl hv ho) rfl hw

theorem comes_asking (hw : w.locked = false) (arguments : List String) (text : String)
    (seen rest : List Nat) (found : Classification) :
    Comes service mode file w (.asking arguments text seen rest found) w.source
      (askingFate service mode w.tree file arguments text seen rest found) := by
  induction rest generalizing w seen found with
  | nil =>
    rw [askingFate_nil]
    exact comes_classified hw arguments text seen found
  | cons o rest ih =>
    by_cases hnew : o ∈ seen
    · rw [askingFate_again hnew]
      exact .of_goes (.again hnew) rfl (ih hw seen found)
    · by_cases hdot : (Source.LineTable.ofText text.toList).charBefore? o = some '.'
      · rw [askingFate_dot hnew hdot]
        exact .of_goes (.dot hnew hdot) rfl (ih hw _ _)
      · let answer := service.cursor w.tree file o arguments
        cases hpart : glance file (.ofText text.toList) o answer with
        | error e =>
          rw [askingFate_gone hnew hdot hpart]
          have hends : Ends service.answers mode file w
              (.asking arguments text seen (o :: rest) found) _ _ := .gone hnew hdot rfl hpart
          exact ⟨_, .ends hends, rfl, rfl, by rw [List.append_nil], hw⟩
        | ok part =>
          rw [askingFate_ask hnew hdot hpart]
          let w' : World := { w with log := w.log ++ [.cursor file o arguments answer] }
          have hw' : w'.locked = false := hw
          exact .of_goes (.ask hnew hdot rfl hpart) rfl (ih hw' _ _)

theorem comes_opened (hw : w.locked = false) (arguments : List String) (text : String) :
    Comes service mode file w (.opened arguments text) w.source
      (openedFate service mode w.tree file arguments text) := by
  unfold openedFate
  cases hi : service.index w.tree file arguments with
  | mk t answer =>
    cases answer with
    | error e => exact .of_ends (.unindexed hi) rfl hw
    | ok root =>
      let w' : World := { w with tree := t, log := w.log ++ [.index file arguments (.ok root)] }
      have hw' : w'.locked = false := hw
      exact .of_goes (.index hi) rfl (comes_asking hw' arguments text [] _ {})

theorem comes_resolved (hw : w.locked = false) (arguments : List String) :
    Comes service mode file w (.resolved arguments) w.source
      (resolvedFate service mode w.tree file arguments) := by
  unfold resolvedFate
  cases ht : w.tree.readText file with
  | error e => exact .of_ends (.unread ht) rfl hw
  | ok text => exact .of_goes (.read ht) rfl (comes_opened hw arguments text)

/-- The steps of a task, with nothing in between, come to its fate. -/
theorem comes_begun (hw : w.locked = false) :
    Comes service mode file w .begun (w.source.resolve w.tree file).source
      (begunFate service mode w.tree file (w.source.resolve w.tree file).result) := by
  unfold begunFate
  split
  · rename_i arguments hr
    let w' : World :=
      { w with source := (w.source.resolve w.tree file).source
               log := w.log ++ [.arguments file arguments] }
    have hw' : w'.locked = false := hw
    exact .of_goes (.resolve hr) rfl (comes_resolved hw' arguments)
  · rename_i hr
    exact .of_ends (.skip hr) rfl hw

end

theorem lintFile_source (service : Service) (mode : Mode) (t : FileTree) (source : ArgumentSource)
    (file : Path) :
    (lintFile service mode t source file).source = (source.resolve t file).source := by
  unfold lintFile
  simp only
  split
  · rfl
  · rfl
  · split
    · rfl
    · unfold lintText
      simp only
      split
      · rfl
      · split <;> rfl

/-- A task that has the world for itself does the work of `lintFile`. -/
theorem alone_lintFile (service : Service) (mode : Mode) (file : Path) {w : World}
    (hw : w.locked = false) :
    ∃ w', Alone service.answers mode file w .begun w'
        (lintFile service mode w.tree w.source file).outcome ∧
      w'.AtRest (lintFile service mode w.tree w.source file).tree
        (lintFile service mode w.tree w.source file).source
        (w.output ++ (lintFile service mode w.tree w.source file).report.flatMap (·.lines)) := by
  have h : Comes service mode file w .begun _ _ := comes_begun hw
  rw [lintFile_fate, ← lintFile_source service mode] at h
  exact h

/-! ## A task in a run -/

section
variable {answers : Answers} {mode : Mode} {files : List Path} {file : Path}
  {s : State World Progress} {i : Nat}

/-- Where a task goes when its work ends. -/
def Outcome.phase (o : Outcome) : Phase Progress :=
  match o.fatal? with
  | some e => .raising e
  | none => .done o

theorem step_of_ends (hf : files[i]? = some file) {p : Progress} {w : World} {o : Outcome}
    (hp : s.phases[i]? = some (.working p)) (h : Ends answers mode file s.world p w o) :
    Step (lintWork answers mode) files i s ({ s with world := w }.enter i o.phase (.work i)) := by
  unfold Outcome.phase
  cases ho : o.fatal? with
  | none => exact .finish hp hf h ho
  | some e =>
    cases o with
    | failed fatal =>
      cases ho
      exact .fail hp hf h
    | _ => cases ho

theorem Alone.reaches (hf : files[i]? = some file) {p : Progress} {w w' : World} {o : Outcome}
    (h : Alone answers mode file w p w' o) (hw : s.world = w)
    (hp : s.phases[i]? = some (.working p)) :
    ∃ s', Reaches (lintWork answers mode) files s s' ∧ s'.world = w' ∧
      s'.phases = s.phases.set i o.phase ∧ s'.aborted = s.aborted ∧ s'.slot = s.slot := by
  induction h generalizing s with
  | ends h =>
    subst hw
    exact ⟨_, Relation.ReflTransGen.single ⟨i, step_of_ends hf hp h⟩, rfl, rfl, rfl, rfl⟩
  | @goes w w₁ w₂ p p' o h rest ih =>
    subst hw
    have hstep : Step (lintWork answers mode) files i s
        ({ s with world := w₁ }.enter i (.working p') (.work i)) := .go hp hf h
    have hp' : ({ s with world := w₁ }.enter i (.working p') (.work i)).phases[i]? =
        some (.working p') := by
      rw [State.enter_phases { s with world := w₁ } hp, if_pos rfl]
    obtain ⟨s', hreach, hworld, hphases, haborted, hslot⟩ := ih rfl hp'
    refine ⟨s', Relation.ReflTransGen.head ⟨i, hstep⟩ hreach, hworld, ?_, haborted, hslot⟩
    rw [hphases, State.enter, List.set_set]

/-- A task that is about to swap the flag raises it and stores its error. -/
theorem reaches_raised (W : Work World Progress) (files : List Path) {e : Service.Error}
    (hp : s.phases[i]? = some (.raising e)) (ha : s.aborted = false) :
    ∃ s', Reaches W files s s' ∧ s'.world = s.world ∧
      s'.phases = s.phases.set i (.done (.failed (some e))) ∧ s'.aborted = true ∧
      s'.slot = some e := by
  have hraise : Step W files i s _ := .raise hp ha
  have hp' : ({ s with aborted := true }.enter i (.storing e) (.swap i e false)).phases[i]? =
      some (.storing e) := by
    rw [State.enter_phases { s with aborted := true } hp, if_pos rfl]
  have hstore : Step W files i _ _ := .store hp'
  refine ⟨_, (Relation.ReflTransGen.single ⟨i, hraise⟩).tail ⟨i, hstore⟩, rfl, ?_, rfl, rfl⟩
  simp only [State.enter, List.set_set]

/-- A task that does not find it raised, and is not disturbed. -/
theorem reaches_linted (service : Service) (mode : Mode) (hf : files[i]? = some file)
    (hp : s.phases[i]? = some .waiting) (ha : s.aborted = false) (hs : s.slot = none)
    (hl : s.world.locked = false) :
    ∃ s', Reaches (lintWork service.answers mode) files s s' ∧
      s'.world.AtRest (lintFile service mode s.world.tree s.world.source file).tree
        (lintFile service mode s.world.tree s.world.source file).source
        (s.world.output ++
          (lintFile service mode s.world.tree s.world.source file).report.flatMap (·.lines)) ∧
      s'.phases =
        s.phases.set i (.done (lintFile service mode s.world.tree s.world.source file).outcome) ∧
      s'.aborted = (lintFile service mode s.world.tree s.world.source file).outcome.fatal?.isSome ∧
      s'.slot = (lintFile service mode s.world.tree s.world.source file).outcome.fatal? := by
  have hstart : Step (lintWork service.answers mode) files i s
      (s.enter i (.working .begun) (.read i)) :=
    .start hp ha
  have hp₁ : (s.enter i (.working .begun) (.read i)).phases[i]? = some (.working .begun) := by
    rw [s.enter_phases hp, if_pos rfl]
  obtain ⟨w', halone, hrest⟩ := alone_lintFile service mode file hl
  obtain ⟨s₂, hreach, hworld, hphases, haborted, hslot⟩ :=
    halone.reaches hf (s := s.enter i (.working .begun) (.read i)) rfl hp₁
  subst hworld
  have hreach := Relation.ReflTransGen.head ⟨i, hstart⟩ hreach
  rw [State.enter, List.set_set] at hphases
  generalize (lintFile service mode s.world.tree s.world.source file).outcome = o at *
  cases ho : o.fatal? with
  | none =>
    rw [Outcome.phase, ho] at hphases
    exact ⟨s₂, hreach, hrest, hphases, haborted.trans ha, hslot.trans hs⟩
  | some e =>
    rw [Outcome.phase, ho] at hphases
    have ho' : o = .failed (some e) := by
      cases o with
      | failed fatal => cases ho; rfl
      | _ => cases ho
    have hi := (List.getElem?_eq_some_iff.1 hp).1
    have hp₂ : s₂.phases[i]? = some (.raising e) := by
      rw [hphases, List.getElem?_set_self hi]
    obtain ⟨s₃, hnext, hworld₃, hphases₃, haborted₃, hslot₃⟩ :=
      reaches_raised (lintWork service.answers mode) files hp₂ (haborted.trans ha)
    refine ⟨s₃, hreach.trans hnext, hworld₃ ▸ hrest, ?_, haborted₃, hslot₃⟩
    rw [hphases₃, hphases, List.set_set, ho']

end

/-! ## All files -/

/-- A run of tasks is where a run of `lintFiles` is, when the files of `os` are done. -/
structure InStep (s : State World Progress) (r : Run) (os : List Outcome) : Prop where
  world : s.world.AtRest r.tree r.source (r.report.flatMap (·.lines))
  slot : s.slot = r.fatal
  aborted : s.aborted = r.fatal.isSome
  summary : r.summary = (os.map Summary.ofOutcome).sum

section
variable (service : Service) (mode : Mode) {files : List Path} {file : Path} {rest : List Path}
  {s : State World Progress} {r : Run} {os : List Outcome}

/-- The phases of a run in which some files are done and no other task has begun. -/
def donePhases (os : List Outcome) (rest : List Path) : List (Phase Progress) :=
  os.map .done ++ rest.map fun _ => .waiting

theorem donePhases_next (os : List Outcome) (file : Path) (rest : List Path) :
    (donePhases os (file :: rest))[os.length]? = some .waiting := by
  rw [donePhases, List.getElem?_append_right (by simp)]
  simp

theorem donePhases_set (os : List Outcome) (file : Path) (rest : List Path) (o : Outcome) :
    (donePhases os (file :: rest)).set os.length (.done o) = donePhases (os ++ [o]) rest := by
  unfold donePhases
  rw [List.set_append_right _ _ (by simp)]
  simp

theorem Run.step_of_fatal (h : r.fatal.isSome = true) :
    r.step service mode file = { r with summary := r.summary + .ofOutcome .notStarted } := by
  rw [Run.step, if_pos h]

/-- The next file. -/
theorem InStep.next (h : InStep s r os) (hf : files[os.length]? = some file)
    (hp : s.phases = donePhases os (file :: rest)) :
    ∃ s' o, Reaches (lintWork service.answers mode) files s s' ∧
      InStep s' (r.step service mode file) (os ++ [o]) ∧
      s'.phases = donePhases (os ++ [o]) rest := by
  have hwait : s.phases[os.length]? = some .waiting := hp ▸ donePhases_next os file rest
  cases hfatal : r.fatal with
  | some e =>
    have hsome : r.fatal.isSome = true := by rw [hfatal]; rfl
    have ha : s.aborted = true := h.aborted.trans hsome
    refine ⟨_, .notStarted, Relation.ReflTransGen.single ⟨_, .refuse hwait ha⟩, ?_, ?_⟩
    · rw [Run.step_of_fatal service mode hsome]
      refine ⟨h.world, h.slot, h.aborted, ?_⟩
      simp [h.summary]
    · rw [State.enter, hp]
      exact donePhases_set os file rest .notStarted
  | none =>
    have ha : s.aborted = false := by rw [h.aborted, hfatal]; rfl
    obtain ⟨s', hreach, hworld, hphases, haborted, hslot⟩ :=
      reaches_linted service mode hf hwait ha (h.slot.trans hfatal) h.world.unlocked
    rw [h.world.tree_eq, h.world.source_eq, h.world.output_eq] at hworld
    rw [h.world.tree_eq, h.world.source_eq] at hphases haborted hslot
    refine ⟨s', (lintFile service mode r.tree r.source file).outcome, hreach, ?_, ?_⟩
    · rw [Run.step, if_neg (by simp [hfatal])]
      refine ⟨?_, hslot, haborted, ?_⟩
      · rw [List.flatMap_append]
        exact hworld
      · simp [h.summary]
    · rw [hphases, hp]
      exact donePhases_set os file rest _

/-- The files that are left. -/
theorem InStep.all (h : InStep s r os) {begun : List Path} (hfiles : files = begun ++ rest)
    (hlength : os.length = begun.length) (hp : s.phases = donePhases os rest) :
    ∃ s' os', Reaches (lintWork service.answers mode) files s s' ∧
      InStep s' (rest.foldl (Run.step service mode) r) os' ∧ s'.phases = os'.map .done := by
  induction rest generalizing s r os begun with
  | nil => exact ⟨s, os, .refl, h, by simpa [donePhases] using hp⟩
  | cons file rest ih =>
    have hf : files[os.length]? = some file := by
      rw [hfiles, List.getElem?_append_right (by omega)]
      simp [hlength]
    obtain ⟨s₁, o, hreach, hnext, hp₁⟩ := h.next service mode hf hp
    have hfiles' : files = (begun ++ [file]) ++ rest := by simp [hfiles]
    obtain ⟨s₂, os', hreach₂, hall, hdone⟩ := ih hnext hfiles' (by simp [hlength]) hp₁
    exact ⟨s₂, os', hreach.trans hreach₂, hall, hdone⟩

end

/-- There is a run of tasks that does what `lintFiles` does. -/
theorem lintFiles_reaches (service : Service) (mode : Mode) (t : FileTree) (source : ArgumentSource)
    (files : List Path) :
    ∃ (s : State World Progress) (os : List Outcome),
      Reaches (lintWork service.answers mode) files
        (.initial Progress { tree := t, source := source } files) s ∧
      s.phases = os.map .done ∧
      s.world.tree = (lintFiles service mode t source files).tree ∧
      s.world.output = (lintFiles service mode t source files).report.flatMap (·.lines) ∧
      s.slot = (lintFiles service mode t source files).fatal ∧
      (lintFiles service mode t source files).summary = (os.map Summary.ofOutcome).sum := by
  have hstart : InStep (.initial Progress { tree := t, source := source } files)
      { tree := t, source := source } [] := ⟨⟨rfl, rfl, rfl, rfl⟩, rfl, rfl, rfl⟩
  obtain ⟨s, os, hreach, hall, hdone⟩ :=
    hstart.all service mode (List.nil_append files).symm rfl rfl
  exact ⟨s, os, hreach, hdone, hall.world.tree_eq, hall.world.output_eq, hall.slot, hall.summary⟩

end ExplicitSelf.Lint
