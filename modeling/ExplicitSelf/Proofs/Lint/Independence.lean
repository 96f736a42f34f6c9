import ExplicitSelf.Proofs.Lint.Abort
import ExplicitSelf.Proofs.Lint.Inquiry
import ExplicitSelf.Proofs.Lint.Report
import ExplicitSelf.Proofs.Lint.Sequential
import ExplicitSelf.Proofs.Lint.Sources
import Mathlib

/-!
# Schedules do not matter

If the service is never gone in a run, it does not matter which task takes which step when, nor in
which order summaries are merged. The files and the summary are those of `lintFiles`. The report has
one block of lines for each file; only the order of the blocks can differ.

Results:
* `sound_or_gone`: what holds in every run, unless the service is gone for some file.
* `Sound.content_eq`, `Written.finished`: the files and the report when all tasks are done.
* `schedule_independent`: any two runs have the same summary, blocks of lines and files.
-/
namespace ExplicitSelf.Lint

open BuildLog (Log)

/-! ## Whole runs -/

section
variable {S : Setting} {s s' : State World Progress} {i : Nat}

theorem Step.aborted {W : Work World Progress} {files : List Path} (h : Step W files i s s')
    (ha : s.aborted = true) : s'.aborted = true := by
  cases h <;> first | exact ha | rfl

theorem sound_or_gone (hs : S.service.Steady) (hsource : S.SteadySource) (hd : S.Distinct)
    (h : S.Runs s) :
    (Sound S s ∧ ∃ order, Written S s order) ∨ s.aborted = true ∧ S.Gone := by
  induction h with
  | refl => exact .inl ⟨sound_initial S, [], written_initial S⟩
  | tail _ hstep ih =>
    obtain ⟨i, hstep⟩ := hstep
    rcases ih with ⟨hsound, order, hwritten⟩ | ⟨ha, hgone⟩
    · rcases hsound.step hs hsource hd hstep with hnext | hgone
      · exact .inl ⟨hnext, hwritten.step hs hsource hsound hstep hnext.flag⟩
      · exact .inr hgone
    · exact .inr ⟨hstep.aborted ha, hgone⟩

/-- A run that ended without an error. -/
theorem sound_of_slot (hs : S.service.Steady) (hsource : S.SteadySource) (hd : S.Distinct)
    (h : S.Runs s) {os : List Outcome} (hdone : s.phases = os.map .done) (hslot : s.slot = none) :
    Sound S s ∧ ∃ order, Written S s order := by
  have hquiet : s.aborted = false := by
    rcases quiet_or_raised (quiet_initial _ _) h with hq | ⟨_, _, _, _, hr⟩
    · exact hq.flag
    · rw [(hr.finished hdone).2] at hslot
      cases hslot
  rcases sound_or_gone hs hsource hd h with hsound | ⟨ha, _⟩
  · exact hsound
  · rw [hquiet] at ha
    cases ha

/-- If the service is not gone in one run, it is in no other. -/
theorem sound_of_not_gone (hs : S.service.Steady) (hsource : S.SteadySource) (hd : S.Distinct)
    (h : S.Runs s) (hgone : ¬S.Gone) :
    (Sound S s ∧ ∃ order, Written S s order) ∧ s.slot = none := by
  rcases sound_or_gone hs hsource hd h with hsound | ⟨_, hgone'⟩
  · refine ⟨hsound, ?_⟩
    rcases quiet_or_raised (quiet_initial _ _) h with hq | ⟨_, _, _, _, hr⟩
    · exact hq.slot
    · have hflag := hsound.1.flag
      rw [hr.flag] at hflag
      cases hflag
  · exact absurd hgone' hgone

end

/-! ## Finished runs -/

section
variable {S : Setting} {s s' : State World Progress} {os os' : List Outcome} {order : List Nat}

theorem Sound.outcomes_eq (h : Sound S s) (hdone : s.phases = os.map .done) :
    os = S.files.map fun file => (S.alone file).outcome := by
  have hlength : os.length = S.files.length := by
    rw [← h.length, hdone, List.length_map]
  refine List.ext_getElem (by simpa using hlength) fun j hj hj' => ?_
  have hf : S.files[j]? = some S.files[j] := List.getElem?_eq_getElem (by omega)
  have hp := (phase_eq_done_iff hdone).2 (List.getElem?_eq_getElem hj)
  rw [List.getElem_map]
  exact (h.phase j _ _ hf hp).1

theorem Sound.not_gone (h : Sound S s) (hdone : s.phases = os.map .done) : ¬S.Gone := by
  rintro ⟨file, hfile, hfatal⟩
  obtain ⟨j, hj⟩ := List.getElem?_of_mem hfile
  have ho : os[j]? = some (S.alone file).outcome := by
    rw [h.outcomes_eq hdone, List.getElem?_map, hj]
    rfl
  exact hfatal (h.phase j _ _ hj ((phase_eq_done_iff hdone).2 ho)).2

theorem Sound.done (h : Sound S s) (hdone : s.phases = os.map .done) {file : Path}
    (hfile : file ∈ S.files) : S.Done s file := by
  obtain ⟨j, hj⟩ := List.getElem?_of_mem hfile
  refine ⟨j, (S.alone file).outcome, hj, (phase_eq_done_iff hdone).2 ?_⟩
  rw [h.outcomes_eq hdone, List.getElem?_map, hj]
  rfl

/-- Finished runs have the same files. -/
theorem Sound.content_eq (h : Sound S s) (h' : Sound S s') (hdone : s.phases = os.map .done)
    (hdone' : s'.phases = os'.map .done) (path : Path) :
    s.world.tree.content path = s'.world.tree.content path := by
  refine FileTree.content_congr ?_ (fun q => ?_) path
  · rw [h.rewritten.working.1, h'.rewritten.working.1]
  · by_cases hq : ∃ file ∈ S.files,
        FileTree.entryAt? (S.alone file).tree q ≠ FileTree.entryAt? S.tree q
    · obtain ⟨file, hfile, hq⟩ := hq
      rw [h.touched file (h.done hdone hfile) q hq, h'.touched file (h'.done hdone' hfile) q hq]
    · have hnone : ∀ file ∈ S.files,
          FileTree.entryAt? (S.alone file).tree q = FileTree.entryAt? S.tree q := by
        intro file hfile
        by_contra hne
        exact hq ⟨file, hfile, hne⟩
      rw [h.untouched q, h'.untouched q]
      · rintro file ⟨j, _, hj, _⟩
        exact hnone file (List.mem_of_getElem? hj)
      · rintro file ⟨j, _, hj, _⟩
        exact hnone file (List.mem_of_getElem? hj)

theorem filterMap_range (files : List Path) :
    (List.range files.length).filterMap (fun j => files[j]?) = files := by
  induction files with
  | nil => rfl
  | cons file files ih =>
    rw [List.length_cons, List.range_succ_eq_map, List.filterMap_cons]
    simpa [List.filterMap_map, Function.comp_def] using ih

theorem flatMap_block (S : Setting) (order : List Nat) :
    order.flatMap S.block =
      (order.filterMap fun j => S.files[j]?).flatMap fun file => (S.alone file).lines := by
  induction order with
  | nil => rfl
  | cons j order ih =>
    rw [List.flatMap_cons, ih, List.filterMap_cons]
    cases hj : S.files[j]? with
    | none => simp [Setting.block, hj]
    | some file => simp [Setting.block, hj]

/-- The report of a finished run has one block for each file. -/
theorem Written.finished (hsound : Sound S s) (h : Written S s order)
    (hdone : s.phases = os.map .done) :
    ∃ files : List Path, files.Perm S.files ∧
      s.world.output = files.flatMap fun file => (S.alone file).lines := by
  have hout : s.world.output = order.flatMap S.block := by
    cases h.output with
    | free _ _ ho => exact ho
    | held _ hi hr _ _ _ =>
      rw [phase_of_done hdone] at hi
      obtain ⟨o, _, rfl⟩ := Option.map_eq_some_iff.1 hi
      cases hr
  have hperm : order.Perm (List.range S.files.length) := by
    refine (List.perm_ext_iff_of_nodup h.nodup List.nodup_range).2 fun j => ?_
    rw [h.done j, List.mem_range, ← hsound.length]
    constructor
    · rintro ⟨o, hj⟩
      exact (List.getElem?_eq_some_iff.1 hj).1
    · intro hj
      have hp := phase_of_done hdone j
      rw [List.getElem?_eq_getElem hj] at hp ⊢
      obtain ⟨o, _, ho⟩ := Option.map_eq_some_iff.1 hp.symm
      exact ⟨o, congrArg some ho.symm⟩
  refine ⟨order.filterMap fun j => S.files[j]?, ?_, hout.trans (flatMap_block S order)⟩
  have hfiles := hperm.filterMap fun j => S.files[j]?
  rwa [filterMap_range] at hfiles

end

/-! ## What one file adds -/

section
variable {S : Setting}

theorem Setting.alone_eq (S : Setting) (file : Path) :
    S.alone file = ⟨(lintFile S.service S.mode S.tree S.source file).outcome,
      (lintFile S.service S.mode S.tree S.source file).tree,
      (lintFile S.service S.mode S.tree S.source file).report.flatMap (·.lines)⟩ :=
  lintFile_fate S.service S.mode S.tree S.source file

theorem Outcome.violations_eq_zero {o : Outcome}
    (h : ∀ violations failures ending, o ≠ .linted violations failures ending) :
    o.violations = 0 := by
  cases o with
  | linted violations failures ending => exact absurd rfl (h violations failures ending)
  | _ => rfl

theorem pairwise_mergeSort_offset (vs : List Violation) :
    (vs.mergeSort fun v w => v.offset ≤ w.offset).Pairwise fun v w => v.offset ≤ w.offset := by
  have htrans : ∀ u v w : Violation, decide (u.offset ≤ v.offset) = true →
      decide (v.offset ≤ w.offset) = true → decide (u.offset ≤ w.offset) = true := by
    intro u v w huv hvw
    simp only [decide_eq_true_eq] at huv hvw ⊢
    exact Nat.le_trans huv hvw
  have htotal : ∀ v w : Violation,
      (decide (v.offset ≤ w.offset) || decide (w.offset ≤ v.offset)) = true := by
    intro v w
    simpa using Nat.le_total v.offset w.offset
  exact (List.pairwise_mergeSort htrans htotal vs).imp fun h => of_decide_eq_true h

/-- The lines of a file are its violations, by offset. -/
theorem Setting.exists_block (hs : S.service.Steady) (hm : S.mode = .report) (file : Path) :
    ∃ vs : List Violation, vs.Pairwise (fun v w => v.offset ≤ w.offset) ∧
      (∀ v ∈ vs, v.file = file) ∧ vs.map Violation.diagnostic = (S.alone file).lines ∧
      vs.length = (S.alone file).outcome.violations := by
  refine begunFate_cases (P := fun fate => ∃ vs : List Violation,
    vs.Pairwise (fun v w => v.offset ≤ w.offset) ∧ (∀ v ∈ vs, v.file = file) ∧
      vs.map Violation.diagnostic = fate.lines ∧ vs.length = fate.outcome.violations)
    hs S.tree file _ (fun o ho => ?_) fun arguments text root c hc => ?_
  · refine ⟨[], .nil, by simp, rfl, ?_⟩
    exact (Outcome.violations_eq_zero ho).symm
  · rw [hm]
    by_cases hv : c.violations = []
    · rw [classifiedFate_clean _ _ _ _ hv]
      refine ⟨[], .nil, by simp, rfl, ?_⟩
      rw [hv]
      rfl
    · rw [classifiedFate_report _ _ _ hv]
      refine ⟨c.violations.mergeSort fun v w => v.offset ≤ w.offset, ?_, fun v hv => ?_, rfl, ?_⟩
      · exact pairwise_mergeSort_offset c.violations
      · exact inquire_file hc v (List.mem_mergeSort.1 hv)
      · exact List.length_mergeSort _

/-- A file with violations is overwritten, or could not be. -/
theorem Setting.isSettled_alone (hs : S.service.Steady) (hm : S.mode = .overwrite) (file : Path) :
    (S.alone file).outcome.isSettled = decide (0 < (S.alone file).outcome.violations) := by
  refine begunFate_cases
    (P := fun fate => fate.outcome.isSettled = decide (0 < fate.outcome.violations))
    hs S.tree file _ (fun o ho => ?_) fun arguments text root c hc => ?_
  · rw [Outcome.violations_eq_zero ho]
    cases o with
    | linted violations failures ending => exact absurd rfl (ho violations failures ending)
    | _ => rfl
  · rw [hm]
    by_cases hv : c.violations = []
    · rw [classifiedFate_clean _ _ _ _ hv, hv]
      rfl
    · have hpos : 0 < c.violations.length := List.length_pos_iff.2 hv
      cases ho : overwrite S.tree file text c.violations with
      | mk t result =>
        cases result with
        | error e =>
          rw [classifiedFate_unwritten _ _ hv ho]
          exact (decide_eq_true hpos).symm
        | ok new =>
          rw [classifiedFate_overwritten _ _ hv ho]
          exact (decide_eq_true hpos).symm

end

/-! ## All schedules -/

/-- A report is made of blocks of violations, one for each file, in some order of the files. -/
def Setting.InBlocks (S : Setting) (block : Path → List Violation) (output : List String) : Prop :=
  ∃ order : List Path, order.Perm S.files ∧
    output = order.flatMap fun file => (block file).map Violation.diagnostic

section
variable {S : Setting} {s : State World Progress} {os : List Outcome} {r : Reduction}

theorem Sound.total_eq (h : Sound S s) (hdone : s.phases = os.map .done)
    (hr : r.parts.Perm (os.map .ofOutcome)) :
    r.total = ((S.files.map fun file => (S.alone file).outcome).map Summary.ofOutcome).sum := by
  rw [Reduction.total_eq hr, h.outcomes_eq hdone]

theorem length_inBlocks {block : Path → List Violation} {output : List String}
    (hblock : ∀ file, (block file).length = (S.alone file).outcome.violations)
    (h : S.InBlocks block output) :
    output.length =
      ((S.files.map fun file => (S.alone file).outcome).map Outcome.violations).sum := by
  obtain ⟨order, hperm, rfl⟩ := h
  rw [List.length_flatMap, List.map_map, ← (hperm.map _).sum_eq]
  simp [hblock, Function.comp_def]

/-- In a run that reports, the exit code says whether anything was reported. -/
theorem exitCode_report (total : Summary) : total.exitCode .report = 1 ↔ 0 < total.violations := by
  simp [Summary.exitCode, Summary.hasViolations, Nat.pos_iff_ne_zero]

end

/-- Any two runs of the tasks on distinct files, by a service and an argument source that answer by
the file alone, come to the same, and to the same as `lintFiles`, if in one of them the service is
never gone. -/
theorem schedule_independent (S : Setting) (hservice : S.service.Steady)
    (hsource : S.SteadySource) (hfiles : S.Distinct) {s₁ s₂ : State World Progress}
    (hrun₁ : S.Runs s₁) (hrun₂ : S.Runs s₂) {os₁ os₂ : List Outcome}
    (hdone₁ : s₁.phases = os₁.map .done) (hdone₂ : s₂.phases = os₂.map .done)
    {r₁ r₂ : Reduction} (hr₁ : r₁.parts.Perm (os₁.map .ofOutcome))
    (hr₂ : r₂.parts.Perm (os₂.map .ofOutcome)) (hslot : s₁.slot = none) :
    s₂.slot = none ∧ r₁.total = r₂.total ∧
      (∀ path, s₁.world.tree.content path = s₂.world.tree.content path) ∧
      (S.mode = .report → ∃ block : Path → List Violation,
        (∀ file, (block file).Pairwise (fun v w => v.offset ≤ w.offset) ∧
          (∀ v ∈ block file, v.file = file) ∧
          (block file).map Violation.diagnostic =
            (lintFile S.service S.mode S.tree S.source file).report.flatMap (·.lines)) ∧
        ∀ s ∈ [s₁, s₂], S.InBlocks block s.world.output ∧
          s.world.output.length = r₁.total.violations ∧
          (r₁.total.exitCode S.mode = 1 ↔ s.world.output ≠ [])) ∧
      (S.mode = .overwrite → r₁.total.filesOverwritten + r₁.total.writeFailures =
        os₁.countP fun o => decide (0 < o.violations)) ∧
      (lintFiles S.service S.mode S.tree S.source S.files).fatal = none ∧
      r₁.total = (lintFiles S.service S.mode S.tree S.source S.files).summary ∧
      ∀ path, s₁.world.tree.content path =
        (lintFiles S.service S.mode S.tree S.source S.files).tree.content path := by
  obtain ⟨hsound₁, order₁, hwritten₁⟩ :=
    sound_of_slot hservice hsource hfiles hrun₁ hdone₁ hslot
  have hgone := hsound₁.not_gone hdone₁
  obtain ⟨⟨hsound₂, order₂, hwritten₂⟩, hslot₂⟩ :=
    sound_of_not_gone hservice hsource hfiles hrun₂ hgone
  have htotal₁ := hsound₁.total_eq hdone₁ hr₁
  have htotal₂ := hsound₂.total_eq hdone₂ hr₂
  -- `lintFiles` is one of the schedules
  obtain ⟨s₀, os₀, hrun₀, hdone₀, htree₀, _, hfatal₀, hsummary₀⟩ :=
    lintFiles_reaches S.service S.mode S.tree S.source S.files
  obtain ⟨⟨hsound₀, _⟩, hslot₀⟩ := sound_of_not_gone hservice hsource hfiles hrun₀ hgone
  refine ⟨hslot₂, htotal₁.trans htotal₂.symm, hsound₁.content_eq hsound₂ hdone₁ hdone₂,
    fun hm => ?_, fun hm => ?_, hfatal₀ ▸ hslot₀, ?_, fun path => ?_⟩
  · choose block hsorted hfile hlines hlength using Setting.exists_block hservice hm
    refine ⟨block, fun file => ⟨hsorted file, hfile file, ?_⟩, fun s hs => ?_⟩
    · rw [hlines, S.alone_eq]
    · have hblocks : S.InBlocks block s.world.output := by
        have hfinished : ∃ files : List Path, files.Perm S.files ∧
            s.world.output = files.flatMap fun file => (S.alone file).lines := by
          rcases List.mem_pair.1 hs with rfl | rfl
          · exact hwritten₁.finished hsound₁ hdone₁
          · exact hwritten₂.finished hsound₂ hdone₂
        obtain ⟨files, hperm, hout⟩ := hfinished
        refine ⟨files, hperm, hout.trans ?_⟩
        simp only [hlines]
      have hviolations : s.world.output.length = r₁.total.violations := by
        rw [length_inBlocks hlength hblocks, htotal₁, violations_sum]
      refine ⟨hblocks, hviolations, ?_⟩
      rw [hm, exitCode_report, ← hviolations, List.length_pos_iff]
  · rw [htotal₁, settled_sum, hsound₁.outcomes_eq hdone₁, List.countP_map, List.countP_map]
    congr 1
    funext file
    exact Setting.isSettled_alone hservice hm file
  · rw [htotal₁, hsummary₀, hsound₀.outcomes_eq hdone₀]
  · rw [← htree₀]
    exact hsound₁.content_eq hsound₀ hdone₁ hdone₀ path

/-! Two files with one violation each, in both orders. Their arguments are in two logs that nobody
has read yet; the task of the first file needs only one of them. -/

def pairLog (file : String) : Entry :=
  .file (Text.encode ("swiftc -c -module-name M " ++ file).toList) 0o644 0

def pairSetting : Setting where
  service :=
    { index t _ _ := (t, .ok (.container
        [{ kind := some Index.propertyKind, line := some 1, column := some 1 }]))
      cursor _ _ _ _ := .ok { kind := some Index.propertyKind } }
  mode := .report
  tree :=
    { entries := [(["A"], .file (Text.encode ['x']) 0o644 0),
        (["B"], .file (Text.encode ['x']) 0o644 0), (["a"], pairLog "/A"), (["b"], pairLog "/B")]
      working := [] }
  source := .activityLogs (.ofPaths ["/a", "/b"])
  files := ["/A", "/B"]

def pairLine (file : Path) : String :=
  Violation.diagnostic ⟨file, 0, 1, 1⟩

theorem steady_pair : pairSetting.service.Steady where
  files _ _ _ := rfl
  index _ _ _ _ _ := rfl
  cursor _ _ _ _ _ _ := rfl

theorem ends_pair {path : Path} {name : Name} (habsolute : path.isAbsolute = true)
    (hnames : FileTree.linkNames path = [name])
    (hturn : pairSetting.tree.turn [] name = .go [name]) {q : Place}
    (h : pairSetting.tree.Ends path q) : q = [name] := by
  obtain ⟨last, links, h⟩ := h
  rw [FileTree.start, if_pos habsolute, hnames, FileTree.follow_go hturn, FileTree.follow_nil] at h
  cases h
  rfl

/-- The files and the logs end at their own places. -/
theorem ends_pair_cases {path : Path} (hpath : path ∈ (["/A", "/B", "/a", "/b"] : List Path))
    {q : Place} (h : pairSetting.tree.Ends path q) :
    path = "/A" ∧ q = ["A"] ∨ path = "/B" ∧ q = ["B"] ∨ path = "/a" ∧ q = ["a"] ∨
      path = "/b" ∧ q = ["b"] := by
  simp only [List.mem_cons, List.not_mem_nil, or_false] at hpath
  rcases hpath with rfl | rfl | rfl | rfl
  · exact .inl ⟨rfl, ends_pair (by cbv) (by cbv) (by cbv) h⟩
  · exact .inr (.inl ⟨rfl, ends_pair (by cbv) (by cbv) (by cbv) h⟩)
  · exact .inr (.inr (.inl ⟨rfl, ends_pair (by cbv) (by cbv) (by cbv) h⟩))
  · exact .inr (.inr (.inr ⟨rfl, ends_pair (by cbv) (by cbv) (by cbv) h⟩))

theorem apart_pair {f g : Path} (hf : f ∈ (["/A", "/B", "/a", "/b"] : List Path))
    (hg : g ∈ (["/A", "/B", "/a", "/b"] : List Path)) (hne : f ≠ g) (q : Place)
    (hfq : pairSetting.tree.Ends f q) : ¬pairSetting.tree.Ends g q := by
  intro hgq
  rcases ends_pair_cases hf hfq with ⟨rfl, rfl⟩ | ⟨rfl, rfl⟩ | ⟨rfl, rfl⟩ | ⟨rfl, rfl⟩ <;>
    rcases ends_pair_cases hg hgq with ⟨rfl, h⟩ | ⟨rfl, h⟩ | ⟨rfl, h⟩ | ⟨rfl, h⟩ <;>
    first | exact hne rfl | exact absurd h (by decide)

theorem distinct_pair : pairSetting.Distinct := by
  refine .cons ?_ (.cons (by simp) .nil)
  rintro g hg q hA
  cases List.mem_singleton.1 hg
  exact apart_pair (by simp) (by simp) (by decide) q hA

theorem steadySource_pair : pairSetting.SteadySource := by
  refine Setting.SourceApart.steady (.logs _ rfl fun log hlog file hf q => ?_)
  have hlog : log.path ∈ (["/a", "/b"] : List Path) := by
    obtain ⟨path, hpath, rfl⟩ := List.mem_map.1 hlog
    exact hpath
  have hne : file ≠ log.path := by
    rcases List.mem_pair.1 hf with rfl | rfl <;> rcases List.mem_pair.1 hlog with h | h <;>
      rw [h] <;> decide
  have hfile : file ∈ (["/A", "/B", "/a", "/b"] : List Path) :=
    List.mem_append_left (["/a", "/b"] : List Path) hf
  have hlog' : log.path ∈ (["/A", "/B", "/a", "/b"] : List Path) :=
    List.mem_append_right (["/A", "/B"] : List Path) hlog
  exact apart_pair hfile hlog' hne q

/-- What the logs hold once they are read. -/
theorem known_pair :
    Log.known pairSetting.tree { path := "/a" } = .text "swiftc -c -module-name M /A" ∧
    Log.known pairSetting.tree { path := "/b" } = .text "swiftc -c -module-name M /B" := by
  have ha : pairSetting.tree.stat "/a" = .ok (pairLog "/A") :=
    FileTree.stat_straight ["a"] (by decide) (by decide) (by decide)
  have hb : pairSetting.tree.stat "/b" = .ok (pairLog "/B") :=
    FileTree.stat_straight ["b"] (by decide) (by decide) (by decide)
  have hreada := FileTree.read_eq_ok_iff.2 ⟨rfl, FileTree.content_eq_ok_iff.2 ⟨_, _, ha⟩⟩
  have hreadb := FileTree.read_eq_ok_iff.2 ⟨rfl, FileTree.content_eq_ok_iff.2 ⟨_, _, hb⟩⟩
  constructor
  · simp only [Log.known, Log.load, BuildLog.readLog, hreada]
    decide +kernel
  · simp only [Log.known, Log.load, BuildLog.readLog, hreadb]
    decide +kernel

theorem resolve_pair {file : Path} {arguments : List String}
    (h : [BuildLog.Contents.text "swiftc -c -module-name M /A",
      .text "swiftc -c -module-name M /B"].findSome? (·.arguments? file) = some arguments) :
    (pairSetting.source.resolve pairSetting.tree file).result = .ok (some arguments) := by
  refine congrArg Except.ok ?_
  rw [BuildLog.find_arguments, ← h]
  simp only [BuildLog.ActivityLogs.ofPaths, List.map_cons, List.map_nil, known_pair]

theorem alone_pair {file : Path} (hf : file ∈ pairSetting.files) :
    pairSetting.alone file = ⟨.linted 1 0 .kept, pairSetting.tree, [pairLine file]⟩ := by
  rcases List.mem_pair.1 hf with rfl | rfl
  · have harguments : (pairSetting.source.resolve pairSetting.tree "/A").result =
        .ok (some ["-c", "-module-name", "M", "/A", "-D", "DEBUG"]) :=
      resolve_pair (by decide +kernel)
    rw [Setting.alone, harguments, begunFate]
    cbv
  · have harguments : (pairSetting.source.resolve pairSetting.tree "/B").result =
        .ok (some ["-c", "-module-name", "M", "/B", "-D", "DEBUG"]) :=
      resolve_pair (by decide +kernel)
    rw [Setting.alone, harguments, begunFate]
    cbv

/-- No task is at work, and nothing has changed but the report and the logs. -/
structure PairReady (s : State World Progress) : Prop where
  flag : s.aborted = false
  slot : s.slot = none
  tree : s.world.tree = pairSetting.tree
  unlocked : s.world.locked = false
  asked : pairSetting.Asked s.world.source

theorem PairReady.next {s : State World Progress} (h : PairReady s) {k : Nat} {file : Path}
    (hk : pairSetting.files[k]? = some file) (hwait : s.phases[k]? = some .waiting) :
    ∃ s', Reaches (lintWork pairSetting.service.answers pairSetting.mode) pairSetting.files s s' ∧
      PairReady s' ∧ s'.phases = s.phases.set k (.done (.linted 1 0 .kept)) ∧
      s'.world.output = s.world.output ++ [pairLine file] := by
  have hf := List.mem_of_getElem? hk
  have hfate := lintFile_fate pairSetting.service pairSetting.mode s.world.tree s.world.source file
  rw [h.tree, steadySource_pair _ _ _ h.asked .same hf,
    show begunFate .. = _ from alone_pair hf] at hfate
  injection hfate with houtcome htree hlines
  obtain ⟨s', hreach, hworld, hphases, haborted, hslot⟩ :=
    reaches_linted pairSetting.service pairSetting.mode hk hwait h.flag h.slot h.unlocked
  rw [h.tree, ← houtcome] at hphases haborted hslot
  rw [h.tree, ← htree, ← hlines, lintFile_source] at hworld
  refine ⟨s', hreach, ⟨haborted, hslot, hworld.tree_eq, hworld.unlocked, ?_⟩, hphases,
    hworld.output_eq⟩
  rw [hworld.source_eq]
  exact .next h.asked .same hf

/-- Both tasks, in either order. -/
theorem reaches_pair {i j : Nat} {f g : Path} (hij : i = 0 ∧ j = 1 ∨ i = 1 ∧ j = 0)
    (hi : pairSetting.files[i]? = some f) (hj : pairSetting.files[j]? = some g) :
    ∃ s : State World Progress, pairSetting.Runs s ∧ s.slot = none ∧
      s.phases = [.linted 1 0 .kept, .linted 1 0 .kept].map .done ∧
      s.world.output = [pairLine f, pairLine g] := by
  have hstart : PairReady (.initial Progress
      { tree := pairSetting.tree, source := pairSetting.source } pairSetting.files) :=
    ⟨rfl, rfl, rfl, rfl, .same⟩
  obtain ⟨s₁, hreach₁, h₁, hphases₁, hout₁⟩ := hstart.next hi (by
    rw [State.initial, List.getElem?_map, hi]
    rfl)
  obtain ⟨s₂, hreach₂, h₂, hphases₂, hout₂⟩ := h₁.next hj (by
    rw [hphases₁, List.getElem?_set_ne (by omega), State.initial, List.getElem?_map, hj]
    rfl)
  refine ⟨s₂, hreach₁.trans hreach₂, h₂.slot, ?_, ?_⟩
  · rw [hphases₂, hphases₁]
    rcases hij with ⟨rfl, rfl⟩ | ⟨rfl, rfl⟩ <;> rfl
  · rw [hout₂, hout₁]
    rfl

/-- The lines come in the order of the tasks. All else is the same, though the task of the first
file finds both logs unread in one run, and none of them in the other. -/
theorem schedule_independent_pair :
    ∃ s₁ s₂ : State World Progress, pairSetting.Runs s₁ ∧ pairSetting.Runs s₂ ∧
      s₁.world.output = [pairLine "/A", pairLine "/B"] ∧
      s₂.world.output = [pairLine "/B", pairLine "/A"] ∧
      (∀ path, s₁.world.tree.content path = s₂.world.tree.content path) ∧
      (lintFiles pairSetting.service pairSetting.mode pairSetting.tree pairSetting.source
        pairSetting.files).summary.violations = 2 := by
  obtain ⟨s₁, hrun₁, hslot₁, hdone₁, hout₁⟩ := reaches_pair (.inl ⟨rfl, rfl⟩) rfl rfl
  obtain ⟨s₂, hrun₂, _, hdone₂, hout₂⟩ := reaches_pair (.inr ⟨rfl, rfl⟩) rfl rfl
  let file : Summary := .ofOutcome (.linted 1 0 .kept)
  have hr₁ : (Reduction.merge (.one file) (.one file)).parts.Perm [file, file] := .refl _
  have hr₂ : (Reduction.merge (.one file) (.merge .empty (.one file))).parts.Perm [file, file] :=
    .refl _
  obtain ⟨_, _, hcontent, _, _, _, hsummary, _⟩ :=
    schedule_independent pairSetting steady_pair steadySource_pair distinct_pair hrun₁ hrun₂ hdone₁
      hdone₂ hr₁ hr₂ hslot₁
  refine ⟨s₁, s₂, hrun₁, hrun₂, hout₁, hout₂, hcontent, ?_⟩
  rw [← hsummary]
  rfl

end ExplicitSelf.Lint
