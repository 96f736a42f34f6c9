import ExplicitSelf.Lint.Prepare
import ExplicitSelf.Proofs.FileTree.Walk
import ExplicitSelf.Proofs.Lint.Independence
import ExplicitSelf.Proofs.Lint.Mending

/-!
# What a run leaves alone

A run that cannot be prepared does nothing, a run that reports changes no files, and a run that
overwrites changes only files that it mends. This holds of all schedules, of all answers that change
no files themselves, and at every moment, so also where the service goes away or a call is refused
in the middle.

* `Prepared.job`: what is linted after a run is prepared.
* `Job.MendsOnly`: nothing but mended files is new.

Results:
* `distinct_of_prepare`: the files of a run are different files.
* `Framed.mended_iff`, `Framed.mendsOnly`: the mended files are those whose tasks have overwritten
  them, and all else is as before.
* `Framed.filesOverwritten`: the summary counts the mended files.
* `run_touches`: what a run does to the files.
-/
namespace ExplicitSelf.Lint

variable {t : FileTree} {env : Environment} {o : Options} {p : Prepared}

/-! ## Preparing a run -/

/-- What a prepared run lints, and how. -/
def Prepared.job (p : Prepared) (t : FileTree) : Job :=
  ⟨p.mode, t, p.source, p.files⟩

theorem of_prepare (h : prepare t env o = .ok p) :
    p.mode = o.mode ∧ ∃ excludes, Workspace.files t excludes o.path = .ok p.files := by
  simp only [prepare, bind, Except.bind] at h
  split at h
  · cases h
  split at h
  · rename_i excludes _
    split at h
    · cases h
    rename_i files hfiles
    split at h
    · cases h
    split at h
    · cases h
    cases h
    exact ⟨rfl, excludes, hfiles⟩
  · cases h

theorem distinct_of_prepare (ht : t.WellFormed) (h : prepare t env o = .ok p) :
    (p.job t).Distinct := by
  obtain ⟨_, excludes, hfiles⟩ := of_prepare h
  exact Workspace.pairwise_files ht hfiles

/-- Linting the files of a prepared run one after the other is a run of tasks. -/
theorem runWith_runs (h : prepare t env o = .ok p) (service : Service) :
    ∃ (s : State World Progress) (os : List Outcome) (r : Reduction),
      (p.job t).Runs service.answers s ∧ s.phases = os.map .done ∧
      r.parts.Perm (os.map .ofOutcome) ∧
      s.world.tree = (runWith service t env o).tree ∧
      (runWith service t env o).result = verdict s.slot r.total := by
  obtain ⟨s, os, hrun, hdone, htree, _, hslot, hsummary⟩ :=
    lintFiles_reaches service p.mode t p.source p.files
  obtain ⟨r, hr⟩ := Reduction.exists_parts (os.map .ofOutcome)
  refine ⟨s, os, r, hrun, hdone, .of_eq hr, ?_, ?_⟩
  · simp only [runWith, h, Prepared.run, htree]
  · simp only [runWith, h, Prepared.run, Run.result, hsummary, hslot, Reduction.total_eq_sum, hr]
    cases (lintFiles service p.mode t p.source p.files).fatal <;> rfl

/-! ## Mended files -/

/-- Only mended files are new. -/
structure Job.MendsOnly (J : Job) (w : World) : Prop where
  /-- Every place has the entry that it had, unless it is that of a mended file. -/
  entries : ∀ q, (∀ file ∈ J.files, J.Mended w file → J.tree.resolve false file ≠ .ok q) →
    FileTree.entryAt? w.tree q = J.tree.entryAt? q
  /-- Every path has the content that it had, unless it now leads to a mended file, as its own path
  does and as a link to it may. -/
  paths : ∀ path, w.tree.SameContent J.tree path ∨
    ∃ file ∈ J.files, J.Mended w file ∧
      ∃ q, J.tree.resolve false file = .ok q ∧ w.tree.resolve true path = .ok q
  /-- Each file that is linted has the content that it had, or is mended, and not both. -/
  files : ∀ file ∈ J.files, w.tree.SameContent J.tree file ↔ ¬J.Mended w file

/-- Whether a file was overwritten. -/
def Outcome.isOverwritten : Outcome → Bool
  | .linted _ _ ending => ending = .overwritten
  | _ => false

theorem filesOverwritten_sum (os : List Outcome) :
    (os.map Summary.ofOutcome).sum.filesOverwritten = os.countP Outcome.isOverwritten := by
  induction os with
  | nil => rfl
  | cons o os ih =>
    rw [List.map_cons, List.sum_cons, List.countP_cons, Summary.add_filesOverwritten, ← ih,
      Nat.add_comm]
    congr 1
    cases o with
    | linted violations failures ending => cases ending <;> rfl
    | _ => rfl

section
variable {J : Job} {s : State World Progress} {j : Nat} {file : Path}

theorem Job.Mended.not_sameContent {w : World} (h : J.Mended w file) :
    ¬w.tree.SameContent J.tree file := by
  intro hsame
  obtain ⟨text, c, _, _, htext, hcontent, hlonger⟩ := h
  have hcontent₀ := (hsame _).1 hcontent
  rw [htext] at hcontent₀
  rw [← Except.ok.inj hcontent₀] at hlonger
  exact Nat.lt_irrefl _ hlonger

theorem Framed.mended_iff (h : Framed J s) (hj : J.files[j]? = some file) :
    J.Mended s.world file ↔ s.Overwritten j := by
  refine ⟨fun hmended => ?_, h.mended j file hj⟩
  by_contra hnot
  exact hmended.not_sameContent (h.frame.unchanged j file hj hnot).content

theorem Framed.mendsOnly (h : Framed J s) : J.MendsOnly s.world := by
  refine ⟨fun q hq => ?_, fun path => ?_, fun file hf => ?_⟩
  · refine h.frame.entries q fun j file hj hdone => ?_
    exact hq file (List.mem_of_getElem? hj) ((h.mended_iff hj).2 hdone)
  · rcases h.frame.paths path with hsame | ⟨j, file, q, hj, hdone, hplace⟩
    · exact .inl hsame
    · exact .inr ⟨file, List.mem_of_getElem? hj, (h.mended_iff hj).2 hdone, q, hplace⟩
  · obtain ⟨j, hj⟩ := List.mem_iff_getElem?.1 hf
    refine ⟨fun hsame hmended => hmended.not_sameContent hsame, fun hnot => ?_⟩
    exact (h.frame.unchanged j file hj fun hdone => hnot ((h.mended_iff hj).2 hdone)).content

open scoped Classical in
/-- The summary counts the mended files, in whatever order it is merged. -/
theorem Framed.filesOverwritten (h : Framed J s) {os : List Outcome}
    (hdone : s.phases = os.map .done) {r : Reduction} (hr : r.parts.Perm (os.map .ofOutcome)) :
    r.total.filesOverwritten = J.files.countP fun file => decide (J.Mended s.world file) := by
  have hlength : os.length = J.files.length := by
    rw [← h.length, hdone, List.length_map]
  -- outcome by outcome, a file is counted where its task has overwritten it
  have hover : os.map Outcome.isOverwritten =
      J.files.map fun file => decide (J.Mended s.world file) := by
    refine List.ext_getElem (by simpa using hlength) fun j hj hj' => ?_
    rw [List.length_map] at hj hj'
    have hmended := h.mended_iff (List.getElem?_eq_getElem hj')
    rw [List.getElem_map, List.getElem_map, Bool.eq_iff_iff, decide_eq_true_iff, hmended]
    simp only [State.Overwritten, phase_eq_done_iff hdone, List.getElem?_eq_getElem hj,
      Option.some.injEq]
    cases os[j] with
    | linted violations failures ending => cases ending <;> simp [Outcome.isOverwritten]
    | _ => simp [Outcome.isOverwritten]
  calc r.total.filesOverwritten = os.countP Outcome.isOverwritten := by
        rw [Reduction.total_eq hr, filesOverwritten_sum]
    _ = (os.map Outcome.isOverwritten).countP id := by rw [List.countP_map]; rfl
    _ = J.files.countP fun file => decide (J.Mended s.world file) := by
        rw [hover, List.countP_map]
        rfl

end

/-! ## Runs -/

open scoped Classical in
/-- A run that cannot be prepared asks nothing, prints nothing and changes nothing, with any
service. All others change no files if they report, and only the files that they mend in any case.
This holds at every moment of every schedule, whatever is answered and whatever the machine refuses.
At the end the mended files are counted. -/
theorem run_touches (t : FileTree) (ht : t.WellFormed) (env : Environment) (o : Options) :
    (∀ e, prepare t env o = .error e → ∀ service,
      (runWith service t env o).result = .error e ∧ (runWith service t env o).queries = [] ∧
      (runWith service t env o).report = [] ∧ (runWith service t env o).tree = t) ∧
    ∀ p, prepare t env o = .ok p →
      (∀ service, ∃ (s : State World Progress) (os : List Outcome) (r : Reduction),
        (p.job t).Runs service.answers s ∧ s.phases = os.map .done ∧
        r.parts.Perm (os.map .ofOutcome) ∧
        s.world.tree = (runWith service t env o).tree ∧
        (runWith service t env o).result = verdict s.slot r.total) ∧
      ∀ answers : Answers, answers.ReadOnly → ∀ s, (p.job t).Runs answers s →
        (o.mode = .report → s.world.tree = t) ∧ (p.job t).MendsOnly s.world ∧
        ∀ (os : List Outcome) (r : Reduction), s.phases = os.map .done →
          r.parts.Perm (os.map .ofOutcome) →
          r.total.filesOverwritten =
            p.files.countP fun file => decide ((p.job t).Mended s.world file) := by
  refine ⟨fun e he service => ?_, fun p hp => ⟨runWith_runs hp, fun answers ha s hrun => ?_⟩⟩
  · simp only [runWith, he, and_self]
  · have hframed := framed_of_runs ha (distinct_of_prepare ht hp) hrun
    refine ⟨fun hreport => ?_, hframed.mendsOnly,
      fun os r hdone hr => hframed.filesOverwritten hdone hr⟩
    exact tree_of_report ha ((of_prepare hp).1.trans hreport) hrun

/-! A directory with two files that a plan knows, a file that it does not know, and a link to the
first. The machine has no room left for the second. -/

def mixedPlan : String :=
  "commands:\n  C:\n    tool: swiftc\n    inputs: [/w/A.swift, /w/D.swift]\n" ++
    "    args: [swiftc, -c]\n"

def mixedTree : FileTree :=
  { entries := [(["p.yml"], .file (Text.encode mixedPlan.toList) 0o644 0), (["w"], .directory),
      (["w", "A.swift"], .file (Text.encode ['x']) 0o644 0),
      (["w", "B.swift"], .file (Text.encode ['x']) 0o644 0),
      (["w", "C.swift"], .link "A.swift"),
      (["w", "D.swift"], .file (Text.encode ['x']) 0o644 0)]
    working := []
    machine := { Machine.reliable with
      refuses := fun c p => if c = .write ∧ p = "/w/D.swift" then some .storageFull else none
      written := fun _ => 3 } }

def mixedOptions : Options :=
  { log := some "/p.yml", path := "/w", overwrite := true }

def mixedSource : ArgumentSource :=
  .buildPlan ⟨[("/w/A.swift", ["-c", "-D", "DEBUG"]), ("/w/D.swift", ["-c", "-D", "DEBUG"])]⟩

/-- The files after the run. -/
def mendedTree : FileTree :=
  mixedTree.set ["w", "A.swift"] (.file (Text.encode "self.x".toList) 0o644 0)

theorem wellFormed_mixed : mixedTree.WellFormed :=
  ⟨by decide, by decide⟩

theorem stat_directory : mixedTree.stat "/w" = .ok .directory :=
  FileTree.stat_straight ["w"] (by decide) (by decide) (by decide)

theorem stat_plan :
    mixedTree.stat "/p.yml" = .ok (.file (Text.encode mixedPlan.toList) 0o644 0) :=
  FileTree.stat_straight ["p.yml"] (by decide) (by decide) rfl

theorem stat_mixed :
    mixedTree.stat "/w/A.swift" = .ok (.file (Text.encode ['x']) 0o644 0) :=
  FileTree.stat_straight ["w", "A.swift"] (by decide) (by decide) (by decide)

theorem stat_mended :
    mendedTree.stat "/w/A.swift" = .ok (.file (Text.encode "self.x".toList) 0o644 0) :=
  FileTree.stat_straight ["w", "A.swift"] (by decide) (by decide) (by decide)

/-- The other files have the same content before and after. -/
theorem content_kept {file : Path} (hfile : file ∈ (["/w/B.swift", "/w/D.swift"] : List Path)) :
    mixedTree.content file = .ok (Text.encode ['x']) ∧
      mendedTree.content file = .ok (Text.encode ['x']) := by
  simp only [FileTree.content_eq_ok_iff]
  rcases List.mem_pair.1 hfile with rfl | rfl
  · exact ⟨⟨0o644, 0, FileTree.stat_straight ["w", "B.swift"] (by decide) (by decide) (by decide)⟩,
      ⟨0o644, 0, FileTree.stat_straight ["w", "B.swift"] (by decide) (by decide) (by decide)⟩⟩
  · exact ⟨⟨0o644, 0, FileTree.stat_straight ["w", "D.swift"] (by decide) (by decide) (by decide)⟩,
      ⟨0o644, 0, FileTree.stat_straight ["w", "D.swift"] (by decide) (by decide) (by decide)⟩⟩

theorem configure_mixed : configure mixedTree mixedOptions = .ok {} := by
  have hpath : Path.child "/w" Config.fileName = "/w/.selfish.toml" := by decide
  have hnone : mixedTree.resolve true "/w/.selfish.toml" = .error .notFound :=
    FileTree.resolve_straight true (by decide) (by decide)
  have hdirectory : mixedOptions.configDirectory mixedTree = "/w" := by
    simp [Options.configDirectory, mixedOptions, FileTree.isFile, stat_directory, Entry.isFile]
  have hload : Config.loadFrom mixedTree "/w" = .ok {} := by
    simp [Config.loadFrom, hpath, FileTree.isFile, FileTree.stat, hnone]
  rw [configure, hdirectory, hload]
  rfl

theorem files_mixed :
    Workspace.files mixedTree .none "/w" = .ok ["/w/A.swift", "/w/B.swift", "/w/D.swift"] := by
  have habsolute : (Path.absolute? (.ofComponents (.root :: mixedTree.working.map .name))
      "/w").map Path.normalize = some ("/w" : Path) := by decide +kernel
  obtain ⟨absolute, habsolute, hnormal⟩ := Option.map_eq_some_iff.1 habsolute
  have hplace : mixedTree.resolve true "/w" = .ok ["w"] :=
    FileTree.resolve_straight true (by decide +kernel) (by decide +kernel)
  have hwalk : mixedTree.walk Workspace.options "/w" = .ok [⟨[], .directory⟩,
      ⟨["A.swift"], .file (Text.encode ['x']) 0o644 0⟩,
      ⟨["B.swift"], .file (Text.encode ['x']) 0o644 0⟩, ⟨["C.swift"], .link "A.swift"⟩,
      ⟨["D.swift"], .file (Text.encode ['x']) 0o644 0⟩] := by
    have hopen : mixedTree.resolve true (FileTree.below "/w" []) = .ok ["w"] := hplace
    have hentry : mixedTree.entryAt? ["w"] = some .directory := by decide
    simp only [FileTree.walk, hplace, hentry, FileTree.walkFrom, hopen]
    decide +kernel
  simp only [Workspace.files, habsolute, hnormal, FileTree.isFile, FileTree.isDirectory,
    stat_directory, hwalk]
  refine congrArg Except.ok ((List.mergeSort_of_pairwise ?_).trans ?_)
  · decide +kernel
  · decide +kernel

theorem open_mixed : ∃ records,
    ArgumentSource.open_ mixedTree none mixedOptions.log none none =
      .ok (mixedSource, records) := by
  have hread : mixedTree.read "/p.yml" = .ok (Text.encode mixedPlan.toList) :=
    FileTree.read_eq_ok_iff.2 ⟨rfl, FileTree.content_eq_ok_iff.2 ⟨_, _, stat_plan⟩⟩
  have htext : mixedTree.readText "/p.yml" = .ok mixedPlan :=
    FileTree.readText_eq_ok_iff.2 ⟨_, hread, by decide +kernel⟩
  have hplan : Plan.parse none mixedPlan = .ok ⟨[("/w/A.swift", ["-c", "-D", "DEBUG"]),
      ("/w/D.swift", ["-c", "-D", "DEBUG"])]⟩ := by decide +kernel
  have hload : Plan.load mixedTree none "/p.yml" = .ok ⟨[("/w/A.swift", ["-c", "-D", "DEBUG"]),
      ("/w/D.swift", ["-c", "-D", "DEBUG"])]⟩ := by
    simp only [Plan.load, htext, hplan]
  have hextension : Path.extension? "/p.yml" = some ("yml" : Name) := by decide +kernel
  refine ⟨[⟨.info, "Resolving arguments from build plan /p.yml"⟩], ?_⟩
  simp only [mixedOptions, ArgumentSource.open_, FileTree.isDirectory, stat_plan, hextension, hload]
  rfl

theorem prepare_mixed : ∃ p, prepare mixedTree ⟨none, []⟩ mixedOptions = .ok p ∧
    p.files = (["/w/A.swift", "/w/B.swift", "/w/D.swift"] : List Path) ∧ p.source = mixedSource ∧
    p.mode = .overwrite := by
  obtain ⟨records, hopen⟩ := open_mixed
  have hexcludes : Config.excludes {} = .ok .none := rfl
  have hfiles : Workspace.files mixedTree .none mixedOptions.path = _ := files_mixed
  refine ⟨⟨{}, _, mixedSource, .overwrite, records⟩, ?_, rfl, rfl, rfl⟩
  simp only [prepare, configure_mixed, hexcludes, hfiles, hopen, bind, Except.bind]
  rfl

/-- A file that the plan knows has one violation. -/
theorem fate_mixed (t : FileTree) (file : Path)
    (hfile : file ∈ (["/w/A.swift", "/w/D.swift"] : List Path))
    (hread : t.machine.refusesRead file = none)
    (hcontent : t.content file = .ok (Text.encode "x".toList)) :
    begunFate pairSetting.service .overwrite t file (mixedSource.resolve t file).result =
      classifiedFate .overwrite t file "x" ⟨[⟨file, 0, 1, 1⟩], [], 0, 1⟩ := by
  have harguments : (mixedSource.resolve t file).result = .ok (some ["-c", "-D", "DEBUG"]) := by
    rcases List.mem_pair.1 hfile with rfl | rfl <;> rfl
  have htext : t.readText file = .ok "x" :=
    FileTree.readText_eq_ok_iff.2 ⟨_, FileTree.read_eq_ok_iff.2 ⟨hread, hcontent⟩, by decide⟩
  have hoffsets : candidateOffsets "x" (.container
      [{ kind := some Index.propertyKind, line := some 1, column := some 1 }]) = [0] := by cbv
  have hpart : glance file (.ofText "x".toList) 0
      (pairSetting.service.cursor t file 0 ["-c", "-D", "DEBUG"]) =
      .ok ⟨[⟨file, 0, 1, 1⟩], [], 0, 1⟩ := by cbv
  rw [harguments, begunFate, resolvedFate, htext]
  simp only
  rw [openedFate_indexed rfl, hoffsets, askingFate_ask (by simp) (by decide) hpart, askingFate_nil]
  rfl

theorem overwrite_mixed :
    overwrite mixedTree "/w/A.swift" "x" [⟨"/w/A.swift", 0, 1, 1⟩] =
      (mendedTree, .ok "self.x") := by
  have hplace : mixedTree.resolve false "/w/A.swift" = .ok ["w", "A.swift"] :=
    FileTree.resolve_straight false (by decide) (by decide)
  have hmode : mixedTree.mode "/w/A.swift" = .ok 0o644 := by rw [FileTree.mode, stat_mixed]; rfl
  have hcontent : mixedTree.content "/w/A.swift" = .ok (Text.encode "x".toList) :=
    FileTree.content_eq_ok_iff.2 ⟨_, _, stat_mixed⟩
  have hreread : mixedTree.reread "/w/A.swift" = .ok (Text.encode "x".toList) :=
    FileTree.contentUnless_eq_ok_iff.2 ⟨rfl, hcontent⟩
  have happlied : Source.applyInsertions "x".toList (insertions [⟨"/w/A.swift", 0, 1, 1⟩]) =
      .ok ⟨"self.x".toList, [0]⟩ := by cbv
  rcases replace_cases hcontent (Text.encode "self.x".toList) with
    ⟨_, place, mode, hplace', hmode', hr⟩ | ⟨c, _, e, he, _⟩
  · rw [hplace] at hplace'
    rw [hmode] at hmode'
    cases hplace'
    cases hmode'
    simp only [overwrite, happlied, hreread, if_true, hr]
    rfl
  · have hother : Path.ofText "/w/A.swift" ≠ "/w/D.swift" := by decide
    simp [mixedTree, hother] at he

theorem lintFiles_mixed :
    (lintFiles pairSetting.service .overwrite mixedTree mixedSource
      ["/w/A.swift", "/w/B.swift", "/w/D.swift"]).tree = mendedTree ∧
    (lintFiles pairSetting.service .overwrite mixedTree mixedSource
      ["/w/A.swift", "/w/B.swift", "/w/D.swift"]).fatal = none := by
  have hA := fate_mixed mixedTree "/w/A.swift" (by simp) rfl
    (FileTree.content_eq_ok_iff.2 ⟨_, _, stat_mixed⟩)
  rw [classifiedFate_overwritten _ _ (by simp) overwrite_mixed] at hA
  have hB : begunFate pairSetting.service .overwrite mendedTree "/w/B.swift"
      (mixedSource.resolve mendedTree "/w/B.swift").result = ⟨.skipped, mendedTree, []⟩ := by
    have hnone : (mixedSource.resolve mendedTree "/w/B.swift").result = .ok none := by decide
    rw [hnone]
    rfl
  have hD := fate_mixed mendedTree "/w/D.swift" (by simp) rfl (content_kept (by simp)).2
  obtain ⟨e, hrefused⟩ : ∃ e, overwrite mendedTree "/w/D.swift" "x" [⟨"/w/D.swift", 0, 1, 1⟩] =
      (mendedTree, .error e) := overwrite_of_refused (c := .write) (by decide) rfl
  rw [classifiedFate_unwritten _ _ (by simp) hrefused] at hD
  rw [lintFile_fate] at hA hB hD
  injection hA with houtcomeA htreeA
  injection hB with houtcomeB htreeB
  injection hD with houtcomeD htreeD
  have hsource : ∀ t file, (lintFile pairSetting.service .overwrite t mixedSource file).source =
      mixedSource := fun t file => lintFile_source ..
  simp only [lintFiles, List.foldl_cons, List.foldl_nil, Run.step, Option.isSome_none,
    Bool.false_eq_true, if_false, houtcomeA, htreeA, hsource, houtcomeB, htreeB, houtcomeD, htreeD,
    and_self]

/-- None of the files to lint is the link. -/
theorem resolve_mixed {file : Path}
    (hf : file ∈ (["/w/A.swift", "/w/B.swift", "/w/D.swift"] : List Path)) :
    mixedTree.resolve false file ≠ .ok ["w", "C.swift"] := by
  simp only [List.mem_cons, List.not_mem_nil, or_false] at hf
  rcases hf with rfl | rfl | rfl
  · rw [FileTree.resolve_straight false (r := .ok ["w", "A.swift"]) (by decide +kernel)
      (by decide +kernel)]
    decide
  · rw [FileTree.resolve_straight false (r := .ok ["w", "B.swift"]) (by decide +kernel)
      (by decide +kernel)]
    decide
  · rw [FileTree.resolve_straight false (r := .ok ["w", "D.swift"]) (by decide +kernel)
      (by decide +kernel)]
    decide

/-- The first file is mended, the others are not: the second has no arguments, and the machine
refuses to write the third. The link is a link to the first still. -/
theorem run_touches_mixed :
    ∃ p, prepare mixedTree ⟨none, []⟩ mixedOptions = .ok p ∧
      ∃ (s : State World Progress) (total : Summary),
        (p.job mixedTree).Runs pairSetting.service.answers s ∧
        s.world.tree = (runWith pairSetting.service mixedTree ⟨none, []⟩ mixedOptions).tree ∧
        (runWith pairSetting.service mixedTree ⟨none, []⟩ mixedOptions).result = .ok total ∧
        total.filesOverwritten = 1 ∧
        (p.job mixedTree).Mended s.world "/w/A.swift" ∧
        ¬(p.job mixedTree).Mended s.world "/w/B.swift" ∧
        ¬(p.job mixedTree).Mended s.world "/w/D.swift" ∧
        FileTree.entryAt? s.world.tree ["w", "C.swift"] = some (.link "A.swift") := by
  obtain ⟨p, hprepare, hfiles, hsource, hmode⟩ := prepare_mixed
  obtain ⟨hlinted, hfatal⟩ := lintFiles_mixed
  obtain ⟨_, hruns⟩ := run_touches mixedTree wellFormed_mixed ⟨none, []⟩ mixedOptions
  obtain ⟨hone, hall⟩ := hruns p hprepare
  obtain ⟨s, os, r, hrun, hdone, hr, htree, hresult⟩ := hone pairSetting.service
  obtain ⟨_, honly, hcount⟩ := hall _ steady_pair.readOnly s hrun
  have hafter : s.world.tree = mendedTree := by
    rw [htree, ← hlinted]
    simp only [runWith, hprepare, Prepared.run, hfiles, hsource, hmode]
  have hslot : s.slot = none := by
    have hok : (runWith pairSetting.service mixedTree ⟨none, []⟩ mixedOptions).result =
        .ok (lintFiles pairSetting.service p.mode mixedTree p.source p.files).summary := by
      simp only [runWith, hprepare, Prepared.run, Run.result, hfiles, hsource, hmode, hfatal]
    rw [hresult] at hok
    cases hslot : s.slot with
    | none => rfl
    | some e =>
      rw [hslot] at hok
      cases hok
  have hmended : (p.job mixedTree).Mended s.world "/w/A.swift" := by
    by_contra hnot
    have hsame := (honly.files _ (by simp [Prepared.job, hfiles])).2 hnot
    rw [hafter] at hsame
    have hboth := (hsame _).1 (FileTree.content_eq_ok_iff.2 ⟨_, _, stat_mended⟩)
    rw [Prepared.job, FileTree.content, stat_mixed] at hboth
    exact absurd (Except.ok.inj hboth) (by decide +kernel)
  have hkept : ∀ file ∈ (["/w/B.swift", "/w/D.swift"] : List Path),
      ¬(p.job mixedTree).Mended s.world file := by
    intro file hfile
    refine (honly.files _ (by rw [Prepared.job, hfiles]; exact List.mem_cons_of_mem _ hfile)).1
      fun content => ?_
    obtain ⟨hbefore, hkept⟩ := content_kept hfile
    rw [hafter, Prepared.job, hbefore, hkept]
  refine ⟨p, hprepare, s, r.total, hrun, htree, ?_, ?_, hmended, hkept _ (by simp),
    hkept _ (by simp), ?_⟩
  · rw [hresult, hslot]
    rfl
  · rw [hcount os r hdone hr, hfiles]
    simp [hmended, hkept]
  · rw [honly.entries _ fun file hf _ => resolve_mixed (hfiles ▸ hf)]
    rfl

end ExplicitSelf.Lint
