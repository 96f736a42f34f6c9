import ExplicitSelf.ArgumentSource
import ExplicitSelf.Proofs.Arguments.NormalForm
import ExplicitSelf.Proofs.BuildLog.Caching
import ExplicitSelf.Proofs.BuildLog.Scan
import ExplicitSelf.Proofs.Plan.Steps

/-!
# Arguments that are found are normal

A look-up takes its arguments from a log or from a plan and does not look at them again. Logs are
read line by line and plans step by step, and each reader normalizes what it has read. So the
arguments of a look-up are normal, whatever the logs hold and however much of them was read before.

Plans are the one source that could hold anything; those that are opened were parsed (`Genuine`).

Results:
* `genuine_of_open`, `Genuine.resolve`: what is opened is genuine, and stays so.
* `resolve_normal`: what a look-up gives is normal.
-/
namespace ExplicitSelf.ArgumentSource

open Arguments (normalize)

variable {t : FileTree} {file : Path} {source : ArgumentSource} {args : List String}

/-- A plan that a source holds was parsed. -/
def Genuine : ArgumentSource → Prop
  | .buildPlan plan => ∃ delimiter text, Plan.parse delimiter text = .ok plan
  | .activityLogs _ => True
  | .derivedData _ _ => True

theorem genuine_of_load {delimiter : Option String} {path : Path} {plan : Plan}
    (h : Plan.load t delimiter path = .ok plan) : Genuine (.buildPlan plan) := by
  unfold Plan.load at h
  split at h
  · cases h
  · rename_i text _
    split at h
    · rename_i hplan
      cases h
      exact ⟨delimiter, text, hplan⟩
    · cases h

/-- Every source that is opened is genuine. -/
theorem genuine_of_open {home log derived : Option Path} {delimiter : Option String}
    {records : List Record} (h : open_ t home log derived delimiter = .ok (source, records)) :
    source.Genuine := by
  unfold open_ at h
  split at h
  · split at h
    · cases h
    · cases h
      trivial
  · split at h
    · split at h
      · cases h
      · cases h
        trivial
    · split at h
      · split at h
        · cases h
        · rename_i hload
          cases h
          exact genuine_of_load hload
      · split at h
        · cases h
        · cases h
          trivial

/-- A look-up keeps a source genuine. -/
theorem Genuine.resolve (h : source.Genuine) (t : FileTree) (file : Path) :
    (source.resolve t file).source.Genuine := by
  cases source with
  | activityLogs logs => trivial
  | buildPlan plan => exact h
  | derivedData root projects =>
    unfold ArgumentSource.resolve
    simp only
    split
    · trivial
    · split <;> trivial

/-- A search of logs gives the normal form of some arguments. -/
theorem exists_of_find {logs : BuildLog.ActivityLogs}
    (h : (BuildLog.find t file logs).arguments = some args) : ∃ raw, args = normalize raw := by
  rw [BuildLog.find_arguments] at h
  obtain ⟨contents, _, hcontents⟩ := List.exists_of_findSome?_eq_some h
  cases contents with
  | unread => cases hcontents
  | unreadable => cases hcontents
  | text contents =>
    have hfound : BuildLog.compileCommand contents file = .ok (some args) := by
      simp only [BuildLog.Contents.arguments?] at hcontents
      unfold BuildLog.compileCommand
      split at hcontents
      · rename_i hresult
        rw [hresult, hcontents]
      · cases hcontents
    obtain ⟨_, _, _, raw, _, _, _, hraw⟩ := BuildLog.compileCommand_eq_ok_iff.1 hfound
    exact ⟨raw, hraw⟩

theorem exists_of_resolve (hsource : source.Genuine)
    (h : (source.resolve t file).result = .ok (some args)) : ∃ raw, args = normalize raw := by
  unfold ArgumentSource.resolve at h
  cases source with
  | activityLogs logs => exact exists_of_find (Except.ok.inj h)
  | buildPlan plan =>
    obtain ⟨delimiter, text, hplan⟩ := hsource
    exact Plan.exists_of_arguments? hplan (Except.ok.inj h)
  | derivedData root projects =>
    simp only at h
    split at h
    · cases h
    · split at h
      · cases h
      · exact exists_of_find (Except.ok.inj h)

theorem normal_of_resolve (hsource : source.Genuine)
    (h : (source.resolve t file).result = .ok (some args)) :
    normalize args = args ∧ args ≠ [] ∧ ["-D", "DEBUG"] <:+: args ∧
      ∀ flag ∈ ["-output-file-map", "-incremental", "-parseable-output", "-serialize-diagnostics",
        "-emit-dependencies", "-O", "-DNDEBUG=1"], flag ∉ args := by
  obtain ⟨raw, rfl⟩ := exists_of_resolve hsource h
  have hnormal := Arguments.isNormal_normalize raw
  refine ⟨hnormal.normalize_eq, hnormal.ne_nil, hnormal.debug, fun flag hflag hmem => ?_⟩
  refine hnormal.clean flag hmem ?_
  clear hmem
  revert flag
  decide

/-- The arguments of a look-up are a fixed point of the normal form: not empty, with `-D DEBUG`, and
without the flags that a query must not repeat. This holds of every source that was opened, and goes
on to hold after each look-up. -/
theorem resolve_normal :
    (∀ (t : FileTree) (home log derived : Option Path) (delimiter : Option String)
      (source : ArgumentSource) (records : List Record),
      open_ t home log derived delimiter = .ok (source, records) → source.Genuine) ∧
    ∀ (t : FileTree) (file : Path) (source : ArgumentSource), source.Genuine →
      (source.resolve t file).source.Genuine ∧
      ∀ args, (source.resolve t file).result = .ok (some args) →
        normalize args = args ∧ args ≠ [] ∧ ["-D", "DEBUG"] <:+: args ∧
        ∀ flag ∈ ["-output-file-map", "-incremental", "-parseable-output",
          "-serialize-diagnostics", "-emit-dependencies", "-O", "-DNDEBUG=1"], flag ∉ args :=
  ⟨fun _ _ _ _ _ _ _ h => genuine_of_open h,
    fun t file _ hsource => ⟨hsource.resolve t file, fun _ h => normal_of_resolve hsource h⟩⟩

/-- A plan with a wrapper before the compiler, and with two file maps. -/
def wrappedPlan : String :=
  "commands:\n  C:\n    tool: swiftc\n    inputs: [/A.swift]\n    " ++
    "args: [run, --, -O, -output-file-map, m, -output-file-map, /A.swift]\n"

/-- The files of a machine that has the plan. -/
def wrappedTree : FileTree :=
  { entries := [(["p.yml"], .file (Text.encode wrappedPlan.toList) 0o644 0)]
    working := [] }

/-- The plan is opened. The value of the second file map is the file itself, and goes with it. -/
theorem resolve_normal_wrapped :
    ∃ source records,
      open_ wrappedTree none (some ("/p.yml" : Path)) none (some "--") = .ok (source, records) ∧
      (source.resolve wrappedTree "/A.swift").result = .ok (some ["-Onone", "-D", "DEBUG"]) ∧
      normalize ["-Onone", "-D", "DEBUG"] = ["-Onone", "-D", "DEBUG"] ∧
      ["-Onone", "-D", "DEBUG"] ≠ [] ∧ ["-D", "DEBUG"] <:+: ["-Onone", "-D", "DEBUG"] ∧
      ∀ flag ∈ ["-output-file-map", "-incremental", "-parseable-output", "-serialize-diagnostics",
        "-emit-dependencies", "-O", "-DNDEBUG=1"], flag ∉ ["-Onone", "-D", "DEBUG"] := by
  have hstat : wrappedTree.stat "/p.yml" = .ok (.file (Text.encode wrappedPlan.toList) 0o644 0) :=
    FileTree.stat_straight ["p.yml"] (by decide) (by decide) rfl
  have hread : wrappedTree.read "/p.yml" = .ok (Text.encode wrappedPlan.toList) :=
    FileTree.read_eq_ok_iff.2 ⟨rfl, FileTree.content_eq_ok_iff.2 ⟨_, _, hstat⟩⟩
  have htext : wrappedTree.readText "/p.yml" = .ok wrappedPlan :=
    FileTree.readText_eq_ok_iff.2 ⟨_, hread, Text.decode_encode _⟩
  have hplan : Plan.parse (some "--") wrappedPlan =
      .ok ⟨[("/A.swift", ["-Onone", "-D", "DEBUG"])]⟩ := by decide +kernel
  have hload : Plan.load wrappedTree (some "--") "/p.yml" =
      .ok ⟨[("/A.swift", ["-Onone", "-D", "DEBUG"])]⟩ := by simp only [Plan.load, htext, hplan]
  have hextension : Path.extension? "/p.yml" = some ("yml" : Name) := by decide
  have hopen : open_ wrappedTree none (some ("/p.yml" : Path)) none (some "--") =
      .ok (.buildPlan ⟨[("/A.swift", ["-Onone", "-D", "DEBUG"])]⟩,
        [⟨.info, "Resolving arguments from build plan /p.yml"⟩]) := by
    simp only [open_, FileTree.isDirectory, hstat, hextension, hload]
    rfl
  obtain ⟨hopened, hresolve⟩ := resolve_normal
  have hsource := hopened _ _ _ _ _ _ _ hopen
  exact ⟨_, _, hopen, by decide,
    (hresolve wrappedTree "/A.swift" _ hsource).2 _ (by decide)⟩

end ExplicitSelf.ArgumentSource
