import ExplicitSelf.Proofs.BuildLog.Caching
import ExplicitSelf.Proofs.Lint.Fates

/-!
# Argument sources that answer by the file alone

A build plan does not change. Activity logs are read when a look-up first needs them, so what a
source has read depends on the order of the look-ups. Its answers do not, as long as no log is one
of the files that are linted.

Results:
* `Rewritten.unchanged`: a path that ends at none of the files that are linted.
* `SourceApart.steady`: a plan, or logs that are none of the files, answer in the same way in every
  order of the look-ups.
-/
namespace ExplicitSelf.Lint

open BuildLog (ActivityLogs Log)

section
variable {t₀ t : FileTree} {files : List Path} {path : Path}

/-- Where the files of a run end after some of them are replaced, some file ended before. -/
theorem Rewritten.ends (h : Rewritten t₀ files t) {file : Path} (hf : file ∈ files) {q : Place}
    (hq : t.Ends file q) : ∃ g ∈ files, t₀.Ends g q := by
  induction h generalizing file q with
  | same => exact ⟨file, hf, hq⟩
  | replace _ hg hcontent hr ih =>
    obtain ⟨p, x, mode, hp, _, hend, rfl⟩ := FileTree.of_replace hcontent hr
    by_cases hqp : q = p
    · subst hqp
      exact ih hg (.of_resolve hp)
    · exact ih hf (.of_set hend hqp hq)

/-- A path that ends at none of the files that are linted leads where it led. -/
theorem Rewritten.unchanged (h : Rewritten t₀ files t)
    (hapart : ∀ file ∈ files, ∀ q, t₀.Ends file q → ¬t₀.Ends path q) : Unchanged t₀ t path := by
  induction h with
  | same => exact .refl t₀ path
  | @replace t _ file _ _ ht hf hcontent hr ih =>
    obtain ⟨p, x, mode, hp, hx, hend, rfl⟩ := FileTree.of_replace hcontent hr
    have hnot : ∀ q, t.Ends file q → ¬t.Ends path q := by
      intro q hq hpath
      obtain ⟨g, hg, hgq⟩ := ht.ends hf hq
      exact hapart g hg q hgq (ih.ends q hpath)
    exact ih.set hend (hnot p (.of_resolve hp)) (hnot x (.of_resolve hx)) _ _ _

end

section
variable {S : Setting}

theorem Setting.steadySource_buildPlan {plan : Plan} (h : S.source = .buildPlan plan) :
    S.SteadySource := by
  have hsame : ∀ source, S.Asked source → source = .buildPlan plan := by
    intro source hsource
    induction hsource with
    | same => exact h
    | next _ _ _ ih => rw [ih]; rfl
  intro source t file hsource _ _
  rw [hsame source hsource, h]
  rfl

section
variable {logs : ActivityLogs} (h : S.source = .activityLogs logs)
  (hlogs : ∀ log ∈ logs, ∀ file ∈ S.files, ∀ q, S.tree.Ends file q → ¬S.tree.Ends log.path q)
include hlogs

theorem sameReading_of_view {logs' : ActivityLogs}
    (hview : logs'.map (·.view S.tree) = logs.map (·.view S.tree)) {t : FileTree}
    (ht : Rewritten S.tree S.files t) : ∀ log ∈ logs', t.SameReading S.tree log.path := by
  intro log' hlog'
  have hmem : log'.view S.tree ∈ logs.map (·.view S.tree) := by
    rw [← hview]
    exact List.mem_map_of_mem hlog'
  obtain ⟨log, hlog, heq⟩ := List.mem_map.1 hmem
  have hpath : log.path = log'.path := congrArg Prod.fst heq
  have hunchanged := ht.unchanged (hlogs log hlog)
  exact hpath ▸ hunchanged.content.sameReading hunchanged.machine

include h

/-- The logs of a source that was asked hold what they held, once they are read. -/
theorem Setting.Asked.activityLogs {source : ArgumentSource} (hsource : S.Asked source) :
    ∃ logs', source = .activityLogs logs' ∧
      logs'.map (·.view S.tree) = logs.map (·.view S.tree) := by
  induction hsource with
  | same => exact ⟨logs, h, rfl⟩
  | next _ ht _ ih =>
    obtain ⟨logs', rfl, hview⟩ := ih
    refine ⟨_, rfl, ?_⟩
    rw [BuildLog.find_view _ (sameReading_of_view hlogs hview ht), hview]

/-- Logs that are none of the files answer by the file alone, whatever of them has been read. -/
theorem Setting.steadySource_activityLogs : S.SteadySource := by
  intro source t file hsource ht _
  obtain ⟨logs', rfl, hview⟩ := hsource.activityLogs h hlogs
  have hknown : logs'.map (·.known t) = logs.map (·.known S.tree) := by
    calc logs'.map (·.known t)
        = logs'.map (·.known S.tree) := List.map_congr_left fun log hlog =>
          BuildLog.known_congr (sameReading_of_view hlogs hview ht log hlog)
      _ = logs.map (·.known S.tree) := by
          simpa [List.map_map, Function.comp_def, Log.view] using congrArg (List.map Prod.snd) hview
  rw [h]
  simp only [ArgumentSource.resolve]
  rw [BuildLog.find_arguments, BuildLog.find_arguments, hknown]

end

/-- A source that a run does not overwrite: a plan, which is held already, or logs that are none of
the files. -/
inductive Setting.SourceApart (S : Setting) : Prop where
  | plan (plan : Plan) (h : S.source = .buildPlan plan)
  | logs (logs : ActivityLogs) (h : S.source = .activityLogs logs)
      (hlogs : ∀ log ∈ logs, ∀ file ∈ S.files, ∀ q, S.tree.Ends file q → ¬S.tree.Ends log.path q)

theorem Setting.SourceApart.steady (h : S.SourceApart) : S.SteadySource := by
  cases h with
  | plan plan h => exact steadySource_buildPlan h
  | logs logs h hlogs => exact steadySource_activityLogs h hlogs

end

end ExplicitSelf.Lint
