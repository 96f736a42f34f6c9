import ExplicitSelf.BuildLog.ActivityLogs
import ExplicitSelf.Proofs.FileTree.NewFile

/-!
# Logs that are read when they are needed

A search reads the logs that it comes to, and leaves the others unread. So what is kept of the logs
depends on the searches before. The answer does not: it is that of the contents which the logs have
once they are read.

Results:
* `find_arguments`: the answer of a search, by what the logs hold once they are read.
* `find_view`: a search changes nothing of what the logs hold once they are read.
-/
namespace ExplicitSelf.BuildLog

/-- The arguments that a log with these contents has for a file. -/
def Contents.arguments? (file : Path) : Contents → Option (List String)
  | .text contents =>
    match (scan contents file).result with
    | .ok found => found
    | .error _ => none
  | _ => none

/-- What a log holds once it is read. -/
def Log.known (t : FileTree) (log : Log) : Contents :=
  (log.load t).1.contents

/-- A search ends at the first log that has arguments for the file. -/
theorem find_cons (t : FileTree) (file : Path) (log : Log) (rest : ActivityLogs) :
    (∃ arguments, (log.known t).arguments? file = some arguments ∧
      (find t file (log :: rest)).arguments = some arguments ∧
      (find t file (log :: rest)).logs = (log.load t).1 :: rest) ∨
    (log.known t).arguments? file = none ∧
      (find t file (log :: rest)).arguments = (find t file rest).arguments ∧
      (find t file (log :: rest)).logs = (log.load t).1 :: (find t file rest).logs := by
  unfold Log.known
  rw [find]
  simp only
  cases (log.load t).1.contents with
  | unread => exact .inr ⟨rfl, rfl, rfl⟩
  | unreadable => exact .inr ⟨rfl, rfl, rfl⟩
  | text contents =>
    simp only [Contents.arguments?]
    cases (scan contents file).result with
    | error e => exact .inr ⟨rfl, rfl, rfl⟩
    | ok found =>
      cases found with
      | none => exact .inr ⟨rfl, rfl, rfl⟩
      | some arguments => exact .inl ⟨arguments, rfl, rfl, rfl⟩

theorem find_arguments (t : FileTree) (file : Path) (logs : ActivityLogs) :
    (find t file logs).arguments = (logs.map (·.known t)).findSome? (·.arguments? file) := by
  induction logs with
  | nil => rfl
  | cons log rest ih =>
    rw [List.map_cons, List.findSome?_cons]
    rcases find_cons t file log rest with ⟨arguments, hlog, hfind, _⟩ | ⟨hlog, hfind, _⟩
    · rw [hfind, hlog]
    · rw [hfind, hlog, ih]

/-! ## What is kept -/

section
variable {t t' : FileTree} {log : Log}

theorem load_path (t : FileTree) (log : Log) : (log.load t).1.path = log.path := by
  unfold Log.load
  split
  · split <;> rfl
  · rfl

theorem readLog_sameReading (h : t.SameReading t' log.path) (text : String) :
    readLog t log.path = .ok text ↔ readLog t' log.path = .ok text := by
  unfold readLog
  cases hr : t.read log.path with
  | ok bs => rw [(h bs).1 hr]
  | error e =>
    cases hr' : t'.read log.path with
    | error e' => constructor <;> (intro he; cases he)
    | ok bs =>
      rw [(h bs).2 hr'] at hr
      cases hr

/-- What a log holds once it is read depends on what can be read of its file. -/
theorem known_congr (h : t.SameReading t' log.path) : log.known t = log.known t' := by
  unfold Log.known Log.load
  split
  · cases hr : readLog t log.path with
    | ok text => rw [(readLog_sameReading h text).1 hr]
    | error e =>
      cases hr' : readLog t' log.path with
      | error e' => rfl
      | ok text =>
        rw [(readLog_sameReading h text).2 hr'] at hr
        cases hr
  · rfl

theorem load_of_read (t : FileTree) (h : log.contents ≠ .unread) : log.load t = (log, []) := by
  unfold Log.load
  split
  · rename_i hunread
    exact absurd hunread h
  · rfl

theorem load_ne_unread (t : FileTree) (log : Log) : (log.load t).1.contents ≠ .unread := by
  unfold Log.load
  split
  · split <;> simp
  · rename_i hne
    exact hne

/-- Reading a log once more changes nothing. -/
theorem known_load (t t' : FileTree) (log : Log) : (log.load t).1.known t' = log.known t := by
  rw [Log.known, load_of_read t' (load_ne_unread t log), Log.known]

/-- A log by its file and by what it holds once it is read. -/
def Log.view (t : FileTree) (log : Log) : Path × Contents :=
  (log.path, log.known t)

theorem view_load (h : t.SameReading t' log.path) : (log.load t).1.view t' = log.view t' := by
  rw [Log.view, load_path, known_load, known_congr h, Log.view]

/-- A search changes nothing of what the logs hold once they are read. -/
theorem find_view (file : Path) {logs : ActivityLogs}
    (h : ∀ log ∈ logs, t.SameReading t' log.path) :
    (find t file logs).logs.map (·.view t') = logs.map (·.view t') := by
  induction logs with
  | nil => rfl
  | cons log rest ih =>
    have hlog := view_load (h log (List.mem_cons_self ..))
    have hrest := ih fun log' hl => h log' (List.mem_cons_of_mem _ hl)
    rcases find_cons t file log rest with ⟨_, _, _, hfind⟩ | ⟨_, _, hfind⟩
    · rw [hfind, List.map_cons, List.map_cons, hlog]
    · rw [hfind, List.map_cons, List.map_cons, hlog, hrest]

end

end ExplicitSelf.BuildLog
