import ExplicitSelf.Proofs.BuildLog.Caching
import Mathlib.Data.List.Forall2
import Mathlib.Data.List.Nodup

/-!
# Answers from logs are snapshots

A search reads the logs that it comes to, up to the first that has arguments. So which logs are
read, and when, depends on all calls before. Between two calls the file system may change in any
way. The answers do not change: what a call has looked at is kept as it was then, and a later call
for the same file looks at nothing else.

Results:
* `readings`, `find_eq_of_readings`: the logs that a search reads, and that it depends on no other
  file.
* `find_loads`: what one call does to each log.
* `find_arguments_of_kept`: a search is settled by the logs that it has loaded.
* `calls_answer_snapshots`: what calls do to each log, how often they read it, and what they answer.
-/
namespace ExplicitSelf.BuildLog

/-- What a file holds as a log, at one moment: the text that its octets stand for. -/
def snapshot (t : FileTree) (path : Path) : Contents :=
  match t.read path with
  | .error _ => .unreadable
  | .ok octets =>
    match decode octets with
    | .error _ => .unreadable
    | .ok text => .text text

theorem snapshot_ne_unread (t : FileTree) (path : Path) : snapshot t path ≠ .unread := by
  unfold snapshot
  split
  · simp
  · split <;> simp

theorem load_of_unread (t : FileTree) {log : Log} (h : log.contents = .unread) :
    (log.load t).1 = { log with contents := snapshot t log.path } := by
  unfold Log.load snapshot readLog
  rw [h]
  cases t.read log.path with
  | error e => rfl
  | ok octets => cases hd : decode octets <;> simp only [hd]

/-! ## One call -/

/-- What a call in the file system `t` can do to a log: nothing, or load it if it was not read
yet. -/
def Log.Loads (t : FileTree) (log log' : Log) : Prop :=
  log' = log ∨ log.contents = .unread ∧ log' = { log with contents := snapshot t log.path }

theorem loads_load (t : FileTree) (log : Log) : log.Loads t (log.load t).1 := by
  by_cases h : log.contents = .unread
  · exact .inr ⟨h, load_of_unread t h⟩
  · rw [load_of_read t h]
    exact .inl rfl

/-- A call leaves each log as it is, or loads it. -/
theorem find_loads (t : FileTree) (file : Path) (logs : ActivityLogs) :
    List.Forall₂ (Log.Loads t) logs (find t file logs).logs := by
  induction logs with
  | nil => exact .nil
  | cons log rest ih =>
    rcases find_cons t file log rest with ⟨_, _, _, hfind⟩ | ⟨_, _, hfind⟩
    · rw [hfind]
      exact .cons (loads_load t log) (List.forall₂_same.2 fun _ _ => .inl rfl)
    · rw [hfind]
      exact .cons (loads_load t log) ih

/-- The positions of the logs whose files a search reads. -/
def readings (t : FileTree) (file : Path) : ActivityLogs → List Nat
  | [] => []
  | log :: rest =>
    (if log.contents = .unread then [0] else []) ++
      match (log.known t).arguments? file with
      | some _ => []
      | none => (readings t file rest).map (· + 1)

theorem load_congr {t t' : FileTree} {log : Log}
    (h : log.contents = .unread → readLog t log.path = readLog t' log.path) :
    log.load t = log.load t' := by
  by_cases hu : log.contents = .unread
  · unfold Log.load
    rw [hu, h hu]
  · rw [load_of_read t hu, load_of_read t' hu]

/-- A search depends on no files but those that it reads. -/
theorem find_eq_of_readings {t t' : FileTree} (file : Path) {logs : ActivityLogs}
    (h : ∀ i ∈ readings t file logs, ∀ log, logs[i]? = some log →
      readLog t log.path = readLog t' log.path) :
    find t file logs = find t' file logs := by
  induction logs with
  | nil => rfl
  | cons log rest ih =>
    have hload : log.load t = log.load t' :=
      load_congr fun hu => h 0 (by simp [readings, hu]) log rfl
    have hrest : (log.known t).arguments? file = none → find t file rest = find t' file rest := by
      intro hnone
      refine ih fun i hi log' hlog' => h (i + 1) ?_ log' (by simpa using hlog')
      simp [readings, hnone, hi]
    unfold Log.known at hrest
    rw [find, find, ← hload]
    simp only
    cases hcontents : (log.load t).1.contents with
    | unread => simp only [hrest (by rw [hcontents]; rfl)]
    | unreadable => simp only [hrest (by rw [hcontents]; rfl)]
    | text contents =>
      simp only
      rw [hcontents] at hrest
      simp only [Contents.arguments?] at hrest
      cases hresult : (scan contents file).result with
      | error e => simp only [hrest (by rw [hresult])]
      | ok found =>
        cases found with
        | none => simp only [hrest (by rw [hresult])]
        | some arguments => rfl

/-- The logs that a search reads are those that it loads. -/
theorem mem_readings_iff {t : FileTree} {file : Path} {logs : ActivityLogs} {i : Nat} :
    i ∈ readings t file logs ↔ ∃ log log', logs[i]? = some log ∧ log.contents = .unread ∧
      (find t file logs).logs[i]? = some log' ∧ log'.contents ≠ .unread := by
  induction logs generalizing i with
  | nil => simp [readings]
  | cons log rest ih =>
    cases i with
    | zero =>
      have hhead : (find t file (log :: rest)).logs[0]? = some (log.load t).1 := by
        rcases find_cons t file log rest with ⟨_, _, _, hfind⟩ | ⟨_, _, hfind⟩ <;> rw [hfind] <;>
          rfl
      have hzero : 0 ∈ readings t file (log :: rest) ↔ log.contents = .unread := by
        rw [readings, List.mem_append]
        split <;> split <;> simp_all
      rw [hzero, hhead]
      constructor
      · intro hu
        exact ⟨log, _, rfl, hu, rfl, load_ne_unread t log⟩
      · rintro ⟨_, _, hlog, hu, _⟩
        cases hlog
        exact hu
    | succ i =>
      have hfirst : i + 1 ∉ if log.contents = .unread then [0] else [] := by
        split <;> simp
      rw [readings, List.mem_append, or_iff_right hfirst]
      rcases find_cons t file log rest with ⟨_, hlog, _, hfind⟩ | ⟨hlog, _, hfind⟩
      · -- The search ends at the first log, so the others stay as they are.
        rw [hlog, hfind]
        simp only [List.not_mem_nil, List.getElem?_cons_succ, false_iff, not_exists]
        rintro log log' ⟨h, hu, h', hu'⟩
        rw [h] at h'
        cases h'
        exact hu' hu
      · rw [hlog, hfind]
        simp only [List.getElem?_cons_succ, List.mem_map, Nat.add_right_cancel_iff, exists_eq_right]
        exact ih

theorem nodup_readings (t : FileTree) (file : Path) (logs : ActivityLogs) :
    (readings t file logs).Nodup := by
  induction logs with
  | nil => exact List.nodup_nil
  | cons log rest ih =>
    have hmap : ((readings t file rest).map (· + 1)).Nodup := ih.map fun _ _ h => Nat.succ.inj h
    rw [readings]
    split <;> split <;> simp [hmap]

/-! ## Many calls -/

/-- A call: the file system as it is then, and the source file that is asked for. -/
structure Call where
  tree : FileTree
  file : Path

/-- The logs after calls. -/
def logsAfter (logs : ActivityLogs) (calls : List Call) : ActivityLogs :=
  calls.foldl (fun logs call => (find call.tree call.file logs).logs) logs

/-- The answer of call `k`. -/
def answer? (logs : ActivityLogs) (calls : List Call) (k : Nat) : Option (Option (List String)) :=
  calls[k]?.map fun call => (find call.tree call.file (logsAfter logs (calls.take k))).arguments

/-- The positions of the logs whose files calls read, in the order of the readings. -/
def allReadings : (logs : ActivityLogs) → (calls : List Call) → List Nat
  | _, [] => []
  | logs, call :: calls =>
    readings call.tree call.file logs ++ allReadings (find call.tree call.file logs).logs calls

@[simp] theorem logsAfter_nil (logs : ActivityLogs) : logsAfter logs [] = logs := rfl

@[simp] theorem logsAfter_cons (logs : ActivityLogs) (call : Call) (calls : List Call) :
    logsAfter logs (call :: calls) = logsAfter (find call.tree call.file logs).logs calls := rfl

theorem logsAfter_append (logs : ActivityLogs) (calls more : List Call) :
    logsAfter logs (calls ++ more) = logsAfter (logsAfter logs calls) more :=
  List.foldl_append

/-- A log stays as it is once it is read. -/
def Log.Kept (log log' : Log) : Prop :=
  log.contents ≠ .unread → log' = log

theorem Log.Loads.kept {t : FileTree} {log log' : Log} (h : log.Loads t log') : log.Kept log' := by
  intro hne
  rcases h with h | ⟨hu, _⟩
  · exact h
  · exact absurd hu hne

theorem kept_trans {a b c : ActivityLogs} (hab : List.Forall₂ Log.Kept a b)
    (hbc : List.Forall₂ Log.Kept b c) : List.Forall₂ Log.Kept a c := by
  induction hab generalizing c with
  | nil => exact hbc
  | cons hlog _ ih =>
    cases hbc with
    | cons hlog' hrest =>
      refine .cons (fun hne => ?_) (ih hrest)
      cases hlog hne
      exact hlog' hne

theorem kept_logsAfter (logs : ActivityLogs) (calls : List Call) :
    List.Forall₂ Log.Kept logs (logsAfter logs calls) := by
  induction calls generalizing logs with
  | nil => exact List.forall₂_same.2 fun _ _ _ => rfl
  | cons call calls ih =>
    exact kept_trans ((find_loads call.tree call.file logs).imp fun _ _ h => h.kept) (ih _)

/-- A search is settled by the logs that it has loaded. In whatever file system it is made again,
and whatever was read meanwhile, it answers the same. -/
theorem find_arguments_of_kept {t : FileTree} {file : Path} {logs logs' : ActivityLogs}
    (h : List.Forall₂ Log.Kept (find t file logs).logs logs') (t' : FileTree) :
    (find t' file logs').arguments = (find t file logs).arguments := by
  induction logs generalizing logs' with
  | nil =>
    cases h
    rfl
  | cons log rest ih =>
    rcases find_cons t file log rest with ⟨arguments, hlog, hfind, hlogs⟩ | ⟨hlog, hfind, hlogs⟩
    · rw [hlogs] at h
      cases h with
      | @cons _ log' _ rest' hkept _ =>
        cases hkept (load_ne_unread t log)
        rw [find_arguments, List.map_cons, List.findSome?_cons, known_load, hlog, hfind]
    · rw [hlogs] at h
      cases h with
      | @cons _ log' _ rest' hkept hrest =>
        cases hkept (load_ne_unread t log)
        rw [find_arguments, List.map_cons, List.findSome?_cons, known_load, hlog, hfind, ← ih hrest,
          find_arguments]

/-- Once a file was asked for, the answer stays. -/
theorem answer?_eq (logs : ActivityLogs) {calls : List Call} {j k : Nat} (hjk : j < k) {c d : Call}
    (hc : calls[j]? = some c) (hd : calls[k]? = some d) (hfile : d.file = c.file) :
    answer? logs calls k = answer? logs calls j := by
  have hbetween : calls.take k = calls.take j ++ c :: (calls.take k).drop (j + 1) := by
    have hj : (calls.take k)[j]? = some c := by rw [List.getElem?_take_of_lt hjk, hc]
    have htake : (calls.take k).take j = calls.take j := by
      rw [List.take_take, Nat.min_eq_left (Nat.le_of_lt hjk)]
    obtain ⟨hlt, hget⟩ := List.getElem?_eq_some_iff.1 hj
    rw [← htake, ← hget, List.getElem_cons_drop, List.take_append_drop]
  unfold answer?
  rw [hc, hd, hbetween, logsAfter_append, logsAfter_cons]
  simp only [Option.map_some, hfile]
  rw [find_arguments_of_kept (kept_logsAfter _ _)]

section
variable {logs : ActivityLogs} {i : Nat} {log : Log}

theorem exists_loads (h : logs[i]? = some log) (t : FileTree) (file : Path) :
    ∃ log', (find t file logs).logs[i]? = some log' ∧ log.Loads t log' := by
  obtain ⟨hlength, hget⟩ := List.forall₂_iff_get.1 (find_loads t file logs)
  obtain ⟨hi, rfl⟩ := List.getElem?_eq_some_iff.1 h
  have hi' : i < (find t file logs).logs.length := hlength ▸ hi
  exact ⟨_, List.getElem?_eq_getElem hi', hget i hi hi'⟩

theorem logsAfter_of_read (h : logs[i]? = some log) (hread : log.contents ≠ .unread)
    (calls : List Call) : (logsAfter logs calls)[i]? = some log := by
  obtain ⟨hlength, hget⟩ := List.forall₂_iff_get.1 (kept_logsAfter logs calls)
  obtain ⟨hi, rfl⟩ := List.getElem?_eq_some_iff.1 h
  have hi' : i < (logsAfter logs calls).length := hlength ▸ hi
  rw [List.getElem?_eq_getElem hi']
  exact congrArg some (hget i hi hi' hread)

/-- A log stays as it is through all calls, or it is unread until one call loads it, and from then
on stays as its file was at that call. -/
theorem logsAfter_cases (calls : List Call) (h : logs[i]? = some log) :
    (∀ k, (logsAfter logs (calls.take k))[i]? = some log) ∨
      log.contents = .unread ∧ ∃ k call, calls[k]? = some call ∧
        (∀ j ≤ k, (logsAfter logs (calls.take j))[i]? = some log) ∧
        ∀ j, k < j → (logsAfter logs (calls.take j))[i]? =
          some { log with contents := snapshot call.tree log.path } := by
  induction calls generalizing logs with
  | nil => exact .inl fun k => by rw [List.take_nil]; exact h
  | cons call calls ih =>
    obtain ⟨log', hlog', rfl | ⟨hunread, rfl⟩⟩ := exists_loads h call.tree call.file
    · rcases ih hlog' with hstays | ⟨hunread, k, call', hcall, hbefore, hafter⟩
      · refine .inl fun k => ?_
        cases k with
        | zero => exact h
        | succ k => exact hstays k
      · refine .inr ⟨hunread, k + 1, call', by simpa using hcall, fun j hj => ?_, fun j hj => ?_⟩
        · cases j with
          | zero => exact h
          | succ j => exact hbefore j (by omega)
        · cases j with
          | zero => omega
          | succ j => exact hafter j (by omega)
    · -- This is the call that loads the log; the others find it read.
      refine .inr ⟨hunread, 0, call, rfl, fun j hj => ?_, fun j hj => ?_⟩
      · cases Nat.le_zero.1 hj
        exact h
      · cases j with
        | zero => omega
        | succ j => exact logsAfter_of_read hlog' (snapshot_ne_unread _ _) (calls.take j)

end

/-- Only logs that are unread at the start are read. -/
theorem unread_of_mem_allReadings {logs : ActivityLogs} {calls : List Call} {i : Nat}
    (h : i ∈ allReadings logs calls) : ∃ log, logs[i]? = some log ∧ log.contents = .unread := by
  induction calls generalizing logs with
  | nil => cases h
  | cons call calls ih =>
    rcases List.mem_append.1 h with h | h
    · obtain ⟨log, _, hlog, hunread, _⟩ := mem_readings_iff.1 h
      exact ⟨log, hlog, hunread⟩
    · obtain ⟨log', hlog', hunread'⟩ := ih h
      obtain ⟨hlength, _⟩ := List.forall₂_iff_get.1 (find_loads call.tree call.file logs)
      have hi : i < logs.length := hlength ▸ (List.getElem?_eq_some_iff.1 hlog').1
      refine ⟨logs[i], List.getElem?_eq_getElem hi, ?_⟩
      by_contra hread
      have hkept := logsAfter_of_read (List.getElem?_eq_getElem hi) hread [call]
      rw [logsAfter_cons, logsAfter_nil, hlog'] at hkept
      cases hkept
      exact hread hunread'

/-- No log is read twice. -/
theorem nodup_allReadings (logs : ActivityLogs) (calls : List Call) :
    (allReadings logs calls).Nodup := by
  induction calls generalizing logs with
  | nil => exact List.nodup_nil
  | cons call calls ih =>
    rw [allReadings, List.nodup_append]
    refine ⟨nodup_readings call.tree call.file logs, ih _, ?_⟩
    rintro i hi _ hmore rfl
    obtain ⟨_, log', _, _, hlog', hread⟩ := mem_readings_iff.1 hi
    obtain ⟨log'', hlog'', hunread⟩ := unread_of_mem_allReadings hmore
    rw [hlog'] at hlog''
    cases hlog''
    exact hread hunread

/-- Answers from logs are snapshots, whatever the file system is at each call. A log is loaded at
most once, as its file is at that moment; a log that was read, or given with its contents, is never
read; a call looks at no files but those of the logs that it reads; and once a file was asked for,
later calls for it answer the same. -/
theorem calls_answer_snapshots (logs : ActivityLogs) (calls : List Call) :
    (∀ (i : Nat) (log : Log), logs[i]? = some log →
      (∀ k, (logsAfter logs (calls.take k))[i]? = some log) ∨
        log.contents = .unread ∧ ∃ k call, calls[k]? = some call ∧
          (∀ j ≤ k, (logsAfter logs (calls.take j))[i]? = some log) ∧
          ∀ j, k < j → (logsAfter logs (calls.take j))[i]? =
            some { log with contents := snapshot call.tree log.path }) ∧
    (allReadings logs calls).Nodup ∧
    (∀ i ∈ allReadings logs calls, ∃ log, logs[i]? = some log ∧ log.contents = .unread) ∧
    (∀ path contents, allReadings (.preloaded path contents) calls = []) ∧
    (∀ k call, calls[k]? = some call → ∀ t,
      (∀ i ∈ readings call.tree call.file (logsAfter logs (calls.take k)),
        ∀ log, (logsAfter logs (calls.take k))[i]? = some log →
          readLog call.tree log.path = readLog t log.path) →
      find call.tree call.file (logsAfter logs (calls.take k)) =
        find t call.file (logsAfter logs (calls.take k))) ∧
    ∀ (j k : Nat) (c d : Call), j < k → calls[j]? = some c → calls[k]? = some d → d.file = c.file →
      answer? logs calls k = answer? logs calls j := by
  refine ⟨fun i log h => logsAfter_cases calls h, nodup_allReadings logs calls,
    fun i hi => unread_of_mem_allReadings hi, fun path contents => ?_,
    fun k call _ t h => find_eq_of_readings call.file h,
    fun j k c d hjk hc hd hfile => answer?_eq logs hjk hc hd hfile⟩
  rw [List.eq_nil_iff_forall_not_mem]
  intro i hi
  obtain ⟨log, hlog, hunread⟩ := unread_of_mem_allReadings hi
  rw [List.mem_singleton.1 (List.mem_of_getElem? hlog)] at hunread
  cases hunread

end ExplicitSelf.BuildLog
