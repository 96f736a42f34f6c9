import ExplicitSelf.FileTree.Replace
import ExplicitSelf.Proofs.Path.Components

/-!
# The directory next to a file

A new file that is to take the place of another is made in the directory which the path of the other
stands in. This directory is named by a front of the path, with empty names and dots left out at its
end, or by a dot if nothing is left. If the path ends anywhere, then at an entry of this directory
or at the directory itself. So whatever is not a directory has one to be replaced in.

Results:
* `ofPieces_pieces`, `octets_parent?_isPrefix`: the directory is a front of the path.
* `exists_directory`: it leads to a directory.
-/
namespace ExplicitSelf

namespace Path

theorem ofPieces_pieces (p : Path) : ofPieces (!p.isAbsolute) p.pieces = p := by
  unfold ofPieces
  rw [FileTree.pieces_eq, Text.joinWith_splitOn]
  obtain ⟨octets⟩ := p
  congr 1
  by_cases hroot : octets.head? = some slash
  · obtain ⟨bs, rfl⟩ := List.head?_eq_some_iff.1 hroot
    rfl
  · simp [isAbsolute, hroot, FileTree.body_eq_self hroot]

/-- The directory that a path stands in is a front of the path. -/
theorem octets_parent?_isPrefix {p q : Path} (h : p.parent? = some q) : q.octets <+: p.octets := by
  obtain ⟨qs, l, _, hcut, hq, _, _⟩ := exists_pieces_of_parent? h
  have hjoin := Text.joinWith_isPrefix Path.slash hcut
  rw [hq]
  conv_rhs => rw [← ofPieces_pieces p]
  unfold ofPieces
  split
  · exact hjoin
  · exact List.cons_prefix_cons.2 ⟨rfl, hjoin⟩

end Path

namespace FileTree

variable {t : FileTree} {path : Path}

theorem idle_of_isIdle {ps : List Text.Octets} (h : ∀ p ∈ ps, Path.isIdle p = true) :
    ∀ n ∈ ps.map Name.mk, n = "" ∨ n = "." := by
  intro n hn
  obtain ⟨p, hp, rfl⟩ := List.mem_map.1 hn
  rcases (by simpa [Path.isIdle] using h p hp : p = [] ∨ p = [Path.dot]) with rfl | rfl
  · exact .inl rfl
  · exact .inr rfl

/-- A path can be followed if it is a front of one that can. -/
theorem plain_of_isPrefix {q : Path} (hne : q.octets.isEmpty = false) (h : q.octets <+: path.octets)
    (hplain : Plain path) : Plain q := by
  obtain ⟨hnul, _, hsize⟩ := hplain
  refine ⟨?_, hne, ?_⟩
  · rw [Bool.eq_false_iff, ne_eq, List.contains_iff_mem] at hnul ⊢
    exact fun hmem => hnul (h.subset hmem)
  · obtain ⟨rest, hrest⟩ := h
    rw [← hrest, List.length_append] at hsize
    omega

/-- The dot leads to the working directory. -/
theorem resolve_dot (h : t.entryAt? t.working = some .directory) :
    t.resolve true "." = .ok t.working := by
  have hplain : Plain "." := by decide
  rw [resolve_eq_follow true hplain]
  exact (follow_go (turn_idle h (.inr rfl))).trans (follow_nil ..)

/-- A path whose pieces all mean nothing ends at the directory where it starts. -/
theorem directory_of_parent?_eq_none (hparent : path.parent? = none) {p : Place}
    (h : t.follow false maxLinks (t.start path) (path.pieces.map Name.mk) = .ok p) :
    t.entryAt? p = some .directory := by
  have hsteps := Path.parent?_eq_none_iff.1 hparent
  have hidle : ∀ piece ∈ path.pieces, Path.isIdle piece = true := by
    have hnone := (List.append_eq_nil_iff.1 hsteps).2
    simpa [Path.componentsOf] using hnone
  have hp := follow_idle (idle_of_isIdle hidle) h
  cases hpieces : path.pieces with
  | nil => exact absurd hpieces (pieces_ne_nil path)
  | cons piece pieces =>
    rw [hpieces] at h
    exact hp ▸ directory_of_follow h

/-- A path that ends at something other than a directory stands in a directory. -/
theorem exists_directory {p : Place} (h : t.resolve false path = .ok p)
    (hp : t.entryAt? p ≠ some .directory) :
    ∃ d, t.resolve true (Work.directoryOf path) = .ok d ∧ t.entryAt? d = some .directory := by
  have hplain := plain_of_resolve h
  rw [resolve_eq_follow false hplain, linkNames] at h
  cases hparent : path.parent? with
  | none => exact absurd (directory_of_parent?_eq_none hparent h) hp
  | some q =>
    obtain ⟨qs, l, hl, _, _, habsolute, hpieces⟩ := Path.exists_pieces_of_parent? hparent
    obtain ⟨ends, hends, _⟩ := Path.exists_dropIdle_append (!path.isAbsolute) path.pieces
    obtain ⟨idle, hidle, hall⟩ := Path.exists_dropIdle_append (!path.isAbsolute) qs
    have hnames : path.pieces.map Name.mk = qs.map Name.mk ++ (l :: ends).map Name.mk := by
      rw [← hends, hl]
      simp
    rw [hnames] at h
    obtain ⟨d, more, hd, hlast⟩ := follow_append t false maxLinks _ _ (by simp) h
    have hdir : t.entryAt? d = some .directory := directory_of_follow hlast
    rw [← hidle, List.map_append] at hd
    have hkept := follow_append_idle (idle_of_isIdle hall) hd
    have hstart : t.start q = t.start path := by rw [start, start, habsolute]
    -- The directory's own names are those that are kept, or an empty one if there are none.
    have hq : t.follow true maxLinks (t.start q) (linkNames q) = .ok d := by
      rw [hstart, linkNames, hpieces]
      split
      · rename_i hnil
        rw [hnil, List.map_nil, follow_nil] at hkept
        cases hkept
        exact (follow_go (turn_idle hdir (.inl rfl))).trans (follow_nil ..)
      · exact hkept
    rw [Work.directoryOf, hparent]
    by_cases hempty : q.octets.isEmpty = true
    · simp only [if_pos hempty]
      obtain ⟨octets⟩ := q
      obtain rfl : octets = [] := List.isEmpty_iff.1 hempty
      have hworking : d = t.working := follow_idle (by decide) hq
      subst hworking
      exact ⟨t.working, resolve_dot hdir, hdir⟩
    · simp only [if_neg hempty]
      have hplain' :=
        plain_of_isPrefix (by simpa using hempty) (Path.octets_parent?_isPrefix hparent) hplain
      exact ⟨d, (resolve_eq_follow true hplain').trans hq, hdir⟩

end FileTree

end ExplicitSelf
