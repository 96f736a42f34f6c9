import ExplicitSelf.Proofs.FileTree.Pruning
import ExplicitSelf.Proofs.Path.Lexical
import ExplicitSelf.Proofs.Path.Texts
import ExplicitSelf.Workspace

/-!
# The files that are linted below a directory

A directory to lint is walked from its normal form on, and the walk leaves out directories of build
products and version control by their names. Only names below the start count, so it does not matter
where the start itself lies. A path of the walk is the start in normal form with names below it,
which is in normal form again, and different names make different paths.

Results:
* `isAbsolute_of_absolute?`, `exists_rooted`: the start of a walk.
* `listed_iff`: which visits are listed.
* `pairwise_sortedPaths`: the order of the list.
* `files_eq`: the list, by a complete walk.
* `files_of_directory`: the files that are listed.
-/
namespace ExplicitSelf.Workspace

open FileTree (below visitPath IsName Readable complete kept)

/-! ## The start of a walk -/

/-- The path at which the files of an argument are looked for: absolute, and in normal form. -/
def root? (t : FileTree) (path : Path) : Option Path :=
  (Path.absolute? (.ofComponents (.root :: t.working.map .name)) path).map Path.normalize

theorem isAbsolute_of_absolute? {cs : List Component} {p q : Path}
    (h : Path.absolute? (.ofComponents (.root :: cs)) p = some q) : q.isAbsolute = true := by
  unfold Path.absolute? at h
  split at h
  · cases h
  · split at h
    · rename_i habsolute
      cases h
      rw [Path.components_of_isAbsolute habsolute]
      exact Path.isAbsolute_rooted _
    · cases h
      rw [Path.components_of_isAbsolute (Path.isAbsolute_rooted cs), List.cons_append]
      exact Path.isAbsolute_rooted _

/-- The start of a walk goes down from the root by names. -/
theorem exists_rooted {t : FileTree} {path root : Path} (h : root? t path = some root) :
    ∃ ns : List Name, (∀ n ∈ ns, IsName n) ∧ root = .ofComponents (.root :: ns.map .name) := by
  obtain ⟨absolute, habsolute, rfl⟩ := Option.map_eq_some_iff.1 h
  have hnormal := Path.isNormal_normalizeComponents absolute
  rw [isAbsolute_of_absolute? habsolute] at hnormal
  unfold Path.normalize
  generalize Path.normalizeComponents absolute.components = cs at hnormal
  cases hnormal with
  | @absolute ns hns => exact ⟨ns, hns, rfl⟩

/-! ## Which visits are listed -/

/-- Names that lead from a place to a file to lint: without links, with the right extension, not
below a directory that is never searched, and not left out by the configuration. -/
structure IsListed (t : FileTree) (excludes : Excludes) (top : Place) (names : List Name) :
    Prop where
  file : ∃ content mode modified, t.Inside top names (.file content mode modified)
  extension : (Path.ofNames names).extension? = some ("swift" : Name)
  searched : ∀ n ∈ names, ∀ s ∈ skippedNames, n ≠ s
  included : excludes.isMatch (Path.ofNames names) = false

theorem relative_eq (v : Visit) : relative v = Path.ofNames v.names := by
  rw [Path.ofNames_eq]
  rfl

theorem extension?_ofNames {names : List Name} (h : ∀ n ∈ names, IsName n) :
    (Path.ofNames names).extension? = some ("swift" : Name) ↔
      names.getLast?.any isSwiftName = true := by
  have hfile : (Path.ofNames names).fileName? = names.getLast? := by
    rw [Path.fileName?, (Path.components_ofNames h).1, List.getLast?_map]
    cases names.getLast? <;> rfl
  rw [Path.extension?, hfile]
  cases names.getLast? with
  | none => simp
  | some n =>
    cases hextension : Path.extensionOf? n.octets with
    | none => simp [isSwiftName, hextension]
    | some e => simp [isSwiftName, hextension, Name.ofText]

theorem isSkippedName_eq_false_iff {n : Name} :
    isSkippedName n = false ↔ ∀ s ∈ skippedNames, n ≠ s := by
  have hplain : ∀ s ∈ skippedNames, Text.replacement ∉ s.toList := by decide
  rw [isSkippedName, List.contains_eq_mem, decide_eq_false_iff_not]
  constructor
  · intro h s hs heq
    exact h ((Name.text_eq_iff (hplain s hs)).2 heq ▸ hs)
  · intro h hmem
    exact h _ hmem ((Name.text_eq_iff (hplain _ hmem)).1 rfl)

/-- What a visit must be to be listed. -/
theorem listed_iff {excludes : Excludes} {v : Visit} (hnames : ∀ n ∈ v.names, IsName n) :
    (isWanted excludes v && kept isSkippedName v) = true ↔
      v.entry.isFile = true ∧ (Path.ofNames v.names).extension? = some ("swift" : Name) ∧
        (∀ n ∈ v.names, ∀ s ∈ skippedNames, n ≠ s) ∧ excludes.isMatch (Path.ofNames v.names) =
          false := by
  rw [extension?_ofNames hnames, isWanted, relative_eq, kept]
  simp only [Bool.and_eq_true, Bool.not_eq_true', List.all_eq_true, isSkippedName_eq_false_iff]
  exact ⟨fun h => ⟨h.1.1.1, h.1.1.2, h.2, h.1.2⟩, fun h => ⟨⟨⟨h.1, h.2.1⟩, h.2.2.2⟩, h.2.2.1⟩⟩

section
variable {t : FileTree} {excludes : Excludes} {root : Path} {visits : List Visit}

/-- The paths of some visits, in order. -/
def sortedPaths (root : Path) (visits : List Visit) : List Path :=
  (visits.map (visitPath root)).mergeSort Path.le

theorem mem_sortedPaths {p : Path} :
    p ∈ sortedPaths root visits ↔ ∃ v ∈ visits, visitPath root v = p := by
  rw [sortedPaths, List.mem_mergeSort, List.mem_map]

/-- Visits with different names have paths in strict order. -/
theorem pairwise_sortedPaths (hroot : root.octets ≠ [])
    (hnames : ∀ v ∈ visits, ∀ n ∈ v.names, IsName n) (hnodup : (visits.map (·.names)).Nodup) :
    (sortedPaths root visits).Pairwise fun p q => p.le q = true ∧ q.le p = false := by
  have hdiffer : (visits.map (visitPath root)).Pairwise fun p q => p.components ≠ q.components := by
    rw [List.pairwise_map]
    refine (List.pairwise_map.1 hnodup).imp_of_mem ?_
    intro v w hv hw hne hsame
    exact hne (Path.same_below (hnames v hv) (hnames w hw) hroot hsame)
  have htrans : ∀ p q r : Path, p.le q = true → q.le r = true → p.le r = true :=
    fun _ _ _ hpq hqr => Path.le_trans hpq hqr
  have hsorted := List.pairwise_mergeSort htrans Path.le_total (visits.map (visitPath root))
  have hperm := List.mergeSort_perm (visits.map (visitPath root)) Path.le
  have hdiffer' := (hperm.pairwise_iff (fun hpq => Ne.symm hpq)).2 hdiffer
  refine (hsorted.and hdiffer').imp fun {p q} hpq => ⟨hpq.1, ?_⟩
  rw [Bool.eq_false_iff]
  intro hqp
  exact hpq.2 (Component.listLe_antisymm hpq.1 hqp)

/-- The files below a directory are those of a complete walk that are not thrown away. -/
theorem files_eq {path : Path} (hroot : root? t path = some root) (hdir : t.isDirectory root = true)
    (hwalk : t.walk complete root = .ok visits) :
    files t excludes path = .ok (sortedPaths root (visits.filter fun v =>
      isWanted excludes v && kept isSkippedName v)) := by
  obtain ⟨absolute, habsolute, rfl⟩ := Option.map_eq_some_iff.1 hroot
  have hfile : t.isFile absolute.normalize = false := by
    unfold FileTree.isDirectory at hdir
    unfold FileTree.isFile
    split at hdir
    · rename_i e _
      cases e with
      | directory => rfl
      | file _ _ _ => cases hdir
      | link _ => cases hdir
    · cases hdir
  have hpruned : t.walk options absolute.normalize = .ok (visits.filter (kept isSkippedName)) :=
    FileTree.walk_pruned hwalk
  simp only [files, habsolute, hfile, hdir, hpruned, List.filter_filter, sortedPaths]
  rfl

end

/-- Below a directory whose tree can be read, the files are listed in strict order of their paths:
all paths from the directory by names to a file, without links on the way, whose name has the
extension, no name of which is one to skip, and that the configuration does not leave out. All paths
are absolute and in normal form. The same list results if everything is walked and what is not
wanted is thrown away afterwards. -/
theorem files_of_directory (t : FileTree) (excludes : Excludes) (path root : Path)
    (hwf : t.WellFormed)
    (hroot : root? t path = some root) (hdir : t.isDirectory root = true)
    (hread : Readable t root) :
    ∃ top fs, t.resolve true root = .ok top ∧ files t excludes path = .ok fs ∧
      fs.Pairwise (fun p q => p.le q = true ∧ q.le p = false) ∧
      (∀ p, p ∈ fs ↔ ∃ names, IsListed t excludes top names ∧ p = root.join (Path.ofNames names)) ∧
      (∀ p ∈ fs, p.isAbsolute = true ∧ p.normalize = p) ∧
      ∃ visits, t.walk complete root = .ok visits ∧
        fs = sortedPaths root (visits.filter fun v =>
          isWanted excludes v && kept isSkippedName v) := by
  obtain ⟨visits, hwalk⟩ := FileTree.exists_walk_of_readable hwf hdir hread
  obtain ⟨top, htop, _, hvisits⟩ := FileTree.mem_walk_iff_inside hwf hwalk hdir
  obtain ⟨ns, hns, hrooted⟩ := exists_rooted hroot
  have hnames : ∀ v ∈ visits, ∀ n ∈ v.names, IsName n := by
    intro v hv
    rcases (hvisits v).1 hv with rfl | hinside
    · exact List.forall_mem_nil _
    · exact hinside.isName hwf
  have hpath : ∀ ms, (∀ m ∈ ms, IsName m) →
      below root ms = .ofComponents (.root :: (ns ++ ms).map .name) := by
    intro ms hms
    rw [hrooted, Path.below_ofComponents hns hms]
  refine ⟨top, _, htop, files_eq hroot hdir hwalk, ?_, fun p => ?_, fun p hp => ?_, visits, hwalk,
    rfl⟩
  · refine pairwise_sortedPaths (FileTree.octets_ne_of_resolve htop)
      (fun v hv => hnames v (List.mem_of_mem_filter hv)) ?_
    exact List.pairwise_map.2 ((List.pairwise_map.1 (FileTree.nodup_walk hwf hwalk)).filter _)
  · rw [mem_sortedPaths]
    constructor
    · rintro ⟨v, hv, rfl⟩
      obtain ⟨hv, hlisted⟩ := List.mem_filter.1 hv
      obtain ⟨hfile, hextension, hsearched, hincluded⟩ := (listed_iff (hnames v hv)).1 hlisted
      rcases (hvisits v).1 hv with rfl | hinside
      · cases hfile
      · refine ⟨v.names, ⟨?_, hextension, hsearched, hincluded⟩, ?_⟩
        · cases he : v.entry with
          | directory => rw [he] at hfile; cases hfile
          | link _ => rw [he] at hfile; cases hfile
          | file content mode modified => exact ⟨content, mode, modified, he ▸ hinside⟩
        · rw [visitPath, hpath _ (hnames v hv), hrooted,
            Path.join_ofNames hns (hnames v hv) hinside.ne_nil]
    · rintro ⟨names, ⟨⟨content, mode, modified, hinside⟩, hextension, hsearched, hincluded⟩, rfl⟩
      have hisName := hinside.isName hwf
      have hv := (hvisits ⟨names, .file content mode modified⟩).2 (.inr hinside)
      refine ⟨_, List.mem_filter.2
        ⟨hv, (listed_iff hisName).2 ⟨rfl, hextension, hsearched, hincluded⟩⟩, ?_⟩
      rw [visitPath, hpath _ hisName, hrooted, Path.join_ofNames hns hisName hinside.ne_nil]
  · obtain ⟨v, hv, rfl⟩ := mem_sortedPaths.1 hp
    have hisName := hnames v (List.mem_of_mem_filter hv)
    have hall : ∀ n ∈ ns ++ v.names, IsName n := List.forall_mem_append.2 ⟨hns, hisName⟩
    rw [visitPath, hpath _ hisName]
    exact ⟨Path.isAbsolute_rooted _, (Path.IsNormal.absolute hall).normalize_ofComponents⟩

/-! A directory below one of the names to skip, with such a name inside, a link, and a file that is
left out. -/

def productsTree : FileTree where
  entries := [([".build"], .directory), ([".build", "App"], .directory),
    ([".build", "App", "Gen.swift"], .file [] 0o644 1),
    ([".build", "App", "A.swift"], .file [] 0o644 1),
    ([".build", "App", "L.swift"], .link "A.swift"), ([".build", "App", ".git"], .directory),
    ([".build", "App", ".git", "B.swift"], .file [] 0o644 1)]
  working := [".build"]

def generated : Excludes :=
  ⟨[⟨"Gen*", [.literal 'G', .literal 'e', .literal 'n', .star]⟩]⟩

theorem inside_products {names : List Name} {e : Entry}
    (h : productsTree.Inside [".build", "App"] names e) :
    (names, e) ∈ ([(["Gen.swift"], .file [] 0o644 1), (["A.swift"], .file [] 0o644 1),
      (["L.swift"], .link "A.swift"), ([".git"], .directory),
      ([".git", "B.swift"], .file [] 0o644 1)] : List (List Name × Entry)) := by
  have htop : productsTree.namesAt [".build", "App"] =
      (["Gen.swift", "A.swift", "L.swift", ".git"] : List Name) := by decide +kernel
  have hgit : productsTree.namesAt [".build", "App", ".git"] = (["B.swift"] : List Name) := by
    decide +kernel
  have hentries : productsTree.entryAt? [".build", "App", "Gen.swift"] = some (.file [] 0o644 1) ∧
      productsTree.entryAt? [".build", "App", "A.swift"] = some (.file [] 0o644 1) ∧
      productsTree.entryAt? [".build", "App", "L.swift"] = some (.link "A.swift") ∧
      productsTree.entryAt? [".build", "App", ".git"] = some .directory ∧
      productsTree.entryAt? [".build", "App", ".git", "B.swift"] = some (.file [] 0o644 1) := by
    decide +kernel
  cases h with
  | here hn he =>
    rw [htop] at hn
    simp only [List.mem_cons, List.not_mem_nil, or_false] at hn
    rcases hn with rfl | rfl | rfl | rfl <;> simp_all
  | deeper hn hdir hrest =>
    rw [htop] at hn
    simp only [List.mem_cons, List.not_mem_nil, or_false] at hn
    rcases hn with rfl | rfl | rfl | rfl
    · simp_all
    · simp_all
    · simp_all
    · cases hrest with
      | here hn he =>
        obtain rfl : _ = ("B.swift" : Name) := by simpa [hgit] using hn
        simp_all
      | deeper hn hdir' _ =>
        obtain rfl : _ = ("B.swift" : Name) := by simpa [hgit] using hn
        simp_all

theorem readable_products : Readable productsTree "/.build/App" := by
  intro top ns htop hinside
  have hplace : productsTree.resolve true "/.build/App" = .ok [".build", "App"] :=
    FileTree.resolve_straight true (by decide +kernel) (by decide +kernel)
  rw [hplace] at htop
  cases htop
  obtain rfl : ns = ([".git"] : List Name) := by simpa using inside_products hinside
  have hpath : below "/.build/App" [".git"] = "/.build/App/.git" := by decide +kernel
  rw [hpath]
  exact ⟨_, FileTree.names_straight [".build", "App", ".git"] (by decide +kernel)
    (by decide +kernel)
    (by decide +kernel)⟩

/-- Of the files below the directory, one is listed. -/
theorem files_of_directory_products :
    productsTree.WellFormed ∧ root? productsTree "x/../App/./" = some ("/.build/App" : Path) ∧
      productsTree.isDirectory "/.build/App" = true ∧ Readable productsTree "/.build/App" ∧
      ∃ fs, files productsTree generated "x/../App/./" = .ok fs ∧ ∀ p, p ∈ fs ↔
        p = "/.build/App/A.swift" := by
  have hwf : productsTree.WellFormed := ⟨by decide +kernel, by decide +kernel⟩
  have hroot : root? productsTree "x/../App/./" = some ("/.build/App" : Path) := by decide +kernel
  have hplace : productsTree.resolve true "/.build/App" = .ok [".build", "App"] :=
    FileTree.resolve_straight true (by decide +kernel) (by decide +kernel)
  have hdir : productsTree.isDirectory "/.build/App" = true :=
    (FileTree.isDirectory_straight (r := .ok [".build", "App"]) (by decide +kernel)
      (by decide +kernel)).trans
      (by decide +kernel)
  obtain ⟨top, fs, htop, hfs, _, hmem, _⟩ :=
    files_of_directory productsTree generated "x/../App/./" "/.build/App" hwf hroot hdir
      readable_products
  rw [hplace] at htop
  cases htop
  have hjoin : (Path.ofText "/.build/App").join (Path.ofNames ["A.swift"]) =
      "/.build/App/A.swift" := by decide +kernel
  have hgenerated : generated.isMatch (Path.ofNames ["Gen.swift"]) = true := by decide +kernel
  refine ⟨hwf, hroot, hdir, readable_products, fs, hfs, fun p => (hmem p).trans ⟨?_, ?_⟩⟩
  · rintro ⟨names, ⟨⟨content, mode, modified, hinside⟩, _, hsearched, hincluded⟩, rfl⟩
    rcases (by simpa using inside_products hinside : _ ∨ _ ∨ _) with ⟨rfl, _⟩ | ⟨rfl, _⟩ | ⟨rfl, _⟩
    · rw [hgenerated] at hincluded
      cases hincluded
    · exact hjoin
    · exact absurd (hsearched ".git" (by simp)) (by decide +kernel)
  · rintro rfl
    have hlisted : IsListed productsTree generated [".build", "App"] ["A.swift"] :=
      ⟨⟨[], 0o644, 1, .here (by decide +kernel)
        (by decide +kernel)⟩, by decide +kernel, by decide +kernel, by decide +kernel⟩
    exact ⟨["A.swift"], hlisted, hjoin.symm⟩

end ExplicitSelf.Workspace
