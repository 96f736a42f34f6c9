import ExplicitSelf.Project.Find
import ExplicitSelf.Proofs.Path.Components

/-!
# Which project a source file gets

A source file should get the nearest project above it that has build logs, and of several in one
directory the first, workspaces before other projects (`Answers`). The search looks at one project
of each directory only, the first of all (`inDirectory?_eq_some_iff`), and goes on to the next
directory if that one has no logs. So a project without logs hides those behind it in its directory,
and the answer is right exactly if this does not happen where it matters.

Results:
* `inDirectory?_eq_some_iff`: the project that is looked at in a directory.
* `getElem?_searched`: the directories that are searched.
* `ofSource?_eq_some_iff`: what the search finds.
* `ofSource?_answers_iff`: when the answer is the right one.
-/
namespace ExplicitSelf.Project

open FileTree (IsName)

/-! ## Projects of a directory -/

/-- A path is named like a project. -/
def IsProject (p : Path) : Prop :=
  p.extension? = some ("xcworkspace" : Name) ∨ p.extension? = some ("xcodeproj" : Name)

instance (p : Path) : Decidable (IsProject p) :=
  inferInstanceAs (Decidable (_ ∨ _))

/-- A project is an entry of a directory. -/
def StandsIn (t : FileTree) (d p : Path) : Prop :=
  (∃ names n, t.names d = .ok names ∧ n ∈ names ∧ p = d.child n) ∧ IsProject p

/-- A project has build logs. -/
def HasLogs (t : FileTree) (derived p : Path) : Prop :=
  t.isDirectory (logDirectory derived p) = true

/-- Workspaces come before other projects, and projects of one kind in the order of their paths. -/
def Precedes (p q : Path) : Prop :=
  p.extension? = some ("xcworkspace" : Name) ∧ q.extension? = some ("xcodeproj" : Name) ∨
    p.extension? = q.extension? ∧ p.le q = true

instance (p q : Path) : Decidable (Precedes p q) :=
  inferInstanceAs (Decidable (_ ∨ _))

/-- The first of some projects. -/
def IsFirst (S : Path → Prop) (p : Path) : Prop :=
  S p ∧ ∀ q, S q → Precedes p q

section
variable {t : FileTree} {d p q : Path}

theorem StandsIn.octets_ne (h : StandsIn t d p) : d.octets ≠ [] := by
  obtain ⟨⟨names, _, hnames, _⟩, _⟩ := h
  intro hempty
  simp [FileTree.names, FileTree.resolve, hempty] at hnames

theorem StandsIn.exists_name (hwf : t.WellFormed) (h : StandsIn t d p) :
    ∃ n, IsName n ∧ p = d.child n := by
  obtain ⟨⟨names, n, hnames, hn, hp⟩, _⟩ := h
  refine ⟨n, ?_, hp⟩
  unfold FileTree.names at hnames
  split at hnames
  · cases hnames
  · split at hnames
    · cases hnames
      exact FileTree.isName_of_mem hwf hn
    · cases hnames

/-- The components of a project are those of its directory and one more. -/
theorem StandsIn.exists_steps (hwf : t.WellFormed) (h : StandsIn t d p) :
    ∃ c, p.steps = d.steps ++ [c] := by
  obtain ⟨n, hn, rfl⟩ := h.exists_name hwf
  exact ⟨.name n, Path.steps_child hn h.octets_ne⟩

/-- Two projects of a directory with the same components are one. -/
theorem StandsIn.eq_of_components (hwf : t.WellFormed) (hp : StandsIn t d p) (hq : StandsIn t d q)
    (h : p.components = q.components) : p = q := by
  obtain ⟨n, hn, rfl⟩ := hp.exists_name hwf
  obtain ⟨m, hm, rfl⟩ := hq.exists_name hwf
  rw [Path.components_child hn hp.octets_ne, Path.components_child hm hp.octets_ne,
    List.append_cancel_left_eq] at h
  cases h
  rfl

theorem IsFirst.unique (hwf : t.WellFormed) {S : Path → Prop} (hS : ∀ q, S q → StandsIn t d q)
    (hp : IsFirst S p) (hq : IsFirst S q) : p = q := by
  refine (hS p hp.1).eq_of_components hwf (hS q hq.1) ?_
  have hpq := hp.2 q hq.1
  have hqp := hq.2 p hp.1
  rcases hpq with ⟨hp', hq'⟩ | ⟨_, hle⟩
  · -- A workspace before another project cannot come behind it.
    rcases hqp with ⟨hq'', _⟩ | ⟨heq, _⟩
    · rw [hq'] at hq''
      exact absurd hq'' (by decide)
    · rw [hp', hq'] at heq
      exact absurd heq (by decide)
  · rcases hqp with ⟨hq', hp'⟩ | ⟨_, hge⟩
    · rename_i heq
      rw [hp', hq'] at heq
      exact absurd heq (by decide)
    · exact Component.listLe_antisymm hle hge

/-! ## The project that is looked at -/

theorem mem_listing_iff :
    p ∈ listing t d ↔ ∃ names n, t.names d = .ok names ∧ n ∈ names ∧ p = d.child n := by
  unfold listing
  cases hnames : t.names d with
  | error e => simp
  | ok names => simp [List.mem_mergeSort, eq_comm]

theorem pairwise_listing (t : FileTree) (d : Path) :
    (listing t d).Pairwise fun p q => p.le q = true := by
  unfold listing
  split
  · refine List.pairwise_mergeSort ?_ Path.le_total _
    intro p q r hpq hqr
    exact Path.le_trans hpq hqr
  · exact List.Pairwise.nil

/-- The first hit in a sorted listing is before all others. -/
theorem le_of_find?_listing {test : Path → Bool} (h : (listing t d).find? test = some p)
    (hq : q ∈ listing t d) (hhit : test q = true) : p.le q = true := by
  obtain ⟨_, before, after, hlisting, hmissed⟩ := List.find?_eq_some_iff_append.1 h
  have hsorted := pairwise_listing t d
  rw [hlisting] at hq hsorted
  rcases List.mem_append.1 hq with hbefore | hafter
  · have := hmissed q hbefore
    simp [hhit] at this
  · rcases List.mem_cons.1 hafter with rfl | hafter
    · exact q.le_refl
    · exact (List.pairwise_cons.1 (List.pairwise_append.1 hsorted).2.1).1 q hafter

theorem standsIn_iff : StandsIn t d p ↔ p ∈ listing t d ∧ IsProject p := by
  rw [mem_listing_iff]
  rfl

/-- The projects of a directory by its names. -/
theorem standsIn_iff_of_names {names : List Name} (h : t.names d = .ok names) :
    StandsIn t d p ↔ (∃ n ∈ names, p = d.child n) ∧ IsProject p := by
  unfold StandsIn
  rw [h]
  simp

theorem isFirst_of_inDirectory? (h : inDirectory? t d = some p) : IsFirst (StandsIn t d) p := by
  have hfirst : ∀ {e : Name}, (listing t d).find? (fun p => p.extension? = some e) = some p →
      p ∈ listing t d ∧ p.extension? = some e ∧
        ∀ q ∈ listing t d, q.extension? = some e → p.le q = true := by
    intro e he
    refine ⟨List.mem_of_find?_eq_some he, by simpa using List.find?_some he, fun q hq hext => ?_⟩
    exact le_of_find?_listing he hq (by simpa using hext)
  simp only [inDirectory?, extensions, List.findSome?_cons, List.findSome?_nil] at h
  split at h
  · rename_i r hr
    cases h
    obtain ⟨hmem, hext, hle⟩ := hfirst hr
    refine ⟨standsIn_iff.2 ⟨hmem, .inl hext⟩, fun q hq => ?_⟩
    obtain ⟨hq, hext' | hext'⟩ := standsIn_iff.1 hq
    · exact .inr ⟨hext.trans hext'.symm, hle q hq hext'⟩
    · exact .inl ⟨hext, hext'⟩
  · rename_i hnone
    split at h
    · rename_i r hr
      cases h
      obtain ⟨hmem, hext, hle⟩ := hfirst hr
      refine ⟨standsIn_iff.2 ⟨hmem, .inr hext⟩, fun q hq => ?_⟩
      obtain ⟨hq, hext' | hext'⟩ := standsIn_iff.1 hq
      · -- The listing has no workspaces.
        have := List.find?_eq_none.1 hnone q hq
        simp [hext'] at this
      · exact .inr ⟨hext.trans hext'.symm, hle q hq hext'⟩
    · cases h

theorem exists_inDirectory? (h : StandsIn t d q) : ∃ p, inDirectory? t d = some p := by
  rw [← Option.ne_none_iff_exists']
  intro hnone
  obtain ⟨hmem, hext⟩ := standsIn_iff.1 h
  simp only [inDirectory?, List.findSome?_eq_none_iff, List.find?_eq_none] at hnone
  rcases hext with hext | hext
  · exact hnone "xcworkspace" (by decide) q hmem (by simpa using hext)
  · exact hnone "xcodeproj" (by decide) q hmem (by simpa using hext)

/-- The project that is looked at in a directory is the first of all. -/
theorem inDirectory?_eq_some_iff (hwf : t.WellFormed) :
    inDirectory? t d = some p ↔ IsFirst (StandsIn t d) p := by
  refine ⟨isFirst_of_inDirectory?, fun h => ?_⟩
  obtain ⟨q, hq⟩ := exists_inDirectory? h.1
  rw [hq, (isFirst_of_inDirectory? hq).unique hwf (fun _ => id) h]

theorem withLogs?_eq_some_iff (hwf : t.WellFormed) {derived : Path} :
    withLogs? t derived d = some p ↔ IsFirst (StandsIn t d) p ∧ HasLogs t derived p := by
  unfold withLogs? HasLogs
  rw [Option.filter_eq_some_iff, inDirectory?_eq_some_iff hwf]

end

/-! ## The directories that are searched -/

/-- A directory above a source file, by the number of steps from the one that the file stands in.
The root is none of them. -/
def Above (file : Path) (n : Nat) (d : Path) : Prop :=
  file.up? (n + 1) = some d ∧ d.components ≠ [.root]

theorem Above.unique {file d d' : Path} {n : Nat} (h : Above file n d) (h' : Above file n d') :
    d = d' :=
  Option.some.inj (h.1.symm.trans h'.1)

theorem getElem?_takeWhile {α : Type} (test : α → Bool) (xs : List α) (n : Nat) (x : α) :
    (xs.takeWhile test)[n]? = some x ↔
      xs[n]? = some x ∧ ∀ m ≤ n, ∀ y, xs[m]? = some y → test y = true := by
  induction xs generalizing n with
  | nil => simp
  | cons a xs ih =>
    by_cases ha : test a = true
    · rw [List.takeWhile_cons_of_pos ha]
      cases n with
      | zero => simp [ha]
      | succ n =>
        rw [List.getElem?_cons_succ, List.getElem?_cons_succ, ih]
        refine and_congr_right fun _ => ⟨fun h m hm y hy => ?_, fun h m hm => h (m + 1) (by omega)⟩
        cases m with
        | zero =>
          cases hy
          exact ha
        | succ m => exact h m (by omega) y hy
    · rw [List.takeWhile_cons_of_neg ha]
      exact ⟨fun h => by simp at h, fun h => absurd (h.2 0 (Nat.zero_le n) a rfl) ha⟩

theorem parent?_ne_none_iff {d : Path} : d.parent?.isSome = true ↔ d.steps ≠ [] := by
  rw [Option.isSome_iff_ne_none, ne_eq, ne_eq, Path.parent?_eq_none_iff]

theorem getElem?_searched {file d : Path} {n : Nat} :
    (searched file)[n]? = some d ↔ file.up? (n + 1) = some d ∧ d.steps ≠ [] := by
  unfold searched
  cases hparent : file.parent? with
  | none => simp [Path.up?, hparent]
  | some start =>
    simp only [Path.up?, hparent, Option.bind_some]
    rw [getElem?_takeWhile, Path.getElem?_ancestors]
    refine and_congr_right fun hd => ?_
    constructor
    · intro h
      exact parent?_ne_none_iff.1 (h n (Nat.le_refl n) d (by rw [Path.getElem?_ancestors, hd]))
    · -- A directory has no fewer components than those above it.
      intro hne m hm e he
      rw [Path.getElem?_ancestors] at he
      obtain ⟨cs, hcs, hlength⟩ := Path.exists_steps_of_up? hd
      obtain ⟨cs', hcs', hlength'⟩ := Path.exists_steps_of_up? he
      rw [hcs] at hcs'
      have hsame := congrArg List.length hcs'
      rw [List.length_append, List.length_append] at hsame
      have hpos := List.length_pos_iff.2 hne
      exact parent?_ne_none_iff.2 (List.length_pos_iff.1 (by omega))

section
variable {t : FileTree} {derived file d p q : Path} {n : Nat}

/-- A directory that is searched is not the root. -/
theorem Above.of_searched (h : (searched file)[n]? = some d) : Above file n d := by
  obtain ⟨hd, hne⟩ := getElem?_searched.1 h
  refine ⟨hd, fun hroot => hne ?_⟩
  rw [Path.components_eq] at hroot
  cases habsolute : d.isAbsolute with
  | true => simpa [habsolute] using hroot
  | false =>
    have hsteps : d.steps = [.root] := by simpa [habsolute] using hroot
    exact absurd (hsteps ▸ List.mem_singleton_self _) d.root_notMem_steps

/-- A directory above the file that has projects is searched. -/
theorem Above.searched (h : Above file n d) (hp : StandsIn t d p) :
    (searched file)[n]? = some d := by
  refine getElem?_searched.2 ⟨h.1, fun hsteps => ?_⟩
  exact hp.octets_ne (Path.octets_eq_nil_of_steps h.2 hsteps)

/-- A project stands in one of the directories above a file only. -/
theorem Above.eq_of_standsIn (hwf : t.WellFormed) {n' : Nat} {d' : Path} (h : Above file n d)
    (h' : Above file n' d') (hp : StandsIn t d p) (hp' : StandsIn t d' p) : n = n' := by
  obtain ⟨cs, hcs, hlength⟩ := Path.exists_steps_of_up? h.1
  obtain ⟨cs', hcs', hlength'⟩ := Path.exists_steps_of_up? h'.1
  obtain ⟨c, hc⟩ := hp.exists_steps hwf
  obtain ⟨c', hc'⟩ := hp'.exists_steps hwf
  rw [hc] at hc'
  rw [hcs] at hcs'
  have hone := congrArg List.length hc'
  have hall := congrArg List.length hcs'
  simp only [List.length_append, List.length_singleton] at hone hall
  omega

/-! ## What the search finds -/

theorem findSome?_eq_some_iff_getElem? {α β : Type} {f : α → Option β} {xs : List α} {b : β} :
    xs.findSome? f = some b ↔
      ∃ (n : Nat) (x : α), xs[n]? = some x ∧ f x = some b ∧
        ∀ m < n, ∀ y, xs[m]? = some y → f y = none := by
  rw [List.findSome?_eq_some_iff]
  constructor
  · rintro ⟨before, x, after, rfl, hx, hbefore⟩
    refine ⟨before.length, x, by simp, hx, fun m hm y hy => hbefore y ?_⟩
    rw [List.getElem?_append_left hm] at hy
    exact List.mem_of_getElem? hy
  · rintro ⟨n, x, hn, hx, hbefore⟩
    obtain ⟨hlt, rfl⟩ := List.getElem?_eq_some_iff.1 hn
    refine ⟨xs.take n, xs[n], xs.drop (n + 1), ?_, hx, fun y hy => ?_⟩
    · rw [List.getElem_cons_drop, List.take_append_drop]
    · obtain ⟨m, hm⟩ := List.mem_iff_getElem?.1 hy
      rw [List.getElem?_take] at hm
      split at hm
      · rename_i hlt'
        exact hbefore m hlt' y hm
      · cases hm

/-- The search finds the first project of the nearest directory whose first project has logs. -/
theorem ofSource?_eq_some_iff (hwf : t.WellFormed) :
    ofSource? t derived file = some p ↔
      ∃ n d, Above file n d ∧ IsFirst (StandsIn t d) p ∧ HasLogs t derived p ∧
        ∀ m < n, ∀ d', Above file m d' → ∀ q, IsFirst (StandsIn t d') q → ¬HasLogs t derived q := by
  unfold ofSource?
  rw [findSome?_eq_some_iff_getElem?]
  constructor
  · rintro ⟨n, d, hd, hp, hnearer⟩
    obtain ⟨hfirst, hlogs⟩ := (withLogs?_eq_some_iff hwf).1 hp
    refine ⟨n, d, .of_searched hd, hfirst, hlogs, fun m hm d' hd' q hq hlogs' => ?_⟩
    have hnone := hnearer m hm d' (hd'.searched hq.1)
    rw [(withLogs?_eq_some_iff hwf).2 ⟨hq, hlogs'⟩] at hnone
    cases hnone
  · rintro ⟨n, d, hd, hfirst, hlogs, hnearer⟩
    refine ⟨n, d, hd.searched hfirst.1, (withLogs?_eq_some_iff hwf).2 ⟨hfirst, hlogs⟩, ?_⟩
    intro m hm d' hd'
    refine Option.eq_none_iff_forall_ne_some.2 fun q hq => ?_
    obtain ⟨hfirst', hlogs'⟩ := (withLogs?_eq_some_iff hwf).1 hq
    exact hnearer m hm d' (.of_searched hd') q hfirst' hlogs'

/-! ## The right answer -/

/-- The nearest directory above a file that has a project with logs. -/
structure IsNearest (t : FileTree) (derived file : Path) (n : Nat) (d : Path) : Prop where
  above : Above file n d
  exists_project : ∃ p, StandsIn t d p ∧ HasLogs t derived p
  none_nearer : ∀ m < n, ∀ d', Above file m d' → ∀ p, StandsIn t d' p → ¬HasLogs t derived p

/-- What is right to answer for a file: the first project with logs of the nearest directory that
has one, or nothing if no directory has one. -/
def Answers (t : FileTree) (derived file : Path) : Option Path → Prop
  | some p => ∃ n d, IsNearest t derived file n d ∧
      IsFirst (fun q => StandsIn t d q ∧ HasLogs t derived q) p
  | none => ∀ n d, Above file n d → ∀ p, StandsIn t d p → ¬HasLogs t derived p

theorem exists_isNearest (h : Above file n d) (hp : StandsIn t d p) (hlogs : HasLogs t derived p) :
    ∃ m ≤ n, ∃ d', IsNearest t derived file m d' := by
  induction n using Nat.strongRecOn generalizing d p with
  | ind n ih =>
    by_cases hnearer : ∀ m < n, ∀ d', Above file m d' → ∀ q, StandsIn t d' q → ¬HasLogs t derived q
    · exact ⟨n, Nat.le_refl n, d, h, ⟨p, hp, hlogs⟩, hnearer⟩
    · push Not at hnearer
      obtain ⟨m, hm, d', hd', q, hq, hlogs'⟩ := hnearer
      obtain ⟨k, hk, hnearest⟩ := ih m hm hd' hq hlogs'
      exact ⟨k, by omega, hnearest⟩

theorem IsNearest.unique {n' : Nat} {d' : Path} (h : IsNearest t derived file n d)
    (h' : IsNearest t derived file n' d') : n = n' ∧ d = d' := by
  obtain ⟨p, hp, hlogs⟩ := h.exists_project
  obtain ⟨p', hp', hlogs'⟩ := h'.exists_project
  have hn : n = n' := by
    rcases Nat.lt_trichotomy n n' with hlt | heq | hgt
    · exact absurd hlogs (h'.none_nearer n hlt d h.above p hp)
    · exact heq
    · exact absurd hlogs' (h.none_nearer n' hgt d' h'.above p' hp')
  subst hn
  exact ⟨rfl, h.above.unique h'.above⟩

/-- The search finds only projects with logs of directories above the file. Its answer is right
exactly if the first of all projects has logs in the nearest directory that has a project with
logs. -/
theorem ofSource?_answers_iff (t : FileTree) (hwf : t.WellFormed) (derived file : Path) :
    (∀ p, ofSource? t derived file = some p →
      ∃ n d, Above file n d ∧ StandsIn t d p ∧ HasLogs t derived p) ∧
    (Answers t derived file (ofSource? t derived file) ↔
      ∀ n d, IsNearest t derived file n d →
        ∃ p, IsFirst (StandsIn t d) p ∧ HasLogs t derived p) := by
  refine ⟨fun p hp => ?_, fun hanswer n d hnearest => ?_, fun hfirst => ?_⟩
  · obtain ⟨n, d, hd, hp, hlogs, _⟩ := (ofSource?_eq_some_iff hwf).1 hp
    exact ⟨n, d, hd, hp.1, hlogs⟩
  · cases hsource : ofSource? t derived file with
    | none =>
      rw [hsource] at hanswer
      obtain ⟨p, hp, hlogs⟩ := hnearest.exists_project
      exact absurd hlogs (hanswer n d hnearest.above p hp)
    | some p =>
      rw [hsource] at hanswer
      obtain ⟨n', d', hnearest', hp, _⟩ := hanswer
      obtain ⟨rfl, rfl⟩ := hnearest.unique hnearest'
      obtain ⟨k, e, he, hp', hlogs, _⟩ := (ofSource?_eq_some_iff hwf).1 hsource
      -- The directory in which it was found is the one in which it stands.
      obtain rfl := hnearest.above.eq_of_standsIn hwf he hp.1 hp'.1
      obtain rfl := hnearest.above.unique he
      exact ⟨p, hp', hlogs⟩
  · cases hsource : ofSource? t derived file with
    | none =>
      intro n d hd p hp hlogs
      obtain ⟨m, _, d', hnearest⟩ := exists_isNearest hd hp hlogs
      obtain ⟨q, hq, hlogs'⟩ := hfirst m d' hnearest
      have hfound := (ofSource?_eq_some_iff hwf).2 ⟨m, d', hnearest.above, hq, hlogs',
        fun k hk e he r hr => hnearest.none_nearer k hk e he r hr.1⟩
      rw [hsource] at hfound
      cases hfound
    | some p =>
      obtain ⟨n, d, hd, hp, hlogs, hnearer⟩ := (ofSource?_eq_some_iff hwf).1 hsource
      refine ⟨n, d, ⟨hd, ⟨p, hp.1, hlogs⟩, fun m hm d' hd' q hq hlogs' => ?_⟩,
        ⟨hp.1, hlogs⟩, fun q hq => hp.2 q hq.1⟩
      obtain ⟨k, hk, e, hnearest⟩ := exists_isNearest hd' hq hlogs'
      obtain ⟨r, hr, hlogs''⟩ := hfirst k e hnearest
      exact hnearer k (by omega) e hnearest.above r hr hlogs''

end

/-! ## Two trees -/

theorem isFirst_of_names {t : FileTree} {d p : Path} {names : List Name} (h : t.names d = .ok names)
    (hp : (∃ n ∈ names, p = d.child n) ∧ IsProject p)
    (hfirst : ∀ n ∈ names, IsProject (d.child n) → Precedes p (d.child n)) :
    IsFirst (StandsIn t d) p := by
  refine ⟨(standsIn_iff_of_names h).2 hp, fun q hq => ?_⟩
  obtain ⟨⟨n, hn, rfl⟩, hproject⟩ := (standsIn_iff_of_names h).1 hq
  exact hfirst n hn hproject

/-- The nearer directory has a project without logs, the other one a workspace with logs and a
project without. -/
def layeredTree : FileTree where
  entries := [(["b"], .directory), (["b", "P.xcodeproj"], .directory),
    (["b", "W.xcworkspace"], .directory), (["b", "a"], .directory),
    (["b", "a", "A.xcodeproj"], .directory), (["d"], .directory),
    (["d", "W-hdhgfckrswumxchgmlrknnupjuqw"], .directory),
    (["d", "W-hdhgfckrswumxchgmlrknnupjuqw", "Logs"], .directory),
    (["d", "W-hdhgfckrswumxchgmlrknnupjuqw", "Logs", "Build"], .directory)]
  working := []

theorem layeredTree_first : IsFirst (StandsIn layeredTree "/b") "/b/W.xcworkspace" ∧
    HasLogs layeredTree "/d" "/b/W.xcworkspace" := by
  constructor
  · have hnames : layeredTree.names "/b" = .ok ["P.xcodeproj", "W.xcworkspace", "a"] :=
      FileTree.names_straight ["b"] (by decide) (by decide) (by decide)
    exact isFirst_of_names hnames (by decide) (by decide)
  · have hlogs : logDirectory "/d" "/b/W.xcworkspace" =
        "/d/W-hdhgfckrswumxchgmlrknnupjuqw/Logs/Build" := by decide +kernel
    rw [HasLogs, hlogs,
      FileTree.isDirectory_straight
        (r := .ok ["d", "W-hdhgfckrswumxchgmlrknnupjuqw", "Logs", "Build"])
        (by decide) (by decide)]
    decide

theorem layeredTree_isNearest :
    IsNearest layeredTree "/d" "/b/a/x.swift" 1 "/b" where
  above := ⟨by decide, by decide⟩
  exists_project := ⟨_, layeredTree_first.1.1, layeredTree_first.2⟩
  none_nearer := by
    intro m hm d hd p hp hlogs
    obtain rfl : m = 0 := by omega
    obtain rfl : d = "/b/a" := hd.unique ⟨by decide, by decide⟩
    have hnames : layeredTree.names "/b/a" = .ok ["A.xcodeproj"] :=
      FileTree.names_straight ["b", "a"] (by decide) (by decide) (by decide)
    obtain ⟨⟨n, hn, rfl⟩, _⟩ := (standsIn_iff_of_names hnames).1 hp
    obtain rfl := List.mem_singleton.1 hn
    have hmissing : logDirectory "/d" (Path.child "/b/a" "A.xcodeproj") =
        "/d/A-eyxobxexixzcoabwcqhqqjaqjchx/Logs/Build" := by decide +kernel
    rw [HasLogs, hmissing,
      FileTree.isDirectory_straight (r := .error .notFound) (by decide) (by decide)] at hlogs
    cases hlogs

theorem ofSource?_answers_layered :
    layeredTree.WellFormed ∧
      ofSource? layeredTree "/d" "/b/a/x.swift" = some ("/b/W.xcworkspace" : Path) ∧
      Answers layeredTree "/d" "/b/a/x.swift" (some "/b/W.xcworkspace") := by
  have hwf : layeredTree.WellFormed := ⟨by decide, by decide⟩
  obtain ⟨hfirst, hlogs⟩ := layeredTree_first
  have hfound : ofSource? layeredTree "/d" "/b/a/x.swift" = some ("/b/W.xcworkspace" : Path) :=
    (ofSource?_eq_some_iff hwf).2 ⟨1, "/b", layeredTree_isNearest.above, hfirst, hlogs,
      fun m hm d hd q hq => layeredTree_isNearest.none_nearer m hm d hd q hq.1⟩
  refine ⟨hwf, hfound, ?_⟩
  rw [← hfound]
  refine (ofSource?_answers_iff layeredTree hwf "/d" "/b/a/x.swift").2.2 fun n d hnearest => ?_
  obtain ⟨rfl, rfl⟩ := hnearest.unique layeredTree_isNearest
  exact ⟨_, hfirst, hlogs⟩

/-- The only directory has a workspace without logs and a project with logs. -/
def hiddenTree : FileTree where
  entries := [(["a"], .directory), (["a", "A.xcworkspace"], .directory),
    (["a", "B.xcodeproj"], .directory), (["d"], .directory),
    (["d", "B-dpabqzgwpwmtggdijxtbmyirwxou"], .directory),
    (["d", "B-dpabqzgwpwmtggdijxtbmyirwxou", "Logs"], .directory),
    (["d", "B-dpabqzgwpwmtggdijxtbmyirwxou", "Logs", "Build"], .directory)]
  working := []

theorem hiddenTree_names : hiddenTree.names "/a" = .ok ["A.xcworkspace", "B.xcodeproj"] :=
  FileTree.names_straight ["a"] (by decide) (by decide) (by decide)

theorem hiddenTree_hasLogs : ¬HasLogs hiddenTree "/d" "/a/A.xcworkspace" ∧
    HasLogs hiddenTree "/d" "/a/B.xcodeproj" := by
  have hmissing : logDirectory "/d" "/a/A.xcworkspace" =
      "/d/A-dxxueulrxdrybkcnctrptadbqdqq/Logs/Build" := by decide +kernel
  have hlogs : logDirectory "/d" "/a/B.xcodeproj" =
      "/d/B-dpabqzgwpwmtggdijxtbmyirwxou/Logs/Build" := by decide +kernel
  rw [HasLogs, HasLogs, hmissing, hlogs,
    FileTree.isDirectory_straight (r := .error .notFound) (by decide) (by decide),
    FileTree.isDirectory_straight
      (r := .ok ["d", "B-dpabqzgwpwmtggdijxtbmyirwxou", "Logs", "Build"])
      (by decide) (by decide)]
  exact ⟨by decide, by decide⟩

/-- A workspace without logs hides a project with logs. -/
theorem ofSource?_hidden :
    ofSource? hiddenTree "/d" "/a/x.swift" = none ∧
      Answers hiddenTree "/d" "/a/x.swift" (some "/a/B.xcodeproj") := by
  have hwf : hiddenTree.WellFormed := ⟨by decide, by decide⟩
  obtain ⟨hnone, hlogs⟩ := hiddenTree_hasLogs
  have hproject : StandsIn hiddenTree "/a" "/a/B.xcodeproj" :=
    (standsIn_iff_of_names hiddenTree_names).2 (by decide)
  constructor
  · have hfirst : IsFirst (StandsIn hiddenTree "/a") "/a/A.xcworkspace" :=
      isFirst_of_names hiddenTree_names (by decide) (by decide)
    have hlooked := (inDirectory?_eq_some_iff hwf).2 hfirst
    rw [ofSource?, show searched "/a/x.swift" = (["/a"] : List Path) by decide]
    have hwithout : withLogs? hiddenTree "/d" "/a" = none := by
      rw [withLogs?, hlooked]
      exact Option.filter_some_neg (Bool.eq_false_iff.2 hnone)
    rw [List.findSome?_cons, hwithout, List.findSome?_nil]
  · refine ⟨0, "/a", ⟨⟨by decide, by decide⟩, ⟨_, hproject, hlogs⟩,
      fun m hm => absurd hm (Nat.not_lt_zero m)⟩, ⟨hproject, hlogs⟩, ?_⟩
    rintro q ⟨hq, hlogs'⟩
    obtain ⟨⟨n, hn, rfl⟩, _⟩ := (standsIn_iff_of_names hiddenTree_names).1 hq
    rcases (by simpa using hn : n = "A.xcworkspace" ∨ n = "B.xcodeproj") with rfl | rfl
    · exact absurd hlogs' hnone
    · decide

end ExplicitSelf.Project
