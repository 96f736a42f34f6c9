import ExplicitSelf.Proofs.FileTree.Links
import ExplicitSelf.Proofs.Text.Boundary

/-!
# Walks that leave out names

A walk that follows no links fails only where a directory cannot be read by its path. If all
directories below the start can be read (`Readable`), then a complete walk meets everything that is
inside the start.

A walk can leave out entries with certain names. It does not look into them, so what is below them
is not met. That is the same as to walk everything and to throw away what has such a name anywhere
on its way: the visits that are left are the same and in the same order.

Results:
* `exists_walk_of_readable`: a complete walk of a directory that can be read.
* `mem_walk_iff_inside`: what it meets.
* `walk_pruned`: leaving out names during a walk, and after it.
-/
namespace ExplicitSelf.FileTree

/-- A walk that meets everything. -/
def complete : WalkOptions where
  follow := false
  skips _ := false

/-- A walk that leaves out entries by their names. -/
def pruning (skip : Name → Bool) : WalkOptions where
  follow := false
  skips names := names.getLast?.any skip

/-- Every directory below a path, reached without links, can be read. -/
def Readable (t : FileTree) (root : Path) : Prop :=
  ∀ top ns, t.resolve true root = .ok top → t.Inside top ns .directory →
    ∃ names, t.names (below root ns) = .ok names

section
variable {t : FileTree} {start : Path} {above : List Place} {names : List Name} {place : Place}
  {vs : List Visit} {depth : Nat}

theorem resolve_of_names {p : Path} {ns : List Name} (h : t.names p = .ok ns) :
    ∃ q, t.resolve true p = .ok q := by
  unfold FileTree.names at h
  split at h
  · cases h
  · exact ⟨_, ‹_›⟩

/-! ## A complete walk -/

/-- Each name makes the path longer. -/
theorem length_octets_below {p : Path} (hp : p.octets ≠ []) {ns : List Name}
    (hns : ∀ n ∈ ns, IsName n) :
    p.octets.length + ns.length ≤ (below p ns).octets.length := by
  unfold below
  induction ns generalizing p with
  | nil => exact Nat.le_refl _
  | cons n ns ih =>
    obtain ⟨hn, hns⟩ := List.forall_mem_cons.1 hns
    have hlength : 0 < n.octets.length := List.length_pos_iff.2 hn.octets_ne_nil
    have hchild : p.octets.length + 1 ≤ (p.child n).octets.length := by
      rw [octets_child hn hp]
      split <;> simp only [List.length_append, List.length_cons] <;> omega
    have hrest := ih (octets_child_ne hn hp) hns
    rw [List.foldl_cons, List.length_cons]
    omega

theorem length_lt_of_resolve {root : Path} (hroot : root.octets ≠ []) {ns : List Name}
    (hns : ∀ n ∈ ns, IsName n) (h : t.resolve true (below root ns) = .ok place) :
    ns.length < maxPath + 1 := by
  have htext := length_octets_below hroot hns
  have hplain := (plain_of_resolve h).2.2
  omega

theorem exists_walkNames {visit : Name → Except WalkError (List Visit)} {ns : List Name}
    (h : ∀ n ∈ ns, ∃ us, visit n = .ok us) : ∃ vs, walkNames visit ns = .ok vs := by
  induction ns with
  | nil => exact ⟨[], rfl⟩
  | cons n ns ih =>
    obtain ⟨⟨us, hus⟩, hns⟩ := List.forall_mem_cons.1 h
    obtain ⟨rest, hrest⟩ := ih hns
    exact ⟨us ++ rest, walkNames_cons.2 ⟨us, rest, hus, hrest, rfl⟩⟩

theorem visitName_complete {inside : List Place → List Name → Except WalkError (List Visit)}
    {n : Name} {e : Entry} (he : t.entryAt? (place ++ [n]) = some e) :
    t.visitName complete start inside above names place n =
      if e = .directory then
        (inside ((place ++ [n]) :: above) (names ++ [n])).map (⟨names ++ [n], e⟩ :: ·)
      else .ok [⟨names ++ [n], e⟩] := by
  simp only [visitName, he, target_of_not_follow (o := complete) rfl]
  rfl

theorem visitName_complete_cases {inside : List Place → List Name → Except WalkError (List Visit)}
    {n : Name} {e : Entry} (he : t.entryAt? (place ++ [n]) = some e)
    (h : t.visitName complete start inside above names place n = .ok vs) :
    e ≠ .directory ∧ vs = [⟨names ++ [n], e⟩] ∨
      e = .directory ∧ ∃ us, inside ((place ++ [n]) :: above) (names ++ [n]) = .ok us ∧
        vs = ⟨names ++ [n], .directory⟩ :: us := by
  rcases visitName_cases h with ⟨hnone | hskip, _⟩ | ⟨e₁, inner, e₂, he₁, htarget, hvs⟩
  · rw [he] at hnone
    cases hnone
  · cases hskip
  · rw [he] at he₁
    cases he₁
    rw [target_of_not_follow rfl] at htarget
    cases htarget
    exact hvs

/-- A directory is walked if all directories below it can be opened. The depth is enough, since the
path of a directory that can be opened is not too long. -/
theorem exists_walkFrom (hwf : t.WellFormed) {root : Path} (hroot : root.octets ≠ [])
    (hnames : ∀ n ∈ names, IsName n) (hplace : t.resolve true (below root names) = .ok place)
    (hdir : t.entryAt? place = some .directory)
    (hopen : ∀ ns, t.Inside place ns .directory → ∃ q,
      t.resolve true (below root (names ++ ns)) = .ok q)
    (hdepth : maxPath + 1 ≤ depth + names.length) :
    ∃ vs, t.walkFrom complete root depth above names = .ok vs := by
  induction depth generalizing above names place with
  | zero =>
    have hlength := length_lt_of_resolve hroot hnames hplace
    omega
  | succ depth ih =>
    rw [walkFrom, hplace]
    refine exists_walkNames fun n hn => ?_
    cases he : t.entryAt? (place ++ [n]) with
    | none => exact ⟨[], by simp [visitName, he]⟩
    | some e =>
      rw [visitName_complete he]
      split
      · rename_i hdirectory
        subst hdirectory
        obtain ⟨q, hq⟩ := hopen [n] (.here hn he)
        obtain rfl := eq_of_resolve_child hwf hplace hdir hn he hq
        have hnames' : ∀ m ∈ names ++ [n], IsName m :=
          List.forall_mem_append.2 ⟨hnames, List.forall_mem_singleton.2 (isName_of_mem hwf hn)⟩
        have hopen' : ∀ ns, t.Inside (place ++ [n]) ns .directory →
            ∃ q, t.resolve true (below root ((names ++ [n]) ++ ns)) = .ok q := by
          intro ns hns
          rw [List.append_assoc]
          exact hopen (n :: ns) (.deeper hn he hns)
        have hdepth' : maxPath + 1 ≤ depth + (names ++ [n]).length := by
          rw [List.length_append, List.length_singleton]
          omega
        obtain ⟨us, hus⟩ : ∃ us, t.walkFrom complete root depth ((place ++ [n]) :: above)
            (names ++ [n]) = .ok us :=
          ih hnames' hq he hopen' hdepth'
        exact ⟨_, by rw [hus]; rfl⟩
      · exact ⟨_, rfl⟩

/-- A complete walk meets what is inside. -/
theorem mem_walkFrom_of_inside (hwf : t.WellFormed)
    (hplace : t.resolve true (below start names) = .ok place)
    (hdir : t.entryAt? place = some .directory)
    (h : t.walkFrom complete start depth above names = .ok vs)
    {ns : List Name} {e : Entry} (hinside : t.Inside place ns e) : ⟨names ++ ns, e⟩ ∈ vs := by
  induction depth generalizing above names place vs ns with
  | zero => cases h
  | succ depth ih =>
    obtain ⟨_, place', hk, hplace', hwalk⟩ := exists_of_walkFrom h
    cases hk
    rw [hplace] at hplace'
    cases hplace'
    cases hinside with
    | @here _ n _ hn he =>
      obtain ⟨us, hus, hsub⟩ := subset_of_walkNames hwalk hn
      apply hsub
      rcases visitName_complete_cases he hus with ⟨_, rfl⟩ | ⟨rfl, more, _, rfl⟩
      · exact List.mem_singleton_self _
      · exact List.mem_cons_self ..
    | @deeper _ n rest _ hn hinner hrest =>
      obtain ⟨us, hus, hsub⟩ := subset_of_walkNames hwalk hn
      apply hsub
      rcases visitName_complete_cases hinner hus with ⟨hnot, _⟩ | ⟨_, more, hmore, rfl⟩
      · exact absurd rfl hnot
      · obtain ⟨_, q, _, hq, _⟩ := exists_of_walkFrom hmore
        obtain rfl := eq_of_resolve_child hwf hplace hdir hn hinner hq
        have hmem := ih hq hinner hmore hrest
        rw [List.append_assoc] at hmem
        exact List.mem_cons_of_mem _ hmem

end

section
variable {t : FileTree} {root : Path}

theorem exists_walk_of_readable (hwf : t.WellFormed) (hdir : t.isDirectory root = true)
    (h : t.Readable root) :
    ∃ vs, t.walk complete root = .ok vs := by
  unfold isDirectory at hdir
  split at hdir
  · rename_i e he
    cases e with
    | file _ _ _ => cases hdir
    | link _ => cases hdir
    | directory =>
      obtain ⟨top, htop, hentry⟩ := resolve_of_stat he
      have hstart : t.resolve true (below root []) = .ok top := htop
      have hopen : ∀ ns, t.Inside top ns .directory → ∃ q,
          t.resolve true (below root ([] ++ ns)) = .ok q := by
        intro ns hns
        obtain ⟨names, hnames⟩ := h top ns htop hns
        exact resolve_of_names hnames
      obtain ⟨rest, hrest⟩ : ∃ rest, t.walkFrom complete root (maxPath + 1) [top] [] = .ok rest :=
        exists_walkFrom hwf (octets_ne_of_resolve htop) (List.forall_mem_nil _) hstart hentry hopen
          (Nat.le_refl _)
      exact ⟨⟨[], .directory⟩ :: rest, by simp only [walk, htop, hentry, hrest]; rfl⟩
  · cases hdir

/-- A complete walk meets the directory and what is inside. -/
theorem mem_walk_iff_inside (hwf : t.WellFormed) {vs : List Visit}
    (h : t.walk complete root = .ok vs) (hdir : t.isDirectory root = true) :
    ∃ top, t.resolve true root = .ok top ∧ t.entryAt? top = some .directory ∧
      ∀ v, v ∈ vs ↔ v = ⟨[], .directory⟩ ∨ t.Inside top v.names v.entry := by
  obtain ⟨top, rest, htop, hentry, rfl, _, hinside⟩ := exists_of_walk hwf rfl hdir h
  refine ⟨top, htop, hentry, fun v => ?_⟩
  rw [List.mem_cons]
  refine or_congr_right ⟨hinside v, fun hv => ?_⟩
  obtain ⟨top', e, htop', hentry', hvs⟩ := walk_cases h
  rw [htop] at htop'
  cases htop'
  rcases hvs with ⟨hne, hvs⟩ | ⟨_, rest', hrest', hvs⟩
  · rw [hentry] at hentry'
    exact absurd (Option.some.inj hentry').symm hne
  · cases hvs
    have hstart : t.resolve true (below root []) = .ok top := htop
    exact mem_walkFrom_of_inside hwf hstart hentry hrest' hv

end

/-! ## Leaving out names -/

section
variable {t : FileTree} {start : Path} {above : List Place} {names : List Name} {vs : List Visit}
  {depth : Nat} {skip : Name → Bool}

/-- No name on the way to an entry is one to leave out. -/
def kept (skip : Name → Bool) (v : Visit) : Bool :=
  v.names.all (!skip ·)

theorem walkNames_filter {visit visit' : Name → Except WalkError (List Visit)} {keep : Visit → Bool}
    (hvisit : ∀ n us, visit n = .ok us → visit' n = .ok (us.filter keep)) {ns : List Name}
    (h : walkNames visit ns = .ok vs) : walkNames visit' ns = .ok (vs.filter keep) := by
  induction ns generalizing vs with
  | nil =>
    cases h
    rfl
  | cons n ns ih =>
    obtain ⟨us, rest, hus, hrest, rfl⟩ := walkNames_cons.1 h
    rw [List.filter_append]
    exact walkNames_cons.2 ⟨_, _, hvisit n us hus, ih hrest, rfl⟩

/-- A name that is left out leaves out all visits below it, and no others. -/
theorem visitName_pruning {inside inside' : List Place → List Name → Except WalkError (List Visit)}
    (hnames : names.all (!skip ·) = true) {place : Place} {n : Name}
    (hinside : skip n = false → ∀ us, inside ((place ++ [n]) :: above) (names ++ [n]) = .ok us →
      inside' ((place ++ [n]) :: above) (names ++ [n]) = .ok (us.filter (kept skip)))
    (hbelow : ∀ us, inside ((place ++ [n]) :: above) (names ++ [n]) = .ok us →
      ∀ u ∈ us, ∃ ns, u.names = (names ++ [n]) ++ ns)
    (h : t.visitName complete start inside above names place n = .ok vs) :
    t.visitName (pruning skip) start inside' above names place n = .ok (vs.filter (kept skip)) := by
  have hskips : (pruning skip).skips (names ++ [n]) = skip n := by simp [pruning]
  have hkept : ∀ e ns, kept skip ⟨(names ++ [n]) ++ ns, e⟩ = (!skip n && ns.all (!skip ·)) := by
    intro e ns
    simp only [kept, List.all_append, hnames, List.all_cons, List.all_nil, Bool.true_and,
      Bool.and_true]
  have hone : ∀ e, kept skip ⟨names ++ [n], e⟩ = !skip n := by
    intro e
    simpa using hkept e []
  cases he : t.entryAt? (place ++ [n]) with
  | none =>
    simp only [visitName, he] at h ⊢
    cases h
    rfl
  | some e =>
    have hvs := visitName_complete_cases he h
    simp only [visitName, he, target_of_not_follow (o := pruning skip) rfl, hskips]
    by_cases hskip : skip n = true
    · rw [if_pos hskip, List.filter_eq_nil_iff.2]
      intro v hv
      rcases hvs with ⟨_, rfl⟩ | ⟨_, us, hus, rfl⟩
      · rw [List.mem_singleton.1 hv]
        simp [hone, hskip]
      · rcases List.mem_cons.1 hv with rfl | hv
        · simp [hone, hskip]
        · obtain ⟨ns, hns⟩ := hbelow us hus v hv
          have hfront := hkept v.entry ns
          rw [← hns] at hfront
          simp [hfront, hskip]
    · rw [Bool.not_eq_true] at hskip
      rw [if_neg (by simp [hskip])]
      rcases hvs with ⟨hnot, rfl⟩ | ⟨rfl, us, hus, rfl⟩
      · rw [if_neg hnot, List.filter_cons, if_pos (by simp [hone, hskip])]
        rfl
      · rw [if_pos rfl, hinside hskip us hus, List.filter_cons, if_pos (by simp [hone, hskip])]
        rfl

theorem walkFrom_pruned (hnames : names.all (!skip ·) = true)
    (h : t.walkFrom complete start depth above names = .ok vs) :
    t.walkFrom (pruning skip) start depth above names = .ok (vs.filter (kept skip)) := by
  induction depth generalizing above names vs with
  | zero => cases h
  | succ depth ih =>
    obtain ⟨_, place, hk, hplace, hwalk⟩ := exists_of_walkFrom h
    cases hk
    rw [walkFrom, hplace]
    refine walkNames_filter (fun n us hus => visitName_pruning hnames (fun hskip us hus => ?_)
      (fun us hus u hu => ?_)
      hus) hwalk
    · exact ih (by simp [hnames, hskip]) hus
    · obtain ⟨ns, _, hns⟩ := exists_names_of_walkFrom hus u hu
      exact ⟨ns, hns⟩

/-- Leaving out names during a walk is the same as throwing them away after it. -/
theorem walk_pruned {root : Path} (h : t.walk complete root = .ok vs) :
    t.walk (pruning skip) root = .ok (vs.filter (kept skip)) := by
  obtain ⟨top, e, htop, hentry, hvs⟩ := walk_cases h
  unfold walk
  rw [htop]
  simp only [hentry]
  rcases hvs with ⟨hne, rfl⟩ | ⟨rfl, rest, hrest, rfl⟩
  · cases e with
    | directory => exact absurd rfl hne
    | file _ _ _ => rfl
    | link _ => rfl
  · rw [walkFrom_pruned rfl hrest]
    rfl

end

end ExplicitSelf.FileTree
