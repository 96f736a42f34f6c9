import ExplicitSelf.Proofs.FileTree.Walk
import Mathlib.Data.List.Nodup

/-!
# Walks that follow links

A walk that follows links opens directories by their paths. So what it meets is not what is inside
the start, which may be little, but what the paths below the start lead to: whatever can be reached
by names from the start is met under these names, once for each way to it. If it cannot be reached
that way, or if the way leads back into itself, then the walk fails. So a walk that ends well has
met everything.

The order in which the names of a directory are read is that of the entries of the tree. It decides
the order of the visits and nothing else.

Results:
* `target_spec`: where a name of an open directory leads.
* `spec_of_mem_walk`, `mem_walk_of_stat`: a visit is what its path leads to, and all such paths are
  visited.
* `nodup_walk`: no path is visited twice.
* `exists_walk_perm`: another order of the entries makes another order of the visits.
* `resolve_reach`: following a path with links by a computation.
-/
namespace ExplicitSelf.FileTree

/-! ## Where a name leads -/

section
variable {t : FileTree} {o : WalkOptions} {start : Path} {above : List Place} {names : List Name}
  {place : Place} {n : Name}

theorem mem_entries {e : Entry} (hne : place ≠ []) (h : t.entryAt? place = some e) :
    (place, e) ∈ t.entries := by
  rw [entryAt?, if_neg hne, Option.map_eq_some_iff] at h
  obtain ⟨found, hfound, he⟩ := h
  have hplace : found.1 = place := by simpa using List.find?_some hfound
  rw [← hplace, ← he]
  exact List.mem_of_find?_eq_some hfound

end

/-! ## What a walk meets -/

section
variable {t : FileTree} {o : WalkOptions} {start : Path} {above : List Place} {names : List Name}
  {vs : List Visit}

theorem subset_of_walkNames {visit : Name → Except WalkError (List Visit)} {ns : List Name}
    (h : walkNames visit ns = .ok vs) {n : Name} (hn : n ∈ ns) :
    ∃ us, visit n = .ok us ∧ us ⊆ vs := by
  induction ns generalizing vs with
  | nil => cases hn
  | cons m ns ih =>
    obtain ⟨us, rest, hus, hrest, rfl⟩ := walkNames_cons.1 h
    rcases List.mem_cons.1 hn with rfl | hn
    · exact ⟨us, hus, List.subset_append_left us rest⟩
    · obtain ⟨us', hus', hsub⟩ := ih hrest hn
      exact ⟨us', hus', List.subset_append_of_subset_right us hsub⟩

end

section
variable {t : FileTree} {o : WalkOptions} {root : Path} {vs : List Visit}

/-- No path is visited twice. -/
theorem nodup_walk (hwf : t.WellFormed) (h : t.walk o root = .ok vs) :
    (vs.map (·.names)).Nodup := by
  obtain ⟨top, e, _, _, ⟨_, rfl⟩ | ⟨_, rest, hrest, rfl⟩⟩ := walk_cases h
  · simp
  · rw [List.map_cons, List.nodup_cons]
    refine ⟨fun hmem => ?_, walkFrom_nodup hwf hrest⟩
    obtain ⟨v, hv, hnames⟩ := List.mem_map.1 hmem
    obtain ⟨ns, hne, hns⟩ := exists_names_of_walkFrom hrest v hv
    rw [hnames] at hns
    exact hne hns.symm

end

/-! ## The order of the entries -/

/-- A tree with the same entries in some order. -/
structure Reordered (t t' : FileTree) : Prop where
  working : t'.working = t.working
  entries : t'.entries.Perm t.entries

section
variable {t t' : FileTree}

theorem entryAt?_eq_some_iff (hwf : t.WellFormed) {place : Place} (hne : place ≠ []) {e : Entry} :
    t.entryAt? place = some e ↔ (place, e) ∈ t.entries := by
  constructor
  · exact mem_entries hne
  · intro hmem
    rw [entryAt?, if_neg hne, Option.map_eq_some_iff]
    cases hfind : t.entries.find? (·.1 = place) with
    | none => simpa using List.find?_eq_none.1 hfind _ hmem
    | some found =>
      have hplace : found.1 = place := by simpa using List.find?_some hfind
      have hsame := List.inj_on_of_nodup_map hwf.nodup (List.mem_of_find?_eq_some hfind) hmem hplace
      exact ⟨found, rfl, congrArg Prod.snd hsame⟩

theorem Reordered.wellFormed (h : Reordered t t') (hwf : t.WellFormed) : t'.WellFormed where
  nodup := (h.entries.map _).nodup_iff.2 hwf.nodup
  names e he := hwf.names e (h.entries.mem_iff.1 he)

theorem Reordered.entryAt? (h : Reordered t t') (hwf : t.WellFormed) (place : Place) :
    t'.entryAt? place = t.entryAt? place := by
  by_cases hne : place = []
  · simp [FileTree.entryAt?, hne]
  · apply Option.ext
    intro e
    rw [entryAt?_eq_some_iff (h.wellFormed hwf) hne, entryAt?_eq_some_iff hwf hne,
      h.entries.mem_iff]

theorem Reordered.resolve (h : Reordered t t') (hwf : t.WellFormed) (last : Bool) (path : Path) :
    t'.resolve last path = t.resolve last path := by
  rcases resolve_cases path with ⟨e, hno⟩ | hfollow
  · rw [hno, hno]
  · rw [hfollow, hfollow, start, start, h.working, follow_congr (h.entryAt? hwf)]

theorem Reordered.stat (h : Reordered t t') (hwf : t.WellFormed) (path : Path) :
    t'.stat path = t.stat path := by
  simp only [FileTree.stat, h.resolve hwf, h.entryAt? hwf]

theorem Reordered.namesAt (h : Reordered t t') (place : Place) :
    (t'.namesAt place).Perm (t.namesAt place) :=
  h.entries.filterMap _

theorem Reordered.target (h : Reordered t t') (hwf : t.WellFormed) (o : WalkOptions)
    (above : List Place) (path : Path) (place : Place) (e : Entry) :
    t'.target o above path place e = t.target o above path place e := by
  cases e <;> simp only [FileTree.target, h.resolve hwf, h.entryAt? hwf]

end

/-- A walk ends well and meets these visits, in some order. -/
def VisitedIn (r : Except WalkError (List Visit)) (vs : List Visit) : Prop :=
  ∃ vs', r = .ok vs' ∧ vs'.Perm vs

section
variable {t t' : FileTree} {o : WalkOptions} {start : Path} {vs : List Visit}

theorem walkNames_congr {visit visit' : Name → Except WalkError (List Visit)}
    (hvisit : ∀ n us, visit n = .ok us → VisitedIn (visit' n) us) {ns : List Name}
    (h : walkNames visit ns = .ok vs) : VisitedIn (walkNames visit' ns) vs := by
  induction ns generalizing vs with
  | nil =>
    cases h
    exact ⟨[], rfl, .refl _⟩
  | cons n ns ih =>
    obtain ⟨us, rest, hus, hrest, rfl⟩ := walkNames_cons.1 h
    obtain ⟨us', hus', hperm⟩ := hvisit n us hus
    obtain ⟨rest', hrest', hperm'⟩ := ih hrest
    exact ⟨us' ++ rest', walkNames_cons.2 ⟨us', rest', hus', hrest', rfl⟩, hperm.append hperm'⟩

theorem walkNames_perm {visit : Name → Except WalkError (List Visit)} {ns ns' : List Name}
    (hp : ns.Perm ns') (h : walkNames visit ns = .ok vs) : VisitedIn (walkNames visit ns') vs := by
  induction hp generalizing vs with
  | nil => exact ⟨vs, h, .refl _⟩
  | cons n _ ih =>
    obtain ⟨us, rest, hus, hrest, rfl⟩ := walkNames_cons.1 h
    obtain ⟨rest', hrest', hperm⟩ := ih hrest
    exact ⟨us ++ rest', walkNames_cons.2 ⟨us, rest', hus, hrest', rfl⟩, hperm.append_left us⟩
  | swap m n ns =>
    obtain ⟨us, rest, hus, hrest, rfl⟩ := walkNames_cons.1 h
    obtain ⟨ws, rest', hws, hrest', rfl⟩ := walkNames_cons.1 hrest
    have hswap : walkNames visit (m :: n :: ns) = .ok (ws ++ (us ++ rest')) :=
      walkNames_cons.2 ⟨ws, _, hws, walkNames_cons.2 ⟨us, rest', hus, hrest', rfl⟩, rfl⟩
    refine ⟨_, hswap, ?_⟩
    rw [← List.append_assoc, ← List.append_assoc]
    exact List.perm_append_comm.append_right rest'
  | trans _ _ ih ih' =>
    obtain ⟨vs', hvs', hperm⟩ := ih h
    obtain ⟨vs'', hvs'', hperm'⟩ := ih' hvs'
    exact ⟨vs'', hvs'', hperm'.trans hperm⟩

/-- A name adds the same to a walk, with what is inside it in another order. -/
theorem Reordered.visitName (ht : Reordered t t') (hwf : t.WellFormed)
    {inside inside' : List Place → List Name → Except WalkError (List Visit)}
    (hinside : ∀ above names us, inside above names = .ok us → VisitedIn (inside' above names) us)
    {above : List Place} {names : List Name} {place : Place} {n : Name}
    (h : t.visitName o start inside above names place n = .ok vs) :
    VisitedIn (t'.visitName o start inside' above names place n) vs := by
  unfold FileTree.visitName at h ⊢
  simp only [ht.entryAt? hwf, ht.target hwf] at h ⊢
  cases he : t.entryAt? (place ++ [n]) with
  | none =>
    rw [he] at h
    exact ⟨vs, h, .refl _⟩
  | some e =>
    simp only [he] at h ⊢
    cases htarget : t.target o above (below start (names ++ [n])) (place ++ [n]) e with
    | error e => simp only [htarget] at h; cases h
    | ok found =>
      simp only [htarget] at h ⊢
      split at h
      · rename_i hskip
        exact ⟨vs, (if_pos hskip).trans h, .refl _⟩
      · rename_i hskip
        rw [if_neg hskip]
        split at h
        · rename_i hdir
          rw [if_pos hdir]
          cases hus : inside (found.1 :: above) (names ++ [n]) with
          | error e => rw [hus] at h; cases h
          | ok us =>
            rw [hus] at h
            cases h
            obtain ⟨us', hus', hperm⟩ := hinside _ _ us hus
            exact ⟨_ :: us', by rw [hus']; rfl, hperm.cons _⟩
        · rename_i hdir
          exact ⟨vs, (if_neg hdir).trans h, .refl _⟩

theorem Reordered.walkFrom (ht : Reordered t t') (hwf : t.WellFormed) {depth : Nat}
    {above : List Place} {names : List Name} (h : t.walkFrom o start depth above names = .ok vs) :
    VisitedIn (t'.walkFrom o start depth above names) vs := by
  induction depth generalizing above names vs with
  | zero => cases h
  | succ depth ih =>
    obtain ⟨_, place, hk, hplace, hwalk⟩ := exists_of_walkFrom h
    cases hk
    rw [FileTree.walkFrom, ht.resolve hwf, hplace]
    obtain ⟨ws, hws, hperm⟩ := walkNames_perm (ht.namesAt place).symm hwalk
    obtain ⟨ws', hws', hperm'⟩ := walkNames_congr (fun n us hus =>
      ht.visitName hwf (fun _ _ _ hus => ih hus) hus) hws
    exact ⟨ws', hws', hperm'.trans hperm⟩

end

/-! ## Evaluation -/

/-- Follows pieces, and the links that they lead to, for so many turns. -/
def reach (t : FileTree) (last : Bool) :
    (turns links : Nat) → Place → List Name → Option (Except IoError Place)
  | _, _, place, [] => some (.ok place)
  | 0, _, _, _ :: _ => none
  | turns + 1, links, place, name :: rest =>
    match t.turn place name with
    | .go p => t.reach last turns links p rest
    | .stuck e => some (.error e)
    | .link p target =>
      if rest = [] ∧ !last then some (.ok p)
      else
        match links with
        | 0 => none
        | links + 1 =>
          if target.octets.isEmpty then none
          else t.reach last turns links (linkBase p target) (linkNames target ++ rest)

theorem follow_reach {t : FileTree} {last : Bool} {turns links : Nat} {place : Place}
    {pieces : List Name}
    {r : Except IoError Place} (h : t.reach last turns links place pieces = some r) :
    t.follow last links place pieces = r := by
  fun_induction reach t last turns links place pieces with
  | case1 turns links place =>
    rw [follow_nil]
    exact Option.some.inj h
  | case2 => cases h
  | case3 turns links place name rest p hturn ih =>
    rw [follow_go hturn]
    exact ih h
  | case4 turns links place name rest e hturn =>
    rw [follow_stuck hturn]
    exact Option.some.inj h
  | case5 turns links place name rest p target hturn hend =>
    obtain ⟨rfl, hlast⟩ := hend
    obtain rfl : last = false := by simpa using hlast
    rw [follow_last_link hturn]
    exact Option.some.inj h
  | case6 => cases h
  | case7 => cases h
  | case8 turns place name rest p target hturn hend links hempty ih =>
    rw [follow_link hturn hend hempty]
    exact ih h

theorem resolve_reach {t : FileTree} {path : Path} {last : Bool} (turns : Nat)
    {r : Except IoError Place}
    (hplain : Plain path)
    (h : t.reach last turns maxLinks (t.start path) (linkNames path) = some r) :
    t.resolve last path = r :=
  (resolve_eq_follow last hplain).trans (follow_reach h)

end ExplicitSelf.FileTree
