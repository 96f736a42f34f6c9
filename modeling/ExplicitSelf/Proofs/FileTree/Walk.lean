import ExplicitSelf.Proofs.FileTree.NewFile
import ExplicitSelf.Proofs.Text.Split
import ExplicitSelf.Workspace

/-!
# The files of a walk are distinct

A file system has one entry at each place, and names are names (`WellFormed`). Then a walk that
follows no links meets each entry once, and the path of an entry that it meets ends at this entry
and nowhere else: the way to the start is that of the start, and from there on no links are met. So
no two files that are linted are one.

Results:
* `follow_append`: a path is followed through each of its fronts.
* `exists_follow_of_below`, `ends_visitPath`: where the path of an entry ends.
* `visitName_cases`, `exists_of_walkFrom`: one step of a walk.
* `walkFrom_nodup`, `walkFrom_inside`: a walk meets nothing twice, and what it meets without links.
* `pairwise_files`: the files to lint end at different places.
-/
namespace ExplicitSelf.FileTree

variable {t : FileTree} {place : Place}

/-- One entry at each place, with names all the way. -/
structure WellFormed (t : FileTree) : Prop where
  nodup : (t.entries.map (·.1)).Nodup
  names : ∀ e ∈ t.entries, ∀ n ∈ e.1, IsName n

/-! ## Following a path in parts -/

theorem follow_unique {last : Bool} {links more : Nat} {pieces : List Name} {p q : Place}
    (hp : t.follow last links place pieces = .ok p) (hq : t.follow last more place pieces = .ok q) :
    p = q := by
  have hle : t.follow last (max links more) place pieces = .ok p := by
    rw [follow_mono t last links place pieces _ (Nat.le_max_left ..) (by simp [hp]), hp]
  rw [follow_mono t last more place pieces _ (Nat.le_max_right ..) (by simp [hq]), hq] at hle
  exact (Except.ok.inj hle).symm

/-- A path is followed through each of its fronts, with the last link of a front followed. -/
theorem follow_append (t : FileTree) (last : Bool) (links : Nat) (place : Place) (xs : List Name)
    {ys : List Name} (hys : ys ≠ []) {q : Place} :
    t.follow last links place (xs ++ ys) = .ok q →
      ∃ p more, t.follow true links place xs = .ok p ∧ t.follow last more p ys = .ok q := by
  induction links, place, xs using follow_induct t with
  | nil links place =>
    intro hq
    exact ⟨place, links, follow_nil _ _ _ _, hq⟩
  | stuck links place name rest e ht =>
    intro hq
    rw [List.cons_append, follow_stuck ht] at hq
    cases hq
  | go links place name rest p ht ih =>
    intro hq
    rw [List.cons_append, follow_go ht] at hq
    rw [follow_go ht]
    exact ih hq
  | link links place name rest p target ht ih =>
    intro hq
    have hr : ¬(rest ++ ys = [] ∧ (!last) = true) := by simp [hys]
    rw [List.cons_append] at hq
    cases links with
    | zero =>
      rw [follow_no_links ht hr] at hq
      cases hq
    | succ k =>
      by_cases he : target.octets.isEmpty = true
      · rw [follow_empty_link ht hr he] at hq
        cases hq
      · rw [follow_link ht hr he, ← List.append_assoc] at hq
        rw [follow_link ht (by simp) he]
        exact ih k rfl hq

/-- A name is followed only in a directory. -/
theorem directory_of_follow {last : Bool} {links : Nat} {n : Name} {rest : List Name} {q : Place}
    (h : t.follow last links place (n :: rest) = .ok q) : t.entryAt? place = some .directory := by
  by_contra hdir
  rw [follow_cons, turn, if_pos hdir] at h
  cases h

theorem turn_idle (h : t.entryAt? place = some .directory) {n : Name} (hn : n = "" ∨ n = ".") :
    t.turn place n = .go place := by
  rw [turn, if_neg (by simp [h]), if_pos hn]

/-- Empty names and dots lead nowhere else. -/
theorem follow_idle {last : Bool} {links : Nat} {ns : List Name} (hns : ∀ n ∈ ns, n = "" ∨ n = ".")
    {q : Place} (h : t.follow last links place ns = .ok q) : q = place := by
  induction ns with
  | nil =>
    rw [follow_nil] at h
    exact (Except.ok.inj h).symm
  | cons n ns ih =>
    obtain ⟨hn, hns⟩ := List.forall_mem_cons.1 hns
    rw [follow_go (turn_idle (directory_of_follow h) hn)] at h
    exact ih hns h

/-- They may be left out at the end. -/
theorem follow_append_idle {links : Nat} {xs ns : List Name} (hns : ∀ n ∈ ns, n = "" ∨ n = ".")
    {q : Place} (h : t.follow true links place (xs ++ ns) = .ok q) :
    t.follow true links place xs = .ok q := by
  by_cases hnil : ns = []
  · rwa [hnil, List.append_nil] at h
  · obtain ⟨p, more, hp, hq⟩ := follow_append t true links place xs hnil h
    rwa [follow_idle hns hq]

/-! ## The names of an entry's path -/

section
variable {n : Name} (hn : IsName n)
include hn

theorem IsName.octets_ne_nil : n.octets ≠ [] :=
  fun h => hn.1 (congrArg Name.mk h)

theorem IsName.octets_ne_dot : n.octets ≠ [Path.dot] :=
  fun h => hn.2.1 (congrArg Name.mk h)

theorem IsName.octets_ne_dots : n.octets ≠ [Path.dot, Path.dot] :=
  fun h => hn.2.2.1 (congrArg Name.mk h)

end

theorem isAbsolute_of_isName {n : Name} (hn : IsName n) :
    (Path.mk n.octets).isAbsolute = false := by
  have hslash : n.octets.head? ≠ some Path.slash := by
    intro hhead
    exact hn.2.2.2 (List.mem_of_head? hhead)
  simpa [Path.isAbsolute] using hslash

theorem octets_join {p q : Path} (hq : q.isAbsolute = false) (hp : p.octets ≠ []) :
    (p.join q).octets =
      if p.octets.getLast? = some Path.slash then p.octets ++ q.octets
      else p.octets ++ Path.slash :: q.octets := by
  have hne : p.octets.isEmpty = false := by simpa using hp
  unfold Path.join
  rw [hq, hne]
  simp only [Bool.false_eq_true, if_false, false_or]
  split <;> simp

theorem octets_child {p : Path} {n : Name} (hn : IsName n) (hp : p.octets ≠ []) :
    (p.child n).octets =
      if p.octets.getLast? = some Path.slash then p.octets ++ n.octets
      else p.octets ++ Path.slash :: n.octets :=
  octets_join (isAbsolute_of_isName hn) hp

theorem octets_child_ne {p : Path} {n : Name} (hn : IsName n) (hp : p.octets ≠ []) :
    (p.child n).octets ≠ [] := by
  intro hnil
  have htext := octets_child hn hp
  rw [hnil] at htext
  split at htext <;> simp [hp] at htext

theorem isAbsolute_join {p q : Path} (hq : q.isAbsolute = false) (hp : p.octets ≠ []) :
    (p.join q).isAbsolute = p.isAbsolute := by
  unfold Path.isAbsolute
  rw [octets_join hq hp]
  split <;> rw [List.head?_append_of_ne_nil _ hp]

theorem isAbsolute_child {p : Path} {n : Name} (hn : IsName n) (hp : p.octets ≠ []) :
    (p.child n).isAbsolute = p.isAbsolute :=
  isAbsolute_join (isAbsolute_of_isName hn) hp

/-- The octets of a path after the slash of the root. -/
def body (cs : Text.Octets) : Text.Octets :=
  match cs with
  | Path.slash :: cs => cs
  | cs => cs

theorem pieces_eq (p : Path) : p.pieces = Text.splitOn Path.slash (body p.octets) := by
  unfold Path.pieces body
  cases p.octets with
  | nil => rfl
  | cons c cs =>
    by_cases hc : c = Path.slash
    · subst hc
      rfl
    · simp [hc]

theorem pieces_ne_nil (p : Path) : p.pieces ≠ [] := by
  rw [pieces_eq, Text.splitOn, Text.splitWhere_eq_splitOnP]
  exact List.splitOnP_ne_nil _ _

theorem body_append {cs : Text.Octets} (h : cs ≠ []) (ds : Text.Octets) :
    body (cs ++ ds) = body cs ++ ds := by
  cases cs with
  | nil => exact absurd rfl h
  | cons c cs =>
    by_cases hc : c = Path.slash
    · subst hc
      rfl
    · simp [body, hc]

theorem body_eq_self {cs : Text.Octets} (h : cs.head? ≠ some Path.slash) : body cs = cs := by
  cases cs with
  | nil => rfl
  | cons c cs =>
    have hc : c ≠ Path.slash := by simpa using h
    simp [body, hc]

theorem pieces_of_relative {p : Path} (hp : p.isAbsolute = false) :
    p.pieces = Text.splitOn Path.slash p.octets := by
  have hfront : p.octets.head? ≠ some Path.slash := by simpa [Path.isAbsolute] using hp
  rw [pieces_eq, body_eq_self hfront]

/-- The pieces of a path below another are those of the other, without the empty piece that a slash
at the end makes, and its own. -/
theorem pieces_join {p q : Path} (hq : q.isAbsolute = false) (hp : p.octets ≠ []) :
    ∃ base, (p.pieces = base ∨ p.pieces = base ++ [[]]) ∧ (p.join q).pieces = base ++ q.pieces := by
  have hnil : Text.splitOn Path.slash [] = [[]] := rfl
  rw [pieces_of_relative hq, pieces_eq, pieces_eq, octets_join hq hp]
  by_cases hslash : p.octets.getLast? = some Path.slash
  · obtain ⟨cs, hcs⟩ := List.getLast?_eq_some_iff.1 hslash
    rw [if_pos hslash, hcs]
    by_cases hempty : cs = []
    · -- The root itself has one empty piece.
      subst hempty
      exact ⟨[], .inr rfl, rfl⟩
    · refine ⟨Text.splitOn Path.slash (body cs), .inr ?_, ?_⟩
      · rw [body_append hempty, Text.splitOn_append, hnil]
      · rw [List.append_assoc, List.singleton_append, body_append hempty, Text.splitOn_append]
  · rw [if_neg hslash, body_append hp, Text.splitOn_append]
    exact ⟨_, .inl rfl, rfl⟩

/-- The names of an entry's path are those of its directory, without the empty name that a slash at
the end makes, and one more. -/
theorem linkNames_child {p : Path} {n : Name} (hn : IsName n) (hp : p.octets ≠ []) :
    ∃ base, (linkNames p = base ∨ linkNames p = base ++ [("" : Name)]) ∧
      linkNames (p.child n) = base ++ [n] := by
  have hrelative := isAbsolute_of_isName hn
  have hlast : (Path.mk n.octets).pieces = [n.octets] := by
    rw [pieces_of_relative hrelative, Text.splitOn_eq_singleton hn.2.2.2]
  obtain ⟨base, hbase, hjoin⟩ := pieces_join hrelative hp
  unfold linkNames Path.child
  refine ⟨base.map Name.mk, hbase.imp (fun h => by rw [h]) (fun h => ?_), ?_⟩
  · rw [h, List.map_append]
    rfl
  · rw [hjoin, hlast, List.map_append]
    rfl

theorem linkNames_below {p : Path} (hp : p.octets ≠ []) {ns : List Name} (hne : ns ≠ [])
    (hns : ∀ n ∈ ns, IsName n) :
    ∃ base, (linkNames p = base ∨ linkNames p = base ++ [("" : Name)]) ∧
      linkNames (below p ns) = base ++ ns := by
  unfold below
  induction ns generalizing p with
  | nil => exact absurd rfl hne
  | cons n ns ih =>
    have hn := hns n (List.mem_cons_self ..)
    obtain ⟨base, hbase, hchild⟩ := linkNames_child hn hp
    rw [List.foldl_cons]
    by_cases hrest : ns = []
    · subst hrest
      exact ⟨base, hbase, hchild⟩
    · obtain ⟨inner, hinner, hall⟩ := ih (octets_child_ne hn hp) hrest
        fun m hm => hns m (List.mem_cons_of_mem n hm)
      refine ⟨base, hbase, ?_⟩
      -- No empty name can be left at the end of the inner path.
      have hsame : inner = base ++ [n] := by
        rcases hinner with hinner | hinner
        · rw [← hinner, hchild]
        · rw [hchild] at hinner
          have hlast := List.append_inj_right' hinner rfl
          simp only [List.cons.injEq, and_true] at hlast
          exact absurd hlast hn.1
      rw [hall, hsame, List.append_assoc]
      rfl

theorem start_below {p : Path} (hp : p.octets ≠ []) {ns : List Name} (hns : ∀ n ∈ ns, IsName n) :
    t.start (below p ns) = t.start p := by
  unfold below
  induction ns generalizing p with
  | nil => rfl
  | cons n ns ih =>
    have hn := hns n (List.mem_cons_self ..)
    rw [List.foldl_cons, ih (octets_child_ne hn hp) fun m hm => hns m (List.mem_cons_of_mem n hm)]
    unfold start
    rw [isAbsolute_child hn hp]

/-! ## Entries below a directory -/

/-- The name of a place in a directory. -/
def nameIn? (place p : Place) : Option Name :=
  match p.getLast? with
  | some name => if p.dropLast = place then some name else none
  | none => none

theorem namesAt_eq (t : FileTree) (place : Place) :
    t.namesAt place = (t.entries.map (·.1)).filterMap (nameIn? place) := by
  rw [List.filterMap_map]
  rfl

theorem eq_of_nameIn? {p : Place} {n : Name} (h : nameIn? place p = some n) : p = place ++ [n] := by
  unfold nameIn? at h
  split at h
  · rename_i name hname
    split at h
    · rename_i hplace
      cases h
      obtain ⟨above, habove⟩ := List.getLast?_eq_some_iff.1 hname
      rw [habove, List.dropLast_concat] at hplace
      rw [habove, hplace]
    · cases h
  · cases h

theorem isName_of_mem (h : t.WellFormed) {n : Name} (hn : n ∈ t.namesAt place) : IsName n := by
  rw [namesAt_eq] at hn
  obtain ⟨p, hp, hname⟩ := List.mem_filterMap.1 hn
  obtain ⟨e, he, rfl⟩ := List.mem_map.1 hp
  exact h.names e he n (by simp [eq_of_nameIn? hname])

theorem nodup_namesAt (h : t.WellFormed) (place : Place) : (t.namesAt place).Nodup := by
  rw [namesAt_eq]
  refine List.Pairwise.filterMap _ ?_ h.nodup
  intro p q hpq n hn m hm hnm
  rw [eq_of_nameIn? hn, eq_of_nameIn? hm, hnm] at hpq
  exact hpq rfl

/-- An entry below a directory, by its names from there, and reached without links. -/
inductive Inside (t : FileTree) : Place → List Name → Entry → Prop where
  | here {place : Place} {n : Name} {e : Entry} (hn : n ∈ t.namesAt place)
    (h : t.entryAt? (place ++ [n]) = some e) : Inside t place [n] e
  | deeper {place : Place} {n : Name} {ns : List Name} {e : Entry} (hn : n ∈ t.namesAt place)
    (h : t.entryAt? (place ++ [n]) = some .directory) (hrest : Inside t (place ++ [n]) ns e) :
    Inside t place (n :: ns) e

theorem Inside.ne_nil {ns : List Name} {e : Entry} (h : t.Inside place ns e) : ns ≠ [] := by
  cases h <;> simp

theorem Inside.isName (hwf : t.WellFormed) {ns : List Name} {e : Entry} (h : t.Inside place ns e) :
    ∀ n ∈ ns, IsName n := by
  induction h with
  | here hn _ =>
    intro m hm
    rw [List.mem_singleton.1 hm]
    exact isName_of_mem hwf hn
  | deeper hn _ _ ih =>
    intro m hm
    rcases List.mem_cons.1 hm with rfl | hm
    · exact isName_of_mem hwf hn
    · exact ih m hm

/-! ## Where the path of an entry ends -/

theorem octets_ne_of_resolve {last : Bool} {path : Path} {p : Place}
    (h : t.resolve last path = .ok p) :
    path.octets ≠ [] := by
  intro hnil
  rw [resolve] at h
  simp [hnil] at h

/-- A path below a directory goes on from there. -/
theorem exists_follow_of_below {root : Path} {top : Place} (hroot : t.resolve true root = .ok top)
    {ns : List Name} (hne : ns ≠ []) (hns : ∀ n ∈ ns, IsName n) {last : Bool} {links : Nat}
    {q : Place}
    (hq : t.follow last links (t.start (below root ns)) (linkNames (below root ns)) = .ok q) :
    ∃ more, t.follow last more top ns = .ok q := by
  have htext := octets_ne_of_resolve hroot
  obtain ⟨base, hbase, hall⟩ := linkNames_below htext hne hns
  rw [start_below htext hns, hall] at hq
  obtain ⟨p, more, hp, hq⟩ := follow_append t last links _ base hne hq
  -- The way to the start ends at the directory, whether or not it has a slash at the end.
  have htop : ∃ links, t.follow true links (t.start root) base = .ok top := by
    rcases resolve_cases root with ⟨e, hno⟩ | hfollow
    · rw [hno] at hroot
      cases hroot
    · rw [hfollow] at hroot
      rcases hbase with hbase | hbase
      · exact ⟨maxLinks, hbase ▸ hroot⟩
      · rw [hbase] at hroot
        exact ⟨maxLinks, follow_append_idle (by simp) hroot⟩
  obtain ⟨_, htop⟩ := htop
  rw [follow_unique hp htop] at hq
  exact ⟨more, hq⟩

theorem turn_of_entry {n : Name} (hn : IsName n) (hplace : t.entryAt? place = some .directory)
    {e : Entry} (he : t.entryAt? (place ++ [n]) = some e) (hlink : ∀ target, e ≠ .link target) :
    t.turn place n = .go (place ++ [n]) ∨ ∃ e, t.turn place n = .stuck e := by
  unfold turn
  rw [if_neg (by simp [hplace]), if_neg (by simp [hn.1, hn.2.1]), if_neg hn.2.2.1]
  split
  · exact .inr ⟨_, rfl⟩
  · rw [he]
    cases e with
    | directory => exact .inl rfl
    | file _ _ _ => exact .inl rfl
    | link target => exact absurd rfl (hlink target)

theorem Inside.follow_eq (hwf : t.WellFormed) {ns : List Name} {e : Entry} (h : t.Inside place ns e)
    (hlink : ∀ target, e ≠ .link target) (hplace : t.entryAt? place = some .directory) {last : Bool}
    {links : Nat} {q : Place} (hq : t.follow last links place ns = .ok q) : q = place ++ ns := by
  induction h with
  | here hn he =>
    rcases turn_of_entry (isName_of_mem hwf hn) hplace he hlink with hturn | ⟨_, hturn⟩
    · rw [follow_go hturn, follow_nil] at hq
      exact (Except.ok.inj hq).symm
    · rw [follow_stuck hturn] at hq
      cases hq
  | deeper hn hdir _ ih =>
    rcases turn_of_entry (isName_of_mem hwf hn) hplace hdir (by simp) with hturn | ⟨_, hturn⟩
    · rw [follow_go hturn] at hq
      rw [ih hlink hdir hq, List.append_assoc]
      rfl
    · rw [follow_stuck hturn] at hq
      cases hq

/-- The path of an entry below a directory ends at this entry. -/
theorem ends_visitPath (hwf : t.WellFormed) {root : Path} {top : Place}
    (hroot : t.resolve true root = .ok top)
    (htop : t.entryAt? top = some .directory) {v : Visit} (h : t.Inside top v.names v.entry)
    (hlink : ∀ target, v.entry ≠ .link target) {q : Place} (hq : t.Ends (visitPath root v) q) :
    q = top ++ v.names := by
  obtain ⟨last, links, hq⟩ := hq
  obtain ⟨more, hq⟩ := exists_follow_of_below hroot h.ne_nil (h.isName hwf) hq
  exact h.follow_eq hwf hlink htop hq

/-! ## What a walk meets -/

theorem below_append (start : Path) (ns ms : List Name) :
    below start (ns ++ ms) = below (below start ns) ms :=
  List.foldl_append

theorem walkNames_cons {visit : Name → Except WalkError (List Visit)} {n : Name} {ns : List Name}
    {vs : List Visit} : walkNames visit (n :: ns) = .ok vs ↔
      ∃ us rest, visit n = .ok us ∧ walkNames visit ns = .ok rest ∧ vs = us ++ rest := by
  rw [walkNames]
  cases visit n with
  | error e => simp
  | ok us =>
    cases walkNames visit ns with
    | error e => simp [Except.map]
    | ok rest => simp [Except.map, eq_comm]

theorem mem_of_walkNames {visit : Name → Except WalkError (List Visit)} {ns : List Name}
    {vs : List Visit} (h : walkNames visit ns = .ok vs) {v : Visit} (hv : v ∈ vs) :
    ∃ n ∈ ns, ∃ us, visit n = .ok us ∧ v ∈ us := by
  induction ns generalizing vs with
  | nil =>
    cases h
    cases hv
  | cons n ns ih =>
    obtain ⟨us, rest, hus, hrest, rfl⟩ := walkNames_cons.1 h
    rcases List.mem_append.1 hv with hv | hv
    · exact ⟨n, List.mem_cons_self .., us, hus, hv⟩
    · obtain ⟨m, hm, found⟩ := ih hrest hv
      exact ⟨m, List.mem_cons_of_mem n hm, found⟩

/-- Visits below different names have different names. -/
theorem nodup_of_walkNames (front : List Name) {visit : Name → Except WalkError (List Visit)}
    (hvisit : ∀ n us, visit n = .ok us → (us.map (·.names)).Nodup ∧ ∀ u ∈ us, front ++
      [n] <+: u.names)
    {ns : List Name} (hns : ns.Nodup) {vs : List Visit} (h : walkNames visit ns = .ok vs) :
    (vs.map (·.names)).Nodup := by
  induction ns generalizing vs with
  | nil =>
    cases h
    exact List.nodup_nil
  | cons n ns ih =>
    obtain ⟨us, rest, hus, hrest, rfl⟩ := walkNames_cons.1 h
    obtain ⟨hn, hns'⟩ := List.nodup_cons.1 hns
    rw [List.map_append, List.nodup_append]
    refine ⟨(hvisit n us hus).1, ih hns' hrest, ?_⟩
    intro a ha b hb hab
    obtain ⟨u, hu, rfl⟩ := List.mem_map.1 ha
    obtain ⟨v, hv, rfl⟩ := List.mem_map.1 hb
    obtain ⟨m, hm, ms, hms, hvm⟩ := mem_of_walkNames hrest hv
    have hpre := (hvisit n us hus).2 u hu
    have hpre' := (hvisit m ms hms).2 v hvm
    rw [← hab] at hpre'
    have hsame : front ++ [n] = front ++ [m] :=
      (List.prefix_of_prefix_length_le hpre hpre' (by simp)).eq_of_length (by simp)
    have hnm : n = m := by simpa using hsame
    exact hn (hnm ▸ hm)

section
variable {o : WalkOptions} {start : Path} {above : List Place} {names : List Name} {vs : List Visit}

/-- What one name of a directory adds to a walk: nothing, an entry, or a directory and what is
inside. -/
theorem visitName_cases {inside : List Place → List Name → Except WalkError (List Visit)} {n : Name}
    (h : t.visitName o start inside above names place n = .ok vs) :
    (t.entryAt? (place ++ [n]) = none ∨ o.skips (names ++ [n]) = true) ∧ vs = [] ∨
    ∃ e inner e', t.entryAt? (place ++ [n]) = some e ∧
      t.target o above (below start (names ++ [n])) (place ++ [n]) e = .ok (inner, e') ∧
      (e' ≠ .directory ∧ vs = [⟨names ++ [n], e'⟩] ∨
        e' = .directory ∧ ∃ us, inside (inner :: above) (names ++ [n]) = .ok us ∧
          vs = ⟨names ++ [n], .directory⟩ :: us) := by
  unfold visitName at h
  simp only at h
  split at h
  · rename_i hnone
    cases h
    exact .inl ⟨.inl hnone, rfl⟩
  · rename_i e he
    split at h
    · cases h
    · rename_i inner e' htarget
      split at h
      · rename_i hskip
        cases h
        exact .inl ⟨.inr hskip, rfl⟩
      · refine .inr ⟨e, inner, e', he, htarget, ?_⟩
        split at h
        · rename_i hdir
          subst hdir
          cases hus : inside (inner :: above) (names ++ [n]) with
          | error e => rw [hus] at h; cases h
          | ok us =>
            rw [hus] at h
            cases h
            exact .inr ⟨rfl, us, rfl, rfl⟩
        · rename_i hdir
          cases h
          exact .inl ⟨hdir, rfl⟩

/-- A walk below a directory opens it by its path and visits its names. -/
theorem exists_of_walkFrom {depth : Nat} (h : t.walkFrom o start depth above names = .ok vs) :
    ∃ k place, depth = k + 1 ∧ t.resolve true (below start names) = .ok place ∧
      walkNames (t.visitName o start (t.walkFrom o start k) above names place)
      (t.namesAt place) = .ok vs := by
  cases depth with
  | zero => cases h
  | succ k =>
    rw [walkFrom] at h
    split at h
    · cases h
    · rename_i place hplace
      exact ⟨k, place, rfl, hplace, h⟩

/-- What a walk meets below a directory has more names than the directory. -/
theorem exists_names_of_walkFrom {depth : Nat} (h : t.walkFrom o start depth above names = .ok vs) :
    ∀ v ∈ vs, ∃ ns, ns ≠ [] ∧ v.names = names ++ ns := by
  induction depth generalizing above names vs with
  | zero => cases h
  | succ depth ih =>
    obtain ⟨_, place, hk, _, hwalk⟩ := exists_of_walkFrom h
    cases hk
    intro v hv
    obtain ⟨n, _, us, hus, hvu⟩ := mem_of_walkNames hwalk hv
    rcases visitName_cases hus with ⟨_, rfl⟩ | ⟨_, inner, _, _, _, ⟨_, rfl⟩ | ⟨_, more, hmore, rfl⟩⟩
    · cases hvu
    · rw [List.mem_singleton.1 hvu]
      exact ⟨[n], by simp, rfl⟩
    · rcases List.mem_cons.1 hvu with rfl | hvu
      · exact ⟨[n], by simp, rfl⟩
      · obtain ⟨ns, _, hns⟩ := ih hmore v hvu
        exact ⟨n :: ns, by simp, by rw [hns, List.append_assoc]; rfl⟩

/-- A walk meets nothing twice. -/
theorem walkFrom_nodup (hwf : t.WellFormed) {depth : Nat}
    (h : t.walkFrom o start depth above names = .ok vs) : (vs.map (·.names)).Nodup := by
  induction depth generalizing above names vs with
  | zero => cases h
  | succ depth ih =>
    obtain ⟨_, place, hk, _, hwalk⟩ := exists_of_walkFrom h
    cases hk
    refine nodup_of_walkNames names (fun n us hus => ?_) (nodup_namesAt hwf place) hwalk
    rcases visitName_cases hus with ⟨_, rfl⟩ | ⟨_, inner, _, _, _, ⟨_, rfl⟩ | ⟨_, more, hmore, rfl⟩⟩
    · simp
    · simp
    · have hbelow := exists_names_of_walkFrom hmore
      constructor
      · rw [List.map_cons, List.nodup_cons]
        refine ⟨?_, ih hmore⟩
        -- What is inside has more names than the directory itself.
        intro hmem
        obtain ⟨v, hv, hnames⟩ := List.mem_map.1 hmem
        obtain ⟨ns, hne, hns⟩ := hbelow v hv
        rw [hns] at hnames
        exact hne (by simpa using hnames)
      · intro u hu
        rcases List.mem_cons.1 hu with rfl | hu
        · exact List.prefix_refl _
        · obtain ⟨ns, _, hns⟩ := hbelow u hu
          rw [hns]
          exact List.prefix_append _ _

theorem target_of_not_follow (ho : o.follow = false) (path : Path) (e : Entry) :
    t.target o above path place e = .ok (place, e) := by
  cases e <;> simp [target, ho]

/-- A directory is opened by its path, which ends at its place. -/
theorem eq_of_resolve_child (hwf : t.WellFormed)
    (hplace : t.resolve true (below start names) = .ok place)
    (hdir : t.entryAt? place = some .directory) {n : Name} (hn : n ∈ t.namesAt place)
    (he : t.entryAt? (place ++ [n]) = some .directory) {q : Place}
    (hq : t.resolve true (below start (names ++ [n])) = .ok q) : q = place ++ [n] := by
  rw [below_append] at hq
  exact ends_visitPath hwf hplace hdir (v := ⟨[n], .directory⟩) (.here hn he) (by simp)
    (.of_resolve hq)

/-- A walk that follows no links meets entries that are inside. -/
theorem walkFrom_inside (hwf : t.WellFormed) (ho : o.follow = false) {depth : Nat}
    (hplace : t.resolve true (below start names) = .ok place)
    (hdir : t.entryAt? place = some .directory)
    (h : t.walkFrom o start depth above names = .ok vs) :
    ∀ v ∈ vs, ∃ ns, v.names = names ++ ns ∧ t.Inside place ns v.entry := by
  induction depth generalizing above names place vs with
  | zero => cases h
  | succ depth ih =>
    obtain ⟨_, place', hk, hplace', hwalk⟩ := exists_of_walkFrom h
    cases hk
    rw [hplace] at hplace'
    cases hplace'
    intro v hv
    obtain ⟨n, hn, us, hus, hvu⟩ := mem_of_walkNames hwalk hv
    rcases visitName_cases hus with ⟨_, rfl⟩ | ⟨e, inner, e', he, htarget, hus⟩
    · cases hvu
    · rw [target_of_not_follow ho] at htarget
      cases htarget
      rcases hus with ⟨_, rfl⟩ | ⟨rfl, more, hmore, rfl⟩
      · rw [List.mem_singleton.1 hvu]
        exact ⟨[n], rfl, .here hn he⟩
      · rcases List.mem_cons.1 hvu with rfl | hvu
        · exact ⟨[n], rfl, .here hn he⟩
        · obtain ⟨_, inner, _, hinner, _⟩ := exists_of_walkFrom hmore
          obtain rfl := eq_of_resolve_child hwf hplace hdir hn he hinner
          obtain ⟨ns, hns, hinside⟩ := ih hinner he hmore v hvu
          exact ⟨n :: ns, by rw [hns, List.append_assoc]; rfl, .deeper hn he hinside⟩

/-- A walk meets one entry, or a directory and then what is below it. -/
theorem walk_cases {root : Path} (h : t.walk o root = .ok vs) :
    ∃ top e, t.resolve true root = .ok top ∧ t.entryAt? top = some e ∧
      (e ≠ .directory ∧ vs = [⟨[], e⟩] ∨
        e = .directory ∧ ∃ rest, t.walkFrom o root (maxPath + 1) [top] [] = .ok rest ∧
          vs = ⟨[], .directory⟩ :: rest) := by
  unfold walk at h
  split at h
  · cases h
  · rename_i top htop
    split at h
    · cases h
    · rename_i hentry
      refine ⟨top, .directory, htop, hentry, .inr ⟨rfl, ?_⟩⟩
      cases hrest : t.walkFrom o root (maxPath + 1) [top] [] with
      | error e => rw [hrest] at h; cases h
      | ok rest =>
        rw [hrest] at h
        cases h
        exact ⟨rest, rfl, rfl⟩
    · rename_i e hne hentry
      cases h
      exact ⟨top, e, htop, hentry, .inl ⟨hne, rfl⟩⟩

end

/-! ## The files to lint -/

/-- A walk below a directory meets the directory, and then what is inside. -/
theorem exists_of_walk (hwf : t.WellFormed) {o : WalkOptions} (ho : o.follow = false) {root : Path}
    (hdir : t.isDirectory root = true) {vs : List Visit} (h : t.walk o root = .ok vs) :
    ∃ top rest, t.resolve true root = .ok top ∧ t.entryAt? top = some .directory ∧
      vs = ⟨[], .directory⟩ :: rest ∧ (rest.map (·.names)).Nodup ∧
      ∀ v ∈ rest, t.Inside top v.names v.entry := by
  obtain ⟨top, e, htop, hentry, hvs⟩ := walk_cases h
  rw [isDirectory, stat_of_resolve htop hentry] at hdir
  rcases hvs with ⟨hne, _⟩ | ⟨rfl, rest, hrest, rfl⟩
  · cases e with
    | directory => exact absurd rfl hne
    | file _ _ _ => cases hdir
    | link _ => cases hdir
  · have hstart : t.resolve true (below root []) = .ok top := htop
    refine ⟨top, rest, htop, hentry, rfl, walkFrom_nodup hwf hrest, fun v hv => ?_⟩
    obtain ⟨ns, hns, hinside⟩ := walkFrom_inside hwf ho hstart hentry hrest v hv
    rw [List.nil_append] at hns
    exact hns ▸ hinside

end ExplicitSelf.FileTree

namespace ExplicitSelf.Workspace

theorem wanted_inside {t : FileTree} {top : Place} {vs : List Visit}
    (h : ∀ v ∈ vs, t.Inside top v.names v.entry) {excludes : Excludes} {v : Visit}
    (hv : v ∈ vs.filter (isWanted excludes)) :
    t.Inside top v.names v.entry ∧ ∀ target, v.entry ≠ .link target := by
  obtain ⟨hmem, hwanted⟩ := List.mem_filter.1 hv
  refine ⟨h v hmem, fun target hlink => ?_⟩
  simp [isWanted, hlink, Entry.isFile] at hwanted

/-- No two files to lint end at one place. -/
theorem pairwise_files {t : FileTree} (hwf : t.WellFormed) {excludes : Excludes} {path : Path}
    {files : List Path} (h : Workspace.files t excludes path = .ok files) :
    files.Pairwise fun f g => ∀ q, t.Ends f q → ¬t.Ends g q := by
  unfold Workspace.files at h
  split at h
  · cases h
  · simp only at h
    split at h
    · -- One file, if it is one to lint.
      cases h
      split <;> simp
    · split at h
      · cases h
      · rename_i hdir
        split at h
        · cases h
        · rename_i vs hwalk
          cases h
          obtain ⟨top, rest, htop, hentry, rfl, hnodup, hinside⟩ :=
            FileTree.exists_of_walk hwf rfl (by simpa using hdir) hwalk
          refine ((List.mergeSort_perm _ _).pairwise_iff ?_).2 ?_
          · intro f g hfg q hg hf
            exact hfg q hf hg
          · rw [List.filter_cons_of_neg (by simp [isWanted, Entry.isFile]), List.pairwise_map]
            have hnames := (List.pairwise_map.1 hnodup).filter (isWanted excludes)
            refine hnames.imp_of_mem ?_
            intro v w hv hw hne q hvq hwq
            obtain ⟨hv, hvfile⟩ := wanted_inside hinside hv
            obtain ⟨hw, hwfile⟩ := wanted_inside hinside hw
            have hvplace := FileTree.ends_visitPath hwf htop hentry hv hvfile hvq
            have hwplace := FileTree.ends_visitPath hwf htop hentry hw hwfile hwq
            exact hne (List.append_cancel_left (hvplace.symm.trans hwplace))

end ExplicitSelf.Workspace
