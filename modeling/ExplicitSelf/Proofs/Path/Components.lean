import ExplicitSelf.Proofs.FileTree.Walk
import ExplicitSelf.Proofs.Text.Split
import Mathlib.Data.List.DropRight

/-!
# The components of a path and of the directories above it

A path is cut and joined as a text, and what it means is the list of its components. So each
operation on texts has a law for components: the directory that a path stands in has all components
but the last, and an entry of a directory has those of the directory and one more. The texts that
mean nothing, such as repeated slashes, do not matter.

Results:
* `Component.listLe_trans`, `listLe_total`, `listLe_antisymm`: the order of paths.
* `parent?_eq_none_iff`, `exists_pieces_of_parent?`, `exists_steps_of_parent?`: the directory that a
  path stands in.
* `steps_child`, `components_below`: the components of an entry, and of what is further below.
* `getElem?_ancestors`: the directories above, one step after the other; none is left out for want
  of fuel.
-/
namespace ExplicitSelf

/-! ## The order of components -/

namespace Component

theorem le_total (a b : Component) : (a.le b || b.le a) = true := by
  cases a <;> cases b <;> simp [le, List.le_total]

theorem le_trans {a b c : Component} (hab : a.le b = true) (hbc : b.le c = true) :
    a.le c = true := by
  cases a <;> cases b <;> cases c <;> simp_all [le]
  exact List.le_trans hab hbc

theorem le_antisymm {a b : Component} (hab : a.le b = true) (hba : b.le a = true) : a = b := by
  cases a <;> cases b <;> simp_all [le]
  exact congrArg Name.mk (List.le_antisymm hab hba)

theorem listLe_total (as bs : List Component) : (listLe as bs || listLe bs as) = true := by
  induction as generalizing bs with
  | nil => rfl
  | cons a as ih =>
    cases bs with
    | nil => rfl
    | cons b bs =>
      by_cases hab : a = b
      · subst hab
        simpa [listLe] using ih bs
      · have hba : ¬b = a := fun h => hab h.symm
        simpa [listLe, hab, hba] using le_total a b

theorem listLe_trans {as bs cs : List Component} (hab : listLe as bs = true)
    (hbc : listLe bs cs = true) : listLe as cs = true := by
  induction as generalizing bs cs with
  | nil => rfl
  | cons a as ih =>
    cases bs with
    | nil => cases hab
    | cons b bs =>
      cases cs with
      | nil => cases hbc
      | cons c cs =>
        rw [listLe] at hab hbc ⊢
        by_cases hac : a = c
        · subst hac
          by_cases hb : a = b
          · subst hb
            simp only [if_true] at hab hbc ⊢
            exact ih hab hbc
          · -- Two different components cannot each come before the other.
            rw [if_neg hb] at hab
            rw [if_neg fun h => hb h.symm] at hbc
            exact absurd (le_antisymm hab hbc) hb
        · rw [if_neg hac]
          by_cases hb : a = b
          · subst hb
            rwa [if_neg hac] at hbc
          · rw [if_neg hb] at hab
            split at hbc
            · rename_i hbc'
              rwa [← hbc']
            · exact le_trans hab hbc

theorem listLe_antisymm {as bs : List Component} (hab : listLe as bs = true)
    (hba : listLe bs as = true) : as = bs := by
  induction as generalizing bs with
  | nil =>
    cases bs with
    | nil => rfl
    | cons b bs => cases hba
  | cons a as ih =>
    cases bs with
    | nil => cases hab
    | cons b bs =>
      rw [listLe] at hab hba
      by_cases h : a = b
      · subst h
        simp only [if_true] at hab hba
        rw [ih hab hba]
      · rw [if_neg h] at hab
        rw [if_neg fun he => h he.symm] at hba
        exact absurd (le_antisymm hab hba) h

end Component

namespace Path

theorem le_total (p q : Path) : (p.le q || q.le p) = true :=
  Component.listLe_total p.components q.components

theorem le_trans {p q r : Path} (hpq : p.le q = true) (hqr : q.le r = true) : p.le r = true :=
  Component.listLe_trans hpq hqr

theorem le_refl (p : Path) : p.le p = true := by
  have htotal := p.le_total p
  rwa [Bool.or_self] at htotal

/-! ## Components without the root -/

/-- The components of pieces; `front` tells whether they start at the front of a relative path. -/
def stepsOf (front : Bool) (pieces : List Text.Octets) : List Component :=
  (if front ∧ pieces.head? = some [dot] then [.current] else []) ++ componentsOf pieces

/-- The components of a path without the root. -/
def steps (p : Path) : List Component :=
  stepsOf (!p.isAbsolute) p.pieces

theorem componentsOf_append (ps qs : List Text.Octets) :
    componentsOf (ps ++ qs) = componentsOf ps ++ componentsOf qs := by
  simp [componentsOf]

theorem componentsOf_idle {ps : List Text.Octets} (h : ∀ p ∈ ps, isIdle p = true) :
    componentsOf ps = [] := by
  unfold componentsOf
  rw [List.filter_eq_nil_iff.2, List.map_nil]
  intro p hp
  simp [h p hp]

theorem componentsOf_cons_idle {l : Text.Octets} (h : isIdle l = true) (ps : List Text.Octets) :
    componentsOf (l :: ps) = componentsOf ps := by
  simp [componentsOf, h]

theorem components_eq (p : Path) :
    p.components = (if p.isAbsolute then [.root] else []) ++ p.steps := by
  unfold components steps stepsOf
  by_cases habsolute : p.isAbsolute = true
  · simp [habsolute]
  · rw [if_neg habsolute, if_neg habsolute]
    simp only [Bool.not_eq_true] at habsolute
    split
    · rename_i ps hpieces
      rw [hpieces, componentsOf_cons_idle rfl]
      simp [habsolute]
    · rename_i hfront
      have hhead : p.pieces.head? ≠ some [dot] := by
        intro hhead
        obtain ⟨ps, hps⟩ := List.head?_eq_some_iff.1 hhead
        exact hfront ps hps
      simp [hhead]

theorem root_notMem_steps (p : Path) : Component.root ∉ p.steps := by
  have hpiece : ∀ l, componentOf l ≠ .root := by
    intro l
    unfold componentOf
    split <;> simp
  unfold steps stepsOf componentsOf
  rw [List.mem_append, List.mem_map]
  rintro (h | ⟨l, _, hl⟩)
  · split at h <;> simp at h
  · exact hpiece l hl

theorem stepsOf_concat {front : Bool} {ps : List Text.Octets} {l : Text.Octets}
    (h : isIdle l = false) :
    stepsOf front (ps ++ [l]) = stepsOf front ps ++ [componentOf l] := by
  have hlast : componentsOf [l] = [componentOf l] := by simp [componentsOf, h]
  have hdot : l ≠ [dot] := by
    rintro rfl
    cases h
  unfold stepsOf
  rw [componentsOf_append, hlast, ← List.append_assoc]
  cases ps with
  | nil => simp [hdot, componentsOf]
  | cons p ps => rfl

theorem stepsOf_concat_nil (front : Bool) (ps : List Text.Octets) :
    stepsOf front (ps ++ [[]]) = stepsOf front ps := by
  unfold stepsOf
  rw [componentsOf_append, componentsOf_cons_idle rfl, componentsOf_idle (List.forall_mem_nil _),
    List.append_nil]
  cases ps with
  | nil => simp
  | cons p ps => rfl

theorem length_steps_le (p : Path) : p.steps.length ≤ p.pieces.length := by
  have hlength : ∀ ps, (componentsOf ps).length ≤ ps.length := by
    intro ps
    rw [componentsOf, List.length_map]
    exact List.length_filter_le ..
  unfold steps stepsOf
  cases hpieces : p.pieces with
  | nil => simp [componentsOf]
  | cons l ps =>
    have hrest := hlength ps
    split
    · rename_i hfront
      obtain rfl : l = [dot] := by simpa using hfront.2
      rw [componentsOf_cons_idle rfl, List.singleton_append, List.length_cons, List.length_cons]
      omega
    · exact hlength (l :: ps)

/-! ## The directory that a path stands in -/

theorem dropIdle_eq (front : Bool) (ps : List Text.Octets) :
    dropIdle front ps =
      if ps.rdropWhile isIdle = [] ∧ front ∧ ps.head? = some [dot] then [[dot]]
      else ps.rdropWhile isIdle := by
  unfold dropIdle List.rdropWhile
  simp only [List.isEmpty_iff]

/-- Only pieces that mean nothing are dropped. -/
theorem exists_dropIdle_append (front : Bool) (ps : List Text.Octets) :
    ∃ rest, dropIdle front ps ++ rest = ps ∧ ∀ r ∈ rest, isIdle r = true := by
  rw [dropIdle_eq]
  split
  · rename_i h
    obtain ⟨qs, hqs⟩ := List.head?_eq_some_iff.1 h.2.2
    have hidle := List.rdropWhile_eq_nil_iff.1 h.1
    exact ⟨qs, hqs.symm, fun r hr => hidle r (by rw [hqs]; exact List.mem_cons_of_mem _ hr)⟩
  · exact ⟨_, List.rdropWhile_append_rtakeWhile, fun r hr => List.mem_rtakeWhile_imp hr⟩

theorem dropIdle_isPrefix (front : Bool) (ps : List Text.Octets) : dropIdle front ps <+: ps := by
  obtain ⟨rest, hrest, _⟩ := exists_dropIdle_append front ps
  exact ⟨rest, hrest⟩

/-- The pieces that are dropped mean nothing. -/
theorem stepsOf_dropIdle (front : Bool) (ps : List Text.Octets) :
    stepsOf front (dropIdle front ps) = stepsOf front ps := by
  have hparts : ps.rdropWhile isIdle ++ ps.rtakeWhile isIdle = ps :=
    List.rdropWhile_append_rtakeWhile
  have hkept : componentsOf (ps.rdropWhile isIdle) = componentsOf ps := by
    conv_rhs => rw [← hparts, componentsOf_append]
    rw [componentsOf_idle fun p hp => List.mem_rtakeWhile_imp hp, List.append_nil]
  rw [dropIdle_eq]
  by_cases hnil : ps.rdropWhile isIdle = []
  · rw [hnil] at hkept
    have hnone : componentsOf ps = [] := hkept.symm
    split
    · rename_i h
      unfold stepsOf
      rw [if_pos h.2, if_pos ⟨h.2.1, rfl⟩, hnone]
      rfl
    · rename_i h
      unfold stepsOf
      rw [if_neg fun hfront => h ⟨hnil, hfront⟩, hnil, hnone]
      simp [componentsOf]
  · rw [if_neg fun h => hnil h.1]
    have hhead : (ps.rdropWhile isIdle).head? = ps.head? := by
      conv_rhs => rw [← hparts]
      rw [List.head?_append_of_ne_nil _ hnil]
    unfold stepsOf
    rw [hhead, hkept]

/-- The last piece that is kept has a component of its own. -/
theorem stepsOf_of_dropIdle {front : Bool} {ps qs : List Text.Octets} {l : Text.Octets}
    (h : dropIdle front ps = qs ++ [l]) : ∃ c, stepsOf front ps = stepsOf front qs ++ [c] := by
  rw [← stepsOf_dropIdle, h]
  rw [dropIdle_eq] at h
  split at h
  · rename_i hfront
    rcases List.append_eq_singleton_iff.1 h.symm with ⟨rfl, hl⟩ | ⟨_, hl⟩
    · cases hl
      exact ⟨.current, by simp [stepsOf, hfront.2.1, componentsOf, isIdle]⟩
    · cases hl
  · have hne : ps.rdropWhile isIdle ≠ [] := by simp [h]
    have hlast : ¬isIdle l = true := by
      have hlast := List.rdropWhile_last_not isIdle ps hne
      simpa [h] using hlast
    exact ⟨componentOf l, stepsOf_concat (by simpa using hlast)⟩

theorem dropIdle_eq_nil_iff {front : Bool} {ps : List Text.Octets} :
    dropIdle front ps = [] ↔ stepsOf front ps = [] := by
  constructor
  · intro h
    rw [← stepsOf_dropIdle, h]
    simp [stepsOf, componentsOf]
  · intro h
    rcases List.eq_nil_or_concat' (dropIdle front ps) with hnil | ⟨qs, l, hl⟩
    · exact hnil
    · obtain ⟨c, hc⟩ := stepsOf_of_dropIdle hl
      rw [h] at hc
      simp at hc

/-- The path with pieces, at the front of a relative path or after the root. -/
def ofPieces (front : Bool) (pieces : List Text.Octets) : Path :=
  ⟨if front then Text.joinWith slash pieces else slash :: Text.joinWith slash pieces⟩

theorem parent?_eq_none_iff {p : Path} : p.parent? = none ↔ p.steps = [] := by
  unfold parent? steps
  rw [← dropIdle_eq_nil_iff]
  simp only
  split
  · rename_i h
    simp [h]
  · rename_i h
    simpa using h

theorem of_parent?_eq_some {p q : Path} (h : p.parent? = some q) :
    ∃ qs l, dropIdle (!p.isAbsolute) p.pieces = qs ++ [l] ∧
      q = ofPieces (!p.isAbsolute) (dropIdle (!p.isAbsolute) qs) := by
  unfold parent? at h
  rcases List.eq_nil_or_concat' (dropIdle (!p.isAbsolute) p.pieces) with hnil | ⟨qs, l, hl⟩
  · simp [hnil] at h
  · refine ⟨qs, l, hl, ?_⟩
    simp only [hl] at h
    split at h
    · rename_i hnil
      simp at hnil
    · cases h
      rw [List.dropLast_concat]
      rfl

/-- A relative path whose first piece is empty is empty. -/
theorem octets_eq_nil_of_head? {p : Path} (hp : p.isAbsolute = false)
    (hhead : p.pieces.head? = some []) : p.octets = [] := by
  have hfront : p.octets.head? ≠ some slash := by simpa [isAbsolute] using hp
  obtain ⟨ps, hps⟩ := List.head?_eq_some_iff.1 hhead
  rw [FileTree.pieces_of_relative hp] at hps
  rcases Text.exists_of_splitWhere_eq_cons hps with ⟨hnil, _⟩ | ⟨c, r, hc, htext, _⟩
  · simpa using hnil
  · -- The text would start with a slash.
    obtain rfl : c = slash := by simpa using hc
    rw [htext] at hfront
    exact absurd rfl hfront

theorem steps_of_empty {p : Path} (h : p.octets = []) : p.steps = [] := by
  obtain ⟨text⟩ := p
  subst h
  rfl

/-- Only the root and the empty path stand in no directory. -/
theorem octets_eq_nil_of_steps {p : Path} (hroot : p.components ≠ [.root]) (hsteps : p.steps = []) :
    p.octets = [] := by
  have hrelative : p.isAbsolute = false := by
    rw [components_eq, hsteps] at hroot
    simpa using hroot
  refine octets_eq_nil_of_head? hrelative ?_
  rw [steps, stepsOf, hrelative] at hsteps
  obtain ⟨hdot, hnone⟩ := List.append_eq_nil_iff.1 hsteps
  cases hpieces : p.pieces with
  | nil => exact absurd hpieces (FileTree.pieces_ne_nil p)
  | cons l ps =>
    rw [hpieces] at hdot hnone
    have hidle : isIdle l = true := by
      by_contra hidle
      simp [componentsOf, hidle] at hnone
    rcases (by simpa [isIdle] using hidle : l = [] ∨ l = [dot]) with rfl | rfl
    · rfl
    · cases hdot

/-- The front of a path, cut between two pieces. -/
theorem pieces_ofPieces {front : Bool} {ps : List Text.Octets} (hslash : ∀ p ∈ ps, slash ∉ p)
    (hhead : front = true → ps.head? ≠ some []) :
    (ofPieces front ps).isAbsolute = !front ∧
      (ofPieces front ps).pieces = if ps = [] then [[]] else ps := by
  have hjoined : front = true → (Text.joinWith slash ps).head? ≠ some slash := by
    intro hfront
    have hhead := hhead hfront
    cases ps with
    | nil => simp [Text.joinWith]
    | cons p ps =>
      cases p with
      | nil => exact absurd rfl hhead
      | cons c cs =>
        have hc : slash ≠ c := by simpa using List.ne_of_not_mem_cons (hslash (c :: cs) (.head _))
        cases ps <;> simp [Text.joinWith, hc.symm]
  have hbody : FileTree.body (ofPieces front ps).octets = Text.joinWith slash ps := by
    cases front with
    | false => rfl
    | true => simpa [ofPieces] using FileTree.body_eq_self (hjoined rfl)
  constructor
  · cases front with
    | false => simp [ofPieces, isAbsolute]
    | true => simpa [ofPieces, isAbsolute] using hjoined rfl
  · rw [FileTree.pieces_eq, hbody]
    split
    · rename_i hnil
      rw [hnil]
      rfl
    · rename_i hne
      exact Text.splitOn_joinWith hne hslash

/-- The directory that a path stands in has the pieces of the path up to the last that means
something, and of these again none at the end that means nothing. -/
theorem exists_pieces_of_parent? {p q : Path} (h : p.parent? = some q) :
    ∃ qs l, dropIdle (!p.isAbsolute) p.pieces = qs ++ [l] ∧
      dropIdle (!p.isAbsolute) qs <+: p.pieces ∧
      q = ofPieces (!p.isAbsolute) (dropIdle (!p.isAbsolute) qs) ∧ q.isAbsolute = p.isAbsolute ∧
      q.pieces = if dropIdle (!p.isAbsolute) qs = [] then [[]] else dropIdle
        (!p.isAbsolute) qs := by
  obtain ⟨qs, l, hl, rfl⟩ := of_parent?_eq_some h
  have hcut : dropIdle (!p.isAbsolute) qs <+: p.pieces :=
    (dropIdle_isPrefix _ qs).trans
      ((List.prefix_append qs [l]).trans (hl ▸ dropIdle_isPrefix _ p.pieces))
  have hslash : ∀ r ∈ dropIdle (!p.isAbsolute) qs, slash ∉ r := by
    intro r hr
    have hpiece := hcut.subset hr
    rw [FileTree.pieces_eq] at hpiece
    exact Text.notMem_of_mem_splitOn hpiece
  have hhead : (!p.isAbsolute) = true → (dropIdle (!p.isAbsolute) qs).head? ≠ some [] := by
    intro hfront hnil
    have hrelative : p.isAbsolute = false := by simpa using hfront
    obtain ⟨rest, hrest⟩ := hcut
    have hempty := octets_eq_nil_of_head? hrelative (by rw [← hrest, List.head?_append, hnil]; rfl)
    rw [parent?_eq_none_iff.2 (steps_of_empty hempty)] at h
    cases h
  obtain ⟨habsolute, hpieces⟩ := pieces_ofPieces hslash hhead
  exact ⟨qs, l, hl, hcut, rfl, by rw [habsolute, Bool.not_not], hpieces⟩

/-- The directory that a path stands in has all components but the last. -/
theorem exists_steps_of_parent? {p q : Path} (h : p.parent? = some q) :
    q.isAbsolute = p.isAbsolute ∧ ∃ c, p.steps = q.steps ++ [c] := by
  obtain ⟨qs, l, hl, _, _, habsolute, hpieces⟩ := exists_pieces_of_parent? h
  obtain ⟨c, hc⟩ := stepsOf_of_dropIdle hl
  refine ⟨habsolute, c, ?_⟩
  have hsteps : q.steps = stepsOf (!p.isAbsolute) qs := by
    rw [steps, habsolute, hpieces, ← stepsOf_dropIdle _ qs]
    split
    · rename_i hnil
      rw [hnil]
      exact stepsOf_concat_nil _ []
    · rfl
  rw [hsteps]
  exact hc

/-! ## Entries of a directory -/

/-- An entry has the components of its directory and its own name. -/
theorem steps_child {p : Path} {n : Name} (hn : FileTree.IsName n) (hp : p.octets ≠ []) :
    (p.child n).steps = p.steps ++ [.name n] := by
  have hpieces : ∀ q : Path, q.pieces = (FileTree.linkNames q).map Name.octets := by
    intro q
    simp [FileTree.linkNames, Function.comp_def]
  have hidle : isIdle n.octets = false := by
    rw [isIdle, decide_eq_false hn.octets_ne_nil, decide_eq_false hn.octets_ne_dot]
    rfl
  have hname : componentOf n.octets = .name n := by
    rw [componentOf, if_neg hn.octets_ne_dots]
  obtain ⟨base, hbase, hchild⟩ := FileTree.linkNames_child hn hp
  unfold steps
  rw [FileTree.isAbsolute_child hn hp, hpieces (p.child n), hchild, List.map_append,
    List.map_singleton, stepsOf_concat hidle, hname, hpieces p]
  rcases hbase with hbase | hbase
  · rw [hbase]
  · rw [hbase, List.map_append]
    exact congrArg (· ++ _) (stepsOf_concat_nil _ _).symm

theorem components_child {p : Path} {n : Name} (hn : FileTree.IsName n) (hp : p.octets ≠ []) :
    (p.child n).components = p.components ++ [.name n] := by
  rw [components_eq, components_eq, FileTree.isAbsolute_child hn hp, steps_child hn hp,
    List.append_assoc]

theorem components_below {root : Path} {names : List Name} (hnames : ∀ n ∈ names, FileTree.IsName n)
    (hroot : root.octets ≠ []) :
    (FileTree.below root names).components = root.components ++ names.map .name := by
  unfold FileTree.below
  induction names generalizing root with
  | nil => simp
  | cons n names ih =>
    obtain ⟨hn, hnames⟩ := List.forall_mem_cons.1 hnames
    rw [List.foldl_cons, ih hnames (FileTree.octets_child_ne hn hroot), components_child hn hroot]
    simp

/-- Different names from the root make different paths. -/
theorem same_below {root : Path} {ns ms : List Name} (hns : ∀ n ∈ ns, FileTree.IsName n)
    (hms : ∀ m ∈ ms, FileTree.IsName m) (hroot : root.octets ≠ [])
    (h : (FileTree.below root ns).components = (FileTree.below root ms).components) : ns = ms := by
  rw [components_below hns hroot, components_below hms hroot] at h
  exact List.map_injective_iff.2 (fun a b hab => Component.name.inj hab) (List.append_cancel_left h)

/-! ## Directories above -/

/-- The directory that is so many steps above a path. -/
def up? (p : Path) : Nat → Option Path
  | 0 => some p
  | n + 1 => p.parent?.bind (up? · n)

theorem exists_steps_of_up? {p q : Path} {n : Nat} (h : p.up? n = some q) :
    ∃ cs, p.steps = q.steps ++ cs ∧ cs.length = n := by
  induction n generalizing p with
  | zero =>
    cases h
    exact ⟨[], (List.append_nil _).symm, rfl⟩
  | succ n ih =>
    obtain ⟨r, hr, hq⟩ := Option.bind_eq_some_iff.1 h
    obtain ⟨_, c, hc⟩ := exists_steps_of_parent? hr
    obtain ⟨cs, hcs, hlength⟩ := ih hq
    exact ⟨cs ++ [c], by rw [hc, hcs, List.append_assoc], by simp [hlength]⟩

theorem getElem?_ancestorsUpTo {fuel : Nat} {p : Path} (h : p.steps.length ≤ fuel) (n : Nat) :
    (ancestorsUpTo fuel p)[n]? = p.up? n := by
  induction fuel generalizing p n with
  | zero =>
    have hparent : p.parent? = none := parent?_eq_none_iff.2 (List.length_eq_zero_iff.1 (by omega))
    cases n with
    | zero => rfl
    | succ n => simp [ancestorsUpTo, up?, hparent]
  | succ fuel ih =>
    cases hparent : p.parent? with
    | none => cases n <;> simp [ancestorsUpTo, up?, hparent]
    | some q =>
      obtain ⟨_, c, hc⟩ := exists_steps_of_parent? hparent
      rw [hc, List.length_append, List.length_singleton] at h
      cases n with
      | zero => simp [ancestorsUpTo, up?, hparent]
      | succ n => simp [ancestorsUpTo, up?, hparent, ih (by omega : q.steps.length ≤ fuel)]

/-- No directory is left out. -/
theorem getElem?_ancestors (p : Path) (n : Nat) : p.ancestors[n]? = p.up? n :=
  getElem?_ancestorsUpTo p.length_steps_le n

end Path

end ExplicitSelf
