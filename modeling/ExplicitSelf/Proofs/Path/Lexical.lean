import ExplicitSelf.Path.Normalize
import ExplicitSelf.Proofs.Path.Components
import Mathlib.Logic.Relation

/-!
# The lexical normal form of a path

A path is simplified by its text alone: a current directory is dropped, a name and a parent
directory after it are dropped together, and so is a parent directory after the root (`Simplifies`).
Two paths mean the same if such steps, in either direction, lead from one to the other. `normalize`
picks one path of each meaning: from the root or from some parent directories on it only goes down.

The components so far are a stack with the last component on top, and the invariant of the loop is
that the stack, read from its bottom, is in normal form already (`IsNormal`). What a stack is in the
end depends on the components and not on how the path spells them. So a path may be put into normal
form before another is joined to it.

Results:
* `components_ofSteps`, `components_entry`: a path that is built from components has these
  components.
* `isNormal_normalizeComponents`, `IsNormal.foldl_eq`: the loop makes normal forms, and keeps them.
* `foldl_join`: the components of a joined path are taken after those of the path it is joined to.
* `join_ofNames`, `below_ofComponents`: going down by names keeps a path from the root in normal
  form.
* `foldl_simplifies`, `simplified_foldl`: the loop simplifies, and nothing else that simplifies
  changes its result.
* `normalize_canonical`: all of this for paths.
-/
namespace ExplicitSelf.Path

open FileTree (IsName)

/-! ## Building a path from components -/

/-- A component that can stand away from the front. -/
def IsStep : Component → Prop
  | .parent => True
  | .name n => IsName n
  | _ => False

theorem componentOctets_spec {c : Component} (h : IsStep c) :
    isIdle (componentOctets c) = false ∧ componentOf (componentOctets c) = c ∧
      slash ∉ componentOctets c := by
  cases c with
  | root => cases h
  | current => cases h
  | parent => decide
  | name n =>
    have hn : IsName n := h
    refine ⟨?_, ?_, hn.2.2.2⟩
    · rw [componentOctets, isIdle, decide_eq_false hn.octets_ne_nil,
        decide_eq_false hn.octets_ne_dot]
      rfl
    · rw [componentOctets, componentOf, if_neg hn.octets_ne_dots]

theorem isStep_componentOf {l : Text.Octets} (hidle : isIdle l = false) (hslash : slash ∉ l) :
    IsStep (componentOf l) := by
  obtain ⟨hempty, hdot⟩ : l ≠ [] ∧ l ≠ [dot] := by simpa [isIdle] using hidle
  unfold componentOf
  split
  · trivial
  · rename_i hdots
    have hne : ∀ m : Name, l ≠ m.octets → Name.mk l ≠ m := by
      intro m hm heq
      exact hm (by rw [← heq])
    exact ⟨hne "" hempty, hne "." hdot, hne ".." hdots, hslash⟩

theorem isStep_of_mem_componentsOf {p : Path} {c : Component} (h : c ∈ componentsOf p.pieces) :
    IsStep c := by
  obtain ⟨l, hl, rfl⟩ := List.mem_map.1 h
  obtain ⟨hpiece, hidle⟩ := List.mem_filter.1 hl
  rw [FileTree.pieces_eq] at hpiece
  exact isStep_componentOf (by simpa using hidle) (Text.notMem_of_mem_splitOn hpiece)

theorem componentsOf_map_componentOctets {cs : List Component} (h : ∀ c ∈ cs, IsStep c) :
    componentsOf (cs.map componentOctets) = cs := by
  induction cs with
  | nil => rfl
  | cons c cs ih =>
    obtain ⟨hc, hcs⟩ := List.forall_mem_cons.1 h
    obtain ⟨hidle, hof, _⟩ := componentOctets_spec hc
    rw [List.map_cons, componentsOf, List.filter_cons, if_pos (by simp [hidle]), List.map_cons, hof]
    exact congrArg (c :: ·) (ih hcs)

/-- A path that is built from components has these components. -/
theorem components_ofSteps (front : Bool) {cs : List Component} (h : ∀ c ∈ cs, IsStep c) :
    (ofPieces front (cs.map componentOctets)).components = (if front then [] else [.root]) ++
      cs := by
  have hslash : ∀ l ∈ cs.map componentOctets, slash ∉ l := by
    intro l hl
    obtain ⟨c, hc, rfl⟩ := List.mem_map.1 hl
    exact (componentOctets_spec (h c hc)).2.2
  have hhead : ∀ l, isIdle l = true → (cs.map componentOctets).head? ≠ some l := by
    intro l hl heq
    obtain ⟨c, hc, rfl⟩ := List.mem_map.1 (List.mem_of_head? heq)
    rw [(componentOctets_spec (h c hc)).1] at hl
    cases hl
  obtain ⟨habsolute, hpieces⟩ := pieces_ofPieces hslash fun _ => hhead [] rfl
  have hsteps : stepsOf front (cs.map componentOctets) = cs := by
    rw [stepsOf, if_neg fun hfront => hhead [dot] rfl hfront.2, componentsOf_map_componentOctets h]
    rfl
  have hall : stepsOf front (if cs.map componentOctets = [] then [[]] else cs.map componentOctets) =
      cs := by
    split
    · rename_i hnil
      rw [List.map_eq_nil_iff.1 hnil]
      cases front <;> rfl
    · exact hsteps
  rw [components_eq, steps, habsolute, hpieces, Bool.not_not, hall]
  cases front <;> rfl

theorem components_of_empty {p : Path} (h : p.octets = []) : p.components = [] := by
  rw [components_eq, steps_of_empty h]
  simp [isAbsolute, h]

theorem components_of_isAbsolute {p : Path} (h : p.isAbsolute = true) :
    p.components = .root :: p.steps := by
  rw [components_eq, if_pos h]
  rfl

theorem isName_of_mem_components {p : Path} {n : Name} (h : .name n ∈ p.components) : IsName n := by
  rw [components_eq, steps, stepsOf] at h
  have hstep : IsStep (.name n) := by
    refine isStep_of_mem_componentsOf (p := p) ?_
    split at h <;> split at h <;> simpa using h
  exact hstep

theorem components_of_isName {n : Name} (hn : IsName n) :
    (Path.mk n.octets).components = [.name n] := by
  have hstep : ∀ c ∈ [Component.name n], IsStep c := by simpa [IsStep] using hn
  simpa [ofPieces, componentOctets, Text.joinWith] using components_ofSteps true hstep

/-- An entry has the components of its directory and its own name, also below the empty path. -/
theorem components_entry (p : Path) {n : Name} (hn : IsName n) :
    (p.child n).components = p.components ++ [.name n] := by
  by_cases hp : p.octets = []
  · have hchild : p.child n = ⟨n.octets⟩ := by
      simp [child, join, hp, FileTree.isAbsolute_of_isName hn]
    rw [hchild, components_of_empty hp, components_of_isName hn]
    rfl
  · exact components_child hn hp

/-! ## Normal forms -/

/-- Components in normal form: the root or some parent directories, and then names. -/
inductive IsNormal : (absolute : Bool) → List Component → Prop where
  | absolute {ns : List Name} (hns : ∀ n ∈ ns, IsName n) : IsNormal true (.root :: ns.map .name)
  | relative (up : Nat) {ns : List Name} (hns : ∀ n ∈ ns, IsName n) :
    IsNormal false (List.replicate up .parent ++ ns.map .name)

theorem IsNormal.current_notMem {absolute : Bool} {cs : List Component} (h : IsNormal absolute cs) :
    Component.current ∉ cs := by
  cases h with
  | absolute hns => simp
  | relative up hns => simp [List.mem_replicate]

theorem IsNormal.components_ofComponents {absolute : Bool} {cs : List Component}
    (h : IsNormal absolute cs) :
    (ofComponents cs).components = cs := by
  have hnames : ∀ ns : List Name, (∀ n ∈ ns, IsName n) → ∀ c ∈ ns.map Component.name, IsStep c := by
    intro ns hns c hc
    obtain ⟨n, hn, rfl⟩ := List.mem_map.1 hc
    exact hns n hn
  cases h with
  | absolute hns => exact components_ofSteps false (hnames _ hns)
  | @relative up ns hns =>
    have hparents : ∀ c ∈ List.replicate up Component.parent, IsStep c := by
      intro c hc
      rw [List.eq_of_mem_replicate hc]
      trivial
    have hsteps : ∀ c ∈ List.replicate up Component.parent ++ ns.map .name, IsStep c :=
      List.forall_mem_append.2 ⟨hparents, hnames _ hns⟩
    have hof : ofComponents (List.replicate up Component.parent ++ ns.map Component.name) =
        ofPieces true ((List.replicate up Component.parent ++
          ns.map Component.name).map componentOctets) := by
      cases up with
      | zero => cases ns <;> rfl
      | succ up => rfl
    rw [hof]
    exact components_ofSteps true hsteps

theorem normalizeStep_replicate (up : Nat) :
    normalizeStep (List.replicate up .parent) .parent = List.replicate (up + 1) .parent := by
  cases up <;> rfl

/-- One more component keeps the stack in normal form. -/
theorem IsNormal.normalizeStep {absolute : Bool} {done : List Component}
    (h : IsNormal absolute done.reverse)
    {c : Component} (hc : IsStep c) : IsNormal absolute (Path.normalizeStep done c).reverse := by
  obtain ⟨cs, rfl⟩ : ∃ cs : List Component, done = cs.reverse := ⟨done.reverse, by simp⟩
  rw [List.reverse_reverse] at h
  cases c with
  | root => cases hc
  | current => cases hc
  | name n =>
    have hpush : ∀ ns : List Name, (∀ m ∈ ns, IsName m) → ∀ m ∈ ns ++ [n], IsName m :=
      fun ns hns => List.forall_mem_append.2 ⟨hns, List.forall_mem_singleton.2 hc⟩
    cases h with
    | @absolute ns hns => simpa [Path.normalizeStep] using IsNormal.absolute (hpush ns hns)
    | @relative up ns hns => simpa [Path.normalizeStep] using IsNormal.relative up (hpush ns hns)
  | parent =>
    -- The parent directory cancels a name. Without one it stays at the root, or is one more to
    -- climb.
    have hpop : ∀ (ns : List Name) (n : Name), (∀ m ∈ ns ++ [n], IsName m) → ∀ m ∈ ns, IsName m :=
      fun ns n hns => (List.forall_mem_append.1 hns).1
    cases h with
    | @absolute ns hns =>
      rcases List.eq_nil_or_concat' ns with rfl | ⟨ms, n, rfl⟩
      · exact IsNormal.absolute hns
      · simpa [Path.normalizeStep] using IsNormal.absolute (hpop ms n hns)
    | @relative up ns hns =>
      rcases List.eq_nil_or_concat' ns with rfl | ⟨ms, n, rfl⟩
      · simpa [normalizeStep_replicate] using IsNormal.relative (up + 1) hns
      · simpa [Path.normalizeStep] using IsNormal.relative up (hpop ms n hns)

theorem IsNormal.foldl {absolute : Bool} {done cs : List Component}
    (h : IsNormal absolute done.reverse)
    (hcs : ∀ c ∈ cs, IsStep c) : IsNormal absolute (cs.foldl Path.normalizeStep done).reverse := by
  induction cs generalizing done with
  | nil => exact h
  | cons c cs ih =>
    obtain ⟨hc, hcs⟩ := List.forall_mem_cons.1 hcs
    exact ih (h.normalizeStep hc) hcs

/-- The stack before the first piece. -/
def bottom (p : Path) : List Component :=
  if p.isAbsolute then [.root] else []

/-- A current directory in front does not matter. -/
theorem foldl_steps (p : Path) (done : List Component) :
    p.steps.foldl normalizeStep done = (componentsOf p.pieces).foldl normalizeStep done := by
  unfold steps stepsOf
  split <;> rfl

theorem foldl_components (p : Path) :
    p.components.foldl normalizeStep [] = (componentsOf p.pieces).foldl normalizeStep p.bottom := by
  rw [components_eq, List.foldl_append, foldl_steps, bottom]
  split <;> rfl

theorem isNormal_normalizeComponents (p : Path) :
    IsNormal p.isAbsolute (normalizeComponents p.components) := by
  have hbottom : IsNormal p.isAbsolute p.bottom.reverse := by
    unfold bottom
    cases p.isAbsolute with
    | true => exact IsNormal.absolute (List.forall_mem_nil _)
    | false => exact IsNormal.relative 0 (List.forall_mem_nil _)
  rw [normalizeComponents, foldl_components]
  exact hbottom.foldl fun c hc => isStep_of_mem_componentsOf hc

theorem components_normalize (p : Path) :
    p.normalize.components = normalizeComponents p.components :=
  (isNormal_normalizeComponents p).components_ofComponents

theorem foldl_names (ns : List Name) (done : List Component) :
    (ns.map Component.name).foldl normalizeStep done = (ns.map Component.name).reverse ++ done := by
  induction ns generalizing done with
  | nil => rfl
  | cons n ns ih =>
    rw [List.map_cons, List.foldl_cons, ih, List.reverse_cons, List.append_assoc]
    rfl

theorem foldl_parents (up done : Nat) :
    (List.replicate up Component.parent).foldl normalizeStep (List.replicate done .parent) =
      List.replicate (up + done) .parent := by
  induction up generalizing done with
  | zero => rw [Nat.zero_add]; rfl
  | succ up ih =>
    rw [List.replicate_succ, List.foldl_cons, normalizeStep_replicate, ih, Nat.add_right_comm,
      Nat.add_assoc]

/-- The loop keeps what is in normal form. -/
theorem IsNormal.foldl_eq {absolute : Bool} {cs : List Component} (h : IsNormal absolute cs) :
    cs.foldl Path.normalizeStep [] = cs.reverse := by
  cases h with
  | @absolute ns hns => rw [List.foldl_cons, foldl_names, List.reverse_cons]; rfl
  | @relative up ns hns =>
    have hclimb : (List.replicate up Component.parent).foldl Path.normalizeStep [] =
        List.replicate up .parent := foldl_parents up 0
    rw [List.foldl_append, hclimb, foldl_names, List.reverse_append, List.reverse_replicate]

theorem normalizeComponents_normalize (p : Path) :
    p.normalize.components.foldl normalizeStep [] = p.components.foldl normalizeStep [] := by
  rw [components_normalize, (isNormal_normalizeComponents p).foldl_eq, normalizeComponents,
    List.reverse_reverse]

/-! ## Joining -/

/-- The components of a joined path are taken after those of the path that it is joined to. -/
theorem foldl_join (p : Path) {q : Path} (hq : q.isAbsolute = false) :
    (p.join q).components.foldl normalizeStep [] =
      q.components.foldl normalizeStep (p.components.foldl normalizeStep []) := by
  by_cases hp : p.octets = []
  · have hjoin : p.join q = q := by simp [join, hq, hp]
    rw [hjoin, components_of_empty hp]
    rfl
  · have hqfold : ∀ done, q.components.foldl normalizeStep done =
        (componentsOf q.pieces).foldl normalizeStep done := by
      intro done
      rw [components_eq, if_neg (by simp [hq]), List.nil_append, foldl_steps]
    obtain ⟨base, hbase, hpieces⟩ := FileTree.pieces_join hq hp
    have hpbase : componentsOf p.pieces = componentsOf base := by
      rcases hbase with hbase | hbase
      · rw [hbase]
      · rw [hbase, componentsOf_append, componentsOf_cons_idle rfl]
        exact List.append_nil _
    rw [foldl_components, bottom, FileTree.isAbsolute_join hq hp, ← bottom, hpieces,
      componentsOf_append, List.foldl_append, ← hpbase, ← foldl_components, hqfold]

theorem IsNormal.normalize_ofComponents {absolute : Bool} {cs : List Component}
    (h : IsNormal absolute cs) :
    (ofComponents cs).normalize = ofComponents cs := by
  rw [normalize, h.components_ofComponents, normalizeComponents, h.foldl_eq, List.reverse_reverse]

/-- The relative path with these names. -/
def ofNames (ns : List Name) : Path :=
  ofComponents (ns.map .name)

theorem ofNames_eq (ns : List Name) : ofNames ns = ofPieces true (ns.map Name.octets) := by
  have hmap : (ns.map Component.name).map componentOctets = ns.map Name.octets := by
    rw [List.map_map]
    rfl
  rw [ofNames, ofPieces, if_pos rfl, ← hmap]
  cases ns <;> rfl

theorem components_ofNames {ns : List Name} (hns : ∀ n ∈ ns, IsName n) :
    (ofNames ns).components = ns.map .name ∧ (ofNames ns).isAbsolute = false := by
  have hslash : ∀ l ∈ ns.map Name.octets, slash ∉ l := by
    intro l hl
    obtain ⟨n, hn, rfl⟩ := List.mem_map.1 hl
    exact (hns n hn).2.2.2
  have hhead : (ns.map Name.octets).head? ≠ some [] := by
    intro hhead
    obtain ⟨n, hn, hnil⟩ := List.mem_map.1 (List.mem_of_head? hhead)
    exact (hns n hn).octets_ne_nil hnil
  have hnormal : IsNormal false (ns.map Component.name) := IsNormal.relative 0 hns
  refine ⟨hnormal.components_ofComponents, ?_⟩
  rw [ofNames_eq]
  exact (pieces_ofPieces hslash fun _ => hhead).1

theorem isAbsolute_rooted (cs : List Component) :
    (ofComponents (.root :: cs)).isAbsolute = true := by
  simp [ofComponents, isAbsolute]

theorem octets_rooted (ns : List Name) :
    (ofComponents (.root :: ns.map .name)).octets =
      slash :: Text.joinWith slash (ns.map Name.octets) := by
  rw [ofComponents, List.map_map]
  rfl

/-- Of the absolute paths in normal form, only the root ends with a slash. -/
theorem getLast?_rooted {ns : List Name} (hns : ∀ n ∈ ns, IsName n) :
    (ofComponents (.root :: ns.map .name)).octets.getLast? = some slash ↔ ns = [] := by
  constructor
  · intro hlast
    rcases List.eq_nil_or_concat' ns with hnil | ⟨ks, n, rfl⟩
    · exact hnil
    · have hn := hns n (by simp)
      have hname := hn.octets_ne_nil
      have hend := Text.getLast?_joinWith slash hname (ks.map Name.octets)
      rw [octets_rooted, List.map_append, List.map_singleton, List.getLast?_cons, hend,
        List.getLast?_eq_some_getLast hname] at hlast
      have hslash : n.octets.getLast hname = slash := Option.some.inj hlast
      exact absurd (List.getLast_mem hname) (hslash ▸ hn.2.2.2)
  · rintro rfl
    rfl

/-- Names below a path in normal form make a path in normal form. -/
theorem join_ofNames {ns ms : List Name} (hns : ∀ n ∈ ns, IsName n) (hms : ∀ m ∈ ms, IsName m)
    (hne : ms ≠ []) :
    (ofComponents (.root :: ns.map .name)).join (ofNames ms) =
      ofComponents (.root :: (ns ++ ms).map .name) := by
  have hrelative : (ofNames ms).octets = Text.joinWith slash (ms.map Name.octets) := by
    rw [ofNames_eq, ofPieces, if_pos rfl]
  have hnonempty : (ofComponents (.root :: ns.map .name)).octets ≠ [] := by
    rw [octets_rooted]
    simp
  have htext : ((ofComponents (.root :: ns.map .name)).join (ofNames ms)).octets =
      (ofComponents (.root :: (ns ++ ms).map .name)).octets := by
    rw [FileTree.octets_join (components_ofNames hms).2 hnonempty, octets_rooted (ns ++ ms),
      hrelative]
    by_cases hnil : ns = []
    · rw [if_pos ((getLast?_rooted hns).2 hnil), hnil]
      rfl
    · rw [if_neg fun h => hnil ((getLast?_rooted hns).1 h), octets_rooted, List.map_append,
        Text.joinWith_append_pieces slash (by simpa using hnil) (by simpa using hne),
          List.cons_append]
  exact congrArg Path.mk htext

theorem below_ofComponents {ns ms : List Name} (hns : ∀ n ∈ ns, IsName n)
    (hms : ∀ m ∈ ms, IsName m) :
    FileTree.below (ofComponents (.root :: ns.map .name)) ms =
      ofComponents (.root :: (ns ++ ms).map .name) := by
  unfold FileTree.below
  induction ms generalizing ns with
  | nil => rw [List.append_nil]; rfl
  | cons m ms ih =>
    obtain ⟨hm, hms⟩ := List.forall_mem_cons.1 hms
    have hone : ofNames [m] = ⟨m.octets⟩ := by simp [ofNames_eq, ofPieces, Text.joinWith]
    have hsnoc : ∀ n ∈ ns ++ [m], IsName n :=
      List.forall_mem_append.2 ⟨hns, List.forall_mem_singleton.2 hm⟩
    rw [List.foldl_cons, child, ← hone, join_ofNames hns (by simpa using hm) (by simp),
      ih hsnoc hms, List.append_assoc]
    rfl

/-! ## Simplification -/

/-- What the text alone allows to leave out. -/
inductive Simplifies : List Component → List Component → Prop where
  | current (front rest : List Component) : Simplifies (front ++ .current :: rest) (front ++ rest)
  | cancel (front : List Component) (n : Name) (rest : List Component) :
    Simplifies (front ++ .name n :: .parent :: rest) (front ++ rest)
  | root (front rest : List Component) :
    Simplifies (front ++ .root :: .parent :: rest) (front ++ .root :: rest)

/-- What can be left out does not matter to the loop. -/
theorem foldl_simplifies {cs ds : List Component} (h : Simplifies cs ds) :
    cs.foldl normalizeStep [] = ds.foldl normalizeStep [] := by
  cases h <;> simp only [List.foldl_append, List.foldl_cons, normalizeStep]

/-- The loop leaves out what it does not keep. -/
theorem simplified_foldl (done cs : List Component) :
    Relation.ReflTransGen Simplifies (done.reverse ++ cs)
    (cs.foldl normalizeStep done).reverse := by
  induction cs generalizing done with
  | nil =>
    rw [List.append_nil]
    exact .refl
  | cons c cs ih =>
    -- A step keeps the component, or it is one of the simplifications at the top of the stack.
    have hkeep : done.reverse ++ c :: cs = (c :: done).reverse ++ cs := by simp
    have hstep : Relation.ReflTransGen Simplifies (done.reverse ++ c :: cs)
        ((normalizeStep done c).reverse ++ cs) := by
      cases c with
      | root => exact hkeep ▸ .refl
      | name n => exact hkeep ▸ .refl
      | current => exact .single (.current done.reverse cs)
      | parent =>
        cases done with
        | nil => exact .refl
        | cons d done =>
          cases d with
          | name n =>
            simpa [normalizeStep] using Relation.ReflTransGen.single
              (Simplifies.cancel done.reverse n cs)
          | root =>
            simpa [normalizeStep] using Relation.ReflTransGen.single
              (Simplifies.root done.reverse cs)
          | current => exact hkeep ▸ .refl
          | parent => exact hkeep ▸ .refl
    exact hstep.trans (ih _)

theorem foldl_eq_of_eqvGen {cs ds : List Component} (h : Relation.EqvGen Simplifies cs ds) :
    cs.foldl normalizeStep [] = ds.foldl normalizeStep [] := by
  induction h with
  | rel _ _ h => exact foldl_simplifies h
  | refl _ => rfl
  | symm _ _ _ ih => exact ih.symm
  | trans _ _ _ _ _ ih ih' => exact ih.trans ih'

theorem eqvGen_normalize (p : Path) :
    Relation.EqvGen Simplifies p.components p.normalize.components := by
  rw [components_normalize]
  exact Relation.EqvGen.reflTransGen_le_eqvGen _ _ _ (simplified_foldl [] p.components)

theorem normalize_eq_of_foldl {p q : Path}
    (h : p.components.foldl normalizeStep [] = q.components.foldl normalizeStep []) :
    p.normalize = q.normalize := by
  rw [normalize, normalize, normalizeComponents, normalizeComponents, h]

/-- The normal form of a path has no current directory. It starts at the root if the path does and
else with parent directories, and goes on by names only. It is its own normal form, and a path may
be put into normal form before a relative path is joined to it. Two paths have one normal form if
and only if they can be simplified to each other. -/
theorem normalize_canonical (p : Path) :
    Component.current ∉ p.normalize.components ∧
    (p.isAbsolute = true → ∃ ns : List Name, p.normalize.components = .root :: ns.map .name) ∧
    (p.isAbsolute = false → ∃ (up : Nat) (ns : List Name),
      p.normalize.components = List.replicate up .parent ++ ns.map .name) ∧
    p.normalize.normalize = p.normalize ∧
    (∀ q : Path, q.isAbsolute = false → (p.join q).normalize = (p.normalize.join q).normalize) ∧
    ∀ q : Path, p.normalize = q.normalize ↔
      Relation.EqvGen Simplifies p.components q.components := by
  have hnormal := isNormal_normalizeComponents p
  rw [← components_normalize] at hnormal
  refine ⟨hnormal.current_notMem, fun habsolute => ?_, fun hrelative => ?_, ?_, fun q hq => ?_,
    fun q => ?_⟩
  · rw [habsolute] at hnormal
    generalize p.normalize.components = cs at hnormal
    cases hnormal with
    | @absolute ns _ => exact ⟨ns, rfl⟩
  · rw [hrelative] at hnormal
    generalize p.normalize.components = cs at hnormal
    cases hnormal with
    | @relative up ns _ => exact ⟨up, ns, rfl⟩
  · exact normalize_eq_of_foldl (normalizeComponents_normalize p)
  · apply normalize_eq_of_foldl
    rw [foldl_join p hq, foldl_join p.normalize hq, normalizeComponents_normalize]
  · constructor
    · intro h
      exact (eqvGen_normalize p).trans _ _ _ (h ▸ (eqvGen_normalize q).symm _ _)
    · intro h
      exact normalize_eq_of_foldl (foldl_eq_of_eqvGen h)

/-- A path that climbs above its start, and one that climbs above it again. -/
theorem normalize_canonical_climbing :
    (Path.ofText "../a/.//../../b/").isAbsolute = false ∧
      (Path.ofText "./../../c").isAbsolute = false ∧
      (Path.ofText "../a/.//../../b/").normalize = "../../b" ∧
      (Path.ofText "../../b").normalize = "../../b" ∧
      ((Path.ofText "../a/.//../../b/").join "./../../c").normalize = "../../../c" ∧
      ((Path.ofText "../../b").join "./../../c").normalize = "../../../c" := by
  have hnormal : (Path.ofText "../a/.//../../b/").normalize = "../../b" := by decide +kernel
  have hjoined : ((Path.ofText "../a/.//../../b/").join "./../../c").normalize = "../../../c" := by
    decide +kernel
  obtain ⟨_, _, _, hidempotent, hjoin, _⟩ := normalize_canonical "../a/.//../../b/"
  have hrelative : (Path.ofText "./../../c").isAbsolute = false := by decide
  rw [hnormal] at hidempotent hjoin
  exact ⟨by decide, hrelative, hnormal, hidempotent, hjoined,
    (hjoin _ hrelative).symm.trans hjoined⟩

end ExplicitSelf.Path
