import ExplicitSelf.Arguments.Normalize
import Mathlib.Data.List.Infix

/-!
# The normal form of compiler arguments

Arguments are normal if they define `DEBUG` and have none of the flags that a query must not repeat.
These are the lists that `normalize` keeps as they are, and all that it returns.

Results:
* `outputMapFlag_notMem`: no file map is left, however often one came to stand where another was.
* `exists_clears`: how many passes that takes.
* `isNormal_normalize`, `normalize_eq_self_iff`: what `normalize` returns, and what it keeps.
* `normalize_idempotent`: so normalizing twice is normalizing once.
-/
namespace ExplicitSelf.Arguments

/-- The arguments that normal ones do not have. -/
def refused : List String :=
  outputMapFlag :: deniedFlags ++ ["-O", "-DNDEBUG=1"]

/-- Arguments as a query needs them. -/
structure IsNormal (as : List String) : Prop where
  debug : ["-D", "DEBUG"] <:+: as
  clean : ∀ a ∈ as, a ∉ refused

theorem definesDebug_iff {as : List String} : definesDebug as = true ↔ ["-D", "DEBUG"] <:+: as := by
  fun_induction definesDebug as with
  | case1 a b as ih =>
    have hfront : ["-D", "DEBUG"] <+: a :: b :: as ↔ a = "-D" ∧ b = "DEBUG" := by
      simp [List.cons_prefix_cons, eq_comm]
    have hcons : ["-D", "DEBUG"] <:+: a :: b :: as ↔
        ["-D", "DEBUG"] <+: a :: b :: as ∨ ["-D", "DEBUG"] <:+: b :: as := List.infix_cons_iff
    rw [hcons, hfront, ← ih, Bool.or_eq_true, decide_eq_true_eq]
  | case2 as h =>
    have hshort : as.length < 2 := by
      match as, h with
      | [], _ => simp
      | [a], _ => simp
      | a :: b :: as, h => exact absurd rfl (h a b as)
    constructor
    · intro hfalse; cases hfalse
    · intro hin
      have hlength := hin.length_le
      simp only [List.length_cons, List.length_nil] at hlength
      omega

theorem definesDebug_withDebug (as : List String) : ["-D", "DEBUG"] <:+: withDebug as := by
  unfold withDebug
  split
  · exact definesDebug_iff.1 ‹_›
  · exact (List.suffix_append as _).isInfix

/-! ## File maps -/

theorem dropOutputMap?_eq_none_iff {as : List String} :
    dropOutputMap? as = none ↔ outputMapFlag ∉ as := by
  induction as with
  | nil => simp [dropOutputMap?]
  | cons a as ih =>
    rw [dropOutputMap?, List.mem_cons, not_or]
    split
    · rename_i ha
      simp [ha]
    · rename_i ha
      rw [Option.map_eq_none_iff, ih]
      exact ⟨fun h => ⟨fun he => ha he.symm, h⟩, fun h => h.2⟩

theorem dropOutputMaps_eq_self {as : List String} (h : outputMapFlag ∉ as) :
    dropOutputMaps as = as := by
  rw [dropOutputMaps]
  split
  · rfl
  · rename_i bs hbs
    rw [dropOutputMap?_eq_none_iff.2 h] at hbs
    cases hbs

/-- No file map is left. -/
theorem outputMapFlag_notMem (as : List String) : outputMapFlag ∉ dropOutputMaps as := by
  fun_induction dropOutputMaps as with
  | case1 as h => exact dropOutputMap?_eq_none_iff.1 h
  | case2 as bs h ih => exact ih

/-- Passes over a list, each of which removes the first file map flag and the argument after it, if
there is one. They end when no flag is left. -/
inductive Clears : Nat → List String → List String → Prop
  | done {as : List String} (h : outputMapFlag ∉ as) : Clears 0 as as
  | pass {n : Nat} {l r bs : List String} (hl : outputMapFlag ∉ l)
      (h : Clears n (l ++ r.drop 1) bs) :
    Clears (n + 1) (l ++ outputMapFlag :: r) bs

/-- What one pass removes. -/
theorem exists_of_dropOutputMap? {as bs : List String} (h : dropOutputMap? as = some bs) :
    ∃ l r, as = l ++ outputMapFlag :: r ∧ outputMapFlag ∉ l ∧ bs = l ++ r.drop 1 := by
  induction as generalizing bs with
  | nil => cases h
  | cons a as ih =>
    rw [dropOutputMap?] at h
    split at h
    · rename_i ha
      cases h
      exact ⟨[], as, by rw [ha]; rfl, List.not_mem_nil, rfl⟩
    · rename_i ha
      obtain ⟨cs, hcs, rfl⟩ := Option.map_eq_some_iff.1 h
      obtain ⟨l, r, rfl, hl, rfl⟩ := ih hcs
      refine ⟨a :: l, r, rfl, ?_, rfl⟩
      rw [List.mem_cons, not_or]
      exact ⟨Ne.symm ha, hl⟩

/-- The removal comes to an end, after at most as many passes as there are flags: each takes one
away at least. -/
theorem exists_clears (as : List String) :
    ∃ n ≤ as.count outputMapFlag, Clears n as (dropOutputMaps as) := by
  fun_induction dropOutputMaps as with
  | case1 as h => exact ⟨0, Nat.zero_le _, .done (dropOutputMap?_eq_none_iff.1 h)⟩
  | case2 as bs h ih =>
    obtain ⟨n, hn, hclears⟩ := ih
    obtain ⟨l, r, rfl, hl, rfl⟩ := exists_of_dropOutputMap? h
    have hdrop := (List.drop_sublist 1 r).count_le outputMapFlag
    refine ⟨n + 1, ?_, .pass hl hclears⟩
    rw [List.count_append] at hn
    rw [List.count_append, List.count_cons_self]
    omega

/-! ## All rules -/

theorem unoptimised_eq_self {a : String} (h : a ∉ refused) : unoptimised a = a := by
  have hO : a ≠ "-O" := by
    rintro rfl
    exact h (by decide)
  have hN : a ≠ "-DNDEBUG=1" := by
    rintro rfl
    exact h (by decide)
  simp [unoptimised, hO, hN]

theorem unoptimised_notMem_refused {a : String} (hmap : a ≠ outputMapFlag)
    (hdenied : a ∉ deniedFlags) :
    unoptimised a ∉ refused := by
  unfold unoptimised
  split
  · decide
  · rename_i hO
    split
    · decide
    · rename_i hN
      simp [refused, hmap, hdenied, hO, hN]

theorem withDebug_notMem_refused {as : List String} (h : ∀ a ∈ as, a ∉ refused) :
    ∀ a ∈ withDebug as, a ∉ refused := by
  unfold withDebug
  split
  · exact h
  · intro a ha
    rcases List.mem_append.1 ha with ha | ha
    · exact h a ha
    · rcases List.mem_pair.1 ha with rfl | rfl
      · decide
      · decide

theorem isNormal_normalize (as : List String) : IsNormal (normalize as) := by
  refine ⟨definesDebug_withDebug _, withDebug_notMem_refused fun a ha => ?_⟩
  obtain ⟨b, hb, rfl⟩ := List.mem_map.1 ha
  obtain ⟨hb, hdenied⟩ := List.mem_filter.1 hb
  refine unoptimised_notMem_refused ?_ (by simpa using hdenied)
  rintro rfl
  exact outputMapFlag_notMem as hb

theorem IsNormal.normalize_eq {as : List String} (h : IsNormal as) : normalize as = as := by
  have hmap : outputMapFlag ∉ as := fun hin => h.clean _ hin (by decide)
  have hfilter : as.filter (fun a => !deniedFlags.contains a) = as := by
    refine List.filter_eq_self.2 fun a ha => ?_
    have hclean := h.clean a ha
    simp only [refused, List.mem_append, List.mem_cons, not_or] at hclean
    simpa using hclean.1.2
  have hkeep : as.map unoptimised = as :=
    (List.map_congr_left fun a ha => unoptimised_eq_self (h.clean a ha)).trans (List.map_id' as)
  rw [normalize, dropOutputMaps_eq_self hmap, hfilter, hkeep, withDebug,
    if_pos (definesDebug_iff.2 h.debug)]

/-- The fixed points of `normalize` are the normal lists. -/
theorem normalize_eq_self_iff {as : List String} : normalize as = as ↔ IsNormal as := by
  constructor
  · intro h
    rw [← h]
    exact isNormal_normalize as
  · exact IsNormal.normalize_eq

/-- Normalizing again changes nothing. The removal of file maps ends, its result is normal, and the
normal lists are those that are kept as they are. -/
theorem normalize_idempotent (as : List String) :
    normalize (normalize as) = normalize as ∧
      (∃ n ≤ as.count outputMapFlag, Clears n as (dropOutputMaps as)) ∧
      IsNormal (normalize as) ∧ (normalize as = as ↔ IsNormal as) :=
  ⟨(isNormal_normalize as).normalize_eq, exists_clears as, isNormal_normalize as,
    normalize_eq_self_iff⟩

theorem IsNormal.ne_nil {as : List String} (h : IsNormal as) : as ≠ [] := by
  rintro rfl
  have hlength := h.debug.length_le
  simp at hlength

end ExplicitSelf.Arguments
