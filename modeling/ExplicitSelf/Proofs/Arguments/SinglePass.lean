import ExplicitSelf.Proofs.Arguments.RuleOrder
import Mathlib.Data.List.Forall2

/-!
# Normalizing in a single pass

`normalize` searches the arguments for a file map from the front again after each removal, and goes
over what is left once for each other rule. One pass from left to right does the same
(`singlePass`). It only has to know whether the argument in front was a file map flag that takes the
next one as its value.

Results:
* `singlePass_eq`: the pass gives what the rules give one after the other.
* `exists_survivors`: which positions the pass keeps, in their order.
* `normalize_eq_singlePass`: the normal form is what the pass gives, and the define if that is
  missing.
-/
namespace ExplicitSelf.Arguments

/-- The arguments in one pass, without the first if `skip`. A file map flag takes the argument after
it with it, whatever that is. -/
def singlePass : (skip : Bool) → List String → List String
  | _, [] => []
  | true, _ :: as => singlePass false as
  | false, a :: as =>
    if a = outputMapFlag then singlePass true as
    else if a ∈ deniedFlags then singlePass false as
    else if a = "-O" then "-Onone" :: singlePass false as
    else if a = "-DNDEBUG=1" then "-DDEBUG=1" :: singlePass false as
    else a :: singlePass false as

theorem singlePass_flag (as : List String) :
    singlePass false (outputMapFlag :: as) = singlePass true as := by
  rw [singlePass, if_pos rfl]

theorem singlePass_denied {a : String} (hdenied : a ∈ deniedFlags) (as : List String) :
    singlePass false (a :: as) = singlePass false as := by
  have hmap : a ≠ outputMapFlag := by
    rintro rfl
    exact absurd hdenied (by decide)
  rw [singlePass, if_neg hmap, if_pos hdenied]

theorem singlePass_cons {a : String} (hmap : a ≠ outputMapFlag) (hdenied : a ∉ deniedFlags)
    (as : List String) : singlePass false (a :: as) = unoptimised a :: singlePass false as := by
  rw [singlePass, if_neg hmap, if_neg hdenied, unoptimised]
  split
  · rfl
  · split
    · rfl
    · rfl

/-! ## The pass and the rules -/

theorem remainder_flag (as : List String) :
    remainder (outputMapFlag :: as) = remainder (as.drop 1) := by
  rw [remainder, withoutMaps_flag, remainder]

theorem remainder_cons {a : String} (hmap : a ≠ outputMapFlag) (as : List String) :
    remainder (a :: as) = if a ∈ deniedFlags then remainder as else a :: remainder as := by
  rw [remainder, withoutMaps_cons hmap, List.filter_cons, remainder]
  by_cases hdenied : a ∈ deniedFlags
  · simp [hdenied]
  · simp [hdenied]

/-- The pass removes what the rules remove one after the other. -/
theorem singlePass_eq (skip : Bool) (as : List String) :
    singlePass skip as = (remainder (as.drop skip.toNat)).map unoptimised := by
  induction as generalizing skip with
  | nil => cases skip <;> rfl
  | cons a as ih =>
    cases skip with
    | true => exact ih false
    | false =>
      by_cases hmap : a = outputMapFlag
      · subst hmap
        rw [singlePass_flag, ih true, Bool.toNat_false, List.drop_zero, remainder_flag,
          Bool.toNat_true]
      · have ih : singlePass false as = (remainder as).map unoptimised := ih false
        rw [Bool.toNat_false, List.drop_zero, remainder_cons hmap]
        split
        · rename_i hdenied
          rw [singlePass_denied hdenied, ih]
        · rename_i hdenied
          rw [singlePass_cons hmap hdenied, ih, List.map_cons]

theorem normalize_eq_withDebug (as : List String) :
    normalize as = withDebug (singlePass false as) := by
  rw [normalize, dropOutputMaps_eq, ← remainder, singlePass_eq]
  rfl

/-! ## Positions -/

/-- Whether the argument at a position is the value of a file map: the one in front of it is a file
map flag and no value itself. The first argument is a value if `first`. -/
def isValue (first : Bool) (as : List String) : Nat → Bool
  | 0 => first
  | i + 1 => as[i]? = some outputMapFlag && !isValue first as i

/-- An argument is kept at a position. -/
structure Survives (first : Bool) (as : List String) (i : Nat) (a : String) : Prop where
  here : as[i]? = some a
  noValue : isValue first as i = false
  noMap : a ≠ outputMapFlag
  notDenied : a ∉ deniedFlags

/-- What becomes of an argument that is kept. -/
inductive Becomes : String → String → Prop
  | noOptimisation : Becomes "-O" "-Onone"
  | debugValue : Becomes "-DNDEBUG=1" "-DDEBUG=1"
  | untouched {a : String} (hO : a ≠ "-O") (hN : a ≠ "-DNDEBUG=1") : Becomes a a

theorem becomes_unoptimised (a : String) : Becomes a (unoptimised a) := by
  unfold unoptimised
  split
  · rename_i hO
    rw [hO]
    exact .noOptimisation
  · rename_i hO
    split
    · rename_i hN
      rw [hN]
      exact .debugValue
    · rename_i hN
      exact .untouched hO hN

/-- Behind the first argument, values are those of the arguments behind it. -/
theorem isValue_succ (first : Bool) (a : String) (as : List String) (i : Nat) :
    isValue first (a :: as) (i + 1) = isValue (a = outputMapFlag && !first) as i := by
  induction i with
  | zero => simp [isValue]
  | succ i ih => rw [isValue, ih, isValue, List.getElem?_cons_succ]

theorem survives_succ {first : Bool} {a b : String} {as : List String} {i : Nat} :
    Survives first (a :: as) (i + 1) b ↔ Survives (a = outputMapFlag && !first) as i b := by
  constructor
  · rintro ⟨here, noValue, noMap, notDenied⟩
    rw [List.getElem?_cons_succ] at here
    rw [isValue_succ] at noValue
    exact ⟨here, noValue, noMap, notDenied⟩
  · rintro ⟨here, noValue, noMap, notDenied⟩
    refine ⟨?_, ?_, noMap, notDenied⟩
    · rw [List.getElem?_cons_succ]
      exact here
    · rw [isValue_succ]
      exact noValue

theorem survives_zero {first : Bool} {a b : String} {as : List String} :
    Survives first (a :: as) 0 b ↔
      a = b ∧ first = false ∧ a ≠ outputMapFlag ∧ a ∉ deniedFlags := by
  constructor
  · rintro ⟨here, noValue, noMap, notDenied⟩
    rw [List.getElem?_cons_zero, Option.some.injEq] at here
    subst here
    exact ⟨rfl, noValue, noMap, notDenied⟩
  · rintro ⟨rfl, noValue, noMap, notDenied⟩
    exact ⟨rfl, noValue, noMap, notDenied⟩

/-- The positions of the arguments that are kept, in ascending order. -/
structure Survivors (first : Bool) (as : List String) (is : List Nat) : Prop where
  ascending : is.Pairwise (· < ·)
  mem_iff : ∀ i, i ∈ is ↔ ∃ a, Survives first as i a

/-- The survivors of all arguments are those behind the first, and the first if it survives. -/
theorem Survivors.cons {first : Bool} {a : String} {as : List String} {is : List Nat}
    (h : Survivors (a = outputMapFlag && !first) as is)
    (hfirst : ∀ b, ¬Survives first (a :: as) 0 b) :
    Survivors first (a :: as) (is.map (· + 1)) := by
  constructor
  · exact List.pairwise_map.2 (h.ascending.imp fun hij => by omega)
  · rintro (_ | i)
    · simp [hfirst]
    · simp [h.mem_iff, survives_succ]

theorem Survivors.cons_zero {first : Bool} {a : String} {as : List String} {is : List Nat}
    (h : Survivors (a = outputMapFlag && !first) as is) (hfirst : Survives first (a :: as) 0 a) :
    Survivors first (a :: as) (0 :: is.map (· + 1)) := by
  constructor
  · refine List.pairwise_cons.2 ⟨?_, List.pairwise_map.2 (h.ascending.imp fun hij => by omega)⟩
    intro j hj
    obtain ⟨i, -, rfl⟩ := List.mem_map.1 hj
    omega
  · rintro (_ | i)
    · simpa using ⟨a, hfirst⟩
    · simp [h.mem_iff, survives_succ]

/-- The arguments `bs` are what the arguments at the positions `is` become. -/
def TakenFrom (as : List String) (is : List Nat) (bs : List String) : Prop :=
  List.Forall₂ (fun i b => ∃ a, as[i]? = some a ∧ Becomes a b) is bs

theorem TakenFrom.shift {as : List String} {is : List Nat} {bs : List String}
    (h : TakenFrom as is bs) (a : String) : TakenFrom (a :: as) (is.map (· + 1)) bs := by
  refine List.forall₂_map_left_iff.2 (h.imp fun i b hi => ?_)
  rwa [List.getElem?_cons_succ]

/-- The pass keeps the survivors, in their order. -/
theorem exists_survivors (skip : Bool) (as : List String) :
    ∃ is, Survivors skip as is ∧ TakenFrom as is (singlePass skip as) := by
  induction as generalizing skip with
  | nil =>
    refine ⟨[], ⟨List.Pairwise.nil, fun i => ?_⟩, ?_⟩
    · refine ⟨fun hi => absurd hi List.not_mem_nil, ?_⟩
      rintro ⟨a, ha⟩
      exact absurd ha.here (by simp)
    · cases skip
      · exact .nil
      · exact .nil
  | cons a as ih =>
    obtain ⟨is, hsurvivors, htaken⟩ := ih (a = outputMapFlag && !skip)
    -- only an argument that is no value is looked at
    cases skip with
    | true =>
      rw [Bool.not_true, Bool.and_false] at htaken
      refine ⟨is.map (· + 1), hsurvivors.cons fun b hb => ?_, htaken.shift a⟩
      cases (survives_zero.1 hb).2.1
    | false =>
      by_cases hmap : a = outputMapFlag
      · subst hmap
        refine ⟨is.map (· + 1), hsurvivors.cons fun b hb => (survives_zero.1 hb).2.2.1 rfl, ?_⟩
        rw [singlePass_flag]
        simpa using htaken.shift outputMapFlag
      · have htaken : TakenFrom as is (singlePass false as) := by simpa [hmap] using htaken
        by_cases hdenied : a ∈ deniedFlags
        · refine ⟨is.map (· + 1), hsurvivors.cons fun b hb => (survives_zero.1 hb).2.2.2 hdenied,
            ?_⟩
          rw [singlePass_denied hdenied]
          exact htaken.shift a
        · refine ⟨0 :: is.map (· + 1),
            hsurvivors.cons_zero (survives_zero.2 ⟨rfl, rfl, hmap, hdenied⟩), ?_⟩
          rw [singlePass_cons hmap hdenied]
          exact .cons ⟨a, rfl, becomes_unoptimised a⟩ (htaken.shift a)

/-- The normal form is what a single pass keeps, and the define behind it exactly if the pass keeps
none. The pass keeps each argument that is no file map, no value of one and no denied flag, once and
in the old order, and touches none of them but the two that turn optimisation on. -/
theorem normalize_eq_singlePass (as : List String) :
    normalize as = singlePass false as ++
        (if ["-D", "DEBUG"] <:+: singlePass false as then [] else ["-D", "DEBUG"]) ∧
      ∃ is, Survivors false as is ∧ TakenFrom as is (singlePass false as) := by
  refine ⟨?_, exists_survivors false as⟩
  rw [normalize_eq_withDebug, withDebug]
  simp only [definesDebug_iff]
  split
  · rw [List.append_nil]
  · rfl

/-- A flag that is the value of another takes nothing with it, and one at the end has no value. -/
example : normalize ["-output-file-map", "-output-file-map", "-O", "-D", "-incremental", "DEBUG",
    "-output-file-map"] = ["-Onone", "-D", "DEBUG"] := by
  rw [normalize_eq_withDebug]
  decide

end ExplicitSelf.Arguments
