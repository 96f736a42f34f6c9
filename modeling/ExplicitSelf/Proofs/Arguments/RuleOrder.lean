import ExplicitSelf.Proofs.Arguments.NormalForm
import Mathlib.Algebra.Ring.Parity
import Mathlib.Data.List.DropRight

/-!
# The order of the rules

`normalize` adds the define `-D DEBUG` after the other rules. Told as a list of rules it comes
first, and the others follow (`normalizeInOrder`). The two orders give the same arguments only if
the rules that remove arguments leave the define alone. They can make one, where only removed
arguments stand between `-D` and `DEBUG`; they can take one away, where `-D` is the value of a file
map; and a file map flag without a value takes the `-D` of a define that comes after it.

Results:
* `dropOutputMaps_eq`: file maps can be removed in one pass.
* `withoutMaps_append`: what the file maps of a list take from a list after it.
* `normalize_eq_inOrder_iff`: when the order makes no difference.
-/
namespace ExplicitSelf.Arguments

/-! ## File maps in one pass -/

/-- Removes each file map flag and the argument after it, in one pass. -/
def withoutMaps : List String → List String
  | [] => []
  | [a] => if a = outputMapFlag then [] else [a]
  | a :: b :: as => if a = outputMapFlag then withoutMaps as else a :: withoutMaps (b :: as)

theorem withoutMaps_flag (as : List String) :
    withoutMaps (outputMapFlag :: as) = withoutMaps (as.drop 1) := by
  cases as with
  | nil => rfl
  | cons b as => rw [withoutMaps, if_pos rfl]; rfl

theorem withoutMaps_cons {a : String} (h : a ≠ outputMapFlag) (as : List String) :
    withoutMaps (a :: as) = a :: withoutMaps as := by
  cases as with
  | nil => simp [withoutMaps, h]
  | cons b as => rw [withoutMaps, if_neg h]

theorem dropOutputMaps_of_some {as bs : List String} (h : dropOutputMap? as = some bs) :
    dropOutputMaps as = dropOutputMaps bs := by
  rw [dropOutputMaps]
  split
  · rename_i hnone
    rw [h] at hnone
    cases hnone
  · rename_i cs hcs
    rw [h] at hcs
    cases hcs
    rfl

theorem dropOutputMaps_flag (as : List String) :
    dropOutputMaps (outputMapFlag :: as) = dropOutputMaps (as.drop 1) :=
  dropOutputMaps_of_some (by rw [dropOutputMap?, if_pos rfl])

/-- An argument in front of the first flag is not touched by any pass. -/
theorem dropOutputMaps_cons {a : String} (h : a ≠ outputMapFlag) (as : List String) :
    dropOutputMaps (a :: as) = a :: dropOutputMaps as := by
  fun_induction dropOutputMaps as with
  | case1 as hnone =>
    have hmap := dropOutputMap?_eq_none_iff.1 hnone
    exact dropOutputMaps_eq_self (by simp [Ne.symm h, hmap])
  | case2 as bs hsome ih =>
    have hnext : dropOutputMap? (a :: as) = some (a :: bs) := by
      rw [dropOutputMap?, if_neg h, hsome]
      rfl
    rw [dropOutputMaps_of_some hnext, ih]

/-- Passes that remove one file map each give the same list as a single pass. -/
theorem dropOutputMaps_eq (as : List String) : dropOutputMaps as = withoutMaps as := by
  have hnil : dropOutputMaps [] = [] := dropOutputMaps_eq_self List.not_mem_nil
  fun_induction withoutMaps as with
  | case1 => exact hnil
  | case2 => rw [dropOutputMaps_flag, List.drop_nil, hnil]
  | case3 a ha => rw [dropOutputMaps_cons ha, hnil]
  | case4 b as ih => rw [dropOutputMaps_flag, ← ih]; rfl
  | case5 a b as ha ih => rw [dropOutputMaps_cons ha, ih]

/-! ## Flags at the end -/

/-- The number of file map flags that stand together at the end. Each takes the next one as its
value, so the last has no value if the number is odd. -/
def endFlags (as : List String) : Nat :=
  (as.rtakeWhile (· = outputMapFlag)).length

@[simp] theorem endFlags_nil : endFlags [] = 0 := rfl

theorem endFlags_le (as : List String) : endFlags as ≤ as.length :=
  (List.rtakeWhile_suffix _ as).length_le

/-- A flag in front counts if all arguments after it do. -/
theorem endFlags_cons (a : String) (as : List String) :
    endFlags (a :: as) =
      if a = outputMapFlag ∧ endFlags as = as.length then endFlags as + 1 else endFlags as := by
  simp only [endFlags, List.rtakeWhile, List.length_reverse, List.reverse_cons,
    List.takeWhile_append]
  by_cases hall : (as.reverse.takeWhile (· = outputMapFlag)).length = as.length
  · by_cases ha : a = outputMapFlag
    · simp [hall, ha]
    · simp [hall, ha]
  · simp [hall]

theorem odd_endFlags_pair (b : String) (as : List String) :
    Odd (endFlags (outputMapFlag :: b :: as)) ↔ Odd (endFlags as) := by
  have hle := endFlags_le as
  rw [endFlags_cons, endFlags_cons b, List.length_cons, Nat.odd_iff, Nat.odd_iff]
  grind

/-- The file maps of a list take the first argument of what follows if a flag at the end has no
value, and nothing else. -/
theorem withoutMaps_append (as bs : List String) :
    withoutMaps (as ++ bs) =
      withoutMaps as ++ withoutMaps (if Odd (endFlags as) then bs.drop 1 else bs) := by
  fun_induction withoutMaps as with
  | case1 => simp
  | case2 =>
    have hodd : Odd (endFlags [outputMapFlag]) := by decide
    rw [if_pos hodd, List.singleton_append, withoutMaps_flag, List.nil_append]
  | case3 a ha =>
    have heven : ¬Odd (endFlags [a]) := by simp [endFlags_cons, ha]
    rw [if_neg heven, List.singleton_append, withoutMaps_cons ha]
    rfl
  | case4 b as ih =>
    simp only [odd_endFlags_pair, ← ih]
    rw [List.cons_append, withoutMaps_flag]
    rfl
  | case5 a b as ha ih =>
    have hend : endFlags (a :: b :: as) = endFlags (b :: as) := by simp [endFlags_cons a, ha]
    rw [hend, List.cons_append, withoutMaps_cons ha, ih, List.cons_append]

/-! ## The define -/

theorem unoptimised_eq_iff {a b : String} (h : b ∈ ["-D", "DEBUG"]) :
    unoptimised a = b ↔ a = b := by
  unfold unoptimised
  rcases List.mem_pair.1 h with rfl | rfl
  · grind
  · grind

/-- Turning optimisation off neither makes a define nor takes one away. -/
theorem definesDebug_map_unoptimised (as : List String) :
    definesDebug (as.map unoptimised) = definesDebug as := by
  fun_induction definesDebug as with
  | case1 a b as ih =>
    rw [List.map_cons] at ih ⊢
    rw [List.map_cons, definesDebug, ih]
    simp only [unoptimised_eq_iff (a := a) (b := "-D") (by simp),
      unoptimised_eq_iff (a := b) (b := "DEBUG") (by simp)]
  | case2 as h =>
    match as, h with
    | [], _ => rfl
    | [a], _ => rfl
    | a :: b :: as, h => exact absurd rfl (h a b as)

/-! ## Both orders -/

/-- What the rules that remove arguments leave. -/
def remainder (as : List String) : List String :=
  (withoutMaps as).filter fun a => !deniedFlags.contains a

/-- The rules with the define first: it is added unless it is there, then file maps and denied flags
go, then optimisation is turned off. -/
def normalizeInOrder (as : List String) : List String :=
  (remainder (withDebug as)).map unoptimised

theorem remainder_append_debug (as : List String) :
    remainder (as ++ ["-D", "DEBUG"]) =
      remainder as ++ if Odd (endFlags as) then ["DEBUG"] else ["-D", "DEBUG"] := by
  rw [remainder, withoutMaps_append, List.filter_append, remainder]
  split
  · rfl
  · rfl

/-- What is added if the define is looked for in the remainder. -/
theorem normalize_eq (as : List String) :
    normalize as =
      (remainder as).map unoptimised ++
        if definesDebug (remainder as) then [] else ["-D", "DEBUG"] := by
  rw [normalize, dropOutputMaps_eq, ← remainder, withDebug, definesDebug_map_unoptimised]
  split
  · rw [List.append_nil]
  · rfl

/-- What is left of the define if it is looked for first. -/
theorem normalizeInOrder_eq (as : List String) :
    normalizeInOrder as = (remainder as).map unoptimised ++
      if definesDebug as then [] else if Odd (endFlags as) then ["DEBUG"] else ["-D", "DEBUG"] := by
  rw [normalizeInOrder, withDebug]
  split
  · rw [List.append_nil]
  · rw [remainder_append_debug, List.map_append]
    split
    · rfl
    · rfl

/-- The order of the rules makes no difference exactly if the rules that remove arguments neither
make a define nor take one away, and no file map flag waits for a value where the define would
come. -/
theorem normalize_eq_inOrder_iff (as : List String) :
    normalize as = normalizeInOrder as ↔
      (["-D", "DEBUG"] <:+: as ↔ ["-D", "DEBUG"] <:+: remainder as) ∧
        (["-D", "DEBUG"] <:+: as ∨ Even (endFlags as)) := by
  rw [normalize_eq, normalizeInOrder_eq, List.append_cancel_left_eq, ← definesDebug_iff,
    ← definesDebug_iff, ← Nat.not_odd_iff_even]
  -- both orders leave the same list, so the cases only compare what each adds to it
  cases definesDebug as <;> cases definesDebug (remainder as) <;>
    by_cases hodd : Odd (endFlags as) <;>
    simp [hodd]

/-- A define comes about where a flag between its parts is dropped. With the define first, a second
one is there already. -/
theorem normalize_ne_inOrder :
    normalize ["-D", "-incremental", "DEBUG"] = ["-D", "DEBUG"] ∧
      normalizeInOrder ["-D", "-incremental", "DEBUG"] = ["-D", "DEBUG", "-D", "DEBUG"] := by
  decide +kernel

end ExplicitSelf.Arguments
