/-!
# Normal form of compiler arguments

The arguments of a recorded build are brought into the form that a semantic query needs:

* every `-output-file-map` goes, together with the argument after it;
* flags that only make sense in a build go (`deniedFlags`);
* optimisation is turned off (`-O` becomes `-Onone`, `-DNDEBUG=1` becomes `-DDEBUG=1`);
* the define `-D DEBUG` is added at the end unless it is there.

`dropOutputMaps` removes the first map again and again until none is left, so an argument that
comes to stand after a flag by an earlier removal is judged by its new place.
-/
namespace ExplicitSelf.Arguments

/-- Names the file map of a build; the argument after it is its value. -/
def outputMapFlag : String := "-output-file-map"

/-- Flags of a build that a query must not repeat. -/
def deniedFlags : List String :=
  ["-parseable-output", "-incremental", "-serialize-diagnostics", "-emit-dependencies"]

/-- Removes the first file map flag and the argument after it, if there is a flag. -/
def dropOutputMap? : List String → Option (List String)
  | [] => none
  | a :: as =>
    if a = outputMapFlag then some (as.drop 1)
    else (dropOutputMap? as).map (a :: ·)

theorem dropOutputMap?_length {as bs : List String} (h : dropOutputMap? as = some bs) :
    bs.length < as.length := by
  induction as generalizing bs with
  | nil => simp [dropOutputMap?] at h
  | cons a as ih =>
    simp only [dropOutputMap?] at h
    split at h
    · cases h
      simp only [List.length_drop, List.length_cons]
      omega
    · obtain ⟨cs, hcs, rfl⟩ := Option.map_eq_some_iff.1 h
      have := ih hcs
      simp only [List.length_cons]
      omega

/-- Removes file map flags with their values, the first one each time, until none is left. -/
def dropOutputMaps (as : List String) : List String :=
  match _h : dropOutputMap? as with
  | none => as
  | some bs => dropOutputMaps bs
  termination_by as.length
  decreasing_by exact dropOutputMap?_length _h

/-- Turns optimisation off. -/
def unoptimised (a : String) : String :=
  if a = "-O" then "-Onone"
  else if a = "-DNDEBUG=1" then "-DDEBUG=1"
  else a

/-- Whether `-D` stands directly before `DEBUG`. mirrors `has_debug_define` -/
def definesDebug : List String → Bool
  | a :: b :: as => (a = "-D" ∧ b = "DEBUG") || definesDebug (b :: as)
  | _ => false

/-- Adds the define `-D DEBUG` unless it is there. -/
def withDebug (as : List String) : List String :=
  if definesDebug as then as else as ++ ["-D", "DEBUG"]

/-- The normal form of compiler arguments. mirrors `normalize_arguments` -/
def normalize (as : List String) : List String :=
  withDebug (((dropOutputMaps as).filter fun a => !deniedFlags.contains a).map unoptimised)

end ExplicitSelf.Arguments
