import ExplicitSelf.Project.LogDirectory
import ExplicitSelf.Proofs.Path.Lexical
import ExplicitSelf.Proofs.Path.Texts
import Mathlib.Data.Nat.Digits.Lemmas

/-!
# The hash of a project's path keeps the whole digest

Half a digest is a number below 2⁶⁴, and fourteen digits in base 26 are enough for such a number. So
the letters can be read back, and two paths have one hash only if their digests agree. The name of a
log directory ends with the hash, which always has the same length. So the directory gives the hash
away, whatever the project is called.

Results:
* `value_base26`, `base26_lt_iff`: reading the digits back, and their order.
* `ofBigEndian_injective`, `ofBigEndian_lt`: octets and the number that they make.
* `pathHash_eq_iff`: hashes and digests.
* `components_logDirectory`: the names of a log directory.
* `pathHash_faithful`: all of this for the hash of a path.
-/
namespace ExplicitSelf

/-! ## Digits -/

namespace Project

/-- A lower case letter. -/
def IsLetter (c : Char) : Prop := 'a' ≤ c ∧ c ≤ 'z'

/-- The number that letters stand for as digits in base 26, the most significant first. -/
def value (letters : List Char) : Nat :=
  Nat.ofDigits 26 (letters.reverse.map fun c => c.toNat - 'a'.toNat)

theorem toNat_letter (d : Nat) : (letter d).toNat = 97 + d % 26 := by
  have hvalid : (97 + d % 26).isValidChar := by
    left
    omega
  exact Text.toNat_ofNat hvalid

theorem isLetter_letter (d : Nat) : IsLetter (letter d) := by
  have htoNat := toNat_letter d
  constructor
  · show 97 ≤ (letter d).toNat
    omega
  · show (letter d).toNat ≤ 122
    omega

theorem length_base26 (n v : Nat) : (base26 n v).length = n := by
  induction n generalizing v with
  | zero => rfl
  | succ n ih => simp [base26, ih]

theorem isLetter_of_mem_base26 {n v : Nat} {c : Char} (h : c ∈ base26 n v) : IsLetter c := by
  induction n generalizing v with
  | zero => cases h
  | succ n ih =>
    rcases List.mem_append.1 h with h | h
    · exact ih h
    · exact List.mem_singleton.1 h ▸ isLetter_letter _

/-- The digits are those of the number, as far as they go. -/
theorem value_base26 (n v : Nat) : value (base26 n v) = v % 26 ^ n := by
  induction n generalizing v with
  | zero => simp [base26, value, Nat.mod_one]
  | succ n ih =>
    have hrest : value (base26 n (v / 26)) = v / 26 % 26 ^ n := ih (v / 26)
    have hlast : (letter (v % 26)).toNat - 'a'.toNat = v % 26 := by
      rw [toNat_letter, Nat.mod_mod]
      exact Nat.add_sub_cancel_left ..
    unfold value at hrest ⊢
    rw [base26, List.reverse_append, List.reverse_singleton, List.singleton_append, List.map_cons,
      Nat.ofDigits_cons, hrest, hlast, Nat.pow_succ', Nat.mod_mul]

theorem base26_injective {n v w : Nat} (hv : v < 26 ^ n) (hw : w < 26 ^ n)
    (h : base26 n v = base26 n w) :
    v = w := by
  have hvalue := congrArg value h
  rwa [value_base26, value_base26, Nat.mod_eq_of_lt hv, Nat.mod_eq_of_lt hw] at hvalue

theorem letter_lt_iff {c d : Nat} (hc : c < 26) (hd : d < 26) : letter c < letter d ↔ c < d := by
  show (letter c).toNat < (letter d).toNat ↔ c < d
  rw [toNat_letter, toNat_letter, Nat.mod_eq_of_lt hc, Nat.mod_eq_of_lt hd]
  omega

theorem concat_lt_concat_iff {xs ys : List Char} (h : xs.length = ys.length) {a b : Char} :
    xs ++ [a] < ys ++ [b] ↔ xs < ys ∨ xs = ys ∧ a < b := by
  induction xs generalizing ys with
  | nil =>
    obtain rfl : ys = [] := List.length_eq_zero_iff.1 h.symm
    simp [List.cons_lt_cons_iff]
  | cons x xs ih =>
    cases ys with
    | nil => cases h
    | cons y ys =>
      rw [List.cons_append, List.cons_append, List.cons_lt_cons_iff, List.cons_lt_cons_iff,
        ih (by simpa using h), List.cons.injEq]
      tauto

/-- The digits are ordered as the numbers are. -/
theorem base26_lt_iff {n v w : Nat} (hv : v < 26 ^ n) (hw : w < 26 ^ n) :
    base26 n v < base26 n w ↔ v < w := by
  induction n generalizing v w with
  | zero =>
    rw [Nat.pow_zero] at hv hw
    simp [base26]
    omega
  | succ n ih =>
    rw [Nat.pow_succ'] at hv hw
    have hv' : v / 26 < 26 ^ n := Nat.div_lt_of_lt_mul hv
    have hw' : w / 26 < 26 ^ n := Nat.div_lt_of_lt_mul hw
    have hfront : base26 n (v / 26) = base26 n (w / 26) ↔ v / 26 = w / 26 :=
      ⟨base26_injective hv' hw', fun h => by rw [h]⟩
    rw [base26, base26, concat_lt_concat_iff (by rw [length_base26, length_base26]), ih hv' hw',
      hfront, letter_lt_iff (Nat.mod_lt _ (by decide)) (Nat.mod_lt _ (by decide))]
    omega

end Project

/-! ## Octets -/

namespace Digest

open Text (Octets)

theorem ofLittleEndian_eq (bs : Octets) :
    ofLittleEndian bs = Nat.ofDigits 256 (bs.map UInt8.toNat) := by
  induction bs with
  | nil => rfl
  | cons b bs ih => rw [ofLittleEndian, ih, List.map_cons, Nat.ofDigits_cons]

theorem toNat_lt_of_mem {bs : Octets} {d : Nat} (h : d ∈ bs.map UInt8.toNat) : d < 256 := by
  obtain ⟨b, _, rfl⟩ := List.mem_map.1 h
  exact b.toNat_lt

theorem ofBigEndian_lt (bs : Octets) : ofBigEndian bs < 256 ^ bs.length := by
  have hlt :=
    Nat.ofDigits_lt_base_pow_length (l := bs.reverse.map UInt8.toNat) (by decide : 1 < 256)
    fun d hd => toNat_lt_of_mem hd
  rwa [List.length_map, List.length_reverse, ← ofLittleEndian_eq] at hlt

theorem ofBigEndian_injective {as bs : Octets} (hlength : as.length = bs.length)
    (h : ofBigEndian as = ofBigEndian bs) : as = bs := by
  rw [ofBigEndian, ofBigEndian, ofLittleEndian_eq, ofLittleEndian_eq] at h
  have hdigits := Nat.ofDigits_inj_of_len_eq (by decide : 1 < 256) (by simpa using hlength)
    (fun d hd => toNat_lt_of_mem hd) (fun d hd => toNat_lt_of_mem hd) h
  have hreverse := List.map_injective_iff.2 (fun a b hab => UInt8.toNat_inj.1 hab) hdigits
  exact List.reverse_injective hreverse

theorem length_littleEndian (n v : Nat) : (littleEndian n v).length = n := by
  induction n generalizing v with
  | zero => rfl
  | succ n ih => rw [littleEndian, List.length_cons, ih]

theorem Md5.length_digest (message : Octets) : (Md5.digest message).length = 16 := by
  simp [Md5.digest, length_littleEndian]

end Digest

/-! ## The hash of a path -/

namespace Project

open FileTree (IsName)

/-- The digest of a path. -/
def pathDigest (path : String) : Text.Octets :=
  Digest.Md5.digest (Text.encode path.toList)

/-- Fourteen digits are enough. -/
theorem lt_of_lt_size {v : Nat} (h : v < UInt64.size) : v < 26 ^ halfLength := by
  have hsize : UInt64.size ≤ 26 ^ halfLength := by decide
  omega

theorem halfLetters_injective {as bs : Text.Octets} (has : as.length = 8) (hbs : bs.length = 8)
    (h : halfLetters as = halfLetters bs) : as = bs := by
  have hlt : ∀ cs : Text.Octets, cs.length = 8 → Digest.ofBigEndian cs < 26 ^ halfLength := by
    intro cs hcs
    have hbound := Digest.ofBigEndian_lt cs
    rw [hcs] at hbound
    exact lt_of_lt_size hbound
  exact Digest.ofBigEndian_injective (has.trans hbs.symm)
    (base26_injective (hlt as has) (hlt bs hbs) h)

theorem toList_pathHash (path : String) : (pathHash path).toList =
    halfLetters ((pathDigest path).take 8) ++ halfLetters ((pathDigest path).drop 8) :=
  String.toList_ofList

theorem pathHash_spec (path : String) :
    (pathHash path).toList.length = 28 ∧ ∀ c ∈ (pathHash path).toList, IsLetter c := by
  rw [toList_pathHash]
  refine ⟨by simp [halfLetters, length_base26, halfLength], fun c hc => ?_⟩
  rcases List.mem_append.1 hc with hc | hc
  · exact isLetter_of_mem_base26 hc
  · exact isLetter_of_mem_base26 hc

/-- Two paths have one hash if and only if they have one digest. -/
theorem pathHash_eq_iff {p q : String} : pathHash p = pathHash q ↔ pathDigest p = pathDigest q := by
  constructor
  · intro h
    have hlength : ∀ path, (pathDigest path).length = 16 := fun path => Digest.Md5.length_digest _
    have hletters := congrArg String.toList h
    rw [toList_pathHash, toList_pathHash] at hletters
    obtain ⟨hhigh, hlow⟩ :=
      List.append_inj hletters (by rw [halfLetters, halfLetters, length_base26, length_base26])
    have htake := halfLetters_injective (by simp [hlength]) (by simp [hlength]) hhigh
    have hdrop := halfLetters_injective (by simp [hlength]) (by simp [hlength]) hlow
    rw [← List.take_append_drop 8 (pathDigest p), ← List.take_append_drop 8 (pathDigest q), htake,
      hdrop]
  · intro h
    rw [← String.toList_inj, toList_pathHash, toList_pathHash, h]

/-! ## The log directory -/

/-- The name of the directory of a project's build products. -/
def productsName (project : Path) : String :=
  s!"{shortName project}-{pathHash project.text}"

theorem toList_productsName (project : Path) :
    (productsName project).toList =
      (shortName project).toList ++ '-' :: (pathHash project.text).toList := by
  simp [productsName, toString]

theorem slash_notMem_shortName (project : Path) : '/' ∉ (shortName project).toList := by
  have hoctets : Path.slash ∉ (project.fileName?.getD "").octets := by
    cases hfile : project.fileName? with
    | none => decide
    | some n =>
      unfold Path.fileName? at hfile
      split at hfile
      · rename_i n' hlast
        cases hfile
        exact (Path.isName_of_mem_components (List.mem_of_getLast? hlast)).2.2.2
      · cases hfile
  have hname := Name.slash_notMem_text hoctets
  intro hslash
  rw [shortName, String.toList_ofList] at hslash
  obtain ⟨c, hc, hcs⟩ := List.mem_map.1 hslash
  split at hcs
  · exact absurd hcs (by decide)
  · exact hname (hcs ▸ (List.takeWhile_prefix _).subset hc)

theorem isName_productsName (project : Path) : IsName (productsName project) := by
  have hdash : '-' ∈ (productsName project).toList := by simp [toList_productsName]
  have hne : ∀ m : String, '-' ∉ m.toList → (productsName project : Name) ≠ m := by
    intro m hm heq
    exact hm (Name.ofText_injective heq ▸ hdash)
  refine ⟨hne "" (by decide), hne "." (by decide), hne ".." (by decide),
    Name.slash_notMem_ofText fun hslash => ?_⟩
  rw [toList_productsName] at hslash
  rcases List.mem_append.1 hslash with hslash | hslash
  · exact slash_notMem_shortName project hslash
  · rcases List.mem_cons.1 hslash with hslash | hslash
    · exact absurd hslash (by decide)
    · have hletter := (pathHash_spec project.text).2 _ hslash
      exact absurd hletter (by unfold IsLetter; decide)

theorem components_logDirectory (derived project : Path) :
    (logDirectory derived project).components =
      derived.components ++ [.name (productsName project), .name "Logs", .name "Build"] := by
  unfold logDirectory
  rw [Path.components_entry _ (by decide : IsName "Build"),
    Path.components_entry _ (by decide : IsName "Logs"), ← productsName,
      Path.components_entry _ (isName_productsName project)]
  simp

/-- The name of the directory ends with the hash. -/
theorem pathHash_of_productsName {p q : Path} (h : productsName p = productsName q) :
    pathHash p.text = pathHash q.text := by
  have hlist := congrArg String.toList h
  rw [toList_productsName, toList_productsName] at hlist
  have hlength : ∀ path, (pathHash path).toList.length = 28 := fun path => (pathHash_spec path).1
  have hend := List.append_inj_right' hlist (by simp [hlength])
  exact String.toList_inj.1 (List.cons.inj hend).2

/-- Fourteen letters stand for each 64-bit number. They can be read back, and are ordered as the
numbers are. So the hash of a path is 28 letters that are the same for two paths if and only if the
digests are, and two projects share a log directory only if the digests of their paths are the
same. -/
theorem pathHash_faithful :
    (∀ v : UInt64, (base26 halfLength v.toNat).length = 14 ∧
      (∀ c ∈ base26 halfLength v.toNat, IsLetter c) ∧
      value (base26 halfLength v.toNat) = v.toNat) ∧
    (∀ v w : UInt64, base26 halfLength v.toNat = base26 halfLength w.toNat → v = w) ∧
    (∀ v w : UInt64, base26 halfLength v.toNat < base26 halfLength w.toNat ↔ v < w) ∧
    (∀ p q : String, pathHash p = pathHash q ↔ pathDigest p = pathDigest q) ∧
    (∀ p : String, (pathHash p).toList.length = 28 ∧ ∀ c ∈ (pathHash p).toList, IsLetter c) ∧
    ∀ derived p q : Path, (logDirectory derived p).same (logDirectory derived q) = true →
      pathDigest p.text = pathDigest q.text := by
  have hlt : ∀ v : UInt64, v.toNat < 26 ^ halfLength := fun v => lt_of_lt_size v.toNat_lt
  refine ⟨fun v => ⟨length_base26 .., fun c hc => isLetter_of_mem_base26 hc, ?_⟩, fun v w h => ?_,
    fun v w => ?_, fun p q => pathHash_eq_iff, pathHash_spec, fun derived p q h => ?_⟩
  · rw [value_base26, Nat.mod_eq_of_lt (hlt v)]
  · exact UInt64.toNat_inj.1 (base26_injective (hlt v) (hlt w) h)
  · rw [base26_lt_iff (hlt v) (hlt w), UInt64.lt_iff_toNat_lt]
  · have hcomponents : (logDirectory derived p).components =
        (logDirectory derived q).components := by
      simpa [Path.same] using h
    rw [components_logDirectory, components_logDirectory] at hcomponents
    have hname : (productsName p : Name) = productsName q := by simpa using hcomponents
    exact pathHash_eq_iff.1 (pathHash_of_productsName (Name.ofText_injective hname))

/-- Two projects of one name have different directories, and each shares its own. -/
theorem pathHash_faithful_twins :
    pathHash "/tmp/Demo.xcworkspace" = "ceyqynwzheywsqbexbvystpgzebz" ∧
      (logDirectory "/DD" "/tmp/Demo.xcworkspace").same
        (logDirectory "/DD" "/tmp/Demo.xcworkspace") = true ∧
      pathDigest (Path.ofText "/tmp/Demo.xcworkspace").text =
        pathDigest (Path.ofText "/tmp/Demo.xcworkspace").text ∧
      (logDirectory "/DD" "/tmp/Demo.xcworkspace").same
        (logDirectory "/DD" "/srv/Demo.xcworkspace") = false := by
  have hsame : (logDirectory "/DD" "/tmp/Demo.xcworkspace").same
      (logDirectory "/DD" "/tmp/Demo.xcworkspace") = true := by simp [Path.same]
  have hdiffer : pathDigest "/tmp/Demo.xcworkspace" ≠ pathDigest "/srv/Demo.xcworkspace" := by
    decide +kernel
  obtain ⟨_, _, _, _, _, hdirectory⟩ := pathHash_faithful
  refine ⟨by decide +kernel, hsame, hdirectory _ _ _ hsame, ?_⟩
  rw [Bool.eq_false_iff]
  intro h
  have hdigest := hdirectory _ _ _ h
  rw [Path.text_ofText, Path.text_ofText] at hdigest
  exact hdiffer hdigest

end Project

end ExplicitSelf
