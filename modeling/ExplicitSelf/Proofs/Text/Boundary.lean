import ExplicitSelf.Text.Utf8

/-!
# Cutting a text at an offset

`splitAt?` cuts a text at an offset in octets. The offsets at which it succeeds are the sizes of the
fronts of the text, and each gives one cut.

Results:
* `encode_length`, `size_eq_utf8ByteSize`: a text has as many octets as its size says.
* `splitAt?_eq_some_iff`: a cut at `n` is a way to write the text as two texts, the first of size
  `n`.
* `splitAt?_size_add`: a cut behind a front is a cut of the rest.
* `not_isBoundary_inside`: no boundary lies inside the first character.
-/
namespace ExplicitSelf.Text

theorem width_pos (c : Char) : 0 < width c := by
  unfold width; split
  · decide
  · split
    · decide
    · split <;> decide

theorem encodeChar_length (c : Char) : (encodeChar c).length = width c := by
  unfold encodeChar width
  simp only
  split
  · rfl
  · split
    · rfl
    · split <;> rfl

@[simp] theorem encode_nil : encode [] = [] := rfl

@[simp] theorem encode_cons (c : Char) (cs : List Char) :
    encode (c :: cs) = encodeChar c ++ encode cs := rfl

@[simp] theorem encode_append (l r : List Char) : encode (l ++ r) = encode l ++ encode r := by
  simp [encode]

/-- A text has as many octets as its size says. -/
theorem encode_length (cs : List Char) : (encode cs).length = size cs := by
  induction cs with
  | nil => rfl
  | cons c cs ih => rw [encode_cons, List.length_append, encodeChar_length, ih, size]

@[simp] theorem size_nil : size [] = 0 := rfl

@[simp] theorem size_cons (c : Char) (cs : List Char) : size (c :: cs) = width c + size cs := rfl

@[simp] theorem size_append (l r : List Char) : size (l ++ r) = size l + size r := by
  induction l with
  | nil => simp
  | cons c l ih => rw [List.cons_append, size_cons, ih, size_cons, Nat.add_assoc]

theorem length_le_size (cs : List Char) : cs.length ≤ size cs := by
  induction cs with
  | nil => exact Nat.le_refl 0
  | cons c cs ih =>
    have := width_pos c
    rw [List.length_cons, size_cons]
    omega

theorem width_eq_utf8Size (c : Char) : width c = c.utf8Size := by
  have hval : c.toNat = c.val.toNat := rfl
  simp only [width, Char.utf8Size, UInt32.le_iff_toNat_le, hval]
  grind

/-- The size of a text is the number of octets of the string. -/
theorem size_eq_utf8ByteSize (cs : List Char) : size cs = (String.ofList cs).utf8ByteSize := by
  induction cs with
  | nil => rfl
  | cons c cs ih =>
    rw [size_cons, ih, width_eq_utf8Size, String.ofList_cons, String.utf8ByteSize_append,
      String.utf8ByteSize_singleton]

@[simp] theorem splitAt?_zero (cs : List Char) : splitAt? 0 cs = some ([], cs) := by
  unfold splitAt?; rfl

/-- A cut behind the first character. -/
theorem splitAt?_width_add (c : Char) (cs : List Char) (n : Nat) :
    splitAt? (width c + n) (c :: cs) = (splitAt? n cs).map fun (l, r) => (c :: l, r) := by
  have hw := width_pos c
  obtain ⟨m, hm⟩ : ∃ m, width c + n = m + 1 := ⟨width c + n - 1, by omega⟩
  rw [hm, splitAt?, if_pos (by omega)]
  congr 2
  omega

/-- A cut behind a front. -/
theorem splitAt?_size_add (l cs : List Char) (n : Nat) :
    splitAt? (size l + n) (l ++ cs) = (splitAt? n cs).map fun (a, b) => (l ++ a, b) := by
  induction l with
  | nil => simp
  | cons c l ih =>
    rw [size_cons, Nat.add_assoc, List.cons_append, splitAt?_width_add, ih, Option.map_map]
    rfl

theorem splitAt?_append (l r : List Char) : splitAt? (size l) (l ++ r) = some (l, r) := by
  have h := splitAt?_size_add l r 0
  simpa using h

/-- No cut inside the first character. -/
theorem splitAt?_inside (c : Char) (cs : List Char) (n : Nat) (h0 : 0 < n) (hn : n < width c) :
    splitAt? n (c :: cs) = none := by
  obtain ⟨m, rfl⟩ : ∃ m, n = m + 1 := ⟨n - 1, by omega⟩
  rw [splitAt?, if_neg (by omega)]

theorem splitAt?_nil_pos (n : Nat) (h : 0 < n) : splitAt? n [] = none := by
  obtain ⟨m, rfl⟩ : ∃ m, n = m + 1 := ⟨n - 1, by omega⟩
  rw [splitAt?]

/-- The cuts at `n` are the ways to write the text as two, the first of size `n`. -/
theorem splitAt?_eq_some_iff {n : Nat} {cs l r : List Char} :
    splitAt? n cs = some (l, r) ↔ cs = l ++ r ∧ size l = n := by
  constructor
  · intro h
    induction cs generalizing n l with
    | nil =>
      cases n with
      | zero => rw [splitAt?_zero] at h; cases h; exact ⟨rfl, rfl⟩
      | succ n => rw [splitAt?_nil_pos _ (by omega)] at h; cases h
    | cons c cs ih =>
      rcases Nat.eq_zero_or_pos n with rfl | hn
      · rw [splitAt?_zero] at h; cases h; exact ⟨rfl, rfl⟩
      · rcases Nat.lt_or_ge n (width c) with hw | hw
        · rw [splitAt?_inside c cs n hn hw] at h; cases h
        · obtain ⟨m, rfl⟩ := Nat.exists_eq_add_of_le hw
          rw [splitAt?_width_add, Option.map_eq_some_iff] at h
          obtain ⟨⟨a, b⟩, hab, he⟩ := h
          cases he
          obtain ⟨rfl, rfl⟩ := ih hab
          exact ⟨rfl, rfl⟩
  · rintro ⟨rfl, rfl⟩
    exact splitAt?_append l r

/-- Of two fronts of a text, the longer one starts with the shorter one. -/
theorem exists_of_append_eq {l r m s : List Char} (h : l ++ r = m ++ s) (hle : size l ≤ size m) :
    ∃ x, m = l ++ x ∧ r = x ++ s := by
  rcases List.append_eq_append_iff.1 h with hlonger | ⟨x, rfl, rfl⟩
  · exact hlonger
  · cases x with
    | nil => exact ⟨[], by simp, by simp⟩
    | cons c x =>
      have := width_pos c
      rw [size_append, size_cons] at hle
      omega

/-! ## Boundaries -/

theorem isBoundary_iff {n : Nat} {cs : List Char} :
    isBoundary n cs = true ↔ ∃ l r, cs = l ++ r ∧ size l = n := by
  unfold isBoundary
  rw [Option.isSome_iff_exists]
  constructor
  · rintro ⟨⟨l, r⟩, h⟩
    exact ⟨l, r, splitAt?_eq_some_iff.1 h⟩
  · rintro ⟨l, r, h⟩
    exact ⟨(l, r), splitAt?_eq_some_iff.2 h⟩

theorem isBoundary_le {n : Nat} {cs : List Char} (h : isBoundary n cs = true) : n ≤ size cs := by
  obtain ⟨l, r, rfl, rfl⟩ := isBoundary_iff.1 h
  rw [size_append]; omega

theorem isBoundary_width_add (c : Char) (cs : List Char) (n : Nat) :
    isBoundary (width c + n) (c :: cs) = isBoundary n cs := by
  unfold isBoundary
  rw [splitAt?_width_add, Option.isSome_map]

theorem isBoundary_size_add (l cs : List Char) (n : Nat) :
    isBoundary (size l + n) (l ++ cs) = isBoundary n cs := by
  unfold isBoundary
  rw [splitAt?_size_add, Option.isSome_map]

/-- A boundary in the front of a text is one of the front. -/
theorem isBoundary_front {n : Nat} {l r : List Char} (h : isBoundary n (l ++ r) = true)
    (hn : n ≤ size l) : isBoundary n l = true := by
  obtain ⟨a, b, hab, rfl⟩ := isBoundary_iff.1 h
  obtain ⟨x, rfl, _⟩ := exists_of_append_eq hab.symm hn
  exact isBoundary_iff.2 ⟨a, x, rfl, rfl⟩

/-- No boundary lies inside the first character. -/
theorem not_isBoundary_inside (c : Char) (cs : List Char) (n : Nat) (h0 : 0 < n)
    (hn : n < width c) : isBoundary n (c :: cs) = false := by
  unfold isBoundary
  rw [splitAt?_inside c cs n h0 hn]; rfl

end ExplicitSelf.Text
