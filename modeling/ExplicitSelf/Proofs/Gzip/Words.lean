import ExplicitSelf.Gzip.Deflate

/-!
# Numbers and words in a list of bits

Compressed data is a sequence of bits without gaps: each piece says by itself where it ends. So the
form of a piece is a relation between bits and what they stand for, and a reader is right if it
takes a piece of this form off the front, whatever stands behind it, and nothing else (`Reads`).

The two pieces from which all others are made are numbers and the words of a canonical code. A
number has a fixed width and starts with its least significant bit. A word starts with its most
significant bit, and its width is that of its symbol: the words of one width are consecutive
numbers, and the first of them is behind all shorter words (`Code.firstWord`).

Results:
* `reads_takeBits`, `reads_inRange`: numbers.
* `reads_symbol`: the words of a code. No word starts with a shorter one.
-/
namespace ExplicitSelf.Gzip

/-- A reader takes off the front what has the form, and nothing else. -/
structure Reads {α : Type} (read : List Bool → Option (α × List Bool))
    (Form : List Bool → α → Prop) :
    Prop where
  form : ∀ {bits r : List Bool} {a : α}, read bits = some (a, r) → ∃ w, Form w a ∧ bits = w ++ r
  front : ∀ {w : List Bool} {a : α}, Form w a → ∀ r, read (w ++ r) = some (a, r)

/-- What a reader that goes on has read at first. -/
theorem Reads.of_bind {α β : Type} {read : List Bool → Option (α × List Bool)}
    {Form : List Bool → α → Prop} (hread : Reads read Form) {f : α × List Bool → Option β} {b : β}
    {bits : List Bool} (h : (read bits).bind f = some b) :
    ∃ a w r, Form w a ∧ bits = w ++ r ∧ f (a, r) = some b := by
  obtain ⟨⟨a, r⟩, ha, hb⟩ := Option.bind_eq_some_iff.1 h
  obtain ⟨w, hw, hbits⟩ := hread.form ha
  exact ⟨a, w, r, hw, hbits, hb⟩

/-! ## Numbers -/

/-- The number that bits spell, least significant first. -/
def number : List Bool → Nat
  | [] => 0
  | b :: bits => b.toNat + 2 * number bits

/-- Bits that spell a number of a given width. -/
def Number (n : Nat) (w : List Bool) (v : Nat) : Prop :=
  w.length = n ∧ number w = v

theorem reads_takeBits (n : Nat) : Reads (takeBits n) (Number n) where
  form := by
    induction n with
    | zero =>
      intro bits r v h
      cases h
      exact ⟨[], ⟨rfl, rfl⟩, rfl⟩
    | succ n ih =>
      intro bits r v h
      cases bits with
      | nil => cases h
      | cons b bits =>
        obtain ⟨⟨u, rest⟩, hu, h⟩ := Option.map_eq_some_iff.1 h
        cases h
        obtain ⟨w, ⟨hlength, hw⟩, rfl⟩ := ih hu
        exact ⟨b :: w, ⟨by simp [hlength], by simp [number, hw]⟩, rfl⟩
  front := by
    intro w v h r
    obtain ⟨rfl, rfl⟩ := h
    induction w with
    | nil => rfl
    | cons b w ih => simp [takeBits, ih, number]

/-- Bits that spell a value in a range: a number is added to the first value. -/
def InRange (range : Nat × Nat) (w : List Bool) (v : Nat) : Prop :=
  ∃ extra, Number range.2 w extra ∧ v = range.1 + extra

theorem reads_inRange (range : Nat × Nat) : Reads (inRange range) (InRange range) where
  form := by
    intro bits r v h
    obtain ⟨⟨extra, rest⟩, hextra, h⟩ := Option.map_eq_some_iff.1 h
    cases h
    obtain ⟨w, hw, rfl⟩ := (reads_takeBits _).form hextra
    exact ⟨w, ⟨extra, hw, rfl⟩, rfl⟩
  front := by
    intro w v h r
    obtain ⟨extra, hw, rfl⟩ := h
    simp [inRange, (reads_takeBits _).front hw]

/-! ## Words -/

/-- A word read on by some bits, most significant first. -/
def extend (word : Nat) (w : List Bool) : Nat :=
  w.foldl (fun word b => 2 * word + b.toNat) word

/-- The first word behind the words of some widths, each list holding the symbols of one width. -/
def Code.firstFrom (first : Nat) (shorter : Code) : Nat :=
  shorter.foldl (fun first symbols => 2 * (first + symbols.length)) first

/-- The first word that is longer than those of some widths. -/
def Code.firstWord (shorter : Code) : Nat :=
  Code.firstFrom 0 shorter

/-- The word of a symbol: as far behind the first word of its width as the symbol is behind the
first symbol of this width. -/
def Code.Word (c : Code) (w : List Bool) (s : Nat) : Prop :=
  ∃ shorter symbols longer i, c = shorter ++ symbols :: longer ∧ symbols[i]? = some s ∧
    w.length = shorter.length + 1 ∧ extend 0 w = Code.firstWord shorter + i

@[simp] theorem extend_nil (word : Nat) : extend word [] = word := rfl

@[simp] theorem extend_cons (word : Nat) (b : Bool) (w : List Bool) :
    extend word (b :: w) = extend (2 * word + b.toNat) w := rfl

@[simp] theorem Code.firstFrom_nil (first : Nat) : Code.firstFrom first [] = first := rfl

@[simp] theorem Code.firstFrom_cons (first : Nat) (symbols : List Nat) (shorter : Code) :
    Code.firstFrom first (symbols :: shorter) = Code.firstFrom
      (2 * (first + symbols.length)) shorter := rfl

theorem Code.Word.ne_nil {c : Code} {w : List Bool} {s : Nat} (h : c.Word w s) : w ≠ [] := by
  obtain ⟨shorter, _, _, _, _, _, hlength, _⟩ := h
  intro hnil
  simp [hnil] at hlength

/-- A word that is smaller stays smaller. -/
theorem extend_lt_firstFrom {word first : Nat} {w : List Bool} {shorter : Code}
    (hlt : word < first) (hlength : w.length = shorter.length) :
    extend word w < Code.firstFrom first shorter := by
  induction shorter generalizing word first w with
  | nil =>
    cases List.eq_nil_of_length_eq_zero hlength
    exact hlt
  | cons symbols shorter ih =>
    cases w with
    | nil => cases hlength
    | cons b w =>
      have hb : b.toNat ≤ 1 := Bool.toNat_le b
      have hnext : 2 * word + b.toNat < 2 * (first + symbols.length) := by omega
      rw [extend_cons, Code.firstFrom_cons]
      exact ih hnext (by simpa using hlength)

/-- What is read is a word. The words of a width do not start before `first`. -/
theorem word_of_read {c : Code} {word first : Nat} {bits r : List Bool} {s : Nat}
    (hfirst : first ≤ 2 * word) (h : Code.read word first c bits = some (s, r)) :
    ∃ shorter symbols longer i w, c = shorter ++ symbols :: longer ∧ symbols[i]? = some s ∧
      w.length = shorter.length + 1 ∧ extend word w = Code.firstFrom first shorter + i ∧
      bits = w ++ r := by
  induction c generalizing word first bits with
  | nil => cases bits <;> cases h
  | cons symbols longer ih =>
    cases bits with
    | nil => cases h
    | cons b bits =>
      rw [Code.read] at h
      split at h
      · rename_i hs
        cases h
        refine ⟨[], symbols, longer, _, [b], rfl, hs, rfl, ?_, rfl⟩
        simp only [extend_cons, extend_nil, Code.firstFrom_nil]
        omega
      · rename_i hnone
        rw [List.getElem?_eq_none_iff] at hnone
        obtain ⟨shorter, symbols', longer', i, w, rfl, hs, hlength, hword, rfl⟩ := ih (by omega) h
        exact ⟨symbols :: shorter, symbols', longer', i, b :: w, rfl, hs, by simp [hlength], hword,
          rfl⟩

/-- A word is read. It is not among the shorter words: these are smaller than what it starts
with. -/
theorem read_of_word {shorter : Code} {symbols : List Nat} {longer : Code} {word first i : Nat}
    {w : List Bool} {s : Nat} (hs : symbols[i]? = some s) (hlength : w.length = shorter.length + 1)
    (hword : extend word w = Code.firstFrom first shorter + i) (r : List Bool) :
    Code.read word first (shorter ++ symbols :: longer) (w ++ r) = some (s, r) := by
  obtain ⟨b, w, rfl⟩ := List.exists_cons_of_length_pos (by omega : 0 < w.length)
  have hlength : w.length = shorter.length := by simpa using hlength
  induction shorter generalizing word first b w with
  | nil =>
    cases List.eq_nil_of_length_eq_zero hlength
    simp only [extend_cons, extend_nil, Code.firstFrom_nil] at hword
    have hi : 2 * word + b.toNat - first = i := by omega
    simp [Code.read, hi, hs]
  | cons symbols' shorter ih =>
    obtain ⟨b', w, rfl⟩ := List.exists_cons_of_length_pos (by simp [hlength] : 0 < w.length)
    have hlength : w.length = shorter.length := by simpa using hlength
    have hnone : symbols'[2 * word + b.toNat - first]? = none := by
      rw [List.getElem?_eq_none_iff]
      refine Nat.le_of_not_lt fun hlt => ?_
      have hb : b'.toNat ≤ 1 := Bool.toNat_le b'
      have hsmall : 2 * (2 * word + b.toNat) + b'.toNat < 2 * (first + symbols'.length) := by omega
      have hless := extend_lt_firstFrom hsmall hlength
      simp only [extend_cons, Code.firstFrom_cons] at hword
      omega
    rw [List.cons_append, List.cons_append, Code.read]
    simp only [hnone]
    exact ih b' w (by simp [hlength]) hword hlength

/-- The symbol in front is the one whose word stands there. -/
theorem reads_symbol (c : Code) : Reads c.symbol c.Word where
  form := by
    intro bits r s h
    obtain ⟨shorter, symbols, longer, i, w, hc, hs, hlength, hword, hbits⟩ :=
      word_of_read (Nat.zero_le _) h
    exact ⟨w, ⟨shorter, symbols, longer, i, hc, hs, hlength, hword⟩, hbits⟩
  front := by
    intro w s h r
    obtain ⟨shorter, symbols, longer, i, rfl, hs, hlength, hword⟩ := h
    exact read_of_word hs hlength hword r

end ExplicitSelf.Gzip
