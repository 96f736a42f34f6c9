import ExplicitSelf.Proofs.Source.Lines
import ExplicitSelf.Proofs.Source.Splice

/-!
# Splices, line by line

What is written into a text may have no line feed. Then the text keeps its lines: each is spliced
with what is written on it. What is written in front of the octet after a line feed belongs to the
next line, so a line but the last is spliced with what is written before its end (`below`).

Results:
* `splice_append_below`: the front and the rest of a text are spliced apart.
* `lines_splice`: the lines of a splice, each the splice of a line.
* `getElem?_spliceOctets`: where an octet goes.
-/
namespace ExplicitSelf.Source

open Text (width size size_cons size_append size_nil Octets width_pos)

/-- What is written in front of offsets before `n`. -/
def below (n : Nat) (mark : Nat → List Char) (o : Nat) : List Char :=
  if o < n then mark o else []

theorem below_below {m n : Nat} (h : m ≤ n) (mark : Nat → List Char) :
    below m (below n mark) = below m mark := by
  funext o
  unfold below
  split
  · rw [if_pos (by omega)]
  · rfl

/-- The front and the rest of a text are spliced apart; what is written between them goes to the
rest. -/
theorem splice_append_below (mark : Nat → List Char) (i : Nat) (l r : List Char) :
    splice mark i (l ++ r) = splice (below (i + size l) mark) i l ++
      splice mark (i + size l) r := by
  induction l generalizing i with
  | nil => simp [splice, below]
  | cons c l ih =>
    have hw := width_pos c
    rw [List.cons_append, splice, ih, splice, size_cons, ← Nat.add_assoc]
    simp [below, show i < i + width c + size l by omega]

/-- A splice depends on what is written inside the text and at its end. -/
theorem splice_congr_le {mark mark' : Nat → List Char} (i : Nat) (cs : List Char)
    (h : ∀ o, i ≤ o → o ≤ i + size cs → mark o = mark' o) :
    splice mark i cs = splice mark' i cs := by
  induction cs generalizing i with
  | nil => exact h i (Nat.le_refl i) (Nat.le_add_right ..)
  | cons c cs ih =>
    rw [size_cons] at h
    rw [splice, splice, h i (Nat.le_refl i) (Nat.le_add_right ..),
      ih (i + width c) fun o h1 h2 => h o (by omega) (by omega)]

theorem splice_shift (mark : Nat → List Char) (s i : Nat) (cs : List Char) :
    splice mark (s + i) cs = splice (fun o => mark (s + o)) i cs := by
  induction cs generalizing i with
  | nil => rfl
  | cons c cs ih => rw [splice, splice, Nat.add_assoc, ih]

/-! ## Lines -/

/-- Lines, the first of which starts at `i`, each spliced with what is written on it. -/
def spliceLines (mark : Nat → List Char) : (i : Nat) → List (List Char) → List (List Char)
  | _, [] => []
  | i, [l] => [splice mark i l]
  | i, l :: m :: ls => splice (below (i + size l) mark) i l :: spliceLines mark (i + size l)
      (m :: ls)

theorem spliceLines_cons (mark : Nat → List Char) (i : Nat) (l : List Char) {ls : List (List Char)}
    (h : ls ≠ []) :
    spliceLines mark i (l :: ls) =
      splice (below (i + size l) mark) i l :: spliceLines mark (i + size l) ls := by
  obtain ⟨m, ms, rfl⟩ := List.exists_cons_of_ne_nil h
  rfl

/-- A character that ends no line belongs to the line after it. -/
theorem spliceLines_cons_char (mark : Nat → List Char) (i : Nat) (c : Char) (l : List Char)
    (ls : List (List Char)) :
    ∃ m ms, spliceLines mark (i + width c) (l :: ls) = m :: ms ∧
      spliceLines mark i ((c :: l) :: ls) = (mark i ++ c :: m) :: ms := by
  have hw := width_pos c
  cases ls with
  | nil => exact ⟨_, _, rfl, rfl⟩
  | cons m ms =>
    refine ⟨_, _, rfl, ?_⟩
    rw [spliceLines, splice, size_cons, ← Nat.add_assoc]
    simp [below, show i < i + width c + size l by omega]

/-- The lines of a splice are the lines of the text, each spliced. -/
theorem lines_splice {mark : Nat → List Char} (h : ∀ o, '\n' ∉ mark o) (i : Nat) (cs : List Char) :
    lines (splice mark i cs) = spliceLines mark i (lines cs) := by
  induction cs generalizing i with
  | nil =>
    have hone : lines (mark i ++ []) = [mark i ++ []] := lines_append (h i) rfl
    rw [List.append_nil] at hone
    exact hone
  | cons c cs ih =>
    by_cases hc : c = '\n'
    · subst hc
      rw [splice, lines_append (h i) (lines_newline _), ih, lines_newline,
        spliceLines_cons mark i _ (lines_ne_nil cs)]
      simp [splice, below, show width '\n' = 1 from rfl]
    · obtain ⟨l, ls, hcs⟩ := List.exists_cons_of_ne_nil (lines_ne_nil cs)
      obtain ⟨m, ms, hrest, hline⟩ := spliceLines_cons_char mark i c l ls
      have hfront : '\n' ∉ mark i ++ [c] := by
        rw [List.mem_append, List.mem_singleton, not_or]
        exact ⟨h i, fun he => hc he.symm⟩
      have hlines : lines (splice mark (i + width c) cs) = m :: ms := by rw [ih, hcs, hrest]
      have happend := lines_append hfront hlines
      rw [lines, if_neg hc, hcs, List.modifyHead_cons, hline, splice]
      simpa using happend

/-- What is written on a line that starts at `s`. -/
def lineMark (mark : Nat → List Char) (s : Nat) (line : List Char) (after : List (List Char)) :
    Nat → List Char :=
  if after = [] then mark else below (s + size line) mark

/-- One line among the spliced lines, and the text before it. -/
theorem exists_spliceLines (mark : Nat → List Char) (i : Nat) (before : List (List Char))
    (line : List Char) (after : List (List Char)) :
    ∃ before' after', spliceLines mark i (before ++ line :: after) =
        before' ++ splice (lineMark mark (i + size before.flatten) line after)
          (i + size before.flatten) line :: after' ∧
      before'.length = before.length ∧
      before'.flatten = splice (below (i + size before.flatten) mark) i before.flatten := by
  induction before generalizing i with
  | nil =>
    cases after with
    | nil => exact ⟨[], [], rfl, rfl, by simp [splice, below]⟩
    | cons m ms => exact ⟨[], _, rfl, rfl, by simp [splice, below]⟩
  | cons b before ih =>
    obtain ⟨before', after', hlines, hlength, hflatten⟩ := ih (i + size b)
    refine ⟨splice (below (i + size b) mark) i b :: before', after', ?_, ?_, ?_⟩
    · rw [List.cons_append, spliceLines_cons mark i b (by simp), hlines, List.flatten_cons,
        size_append, ← Nat.add_assoc]
      rfl
    · rw [List.length_cons, List.length_cons, hlength]
    · rw [List.flatten_cons, hflatten, List.flatten_cons, size_append, splice_append_below,
        below_below (by omega), ← Nat.add_assoc]

/-- The number of lines is the same. -/
theorem length_spliceLines (mark : Nat → List Char) (i : Nat) (ls : List (List Char)) :
    (spliceLines mark i ls).length = ls.length := by
  induction ls generalizing i with
  | nil => rfl
  | cons l ls ih =>
    cases ls with
    | nil => rfl
    | cons m ms => simp [spliceLines, ih]

/-! ## Octets -/

/-- An octet goes behind all that is written in front of it and of the octets before it. -/
theorem getElem?_spliceOctets (mark : Nat → Octets) (i : Nat) {bs : Octets} {k : Nat}
    (hk : k < bs.length) :
    (spliceOctets mark i bs)[k + ∑ j ∈ Finset.Ico i (i + k + 1), (mark j).length]? = bs[k]? := by
  induction bs generalizing i k with
  | nil => exact absurd hk (Nat.not_lt_zero k)
  | cons b bs ih =>
    rw [spliceOctets, Finset.sum_eq_sum_Ico_succ_bot (by omega)]
    cases k with
    | zero => simp
    | succ k =>
      have hrest := ih (i + 1) (Nat.lt_of_succ_lt_succ hk)
      rw [show i + 1 + k + 1 = i + (k + 1) + 1 by omega] at hrest
      rw [Nat.add_left_comm, List.getElem?_append_right (Nat.le_add_right ..),
        Nat.add_sub_cancel_left,
        Nat.add_right_comm, List.getElem?_cons_succ, List.getElem?_cons_succ]
      exact hrest

end ExplicitSelf.Source
