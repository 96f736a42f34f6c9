import ExplicitSelf.Proofs.Text.Boundary
import ExplicitSelf.Source.Insertion
import Mathlib.Algebra.BigOperators.Intervals
import Mathlib.Algebra.Order.BigOperators.Group.Finset

/-!
# Insertions as one pass over a text

`applyInsertions` works from the last offset to the first, on a text that grows. `splice` goes over
the text once, from front to back, and writes in front of each offset what belongs there. It is the
plain meaning of a set of insertions: `mark o` stands directly before the octet at offset `o` of the
old text, and nothing else is new. `spliceOctets` says the same of the octets of a file.

Results:
* `foldl_insertAt`: inserting from the last offset to the first is a splice.
* `applyInsertions_eq_ok`, `boundaries_of_applyInsertions`: a set of insertions is applied exactly
  if its offsets are boundaries and no two are equal, and the new text is the splice.
* `encode_splice`: the octets of a splice are the splice of the octets.
* `splitAt?_splice`: an offset of the old text is moved by the sizes of what is written at or before
  it, and is a boundary of the new text exactly if it was one of the old text.
-/
namespace ExplicitSelf.Source

open Text (width size splitAt? isBoundary encode encodeChar Octets width_pos size_cons size_append
  splitAt?_append splitAt?_size_add splitAt?_width_add splitAt?_inside splitAt?_nil_pos
  splitAt?_eq_some_iff isBoundary_iff isBoundary_width_add not_isBoundary_inside encodeChar_length)

/-- The text `cs`, which starts at offset `i`, with `mark o` in front of the octet at each `o`. -/
def splice (mark : Nat → List Char) : (i : Nat) → (cs : List Char) → List Char
  | i, [] => mark i
  | i, c :: cs => mark i ++ c :: splice mark (i + width c) cs

/-- The octets `bs`, which start at offset `i`, with `mark o` in front of the octet at each `o`. -/
def spliceOctets (mark : Nat → Octets) : (i : Nat) → (bs : Octets) → Octets
  | i, [] => mark i
  | i, b :: bs => mark i ++ b :: spliceOctets mark (i + 1) bs

/-- Nothing is written inside a character of `cs` or past its end, `cs` starting at `i`. -/
def Fits (mark : Nat → List Char) (i : Nat) (cs : List Char) : Prop :=
  ∀ o, i ≤ o → mark o ≠ [] → isBoundary (o - i) cs = true

theorem Fits.inside {mark : Nat → List Char} {i : Nat} {c : Char} {cs : List Char}
    (h : Fits mark i (c :: cs)) {o : Nat} (hi : i < o) (ho : o < i + width c) : mark o = [] := by
  by_contra hne
  have hb := h o (Nat.le_of_lt hi) hne
  rw [not_isBoundary_inside c cs (o - i) (by omega) (by omega)] at hb
  cases hb

theorem Fits.tail {mark : Nat → List Char} {i : Nat} {c : Char} {cs : List Char}
    (h : Fits mark i (c :: cs)) : Fits mark (i + width c) cs := by
  intro o ho hne
  have hb := h o (by omega) hne
  rw [show o - i = width c + (o - (i + width c)) by omega, isBoundary_width_add] at hb
  exact hb

theorem Fits.past {mark : Nat → List Char} {i o : Nat} (h : Fits mark i []) (hi : i < o) :
    mark o = [] := by
  by_contra hne
  have hb := h o (Nat.le_of_lt hi) hne
  unfold isBoundary at hb
  rw [splitAt?_nil_pos _ (by omega)] at hb
  cases hb

/-! ## One insertion -/

theorem splice_congr {mark mark' : Nat → List Char} (i : Nat) (cs : List Char)
    (h : ∀ o, i ≤ o → mark o = mark' o) : splice mark i cs = splice mark' i cs := by
  induction cs generalizing i with
  | nil => exact h i (Nat.le_refl i)
  | cons c cs ih =>
    rw [splice, splice, h i (Nat.le_refl i), ih (i + width c) fun o ho => h o (by omega)]

@[simp] theorem splice_empty (i : Nat) (cs : List Char) : splice (fun _ => []) i cs = cs := by
  induction cs generalizing i with
  | nil => rfl
  | cons c cs ih => rw [splice, ih]; rfl

/-- A front with nothing written in it stays as it is. -/
theorem splice_append {mark : Nat → List Char} (i : Nat) (l r : List Char)
    (h : ∀ o, i ≤ o → o < i + size l → mark o = []) :
    splice mark i (l ++ r) = l ++ splice mark (i + size l) r := by
  induction l generalizing i with
  | nil => rfl
  | cons c l ih =>
    have hw := width_pos c
    rw [size_cons] at h ⊢
    rw [List.cons_append, splice, h i (Nat.le_refl i) (by omega),
      ih (i + width c) fun o h1 h2 => h o (by omega) (by omega), Nat.add_assoc]
    rfl

/-- What is written at the start stands in front of the rest. -/
theorem splice_update_start (mark : Nat → List Char) (i : Nat) (t cs : List Char)
    (h : mark i = []) : splice (Function.update mark i t) i cs = t ++ splice mark i cs := by
  cases cs with
  | nil => rw [splice, splice, h, Function.update_self, List.append_nil]
  | cons c cs =>
    have hw := width_pos c
    have hrest : splice (Function.update mark i t) (i + width c) cs =
        splice mark (i + width c) cs :=
      splice_congr _ cs fun o ho => Function.update_of_ne (by omega) _ _
    rw [splice, splice, h, Function.update_self, List.nil_append, hrest]

/-- An insertion before all that is written adds it to the splice. -/
theorem insertAt_splice {mark : Nat → List Char} {text : List Char} (x : Insertion)
    (hb : isBoundary x.offset text = true) (h : ∀ o, o ≤ x.offset → mark o = []) :
    insertAt (splice mark 0 text) x = splice (Function.update mark x.offset x.text) 0 text := by
  obtain ⟨l, r, rfl, hl⟩ := isBoundary_iff.1 hb
  have hold : splice mark 0 (l ++ r) = l ++ splice mark x.offset r := by
    rw [splice_append 0 l r fun o _ ho => h o (by omega), Nat.zero_add, hl]
  have hnew : splice (Function.update mark x.offset x.text) 0 (l ++ r) =
      l ++ (x.text ++ splice mark x.offset r) := by
    rw [splice_append 0 l r fun o _ ho => by
      rw [Function.update_of_ne (by omega)]; exact h o (by omega), Nat.zero_add, hl,
      splice_update_start mark x.offset x.text r (h _ (Nat.le_refl _))]
  unfold insertAt
  rw [hold, hnew, ← hl, splitAt?_append]
  exact List.append_assoc l x.text _

/-! ## All insertions -/

/-- What is inserted at an offset. -/
def textAt (xs : List Insertion) (o : Nat) : List Char :=
  ((xs.find? fun x => x.offset = o).map (·.text)).getD []

theorem textAt_cons (x : Insertion) (xs : List Insertion) (o : Nat) :
    textAt (x :: xs) o = if x.offset = o then x.text else textAt xs o := by
  unfold textAt
  by_cases h : x.offset = o
  · simp [h]
  · simp [h]

theorem textAt_of_notMem {xs : List Insertion} {o : Nat} (h : o ∉ xs.map (·.offset)) :
    textAt xs o = [] := by
  unfold textAt
  rw [List.find?_eq_none.2]
  · rfl
  · intro x hx he
    exact h (List.mem_map.2 ⟨x, hx, by simpa using he⟩)

theorem textAt_of_ne {xs : List Insertion} {o : Nat} (h : ∀ x ∈ xs, x.offset ≠ o) :
    textAt xs o = [] := by
  apply textAt_of_notMem
  intro ho
  obtain ⟨x, hx, he⟩ := List.mem_map.1 ho
  exact h x hx he

theorem textAt_of_mem {xs : List Insertion} (hn : (xs.map (·.offset)).Nodup) {x : Insertion}
    (hx : x ∈ xs) : textAt xs x.offset = x.text := by
  induction xs with
  | nil => cases hx
  | cons y ys ih =>
    rw [List.map_cons, List.nodup_cons] at hn
    rw [textAt_cons]
    rcases List.mem_cons.1 hx with rfl | hx
    · rw [if_pos rfl]
    · rw [if_neg, ih hn.2 hx]
      intro he
      exact hn.1 (List.mem_map.2 ⟨x, hx, he.symm⟩)

/-- The order of insertions does not matter if their offsets differ. -/
theorem textAt_perm {xs ys : List Insertion} (hp : xs.Perm ys) (hn : (xs.map (·.offset)).Nodup) :
    textAt xs = textAt ys := by
  funext o
  by_cases ho : o ∈ xs.map (·.offset)
  · obtain ⟨x, hx, rfl⟩ := List.mem_map.1 ho
    rw [textAt_of_mem hn hx, textAt_of_mem ((hp.map _).nodup_iff.1 hn) (hp.mem_iff.1 hx)]
  · rw [textAt_of_notMem ho, textAt_of_notMem fun h => ho ((hp.map _).mem_iff.2 h)]

/-- Inserting from the last offset to the first, into a text with something written behind all of
them already. -/
theorem foldl_insertAt_splice (text : List Char) :
    ∀ (xs : List Insertion) (mark : Nat → List Char),
      xs.Pairwise (fun x y => y.offset < x.offset) →
      (∀ x ∈ xs, isBoundary x.offset text = true) →
      (∀ x ∈ xs, ∀ o, o ≤ x.offset → mark o = []) →
      xs.foldl insertAt (splice mark 0 text) = splice (fun o => textAt xs o ++ mark o) 0 text
  | [], mark, _, _, _ => rfl
  | x :: xs, mark, hs, hb, hm => by
    obtain ⟨hx, hs⟩ := List.pairwise_cons.1 hs
    have hm' : ∀ y ∈ xs, ∀ o, o ≤ y.offset → Function.update mark x.offset x.text o = [] := by
      intro y hy o ho
      have hlt := hx y hy
      rw [Function.update_of_ne (by omega)]
      exact hm x (.head _) o (by omega)
    rw [List.foldl_cons, insertAt_splice x (hb x (.head _)) (hm x (.head _)),
      foldl_insertAt_splice text xs _ hs (fun y hy => hb y (.tail _ hy)) hm']
    congr 1
    funext o
    rw [textAt_cons]
    by_cases ho : x.offset = o
    · subst ho
      have hnone : textAt xs x.offset = [] := textAt_of_ne fun y hy => Nat.ne_of_lt (hx y hy)
      rw [if_pos rfl, hnone, Function.update_self, hm x (.head _) _ (Nat.le_refl _)]
      simp
    · rw [if_neg ho, Function.update_of_ne (Ne.symm ho)]

/-- Inserting from the last offset to the first is a splice. -/
theorem foldl_insertAt (text : List Char) (xs : List Insertion)
    (hs : xs.Pairwise fun x y => y.offset < x.offset)
    (hb : ∀ x ∈ xs, isBoundary x.offset text = true) :
    xs.foldl insertAt text = splice (textAt xs) 0 text := by
  have h := foldl_insertAt_splice text xs (fun _ => []) hs hb fun _ _ _ _ => rfl
  simpa using h

/-! ## Conflicts -/

theorem placement?_eq_none_iff (text : List Char) (o : Nat) :
    placement? text o = none ↔ isBoundary o text = true := by
  unfold placement?
  split
  · rename_i h
    constructor
    · intro he; cases he
    · intro hb
      have := Text.isBoundary_le hb
      omega
  · split
    · rename_i hb; exact ⟨fun _ => hb, fun _ => rfl⟩
    · rename_i hb; exact ⟨fun he => (by cases he), fun h => absurd h hb⟩

/-- Offsets in descending order have no conflict exactly if they are boundaries and differ from each
other and from the offset before them. -/
theorem conflicts_eq_nil_iff (text : List Char) :
    ∀ (os : List Nat) (previous : Option Nat),
      (previous.toList ++ os).Pairwise (· ≥ ·) →
      (conflicts text previous os = [] ↔
        (∀ o ∈ os, isBoundary o text = true) ∧ (previous.toList ++ os).Nodup)
  | [], previous, _ => by cases previous <;> simp [conflicts]
  | o :: os, previous, hs => by
    have htail : (o :: os).Pairwise (· ≥ ·) := (List.pairwise_append.1 hs).2.1
    have ih := conflicts_eq_nil_iff text os (some o) htail
    have hprev : (previous.toList ++ o :: os).Nodup ↔ previous ≠ some o ∧ (o :: os).Nodup := by
      cases previous with
      | none => simp
      | some p =>
        have hp := (List.pairwise_append.1 hs).2.2 p (by simp)
        simp only [Option.toList_some, List.singleton_append, ne_eq, Option.some.injEq]
        rw [List.nodup_cons]
        refine and_congr_left fun _ => ?_
        constructor
        · rintro hmem rfl
          exact hmem (List.mem_cons_self)
        · intro hne hmem
          rcases List.mem_cons.1 hmem with h | h
          · exact hne h
          · have h1 := hp o (List.mem_cons_self)
            have h2 := (List.pairwise_cons.1 htail).1 p h
            exact hne (Nat.le_antisymm h2 h1)
    rw [conflicts, List.append_eq_nil_iff, List.append_eq_nil_iff, Option.toList_eq_nil_iff,
      placement?_eq_none_iff, ih, hprev, List.forall_mem_cons]
    simp only [Option.toList_some, List.singleton_append, ite_eq_right_iff, List.cons_ne_self,
      imp_false]
    tauto

theorem descending_perm (xs : List Insertion) : (descending xs).Perm xs :=
  List.mergeSort_perm _ _

theorem descending_pairwise (xs : List Insertion) :
    (descending xs).Pairwise fun x y => y.offset ≤ x.offset := by
  have h : (descending xs).Pairwise fun x y => decide (y.offset ≤ x.offset) = true := by
    refine List.pairwise_mergeSort (fun a b c hab hbc => ?_) (fun a b => ?_) xs
    · simp only [decide_eq_true_eq] at *; omega
    · simp only [Bool.or_eq_true, decide_eq_true_eq]; omega
  exact h.imp fun h => by simpa using h

theorem descending_pairwise_lt {xs : List Insertion} (hn : (xs.map (·.offset)).Nodup) :
    (descending xs).Pairwise fun x y => y.offset < x.offset := by
  have hd : ((descending xs).map (·.offset)).Nodup := ((descending_perm xs).map _).nodup_iff.2 hn
  have hne : (descending xs).Pairwise fun x y => x.offset ≠ y.offset := List.pairwise_map.1 hd
  exact (descending_pairwise xs).imp₂ (fun _ _ h1 h2 => by omega) hne

/-- Applying succeeds exactly if the offsets are boundaries and no two are equal. -/
theorem conflicts_descending_eq_nil_iff (text : List Char) (xs : List Insertion) :
    conflicts text none ((descending xs).map (·.offset)) = [] ↔
      (∀ x ∈ xs, isBoundary x.offset text = true) ∧ (xs.map (·.offset)).Nodup := by
  have hp := descending_perm xs
  rw [conflicts_eq_nil_iff text _ none (List.pairwise_map.2 (descending_pairwise xs)),
    Option.toList_none, List.nil_append, (hp.map _).nodup_iff, List.forall_mem_map]
  exact and_congr_left fun _ =>
    ⟨fun h x hx => h x (hp.mem_iff.2 hx), fun h x hx => h x (hp.mem_iff.1 hx)⟩

/-- Insertions at different boundaries are applied, and the new text is their splice. -/
theorem applyInsertions_eq_ok {text : List Char} {xs : List Insertion}
    (hb : ∀ x ∈ xs, isBoundary x.offset text = true) (hn : (xs.map (·.offset)).Nodup) :
    applyInsertions text xs =
      .ok ⟨splice (textAt xs) 0 text, (descending xs).map (·.offset)⟩ := by
  have hp := descending_perm xs
  have hd : ((descending xs).map (·.offset)).Nodup := (hp.map _).nodup_iff.2 hn
  unfold applyInsertions
  simp only
  rw [(conflicts_descending_eq_nil_iff text xs).2 ⟨hb, hn⟩]
  simp only
  rw [foldl_insertAt text _ (descending_pairwise_lt hn) fun x hx => hb x (hp.mem_iff.1 hx),
    textAt_perm hp hd]

/-- Only insertions at different boundaries are applied. -/
theorem boundaries_of_applyInsertions {text : List Char} {xs : List Insertion} {a : Applied}
    (h : applyInsertions text xs = .ok a) :
    (∀ x ∈ xs, isBoundary x.offset text = true) ∧ (xs.map (·.offset)).Nodup := by
  unfold applyInsertions at h
  simp only at h
  split at h
  · rename_i hc
    exact (conflicts_descending_eq_nil_iff text xs).1 hc
  · cases h

/-! ## Octets -/

theorem spliceOctets_append {mark : Nat → Octets} (bs : Octets) :
    ∀ (b : UInt8) (as : Octets) (i : Nat),
      (∀ o, i < o → o < i + (as.length + 1) → mark o = []) →
      spliceOctets mark i (b :: as ++ bs) =
        mark i ++ (b :: as) ++ spliceOctets mark (i + (as.length + 1)) bs
  | b, [], i, _ => by simp [spliceOctets]
  | b, a :: as, i, h => by
    have ih := spliceOctets_append bs a as (i + 1) fun o h1 h2 => h o (by omega) (by
      rw [List.length_cons]; omega)
    rw [h (i + 1) (by omega) (by rw [List.length_cons]; omega)] at ih
    rw [List.cons_append, spliceOctets, ih]
    simp only [List.length_cons, List.nil_append, List.append_assoc, List.cons_append]
    rw [show i + 1 + (as.length + 1) = i + (as.length + 1 + 1) by omega]

/-- The octets of a splice are the splice of the octets. -/
theorem encode_splice {mark : Nat → List Char} (i : Nat) (cs : List Char) (h : Fits mark i cs) :
    encode (splice mark i cs) = spliceOctets (fun o => encode (mark o)) i (encode cs) := by
  induction cs generalizing i with
  | nil => rfl
  | cons c cs ih =>
    have hlen := encodeChar_length c
    cases hc : encodeChar c with
    | nil =>
      have hw := width_pos c
      rw [hc, List.length_nil] at hlen
      omega
    | cons b bs =>
      rw [hc, List.length_cons] at hlen
      have hin : ∀ o, i < o → o < i + (bs.length + 1) → encode (mark o) = [] := by
        intro o h1 h2
        rw [h.inside h1 (by omega)]; rfl
      rw [splice, Text.encode_append, Text.encode_cons, ih _ h.tail, Text.encode_cons, hc,
        spliceOctets_append _ b bs i hin, hlen, List.append_assoc]

/-! ## Where offsets go -/

/-- The size of what is written from `i` up to and including `o`. -/
def added (mark : Nat → List Char) (i o : Nat) : Nat :=
  ∑ j ∈ Finset.Ico i (o + 1), size (mark j)

theorem added_self (mark : Nat → List Char) (i : Nat) : added mark i i = size (mark i) := by
  simp [added]

/-- Past a character, only what is written in front of it is left behind. -/
theorem added_of_fits {mark : Nat → List Char} {i o : Nat} {c : Char} {cs : List Char}
    (h : Fits mark i (c :: cs)) (ho : i + width c ≤ o) :
    added mark i o = size (mark i) + added mark (i + width c) o := by
  have hw := width_pos c
  unfold added
  rw [← Finset.sum_Ico_consecutive _ (show i ≤ i + width c by omega)
      (show i + width c ≤ o + 1 by omega), Finset.sum_eq_sum_Ico_succ_bot (by omega),
    Finset.sum_eq_zero, Nat.add_zero]
  intro j hj
  rw [Finset.mem_Ico] at hj
  rw [h.inside (by omega) hj.2]; rfl

/-- Strictly inside the first character, or past the end, only the first mark counts. -/
theorem added_of_none {mark : Nat → List Char} {i o : Nat} (hi : i ≤ o)
    (h : ∀ j, i < j → j ≤ o → mark j = []) : added mark i o = size (mark i) := by
  unfold added
  rw [Finset.sum_eq_sum_Ico_succ_bot (by omega), Finset.sum_eq_zero, Nat.add_zero]
  intro j hj
  rw [Finset.mem_Ico] at hj
  rw [h j (by omega) (by omega)]; rfl

/-- A cut of the new text at a moved offset is a cut of the old one, with what is written in its
front and at its end. -/
theorem splitAt?_splice {mark : Nat → List Char} (i o : Nat) (cs : List Char)
    (h : Fits mark i cs) (hi : i ≤ o) :
    (splitAt? (o - i + added mark i o) (splice mark i cs)).map (·.1) =
      (splitAt? (o - i) cs).map fun (l, _) => splice mark i l := by
  induction cs generalizing i with
  | nil =>
    rw [splice]
    rcases Nat.eq_or_lt_of_le hi with rfl | hlt
    · have hs := splitAt?_append (mark i) []
      rw [List.append_nil] at hs
      rw [Nat.sub_self, Nat.zero_add, added_self, hs]
      rfl
    · rw [added_of_none hi fun j hj _ => h.past hj, Nat.add_comm]
      have hs := splitAt?_size_add (mark i) [] (o - i)
      rw [List.append_nil] at hs
      rw [hs, splitAt?_nil_pos _ (by omega)]
      rfl
  | cons c cs ih =>
    rw [splice]
    rcases Nat.eq_or_lt_of_le hi with rfl | hlt
    · rw [Nat.sub_self, Nat.zero_add, added_self, splitAt?_append]
      rfl
    · rcases Nat.lt_or_ge o (i + width c) with hin | hout
      · rw [added_of_none hi fun j h1 h2 => h.inside h1 (by omega), Nat.add_comm,
          splitAt?_size_add, splitAt?_inside c _ _ (by omega) (by omega),
          splitAt?_inside c _ _ (by omega) (by omega)]
        rfl
      · have hlhs : o - i + added mark i o =
            size (mark i) + (width c + (o - (i + width c) + added mark (i + width c) o)) := by
          rw [added_of_fits h hout]; omega
        have hih := ih (i + width c) h.tail hout
        rw [hlhs, splitAt?_size_add, splitAt?_width_add,
          show o - i = width c + (o - (i + width c)) by omega, splitAt?_width_add]
        simp only [Option.map_map, Function.comp_def] at hih ⊢
        have hfront := congrArg (Option.map fun l => mark i ++ c :: l) hih
        simpa only [Option.map_map, Function.comp_def, splice] using hfront

/-- The end of a splice: what is written at the end of the text, or else its last character. -/
theorem getLast?_splice (mark : Nat → List Char) (i : Nat) (cs : List Char) :
    (splice mark i cs).getLast? =
      if mark (i + size cs) = [] then cs.getLast? else (mark (i + size cs)).getLast? := by
  induction cs generalizing i with
  | nil =>
    rw [splice, Text.size_nil, Nat.add_zero]
    split
    · rename_i h; rw [h]
    · rfl
  | cons c cs ih =>
    rw [splice, List.getLast?_append, List.getLast?_cons, List.getLast?_cons, ih, size_cons,
      Nat.add_assoc]
    split
    · rfl
    · rename_i h
      rw [List.getLast?_eq_some_getLast h]; rfl

end ExplicitSelf.Source
