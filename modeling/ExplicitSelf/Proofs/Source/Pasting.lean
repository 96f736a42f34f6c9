import ExplicitSelf.Proofs.Source.Splice
import Mathlib.Data.List.Permutation

/-!
# Insertions as stretches of a text and new texts in turn

With its insertions, a text reads from front to back: the stretch up to the first offset, what is
inserted there, the stretch up to the next offset, and so on to the end. `paste?` writes this down;
it cuts the text as it was, and only at boundaries. `applyInsertions` goes the other way: it inserts
into a text that has grown behind the offset at hand, and is the old one in front of it.

Where insertions are refused, `verdicts` goes over their offsets and says what is wrong with each.

Results:
* `paste?_eq_some`: pasting is the splice.
* `exists_of_paste?`: where an inserted text stands.
* `isBoundary_foldl_insertAt`: an offset in front of all that is done is a boundary of the text so
  far.
* `conflicts_eq_verdicts`: the conflicts, offset by offset.
* `applyInsertions_all_or_nothing`: all insertions are made, each in its place, or every conflict is
  named.
-/
namespace ExplicitSelf.Source

open Text (size splitAt? isBoundary size_append splitAt?_append splitAt?_eq_some_iff isBoundary_iff
  isBoundary_size_add)

/-- The stretch of a text between two offsets, if both are boundaries. -/
def stretch? (text : List Char) (i j : Nat) : Option (List Char) :=
  (splitAt? j text).bind fun (l, _) => (splitAt? i l).map (·.2)

/-- The text from offset `i` on with insertions, the first offset first. -/
def paste? (text : List Char) : (i : Nat) → List Insertion → Option (List Char)
  | i, [] => stretch? text i (size text)
  | i, x :: xs =>
    (stretch? text i x.offset).bind fun s =>
      (paste? text x.offset xs).map fun rest => s ++ x.text ++ rest

theorem stretch?_append (l m r : List Char) :
    stretch? (l ++ (m ++ r)) (size l) (size l + size m) = some m := by
  have hcut : splitAt? (size l + size m) (l ++ (m ++ r)) = some (l ++ m, r) :=
    splitAt?_eq_some_iff.2 ⟨by simp, by simp⟩
  simp [stretch?, hcut, splitAt?_append]

theorem size_of_stretch? {text s : List Char} {i j : Nat} (h : stretch? text i j = some s) :
    i + size s = j := by
  obtain ⟨⟨l, r⟩, hcut, hs⟩ := Option.bind_eq_some_iff.1 h
  obtain ⟨⟨a, b⟩, hfront, rfl⟩ := Option.map_eq_some_iff.1 hs
  obtain ⟨rfl, rfl⟩ := splitAt?_eq_some_iff.1 hfront
  obtain ⟨_, rfl⟩ := splitAt?_eq_some_iff.1 hcut
  simp

/-! ## Pasting -/

/-- Pasting is the splice. What is behind `l` is still to be written, `l` itself is left alone. -/
theorem paste?_eq_some {xs : List Insertion} {l r : List Char}
    (hs : xs.Pairwise fun x y => x.offset < y.offset)
    (hb : ∀ x ∈ xs, isBoundary x.offset (l ++ r) = true) (hl : ∀ x ∈ xs, size l ≤ x.offset) :
    paste? (l ++ r) (size l) xs = some (splice (textAt xs) (size l) r) := by
  induction xs generalizing l r with
  | nil =>
    have hrest := stretch?_append l r []
    rw [List.append_nil, ← size_append] at hrest
    have hnone : textAt [] = fun _ => [] := rfl
    rw [paste?, hrest, hnone, splice_empty]
  | cons x xs ih =>
    obtain ⟨hx, hs⟩ := List.pairwise_cons.1 hs
    have hle : size l ≤ x.offset := hl x (.head _)
    -- the offset lies behind `l`, so it cuts `r`
    obtain ⟨m, r, rfl, hm⟩ : ∃ m r', r = m ++ r' ∧ size m = x.offset - size l := by
      have hxb := hb x (.head _)
      rw [show x.offset = size l + (x.offset - size l) by omega, isBoundary_size_add] at hxb
      exact isBoundary_iff.1 hxb
    have hoffset : x.offset = size l + size m := by omega
    have hfirst : ∀ o, o ≤ x.offset → textAt xs o = [] := by
      intro o ho
      apply textAt_of_ne
      intro y hy
      have := hx y hy
      omega
    have hmark : textAt (x :: xs) = Function.update (textAt xs) x.offset x.text := by
      funext o
      rw [textAt_cons, Function.update_apply]
      simp only [eq_comm]
    have hsplice : splice (textAt (x :: xs)) (size l) (m ++ r) =
        m ++ (x.text ++ splice (textAt xs) x.offset r) := by
      rw [hmark, splice_append, ← hoffset, splice_update_start _ _ _ _ (hfirst _ (Nat.le_refl _))]
      intro o _ ho
      rw [Function.update_of_ne (by omega)]
      exact hfirst o (by omega)
    have hrest : paste? (l ++ (m ++ r)) x.offset xs = some (splice (textAt xs) x.offset r) := by
      have hgrown := ih (l := l ++ m) (r := r) hs
        (fun y hy => by rw [List.append_assoc]; exact hb y (.tail _ hy))
        (fun y hy => by have := hx y hy; rw [size_append]; omega)
      rwa [List.append_assoc, size_append, ← hoffset] at hgrown
    rw [paste?, hoffset, stretch?_append, ← hoffset, hrest, hsplice]
    simp

/-- An inserted text stands behind its offset by as much as is inserted before it. -/
theorem exists_of_paste? {text t : List Char} {i : Nat} {before after : List Insertion}
    {x : Insertion} (h : paste? text i (before ++ x :: after) = some t) :
    ∃ l r, t = l ++ x.text ++ r ∧ i + size l = x.offset + (before.map (size ·.text)).sum := by
  induction before generalizing i t with
  | nil =>
    obtain ⟨s, hs, h⟩ := Option.bind_eq_some_iff.1 h
    obtain ⟨rest, _, rfl⟩ := Option.map_eq_some_iff.1 h
    exact ⟨s, rest, rfl, by simpa using size_of_stretch? hs⟩
  | cons y before ih =>
    obtain ⟨s, hs, h⟩ := Option.bind_eq_some_iff.1 h
    obtain ⟨rest, hrest, rfl⟩ := Option.map_eq_some_iff.1 h
    obtain ⟨l, r, rfl, hl⟩ := ih hrest
    have hsize := size_of_stretch? hs
    refine ⟨s ++ y.text ++ l, r, by simp, ?_⟩
    simp only [size_append, List.map_cons, List.sum_cons]
    omega

/-- In ascending order, the insertions before one of them are those at smaller offsets. -/
theorem filter_before {before after : List Insertion} {x : Insertion}
    (hs : (before ++ x :: after).Pairwise fun x y => x.offset < y.offset) :
    (before ++ x :: after).filter (·.offset < x.offset) = before := by
  obtain ⟨_, hrest, hbefore⟩ := List.pairwise_append.1 hs
  have hlow : before.filter (·.offset < x.offset) = before := by
    apply List.filter_eq_self.2
    intro y hy
    simpa using hbefore y hy x (.head _)
  have hhigh : (x :: after).filter (·.offset < x.offset) = [] := by
    apply List.filter_eq_nil_iff.2
    intro y hy
    rcases List.mem_cons.1 hy with rfl | hy
    · simp
    · have := (List.pairwise_cons.1 hrest).1 y hy
      simp
      omega
  rw [List.filter_append, hlow, hhigh, List.append_nil]

/-! ## The work, step by step -/

/-- Insertions at greater offsets leave an offset a boundary: the text in front of it is the old
one. -/
theorem isBoundary_foldl_insertAt {text : List Char} {done : List Insertion} {o : Nat}
    (hs : done.Pairwise fun x y => y.offset < x.offset)
    (hb : ∀ x ∈ done, isBoundary x.offset text = true) (ho : ∀ x ∈ done, o < x.offset)
    (hob : isBoundary o text = true) : isBoundary o (done.foldl insertAt text) = true := by
  obtain ⟨l, r, rfl, rfl⟩ := isBoundary_iff.1 hob
  have hfront : ∀ p, 0 ≤ p → p < 0 + size l → textAt done p = [] := by
    intro p _ hp
    apply textAt_of_ne
    intro x hx
    have := ho x hx
    omega
  rw [foldl_insertAt _ done hs hb, splice_append 0 l r hfront]
  exact isBoundary_iff.2 ⟨l, _, rfl, rfl⟩

/-! ## Verdicts -/

/-- What is wrong with the offset at place `i` of some offsets: where it lies, then that it repeats
the one before it. -/
def verdict (text : List Char) (os : List Nat) : (place : Nat × Nat) → List Conflict
  | (o, i) =>
    (if size text < o then [.outOfBounds o (size text)]
      else if isBoundary o text then [] else [.insideCharacter o])
    ++ if 0 < i ∧ os[i - 1]? = some o then [.duplicate o] else []

/-- What is wrong with each of some offsets. -/
def verdicts (text : List Char) (os : List Nat) : List Conflict :=
  os.zipIdx.flatMap (verdict text os)

theorem placement?_toList (text : List Char) (o : Nat) :
    (placement? text o).toList =
      if size text < o then [.outOfBounds o (size text)]
      else if isBoundary o text then [] else [.insideCharacter o] := by
  unfold placement?
  split
  · rfl
  · split <;> rfl

theorem getLast?_eq_some_iff_getElem? (before os : List Nat) (o : Nat) :
    before.getLast? = some o ↔ 0 < before.length ∧ (before ++ os)[before.length - 1]? = some o := by
  cases before with
  | nil => simp
  | cons p ps =>
    rw [List.getLast?_eq_getElem?, List.getElem?_append_left (by simp)]
    simp

/-- Conflicts are found offset by offset. -/
theorem conflicts_eq_verdicts (text : List Char) (os : List Nat) :
    conflicts text none os = verdicts text os := by
  -- `os` is what is left of the offsets, `before` what was seen of them
  have hwalk : ∀ (os before : List Nat), conflicts text before.getLast? os =
      (os.zipIdx before.length).flatMap (verdict text (before ++ os)) := by
    intro os
    induction os with
    | nil => intro before; rfl
    | cons o os ih =>
      intro before
      have hrest := ih (before ++ [o])
      rw [List.getLast?_concat, List.length_append, List.length_singleton, List.append_assoc,
        List.singleton_append] at hrest
      rw [conflicts, hrest, placement?_toList, List.zipIdx_cons, List.flatMap_cons, verdict]
      simp only [getLast?_eq_some_iff_getElem? before (o :: os) o]
  exact hwalk os []

/-! ## All or nothing -/

/-- The new text and the order of work are those of a set of insertions. -/
structure Exact (text : List Char) (xs : List Insertion) (a : Applied) : Prop where
  /-- The work goes from the last offset to the first. -/
  order_eq : a.order = (descending xs).map (·.offset)
  order_perm : a.order.Perm (xs.map (·.offset))
  order_descending : a.order.Pairwise (· > ·)
  /-- Each step inserts at a boundary of the text that the steps before it made. -/
  step_boundary : ∀ done x rest, descending xs = done ++ x :: rest →
    isBoundary x.offset (done.foldl insertAt text) = true
  text_eq : a.text = (descending xs).foldl insertAt text
  /-- The new text is pasted together in ascending order. -/
  text_pasted : ∃ ys, ys.Perm xs ∧ ys.Pairwise (fun x y => x.offset < y.offset) ∧
    paste? text 0 ys = some a.text
  /-- Each inserted text is moved by what is inserted at smaller offsets. -/
  text_at : ∀ x ∈ xs, ∃ l r, a.text = l ++ x.text ++ r ∧
    size l = x.offset + ((xs.filter (·.offset < x.offset)).map (size ·.text)).sum

theorem exact_of_applyInsertions {text : List Char} {xs : List Insertion} {a : Applied}
    (h : applyInsertions text xs = .ok a) : Exact text xs a := by
  obtain ⟨hb, hn⟩ := boundaries_of_applyInsertions h
  rw [applyInsertions_eq_ok hb hn] at h
  cases h
  have hp := descending_perm xs
  have hs := descending_pairwise_lt hn
  have hbd : ∀ x ∈ descending xs, isBoundary x.offset text = true :=
    fun x hx => hb x (hp.mem_iff.1 hx)
  have hrev := (List.reverse_perm (descending xs)).trans hp
  have hascending : (descending xs).reverse.Pairwise fun x y => x.offset < y.offset :=
    List.pairwise_reverse.2 hs
  have hpaste : paste? text 0 (descending xs).reverse = some (splice (textAt xs) 0 text) := by
    have hpasted := paste?_eq_some (l := []) (r := text) hascending
      (fun x hx => hb x (hrev.mem_iff.1 hx)) (fun _ _ => Nat.zero_le _)
    rwa [textAt_perm hrev ((hrev.map _).nodup_iff.2 hn)] at hpasted
  refine ⟨rfl, hp.map _, List.pairwise_map.2 hs, ?_, ?_, ⟨_, hrev, hascending, hpaste⟩, ?_⟩
  · intro done x rest hwork
    rw [hwork] at hs hbd
    obtain ⟨hdone, _, hlast⟩ := List.pairwise_append.1 hs
    exact isBoundary_foldl_insertAt hdone (fun y hy => hbd y (List.mem_append_left _ hy))
      (fun y hy => hlast y hy x (.head _)) (hbd x (by simp))
  · rw [foldl_insertAt text _ hs hbd, textAt_perm hp ((hp.map _).nodup_iff.2 hn)]
  · intro x hx
    obtain ⟨before, after, hsplit⟩ := List.append_of_mem (hrev.mem_iff.2 hx)
    rw [hsplit] at hpaste hascending hrev
    obtain ⟨l, r, htext, hl⟩ := exists_of_paste? hpaste
    have hbefore := (hrev.filter (·.offset < x.offset)).map (size ·.text)
    rw [filter_before hascending] at hbefore
    exact ⟨l, r, htext, by rw [← hbefore.sum_eq]; omega⟩

/-- Insertions are all made, each in its place, or none is and every conflict is named, offset by
offset from the last to the first. -/
theorem applyInsertions_all_or_nothing (text : List Char) (xs : List Insertion) :
    ((∃ a, applyInsertions text xs = .ok a) ↔ (xs.map (·.offset)).Nodup ∧
        ∀ x ∈ xs, x.offset ≤ size text ∧ isBoundary x.offset text = true) ∧
      (∀ a, applyInsertions text xs = .ok a → Exact text xs a) ∧
      ∀ cs, applyInsertions text xs = .error cs →
        ∃ os, os.Perm (xs.map (·.offset)) ∧ os.Pairwise (· ≥ ·) ∧ cs = verdicts text os := by
  refine ⟨⟨?_, ?_⟩, fun a => exact_of_applyInsertions, ?_⟩
  · rintro ⟨a, h⟩
    obtain ⟨hb, hn⟩ := boundaries_of_applyInsertions h
    exact ⟨hn, fun x hx => ⟨Text.isBoundary_le (hb x hx), hb x hx⟩⟩
  · rintro ⟨hn, hb⟩
    exact ⟨_, applyInsertions_eq_ok (fun x hx => (hb x hx).2) hn⟩
  · intro cs h
    refine ⟨(descending xs).map (·.offset), (descending_perm xs).map _,
      List.pairwise_map.2 (descending_pairwise xs), ?_⟩
    rw [← conflicts_eq_verdicts]
    unfold applyInsertions at h
    simp only at h
    split at h
    · cases h
    · cases h
      rfl

theorem applyInsertions_all_or_nothing_accented :
    Exact "aé\nb".toList [⟨0, ['é']⟩, ⟨5, ['!']⟩, ⟨3, ['.']⟩] ⟨"éaé.\nb!".toList, [5, 3, 0]⟩ ∧
      ∃ os, os.Perm [2, 9, 2] ∧ os.Pairwise (· ≥ ·) ∧
        [.outOfBounds 9 5, .insideCharacter 2, .insideCharacter 2, .duplicate 2] =
          verdicts "aé\nb".toList os := by
  have hok : applyInsertions "aé\nb".toList [⟨0, ['é']⟩, ⟨5, ['!']⟩, ⟨3, ['.']⟩] =
      .ok ⟨"éaé.\nb!".toList, [5, 3, 0]⟩ := by cbv
  have herror : applyInsertions "aé\nb".toList [⟨2, ['!']⟩, ⟨9, ['!']⟩, ⟨2, ['.']⟩] =
      .error [.outOfBounds 9 5, .insideCharacter 2, .insideCharacter 2, .duplicate 2] := by cbv
  exact ⟨(applyInsertions_all_or_nothing _ _).2.1 _ hok,
    (applyInsertions_all_or_nothing _ _).2.2 _ herror⟩

end ExplicitSelf.Source
