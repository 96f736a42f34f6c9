import ExplicitSelf.Proofs.Source.Pasting
import ExplicitSelf.Proofs.Source.RoundTrip

/-!
# What a line table holds

The three lists of a `LineTable` are filled in one pass over the text, and each conversion looks up
a line in one of them and goes on with the same index in the others. That is right because the lists
are aligned: they have one entry for each line, and both lists of starts ascend (`Tabulates`).

Where the conversions look something up they have a value for the case that it is missing. That
value is never used. `guardedLineColumn?`, `guardedUnitOffset?` and `guardedByteOffset?` are the
conversions without it: they answer nothing at all if an index is past the end of its list, a
stretch is no part of the text, or a difference is negative.

Results:
* `tabulates_ofText`: the table of a text is aligned with its lines.
* `guardedLineColumn?_eq`, `guardedUnitOffset?_eq`, `guardedByteOffset?_eq`: every lookup succeeds.
* `lengthOfFirst_eq`: the lengths of the first lines add up to where the next line starts.
* `offsetAt?_eq_some_iff_lengthOfFirst`: the offset of a line and column, by the lengths of the
  lines.
* `ofText_spec`: all of this for every text.
-/
namespace ExplicitSelf.Source

open Text (size isBoundary splitAt? size_append isBoundary_iff splitAt?_eq_some_iff)

/-- Three lists of one entry for each line of a text: where the line starts, in octets and in units,
and whether it is ASCII. -/
structure Tabulates (t : LineTable) (text : List Char) : Prop where
  length_starts : t.starts.length = text.count '\n' + 1
  length_unitStarts : t.unitStarts.length = text.count '\n' + 1
  length_ascii : t.ascii.length = text.count '\n' + 1
  starts_ascend : t.starts.Pairwise (· < ·)
  unitStarts_ascend : t.unitStarts.Pairwise (· < ·)
  starts_first : t.starts[0]? = some 0
  unitStarts_first : t.unitStarts[0]? = some 0
  starts_next : ∀ l r, text = l ++ '\n' :: r →
    t.starts[l.count '\n' + 1]? = some (size (l ++ ['\n']))
  unitStarts_next : ∀ l r, text = l ++ '\n' :: r →
    t.unitStarts[l.count '\n' + 1]? = some (unitCount (l ++ ['\n']))
  ascii_line : ∀ (i : Nat) (line : List Char), (lines text)[i]? = some line →
    t.ascii[i]? = some (line.all isAscii)

/-! ## The starts of lines -/

/-- No line but the last is empty. -/
theorem ne_nil_of_lines {text line : List Char} {before after : List (List Char)}
    (h : lines text = before ++ line :: after) (hafter : after ≠ []) : line ≠ [] := by
  induction text generalizing before line with
  | nil =>
    have hlength := congrArg List.length h
    have hpos := List.length_pos_of_ne_nil hafter
    simp [lines] at hlength
    omega
  | cons c cs ih =>
    obtain ⟨l, ls, hcs⟩ := List.exists_cons_of_ne_nil (lines_ne_nil cs)
    rw [lines] at h
    split at h
    · cases before with
      | nil => cases h; simp
      | cons _ before => exact ih (List.cons.inj h).2
    · rw [hcs, List.modifyHead_cons] at h
      cases before with
      | nil => cases h; simp
      | cons _ before =>
        obtain ⟨_, rfl⟩ := List.cons.inj h
        have hlonger : lines cs = (l :: before) ++ line :: after := hcs
        exact ih hlonger

section
variable {measure : List Char → Nat}

/-- The starts of lines ascend by every measure that all lines but the last have. -/
theorem pairwise_lineStarts (i : Nat) {ls : List (List Char)}
    (hpos : ∀ before line after, ls = before ++ line :: after → after ≠ [] → 0 < measure line) :
    (lineStarts measure i ls).Pairwise (· < ·) ∧ ∀ s ∈ lineStarts measure i ls, i ≤ s := by
  induction ls generalizing i with
  | nil => simp [lineStarts]
  | cons l ls ih =>
    obtain ⟨hpairs, hle⟩ := ih (i + measure l) fun before line after h =>
      hpos (l :: before) line after (by rw [h]; rfl)
    rw [lineStarts]
    refine ⟨List.pairwise_cons.2 ⟨fun s hs => ?_, hpairs⟩, fun s hs => ?_⟩
    · have hl := hpos [] l ls rfl (by rintro rfl; cases hs)
      have := hle s hs
      omega
    · rcases List.mem_cons.1 hs with rfl | hs
      · omega
      · have := hle s hs
        omega

/-- The lines of a text that is cut behind a line feed. -/
theorem lines_cut (l r : List Char) :
    ∃ before, lines (l ++ '\n' :: r) = before ++ lines r ∧ before.length = l.count '\n' + 1 ∧
      before.flatten = l ++ ['\n'] := by
  induction l with
  | nil => exact ⟨[['\n']], by simp [lines_newline], by simp, by simp⟩
  | cons c l ih =>
    obtain ⟨before, hlines, hlength, hflatten⟩ := ih
    by_cases hc : c = '\n'
    · subst hc
      exact ⟨['\n'] :: before, by rw [List.cons_append, lines_newline, hlines, List.cons_append],
        by simp [hlength], by simp [hflatten]⟩
    · obtain ⟨m, ms, rfl⟩ : ∃ m ms, before = m :: ms :=
        List.exists_cons_of_ne_nil (by rintro rfl; simp at hlength)
      refine ⟨(c :: m) :: ms, ?_, ?_, ?_⟩
      · rw [List.cons_append, lines, if_neg hc, hlines]
        rfl
      · rw [List.count_cons_of_ne hc]
        exact hlength
      · rw [List.flatten_cons] at hflatten ⊢
        rw [List.cons_append, hflatten, List.cons_append]

theorem getElem?_lineStarts_zero (text : List Char) :
    (lineStarts measure 0 (lines text))[0]? = some 0 := by
  obtain ⟨l, ls, h⟩ := List.exists_cons_of_ne_nil (lines_ne_nil text)
  rw [h, lineStarts]
  rfl

/-- A line starts behind each line feed. -/
theorem getElem?_lineStarts_cut (hm : AddsUp measure) (l r : List Char) :
    (lineStarts measure 0 (lines (l ++ '\n' :: r)))[l.count '\n' + 1]? =
      some (measure (l ++ ['\n'])) := by
  obtain ⟨before, hlines, hlength, hflatten⟩ := lines_cut l r
  obtain ⟨line, after, hr⟩ := List.exists_cons_of_ne_nil (lines_ne_nil r)
  rw [hr] at hlines
  have hstart := FallsOn.getElem?_lineStarts hm hlines
  rwa [hlength, hflatten] at hstart

end

theorem size_pos {cs : List Char} (h : cs ≠ []) : 0 < size cs := by
  have := List.length_pos_of_ne_nil h
  have := Text.length_le_size cs
  omega

theorem unitCount_pos {cs : List Char} (h : cs ≠ []) : 0 < unitCount cs := by
  cases cs with
  | nil => exact absurd rfl h
  | cons c cs =>
    have := units_pos c
    rw [unitCount]
    omega

/-- The table of a text is aligned with its lines. -/
theorem tabulates_ofText (text : List Char) : Tabulates (.ofText text) text where
  length_starts := by rw [LineTable.ofText_starts, length_lineStarts, length_lines]
  length_unitStarts := by rw [LineTable.ofText_unitStarts, length_lineStarts, length_lines]
  length_ascii := by rw [LineTable.ofText_ascii, List.length_map, length_lines]
  starts_ascend := by
    rw [LineTable.ofText_starts]
    exact (pairwise_lineStarts 0 fun _ _ _ h hafter => size_pos (ne_nil_of_lines h hafter)).1
  unitStarts_ascend := by
    rw [LineTable.ofText_unitStarts]
    exact (pairwise_lineStarts 0 fun _ _ _ h hafter => unitCount_pos (ne_nil_of_lines h hafter)).1
  starts_first := by rw [LineTable.ofText_starts, getElem?_lineStarts_zero]
  unitStarts_first := by rw [LineTable.ofText_unitStarts, getElem?_lineStarts_zero]
  starts_next := by
    intro l r h
    subst h
    rw [LineTable.ofText_starts, getElem?_lineStarts_cut size_append]
  unitStarts_next := by
    intro l r h
    subst h
    rw [LineTable.ofText_unitStarts, getElem?_lineStarts_cut unitCount_append]
  ascii_line := by
    intro i line h
    rw [LineTable.ofText_ascii, List.getElem?_map, h]
    rfl

/-! ## Lookups -/

namespace LineTable

/-- The difference of two offsets, if there is one. -/
def sub? (a b : Nat) : Option Nat :=
  if b ≤ a then some (a - b) else none

theorem sub?_eq_some_iff {a b d : Nat} : sub? a b = some d ↔ b ≤ a ∧ a - b = d := by
  unfold sub?
  split
  · simp [*]
  · constructor
    · intro h; cases h
    · intro h; omega

/-- As `lineColumn?`, and nothing if a lookup fails. -/
def guardedLineColumn? (t : LineTable) (offset : Nat) : Option (Option LineColumn) :=
  if size t.text < offset then some none
  else do
    let i := lineIndex t.starts offset
    let start ← t.starts[i]?
    let inside ← sub? offset start
    return some ⟨.ofNat (i + 1), .ofNat (inside + 1)⟩

/-- As `unitOffset?`, and nothing if a lookup fails. -/
def guardedUnitOffset? (t : LineTable) (offset : Nat) : Option (Option Nat) :=
  if isBoundary offset t.text then do
    let i := lineIndex t.starts offset
    let start ← t.starts[i]?
    let ascii ← t.ascii[i]?
    let inside ← if ascii then sub? offset start else (stretch? t.text start offset).map unitCount
    let unitStart ← t.unitStarts[i]?
    return some (unitStart + inside)
  else some none

/-- As `byteOffset?`, and nothing if a lookup fails. -/
def guardedByteOffset? (t : LineTable) (offset : Nat) : Option (Except Overflow (Option Nat)) := do
  let i := lineIndex t.unitStarts offset
  let u ← t.unitStarts[i]?
  let start ← t.starts[i]?
  let ascii ← t.ascii[i]?
  if ascii then
    let inside ← sub? offset u
    return (addWords start inside).map fun byte => if byte ≤ size t.text then some byte else none
  else
    let rest ← stretch? t.text start (size t.text)
    return scanUnits offset start u rest

end LineTable

section
variable {text line : List Char} {before after : List (List Char)} {offset c : Nat}

/-- The line of a boundary is cut there. -/
theorem exists_cut_of_isBoundary (h : FallsOn size text offset before line after c)
    (hboundary : isBoundary offset text = true) :
    ∃ m r, text = before.flatten ++ (m ++ r) ∧ size m = c := by
  obtain ⟨l, r, htext, hl⟩ := isBoundary_iff.1 hboundary
  have hoffset := h.offset_eq
  obtain ⟨m, rfl, _⟩ := Text.exists_of_append_eq
    ((text_of_lines h.lines_eq).symm.trans htext) (by omega)
  rw [size_append] at hl
  exact ⟨m, r, by rw [htext, List.append_assoc], by omega⟩

end

theorem guardedLineColumn?_eq (text : List Char) (offset : Nat) :
    (LineTable.ofText text).guardedLineColumn? offset =
      some ((LineTable.ofText text).lineColumn? offset) := by
  obtain ⟨before, line, after, c, h⟩ := exists_fallsOn size_append text offset
  obtain ⟨hstart, _, _⟩ := entries_of_lines h.lines_eq
  have hindex := h.lineIndex_eq size_append
  rw [← LineTable.ofText_starts] at hindex
  have hinside : LineTable.sub? offset (size before.flatten) = some c :=
    LineTable.sub?_eq_some_iff.2 (by have := h.offset_eq; omega)
  unfold LineTable.guardedLineColumn?
  split
  · rename_i hpast
    rw [LineTable.lineColumn?_eq_none _ (by simpa using hpast)]
  · rename_i hin
    rw [lineColumn?_of_fallsOn (by simpa using hin) h]
    simp only [hindex, hstart, hinside, Option.bind_eq_bind, Option.bind_some, Option.pure_def]

theorem guardedUnitOffset?_eq (text : List Char) (offset : Nat) :
    (LineTable.ofText text).guardedUnitOffset? offset =
      some ((LineTable.ofText text).unitOffset? offset) := by
  obtain ⟨before, line, after, c, h⟩ := exists_fallsOn size_append text offset
  obtain ⟨hstart, hunits, hascii⟩ := entries_of_lines h.lines_eq
  obtain ⟨_, _, _, hafter⟩ := table_of_lines h.lines_eq
  have hindex := h.lineIndex_eq size_append
  rw [← LineTable.ofText_starts] at hindex
  have hoffset := h.offset_eq
  have hinside : LineTable.sub? offset (size before.flatten) = some c :=
    LineTable.sub?_eq_some_iff.2 (by omega)
  unfold LineTable.guardedUnitOffset? LineTable.unitOffset?
  rw [LineTable.ofText_text]
  split
  · rename_i hboundary
    obtain ⟨m, r, htext, hm⟩ := exists_cut_of_isBoundary h hboundary
    have hstretch : stretch? text (size before.flatten) offset = some m := by
      rw [htext, hoffset, ← hm, stretch?_append]
    have hrest : line ++ after.flatten = m ++ r :=
      List.append_cancel_left ((text_of_lines h.lines_eq).symm.trans htext)
    have hcut : splitAt? c (m ++ r) = some (m, r) := splitAt?_eq_some_iff.2 ⟨rfl, hm⟩
    have hdiff : offset - size before.flatten = c := by omega
    simp only [hindex, hstart, hunits, hascii, hafter, hrest, hdiff, hcut, hinside, hstretch,
      List.getD_eq_getElem?_getD, Option.getD_some, Option.map_some, Option.bind_eq_bind,
      Option.bind_some, Option.pure_def]
    split <;> rfl
  · rfl

theorem guardedByteOffset?_eq (text : List Char) (offset : Nat) :
    (LineTable.ofText text).guardedByteOffset? offset =
      some ((LineTable.ofText text).byteOffset? offset) := by
  obtain ⟨before, line, after, c, h⟩ := exists_fallsOn unitCount_append text offset
  obtain ⟨hstart, hunits, hascii⟩ := entries_of_lines h.lines_eq
  have hindex := h.lineIndex_eq unitCount_append
  rw [← LineTable.ofText_unitStarts] at hindex
  have hoffset := h.offset_eq
  have hinside : LineTable.sub? offset (unitCount before.flatten) = some c :=
    LineTable.sub?_eq_some_iff.2 (by omega)
  have hstretch : stretch? text (size before.flatten) (size text) =
      some (line ++ after.flatten) := by
    have hall := stretch?_append before.flatten (line ++ after.flatten) []
    rwa [List.append_nil, ← text_of_lines h.lines_eq, ← size_append,
      ← text_of_lines h.lines_eq] at hall
  rw [byteOffset?_of_fallsOn h]
  unfold LineTable.guardedByteOffset?
  simp only [LineTable.ofText_text, hindex, hstart, hunits, hascii, hinside, hstretch,
    Option.bind_eq_bind, Option.bind_some, Option.pure_def]
  split <;> rfl

/-! ## The lengths of lines -/

/-- The lengths of the first `n` lines together. -/
def LineTable.lengthOfFirst (t : LineTable) : Nat → Nat
  | 0 => 0
  | n + 1 => t.lengthOfFirst n + (t.lineLength? (.ofNat (n + 1))).getD 0

/-- The first lines are as long as the text in front of the next one. -/
theorem lengthOfFirst_of_lines {text : List Char} {before after : List (List Char)}
    (h : lines text = before ++ after) (hcount : before.length < UInt32.size) :
    (LineTable.ofText text).lengthOfFirst before.length = size before.flatten := by
  induction before using List.reverseRecOn generalizing after with
  | nil => rfl
  | append_singleton before line ih =>
    rw [List.length_append, List.length_singleton] at hcount
    rw [List.append_assoc] at h
    have hline : (UInt32.ofNat (before.length + 1)).toNat = before.length + 1 :=
      UInt32.toNat_ofNat_of_lt' hcount
    rw [List.length_append, List.length_singleton, LineTable.lengthOfFirst, ih h (by omega),
      lineLength?_of_lines h hline]
    simp

/-- The first lines are as long as where the next one starts, or as the text if there is none. -/
theorem lengthOfFirst_eq {text : List Char} {n : Nat} (hn : n ≤ text.count '\n' + 1)
    (hcount : n < UInt32.size) :
    (LineTable.ofText text).lengthOfFirst n = (LineTable.ofText text).starts.getD n
      (size text) := by
  have hlines := (List.take_append_drop n (lines text)).symm
  have hlength : ((lines text).take n).length = n := by
    rw [List.length_take, length_lines]
    omega
  have hfirst := lengthOfFirst_of_lines hlines (by omega)
  rw [hlength] at hfirst
  rw [hfirst, LineTable.ofText_starts]
  cases hrest : (lines text).drop n with
  | nil =>
    have hall : (lines text).take n = lines text := by
      rw [hrest, List.append_nil] at hlines
      exact hlines.symm
    have hpast : (lineStarts size 0 (lines text)).length ≤ n := by
      rw [length_lineStarts, ← hall, hlength]
    rw [hall, lines_flatten, List.getD_eq_getElem?_getD, List.getElem?_eq_none hpast]
    rfl
  | cons line after =>
    rw [hrest] at hlines
    have hstart := FallsOn.getElem?_lineStarts size_append hlines
    rw [hlength] at hstart
    rw [List.getD_eq_getElem?_getD, hstart]
    rfl

/-- A line and column stand for the offset that many octets behind the lines before, if the line has
so many, or on the last line at its end. -/
theorem offsetAt?_eq_some_iff_lengthOfFirst {text : List Char} {line column : UInt32} {o : Nat} :
    (LineTable.ofText text).offsetAt? line column = some o ↔
      (1 ≤ line.toNat ∧ line.toNat ≤ text.count '\n' + 1) ∧ 1 ≤ column.toNat ∧
        (∃ n, (LineTable.ofText text).lineLength? line = some n ∧
          (column.toNat - 1 < n ∨ line.toNat = text.count '\n' + 1 ∧ column.toNat - 1 = n)) ∧
        o = (LineTable.ofText text).lengthOfFirst (line.toNat - 1) + (column.toNat - 1) := by
  by_cases hline : 1 ≤ line.toNat ∧ line.toNat ≤ text.count '\n' + 1
  · have hpos : line.toNat ≠ 0 := by omega
    have hcount : line.toNat ≤ (lines text).length := by rw [length_lines]; exact hline.2
    obtain ⟨before, here, after, h, hnumber⟩ := exists_line_of_number hpos hcount
    have hfirst : (LineTable.ofText text).lengthOfFirst (line.toNat - 1) = size before.flatten := by
      have hcount := line.toNat_lt_size
      rw [hnumber, Nat.add_sub_cancel]
      exact lengthOfFirst_of_lines h (by omega)
    have hlast : line.toNat = text.count '\n' + 1 ↔ after = [] := by
      rw [hnumber, ← length_lines, h, List.length_append, List.length_cons]
      refine ⟨fun hlength => List.eq_nil_of_length_eq_zero (by omega), fun hnil => ?_⟩
      rw [hnil]
      rfl
    rw [offsetAt?_of_lines h hnumber, lineLength?_of_lines h hnumber, hfirst, hlast]
    simp only [hline, true_and, and_self, Option.some.injEq, exists_eq_left']
    by_cases hafter : after = []
    · simp only [hafter, ne_eq, not_true_eq_false, and_false, or_false, true_and]
      split
      · simp only [reduceCtorEq, false_iff]
        omega
      · simp only [Option.some.injEq]
        omega
    · simp only [hafter, ne_eq, not_false_eq_true, and_true, false_and, or_false]
      split
      · simp only [reduceCtorEq, false_iff]
        omega
      · simp only [Option.some.injEq]
        omega
  · have hpast : line = 0 ∨ (lines text).length < line.toNat := by
      rw [length_lines]
      by_cases hzero : line = 0
      · exact .inl hzero
      · have : line.toNat ≠ 0 := fun h => hzero (UInt32.toNat_inj.1 h)
        exact .inr (by omega)
    rw [offsetAt?_past_lines hpast]
    simp [hline]

/-! ## All of it -/

/-- The table of a text: its three lists are aligned with the lines, so no lookup fails, and the
lengths of the lines add up to the text and give the offset of every line and column. A line has a
number of 32 bits; the first lines that have one add up to where the next one starts. -/
theorem ofText_spec (text : List Char) :
    Tabulates (.ofText text) text ∧
      (∀ offset,
        (LineTable.ofText text).guardedLineColumn? offset =
            some ((LineTable.ofText text).lineColumn? offset) ∧
          (LineTable.ofText text).guardedUnitOffset? offset =
            some ((LineTable.ofText text).unitOffset? offset) ∧
          (LineTable.ofText text).guardedByteOffset? offset =
            some ((LineTable.ofText text).byteOffset? offset)) ∧
      (text.count '\n' + 1 < UInt32.size →
        (LineTable.ofText text).lengthOfFirst (text.count '\n' + 1) = size text) ∧
      (∀ n, n ≤ text.count '\n' + 1 → n < UInt32.size →
        (LineTable.ofText text).lengthOfFirst n =
          (LineTable.ofText text).starts.getD n (size text)) ∧
      ∀ (line column : UInt32) o, (LineTable.ofText text).offsetAt? line column = some o ↔
        (1 ≤ line.toNat ∧ line.toNat ≤ text.count '\n' + 1) ∧ 1 ≤ column.toNat ∧
          (∃ n, (LineTable.ofText text).lineLength? line = some n ∧
            (column.toNat - 1 < n ∨ line.toNat = text.count '\n' + 1 ∧ column.toNat - 1 = n)) ∧
          o = (LineTable.ofText text).lengthOfFirst (line.toNat - 1) + (column.toNat - 1) := by
  have htable := tabulates_ofText text
  refine ⟨htable, fun offset => ?_, fun hcount => ?_, fun n hn hcount => lengthOfFirst_eq hn hcount,
    fun line column o => offsetAt?_eq_some_iff_lengthOfFirst⟩
  · exact ⟨guardedLineColumn?_eq text offset, guardedUnitOffset?_eq text offset,
      guardedByteOffset?_eq text offset⟩
  · rw [lengthOfFirst_eq (Nat.le_refl _) hcount, List.getD_eq_getElem?_getD,
      List.getElem?_eq_none (Nat.le_of_eq htable.length_starts)]
    rfl

/-- The second line starts behind three octets and two units, and its end has an offset. -/
theorem ofText_spec_accented :
    "é\nab".toList.count '\n' + 1 < UInt32.size ∧
      (LineTable.ofText "é\nab".toList).lengthOfFirst 2 = 5 ∧
      (LineTable.ofText "é\nab".toList).starts = [0, 3] ∧
      (LineTable.ofText "é\nab".toList).unitStarts = [0, 2] ∧
      (LineTable.ofText "é\nab".toList).ascii = [false, true] ∧
      (LineTable.ofText "é\nab".toList).offsetAt? 2 3 = some 5 ∧
      (LineTable.ofText "é\nab".toList).offsetAt? 1 4 = none := by
  obtain ⟨_, _, hsum, _, hoffset⟩ := ofText_spec "é\nab".toList
  exact ⟨by decide, hsum (by decide), by decide, by decide, by decide,
    (hoffset 2 3 5).2 ⟨by decide, by decide, ⟨2, by decide, by decide⟩, by decide⟩, by decide⟩

end ExplicitSelf.Source
