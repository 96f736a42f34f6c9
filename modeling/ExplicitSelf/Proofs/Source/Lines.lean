import ExplicitSelf.Proofs.Source.Positions

/-!
# The lines of a text

A line ends after its line feed; what follows the last line feed is the last line, which may be
empty. A `LineTable` is a table of these lines: where each starts, in octets and in UTF-16 units,
and whether it is ASCII. So what the conversions look up is said here in terms of lines: an offset
falls on a line, some way behind its start (`FallsOn`), in octets as in units.

Results:
* `lines_flatten`: the lines make up the text.
* `ofText_starts`, `ofText_unitStarts`, `ofText_ascii`: the table of a text, by its lines.
* `exists_fallsOn`, `FallsOn.lineIndex_eq`: every offset falls on a line, the one that is looked up.
* `standsAt_iff`, `StandsAt.unique`: what stands on a line, and that it stands nowhere else.
* `lineColumn?_eq_some_iff`: the line and column of an offset.
-/
namespace ExplicitSelf.Source

open Text (width size size_cons size_append size_nil)

/-- The lines of a text, each with its line feed; the last has none. -/
def lines : List Char → List (List Char)
  | [] => [[]]
  | c :: cs => if c = '\n' then [c] :: lines cs else (lines cs).modifyHead (c :: ·)

theorem lines_newline (cs : List Char) : lines ('\n' :: cs) = ['\n'] :: lines cs := by
  rw [lines, if_pos rfl]

theorem lines_ne_nil (cs : List Char) : lines cs ≠ [] := by
  induction cs with
  | nil => simp [lines]
  | cons c cs ih =>
    rw [lines]
    split
    · simp
    · simpa using ih

/-- A front without line feeds belongs to the first line. -/
theorem lines_append {front : List Char} (h : '\n' ∉ front) {cs l : List Char}
    {ls : List (List Char)}
    (hcs : lines cs = l :: ls) : lines (front ++ cs) = (front ++ l) :: ls := by
  induction front with
  | nil => exact hcs
  | cons c front ih =>
    rw [List.mem_cons, not_or] at h
    rw [List.cons_append, lines, if_neg (Ne.symm h.1), ih h.2]
    rfl

/-- The lines make up the text. -/
theorem lines_flatten (cs : List Char) : (lines cs).flatten = cs := by
  induction cs with
  | nil => rfl
  | cons c cs ih =>
    by_cases hc : c = '\n'
    · subst hc
      rw [lines_newline, List.flatten_cons, ih]
      rfl
    · obtain ⟨l, ls, hcs⟩ := List.exists_cons_of_ne_nil (lines_ne_nil cs)
      rw [hcs, List.flatten_cons] at ih
      rw [lines, if_neg hc, hcs, List.modifyHead_cons, List.flatten_cons, List.cons_append, ih]

/-- The text before and after a line. -/
theorem text_of_lines {text line : List Char} {before after : List (List Char)}
    (h : lines text = before ++ line :: after) :
    text = before.flatten ++ (line ++ after.flatten) := by
  rw [← List.flatten_cons, ← List.flatten_append, ← h, lines_flatten]

/-! ## The table of a text -/

theorem unitCount_append (l r : List Char) : unitCount (l ++ r) = unitCount l + unitCount r := by
  induction l with
  | nil => simp [unitCount]
  | cons c l ih => rw [List.cons_append, unitCount, ih, unitCount, Nat.add_assoc]

/-- A measure of texts that adds up, as octets and units do. -/
def AddsUp (measure : List Char → Nat) : Prop :=
  ∀ l r, measure (l ++ r) = measure l + measure r

theorem AddsUp.nil {measure : List Char → Nat} (hm : AddsUp measure) : measure [] = 0 := by
  have h := hm [] []
  rw [List.append_nil] at h
  omega

/-- Where lines start by some measure, the first of them at `i`. -/
def lineStarts (measure : List Char → Nat) : (i : Nat) → List (List Char) → List Nat
  | _, [] => []
  | i, l :: ls => i :: lineStarts measure (i + measure l) ls

/-- A table lists the starts of the lines after the current one, and the flags from the current one
on. -/
theorem tabulate_eq (i u : Nat) (flag : Bool) {cs l : List Char} {ls : List (List Char)}
    (h : lines cs = l :: ls) :
    tabulate i u flag cs = (lineStarts size (i + size l) ls,
      lineStarts unitCount (u + unitCount l) ls,
      (flag && l.all isAscii) :: ls.map (·.all isAscii)) := by
  induction cs generalizing i u flag l ls with
  | nil =>
    cases h
    simp [tabulate, lineStarts]
  | cons c cs ih =>
    obtain ⟨l', ls', hcs⟩ := List.exists_cons_of_ne_nil (lines_ne_nil cs)
    rw [tabulate]
    by_cases hc : c = '\n'
    · subst hc
      rw [lines_newline, hcs] at h
      cases h
      rw [if_pos rfl, ih _ _ _ hcs]
      simp [lineStarts, unitCount]
    · rw [lines, if_neg hc, hcs] at h
      cases h
      rw [if_neg hc, ih _ _ _ hcs]
      simp [unitCount, Nat.add_assoc, Bool.and_assoc]

namespace LineTable

theorem ofText_starts (text : List Char) :
    (ofText text).starts = lineStarts size 0 (lines text) := by
  obtain ⟨l, ls, h⟩ := List.exists_cons_of_ne_nil (lines_ne_nil text)
  simp only [ofText, tabulate_eq 0 0 true h, h, lineStarts]

theorem ofText_unitStarts (text : List Char) :
    (ofText text).unitStarts = lineStarts unitCount 0 (lines text) := by
  obtain ⟨l, ls, h⟩ := List.exists_cons_of_ne_nil (lines_ne_nil text)
  simp only [ofText, tabulate_eq 0 0 true h, h, lineStarts]

theorem ofText_ascii (text : List Char) :
    (ofText text).ascii = (lines text).map (·.all isAscii) := by
  obtain ⟨l, ls, h⟩ := List.exists_cons_of_ne_nil (lines_ne_nil text)
  simp only [ofText, tabulate_eq 0 0 true h, h, List.map_cons, Bool.true_and]

end LineTable

/-! ## Looking up a line -/

section
variable {measure : List Char → Nat} {text : List Char} {offset : Nat}
  {before after : List (List Char)} {line : List Char} {c : Nat}

theorem lineStarts_append (hm : AddsUp measure) (i : Nat)
    (ls ms : List (List Char)) :
    lineStarts measure i (ls ++ ms) =
      lineStarts measure i ls ++ lineStarts measure (i + measure ls.flatten) ms := by
  induction ls generalizing i with
  | nil => simp [lineStarts, hm.nil]
  | cons l ls ih =>
    rw [List.cons_append, lineStarts, ih, lineStarts, List.flatten_cons, hm, List.cons_append,
      Nat.add_assoc]

theorem length_lineStarts (i : Nat) (ls : List (List Char)) :
    (lineStarts measure i ls).length = ls.length := by
  induction ls generalizing i with
  | nil => rfl
  | cons l ls ih => rw [lineStarts, List.length_cons, List.length_cons, ih]

theorem le_of_mem_lineStarts (hm : AddsUp measure) {i : Nat}
    {ls : List (List Char)} {s : Nat} (hs : s ∈ lineStarts measure i ls) :
    s ≤ i + measure ls.flatten := by
  induction ls generalizing i with
  | nil => cases hs
  | cons l ls ih =>
    rw [List.flatten_cons, hm]
    rcases List.mem_cons.1 hs with rfl | hs
    · omega
    · have := ih hs
      omega

/-- By some measure, an offset falls on a line of a text, `c` behind its start. What is past the end
falls on the last line. -/
structure FallsOn (measure : List Char → Nat) (text : List Char) (offset : Nat)
    (before : List (List Char)) (line : List Char) (after : List (List Char)) (c : Nat) : Prop where
  lines_eq : lines text = before ++ line :: after
  offset_eq : offset = measure before.flatten + c
  inside : c < measure line ∨ after = []

/-- Every offset falls on a line. -/
theorem exists_fallsOn (hm : AddsUp measure) (text : List Char)
    (offset : Nat) : ∃ before line after c, FallsOn measure text offset before line after c := by
  have hlines : ∀ (ls : List (List Char)) (o : Nat), ls ≠ [] → ∃ before line after c,
      ls = before ++ line :: after ∧ o = measure before.flatten + c ∧
        (c < measure line ∨ after = []) := by
    intro ls
    induction ls with
    | nil => intro o hne; exact absurd rfl hne
    | cons l ls ih =>
      intro o _
      by_cases hl : o < measure l ∨ ls = []
      · exact ⟨[], l, ls, o, rfl, by simp [hm.nil], hl⟩
      · rw [not_or] at hl
        obtain ⟨before, line, after, c, rfl, ho, hc⟩ := ih (o - measure l) hl.2
        refine ⟨l :: before, line, after, c, rfl, ?_, hc⟩
        rw [List.flatten_cons, hm]
        omega
  obtain ⟨before, line, after, c, hls, ho, hc⟩ := hlines (lines text) offset (lines_ne_nil text)
  exact ⟨before, line, after, c, hls, ho, hc⟩

namespace FallsOn

theorem getElem?_lineStarts (hm : AddsUp measure)
    (hlines : lines text = before ++ line :: after) :
    (lineStarts measure 0 (lines text))[before.length]? = some (measure before.flatten) := by
  rw [hlines, lineStarts_append hm, List.getElem?_append_right
    (Nat.le_of_eq (length_lineStarts ..)),
    length_lineStarts, Nat.sub_self, lineStarts, Nat.zero_add]
  rfl

/-- The line that is looked up is the one on which the offset falls. -/
theorem lineIndex_eq (hm : AddsUp measure)
    (h : FallsOn measure text offset before line after c) :
    LineTable.lineIndex (lineStarts measure 0 (lines text)) offset = before.length := by
  obtain ⟨hlines, hoffset, hinside⟩ := h
  have hbefore : ∀ s ∈ lineStarts measure 0 before, decide (s ≤ offset) = true := by
    intro s hs
    have := le_of_mem_lineStarts hm hs
    rw [decide_eq_true_eq]
    omega
  have hrest : (lineStarts measure (0 + measure before.flatten + measure line) after).takeWhile
      (· ≤ offset) = [] := by
    rcases hinside with hc | rfl
    · cases after with
      | nil => rfl
      | cons l ls => rw [lineStarts, List.takeWhile_cons_of_neg]; simp; omega
    · rfl
  unfold LineTable.lineIndex
  rw [hlines, lineStarts_append hm, List.takeWhile_append_of_pos hbefore, lineStarts,
    List.takeWhile_cons_of_pos (by simp; omega), hrest, List.length_append, length_lineStarts]
  rfl

/-- An offset falls on one line only. -/
theorem unique (hm : AddsUp measure)
    (h : FallsOn measure text offset before line after c) {before' after' : List (List Char)}
    {line' : List Char} {c' : Nat} (h' : FallsOn measure text offset before' line' after' c') :
    before = before' ∧ line = line' ∧ after = after' ∧ c = c' := by
  have hlength : before.length = before'.length := by rw [← h.lineIndex_eq hm, h'.lineIndex_eq hm]
  obtain ⟨rfl, hrest⟩ := List.append_inj (h.lines_eq.symm.trans h'.lines_eq) hlength
  cases hrest
  have hc := h.offset_eq.symm.trans h'.offset_eq
  exact ⟨rfl, rfl, rfl, by omega⟩

end FallsOn

end

/-! ## Lines and columns -/

theorem length_lines (text : List Char) : (lines text).length = text.count '\n' + 1 := by
  induction text with
  | nil => rfl
  | cons c cs ih =>
    by_cases hc : c = '\n'
    · subst hc
      rw [lines_newline, List.length_cons, ih, List.count_cons_self]
    · rw [lines, if_neg hc, List.length_modifyHead, ih, List.count_cons_of_ne hc]

/-- A line of a text by its number, which counts from 1. -/
theorem exists_line_of_number {text : List Char} {n : Nat} (h0 : n ≠ 0)
    (hn : n ≤ (lines text).length) :
    ∃ before here after, lines text = before ++ here :: after ∧ n = before.length + 1 := by
  have hlt : n - 1 < (lines text).length := by omega
  refine ⟨_, _, _, (List.take_append_drop (n - 1) _).symm.trans
    (congrArg _ (List.drop_eq_getElem_cons hlt)), ?_⟩
  rw [List.length_take]
  omega

/-- The octet at an offset, or the end of the text, stands on this line and in this column, both
counted from 1. -/
def StandsAt (text : List Char) (offset line column : Nat) : Prop :=
  offset ≤ size text ∧ ∃ before here after c, FallsOn size text offset before here after c ∧
    line = before.length + 1 ∧ column = c + 1

theorem StandsAt.unique {text : List Char} {o line column line' column' : Nat}
    (h : StandsAt text o line column) (h' : StandsAt text o line' column') :
    line = line' ∧ column = column' := by
  obtain ⟨_, before, here, after, c, h, rfl, rfl⟩ := h
  obtain ⟨_, before', here', after', c', h', rfl, rfl⟩ := h'
  obtain ⟨rfl, _, _, rfl⟩ := h.unique size_append h'
  exact ⟨rfl, rfl⟩

/-- What stands on a line: its octets, and the end of the text if it is the last. -/
theorem standsAt_iff {text : List Char} {before after : List (List Char)} {here : List Char}
    (hlines : lines text = before ++ here :: after) {o column : Nat} :
    StandsAt text o (before.length + 1) column ↔
      ∃ c, column = c + 1 ∧ o = size before.flatten + c ∧
        (c < size here ∨ after = [] ∧ c ≤ size here) := by
  have htext : size text = size before.flatten + (size here + size after.flatten) := by
    rw [← size_append, ← size_append, ← text_of_lines hlines]
  constructor
  · rintro ⟨ho, before', here', after', c, h, hline, rfl⟩
    have hlength : before.length = before'.length := by omega
    obtain ⟨rfl, hrest⟩ := List.append_inj (hlines.symm.trans h.lines_eq) hlength
    cases hrest
    have hoffset := h.offset_eq
    refine ⟨c, rfl, hoffset, ?_⟩
    rcases h.inside with hc | rfl
    · exact .inl hc
    · rw [List.flatten_nil, size_nil] at htext
      exact .inr ⟨rfl, by omega⟩
  · rintro ⟨c, rfl, rfl, hc⟩
    refine ⟨by omega, before, here, after, c, ⟨hlines, rfl, ?_⟩, rfl, rfl⟩
    rcases hc with hc | ⟨hafter, _⟩
    · exact .inl hc
    · exact .inr hafter

theorem lineColumn?_of_fallsOn {text : List Char} {o : Nat} (ho : o ≤ size text)
    {before after : List (List Char)} {line : List Char} {c : Nat}
    (h : FallsOn size text o before line after c) :
    (LineTable.ofText text).lineColumn? o = some ⟨.ofNat (before.length + 1), .ofNat (c + 1)⟩ := by
  have hindex : LineTable.lineIndex (LineTable.ofText text).starts o = before.length := by
    rw [LineTable.ofText_starts, h.lineIndex_eq size_append]
  have hstart : (LineTable.ofText text).starts.getD before.length 0 = size before.flatten := by
    rw [LineTable.ofText_starts, List.getD_eq_getElem?_getD,
      FallsOn.getElem?_lineStarts size_append h.lines_eq]
    rfl
  have hoffset := h.offset_eq
  unfold LineTable.lineColumn?
  rw [if_neg (by rw [LineTable.ofText_text]; omega)]
  simp only [hindex, hstart]
  rw [show o - size before.flatten + 1 = c + 1 by omega]

/-- The line and column of an offset, in a text whose lines and columns can be counted in 32
bits. -/
theorem lineColumn?_eq_some_iff {text : List Char} (hsize : size text + 1 < UInt32.size) {o : Nat}
    {p : LineColumn} :
    (LineTable.ofText text).lineColumn? o = some p ↔
      StandsAt text o p.line.toNat p.column.toNat := by
  have hcount : ∀ {before here after c}, o ≤ size text → FallsOn size text o before here after c →
      before.length + 1 < UInt32.size ∧ c + 1 < UInt32.size := by
    intro before here after c ho h
    have hlength := congrArg List.length h.lines_eq
    rw [length_lines, List.length_append, List.length_cons] at hlength
    have hnewlines := List.count_le_length (a := '\n') (l := text)
    have hsizes := Text.length_le_size text
    have hoffset := h.offset_eq
    omega
  constructor
  · intro hp
    have ho : o ≤ size text := by
      refine Nat.le_of_not_lt fun hgt => ?_
      rw [LineTable.lineColumn?_eq_none (.ofText text) hgt] at hp
      cases hp
    obtain ⟨before, here, after, c, h⟩ := exists_fallsOn size_append text o
    rw [lineColumn?_of_fallsOn ho h] at hp
    cases hp
    obtain ⟨hline, hcolumn⟩ := hcount ho h
    exact ⟨ho, before, here, after, c, h, UInt32.toNat_ofNat_of_lt' hline,
      UInt32.toNat_ofNat_of_lt' hcolumn⟩
  · rintro ⟨ho, before, here, after, c, h, hline, hcolumn⟩
    rw [lineColumn?_of_fallsOn ho h, ← hline, ← hcolumn]
    simp

end ExplicitSelf.Source
