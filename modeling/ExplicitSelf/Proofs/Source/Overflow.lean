import ExplicitSelf.Proofs.Source.Lines

/-!
# Unit offsets past the end of a text

A UTF-16 offset past the end of a text has no byte offset. `byteOffset?` says so, but for one case.
On an ASCII line it adds how far the offset lies behind the start of the line to where the line
starts in octets, and looks for the end of the text afterwards. Behind characters of several octets
a line starts later in octets than in units, so for an offset near `2 ^ 64` the sum is no word of 64
bits, and there is no answer at all.

Nothing else can overflow in a text that fits into memory. The sums of a scan stay inside the text,
and no offset lies before the start of its line.

Results:
* `scanUnits_eq`: a scan within words is a scan (`plainScan`).
* `byteOffset?_of_fallsOn`: the answer, by the line on which an offset falls.
* `byteOffset?_past_end`: past the end there is no byte offset, unless the sum overflows.
-/
namespace ExplicitSelf.Source

open Text (width size size_cons size_append splitAt? splitAt?_append)

namespace LineTable

theorem addWords_eq_ok {a b : Nat} (h : a + b < UInt64.size) : addWords a b = .ok (a + b) :=
  if_pos h

theorem addWords_eq_error {a b : Nat} (h : UInt64.size ≤ a + b) : addWords a b = .error .addition :=
  if_neg (Nat.not_lt.2 h)

theorem subWords_eq_ok {a b : Nat} (h : b ≤ a) : subWords a b = .ok (a - b) :=
  if_pos h

/-- As `scanUnits`, with sums of any size. -/
def plainScan (target : Nat) : (i u : Nat) → List Char → Option Nat
  | i, u, [] => if u = target then some i else none
  | i, u, c :: cs =>
    if u = target then some i
    else if target < u then none
    else plainScan target (i + width c) (u + units c) cs

end LineTable

/-! ## The line of an offset -/

section
variable {text : List Char} {u : Nat} {before after : List (List Char)} {line : List Char} {c : Nat}

/-- The entries of a line. -/
theorem entries_of_lines (h : lines text = before ++ line :: after) :
    (LineTable.ofText text).starts[before.length]? = some (size before.flatten) ∧
      (LineTable.ofText text).unitStarts[before.length]? = some (unitCount before.flatten) ∧
      (LineTable.ofText text).ascii[before.length]? = some (line.all isAscii) := by
  rw [LineTable.ofText_starts, LineTable.ofText_unitStarts, LineTable.ofText_ascii]
  refine ⟨FallsOn.getElem?_lineStarts size_append h, FallsOn.getElem?_lineStarts unitCount_append h,
    ?_⟩
  rw [h]
  simp

/-- What a table says about one of the lines. -/
theorem table_of_lines (h : lines text = before ++ line :: after) :
    (LineTable.ofText text).unitStarts.getD before.length 0 = unitCount before.flatten ∧
      (LineTable.ofText text).starts.getD before.length 0 = size before.flatten ∧
      (LineTable.ofText text).ascii.getD before.length false = line.all isAscii ∧
      (LineTable.ofText text).after (size before.flatten) = line ++ after.flatten := by
  obtain ⟨hstart, hunits, hascii⟩ := entries_of_lines h
  refine ⟨?_, ?_, ?_, ?_⟩
  · rw [List.getD_eq_getElem?_getD, hunits]
    rfl
  · rw [List.getD_eq_getElem?_getD, hstart]
    rfl
  · rw [List.getD_eq_getElem?_getD, hascii]
    rfl
  · have hcut : splitAt? (size before.flatten) text =
        some (before.flatten, line ++ after.flatten) :=
      Text.splitAt?_eq_some_iff.2 ⟨text_of_lines h, rfl⟩
    unfold LineTable.after
    rw [LineTable.ofText_text, hcut]
    rfl

/-- The byte offset of a unit offset, by the line on which it falls. The difference is always a
word. -/
theorem byteOffset?_of_fallsOn (h : FallsOn unitCount text u before line after c) :
    (LineTable.ofText text).byteOffset? u =
      if line.all isAscii then
        (LineTable.addWords (size before.flatten) c).map fun byte =>
          if byte ≤ size text then some byte else none
      else
        LineTable.scanUnits u (size before.flatten) (unitCount before.flatten)
          (line ++ after.flatten) := by
  obtain ⟨hunits, hstart, hascii, hafter⟩ := table_of_lines h.lines_eq
  have hindex := h.lineIndex_eq unitCount_append
  rw [← LineTable.ofText_unitStarts] at hindex
  have hoffset := h.offset_eq
  have hinside : LineTable.subWords u (unitCount before.flatten) = .ok c := by
    rw [LineTable.subWords_eq_ok (by omega)]
    exact congrArg Except.ok (by omega)
  unfold LineTable.byteOffset?
  simp only [hindex, hunits, hstart, hascii, hafter, hinside]
  split
  · change (LineTable.addWords (size before.flatten) c).bind _ = _
    cases LineTable.addWords (size before.flatten) c <;> rfl
  · rfl

end

/-! ## Octets and units -/

theorem units_le_width (c : Char) : units c ≤ width c := by
  unfold units
  split
  · exact Text.width_pos c
  · unfold width
    rw [if_neg (by omega), if_neg (by omega), if_neg (by omega)]
    decide

theorem unitCount_le_size (cs : List Char) : unitCount cs ≤ size cs := by
  induction cs with
  | nil => exact Nat.le_refl 0
  | cons c cs ih =>
    have := units_le_width c
    rw [unitCount, size_cons]
    omega

theorem width_of_isAscii {c : Char} (h : isAscii c = true) : width c = 1 :=
  if_pos (by simpa [isAscii] using h)

theorem units_of_isAscii {c : Char} (h : isAscii c = true) : units c = 1 := by
  have hc : c.toNat < 0x80 := by simpa [isAscii] using h
  exact if_pos (by omega)

/-- On an ASCII line, octets and units are the same. -/
theorem size_eq_unitCount {cs : List Char} (h : cs.all isAscii = true) :
    size cs = unitCount cs := by
  induction cs with
  | nil => rfl
  | cons c cs ih =>
    rw [List.all_cons, Bool.and_eq_true] at h
    rw [size_cons, unitCount, ih h.2, width_of_isAscii h.1, units_of_isAscii h.1]

/-- A scan that starts no later in units than in octets stays inside the text. -/
theorem scanUnits_eq {target i u : Nat} {cs : List Char} (hsize : i + size cs < UInt64.size)
    (hu : u ≤ i) : LineTable.scanUnits target i u cs = .ok (LineTable.plainScan target i u cs) := by
  induction cs generalizing i u with
  | nil => rfl
  | cons c cs ih =>
    have hwidth := units_le_width c
    rw [size_cons] at hsize
    rw [LineTable.scanUnits, LineTable.plainScan]
    split
    · rfl
    · split
      · rfl
      · rw [LineTable.addWords_eq_ok (by omega), LineTable.addWords_eq_ok (by omega)]
        exact ih (by omega) (by omega)

/-! ## Past the end -/

/-- Units that a text does not have are not reached. -/
theorem plainScan_past {target i u : Nat} {cs : List Char} (hpast : u + unitCount cs < target) :
    LineTable.plainScan target i u cs = none := by
  induction cs generalizing i u with
  | nil =>
    rw [unitCount] at hpast
    exact if_neg (by omega)
  | cons c cs ih =>
    rw [unitCount] at hpast
    rw [LineTable.plainScan, if_neg (by omega), if_neg (by omega)]
    exact ih (by omega)

/-- An offset past the end of a text falls on its last line. -/
theorem after_eq_nil {text : List Char} {u : Nat} {before after : List (List Char)}
    {line : List Char}
    {c : Nat} (h : FallsOn unitCount text u before line after c) (hpast : unitCount text < u) :
    after = [] := by
  rcases h.inside with hc | hafter
  · have htext := congrArg unitCount (text_of_lines h.lines_eq)
    rw [unitCount_append, unitCount_append] at htext
    have hoffset := h.offset_eq
    omega
  · exact hafter

/-- The last line of a text. -/
def lastLine (text : List Char) : List Char :=
  (lines text).getLast (lines_ne_nil text)

/-- On an ASCII last line, an offset so far past the end that its byte offset would be no word. -/
def Overflows (text : List Char) (u : Nat) : Prop :=
  (lastLine text).all isAscii = true ∧ UInt64.size ≤ u + (size text - unitCount text)

/-- Past the end of a text there is no byte offset, and all sums and differences on the way are
words, unless the last line is ASCII and the offset too great. Then the sum overflows. -/
theorem byteOffset?_past_end (text : List Char) (hsize : size text < UInt64.size) {u : Nat}
    (hpast : unitCount text < u) :
    ((LineTable.ofText text).byteOffset? u = .ok none ↔ ¬Overflows text u) ∧
      ((LineTable.ofText text).byteOffset? u = .error .addition ↔ Overflows text u) := by
  obtain ⟨before, line, after, c, h⟩ := exists_fallsOn unitCount_append text u
  cases after_eq_nil h hpast
  have hlast : lastLine text = line := by simp [lastLine, h.lines_eq]
  have htext := text_of_lines h.lines_eq
  rw [List.flatten_nil, List.append_nil] at htext
  have hoctets : size text = size before.flatten + size line := by rw [htext, size_append]
  have hunits : unitCount text = unitCount before.flatten + unitCount line := by
    rw [htext, unitCount_append]
  have hoffset := h.offset_eq
  have hle := unitCount_le_size before.flatten
  unfold Overflows
  rw [byteOffset?_of_fallsOn h, hlast, List.flatten_nil, List.append_nil]
  by_cases hascii : line.all isAscii = true
  · have hline := size_eq_unitCount hascii
    have hsum : size before.flatten + c = u + (size text - unitCount text) := by omega
    rw [if_pos hascii]
    by_cases hword : UInt64.size ≤ u + (size text - unitCount text)
    · rw [LineTable.addWords_eq_error (by omega)]
      simp [hascii, hword, Except.map]
    · rw [LineTable.addWords_eq_ok (by omega)]
      have hend : ¬size before.flatten + c ≤ size text := by omega
      simp [hword, hend, Except.map]
  · rw [if_neg hascii, scanUnits_eq (by omega) hle, plainScan_past (by omega)]
    simp [hascii]

theorem byteOffset?_past_end_accented :
    unitCount "é\n".toList < 3 ∧ ¬Overflows "é\n".toList 3 ∧
      (LineTable.ofText "é\n".toList).byteOffset? 3 = .ok none ∧
      unitCount "\né".toList < 18446744073709551615 ∧ ¬Overflows "\né".toList 18446744073709551615 ∧
      (LineTable.ofText "\né".toList).byteOffset? 18446744073709551615 = .ok none := by
  have hnear : ¬Overflows "é\n".toList 3 := by
    unfold Overflows
    decide
  have hfar : ¬Overflows "\né".toList 18446744073709551615 := by
    unfold Overflows
    decide
  exact ⟨by decide, hnear, (byteOffset?_past_end "é\n".toList (by decide) (by decide)).1.2 hnear,
    by decide, hfar, (byteOffset?_past_end "\né".toList (by decide) (by decide)).1.2 hfar⟩

/-- The greatest word is past the end of a text of two units, and there is no answer for it. -/
theorem byteOffset?_overflows :
    unitCount "é\n".toList < 18446744073709551615 ∧ 18446744073709551615 < UInt64.size ∧
      (LineTable.ofText "é\n".toList).byteOffset? 18446744073709551615 = .error .addition :=
  ⟨by decide, by decide, by rfl⟩

end ExplicitSelf.Source
