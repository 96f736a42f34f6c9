import ExplicitSelf.Proofs.Source.Overflow

/-!
# Positions, there and back

An offset of a text, its line and column, and its offset in UTF-16 units are three names of one
position. Turning one into another and back gives the position again. A text may be cut anywhere
between two characters, and each cut has one offset in octets and one in units (`CutAt`); an offset
in units that no cut has lies between the two units of a character outside the basic plane.

The conversions look up a line and finish inside it. What they answer is said here of the text as a
whole: it does not show which line was looked up, nor whether that line is ASCII.

Results:
* `offsetAt?_eq_some_iff`: the offset of a line and column.
* `lineColumn?_offsetAt?_inverse`: lines and columns, there and back.
* `unitOffset?_eq_some_iff`: the unit offset of an offset.
* `byteOffset?_eq_plainScan`: the offset of a unit offset is what a plain scan of the text finds.
* `unitOffset?_byteOffset?_inverse`: units, there and back.
-/
namespace ExplicitSelf.Source

open Text (size isBoundary size_append size_cons isBoundary_iff)

/-! ## Lines and columns -/

section
variable {text here : List Char} {before after : List (List Char)} {line column : UInt32}

/-- The length of a line. The table has no start behind the last line; there the text ends. -/
theorem lineLength?_of_lines (h : lines text = before ++ here :: after)
    (hline : line.toNat = before.length + 1) :
    (LineTable.ofText text).lineLength? line = some (size here) := by
  have hstart := FallsOn.getElem?_lineStarts size_append h
  have hend : (lineStarts size 0 (lines text)).getD (before.length + 1) (size text) =
      size before.flatten + size here := by
    cases after with
    | nil =>
      have hlength : (lineStarts size 0 (lines text)).length ≤ before.length + 1 := by
        rw [length_lineStarts, h]; simp
      rw [List.getD_eq_getElem?_getD, List.getElem?_eq_none hlength, text_of_lines h]
      simp
    | cons next rest =>
      have hnext : lines text = (before ++ [here]) ++ next :: rest := by rw [h]; simp
      have hfound := FallsOn.getElem?_lineStarts size_append hnext
      rw [List.length_append, List.length_singleton] at hfound
      rw [List.getD_eq_getElem?_getD, hfound]
      simp
  have hne : line ≠ 0 := by
    rintro rfl
    simp at hline
  unfold LineTable.lineLength?
  rw [if_neg hne]
  simp only [hline, Nat.add_sub_cancel, LineTable.ofText_starts, hstart, Option.map_some,
    LineTable.ofText_text, hend]
  congr 1
  omega

/-- The offset of a column on a line. -/
theorem offsetAt?_of_lines (h : lines text = before ++ here :: after)
    (hline : line.toNat = before.length + 1) :
    (LineTable.ofText text).offsetAt? line column =
      if column.toNat = 0 ∨ size here < column.toNat - 1 ∨ column.toNat - 1 = size here ∧
        after ≠ [] then
        none
      else some (size before.flatten + (column.toNat - 1)) := by
  have hstart := FallsOn.getElem?_lineStarts size_append h
  have hlast : line.toNat ≠ (lineStarts size 0 (lines text)).length ↔ after ≠ [] := by
    rw [length_lineStarts, h, hline]
    simp
  unfold LineTable.offsetAt?
  by_cases hcolumn : column = 0
  · simp [hcolumn]
  · have hpos : column.toNat ≠ 0 := fun h => hcolumn (UInt32.toNat_inj.1 h)
    rw [lineLength?_of_lines h hline]
    simp only [hcolumn, hpos, if_false, hline, Nat.add_sub_cancel, LineTable.ofText_starts, hstart,
      false_or]
    simp only [← hline, hlast]

/-- A line that the text does not have stands for no offset. -/
theorem offsetAt?_past_lines (h : line = 0 ∨ (lines text).length < line.toNat) :
    (LineTable.ofText text).offsetAt? line column = none := by
  unfold LineTable.offsetAt?
  rcases h with rfl | h
  · simp [LineTable.lineLength?]
  · have hnone : (lineStarts size 0 (lines text))[line.toNat - 1]? = none := by
      rw [List.getElem?_eq_none_iff, length_lineStarts]
      omega
    simp [LineTable.ofText_starts, hnone]

end

/-- A line and column stand for the offset that stands there. -/
theorem offsetAt?_eq_some_iff {text : List Char} {line column : UInt32} {o : Nat} :
    (LineTable.ofText text).offsetAt? line column = some o ↔
      StandsAt text o line.toNat column.toNat := by
  by_cases hline : line = 0 ∨ (lines text).length < line.toNat
  · rw [offsetAt?_past_lines hline]
    constructor
    · intro h; cases h
    · rintro ⟨_, before, here, after, c, h, hlength, _⟩
      have hcount := congrArg List.length h.lines_eq
      simp at hcount
      rcases hline with rfl | hline
      · simp at hlength
      · omega
  · have hpos : line.toNat ≠ 0 := fun h => hline (.inl (UInt32.toNat_inj.1 h))
    have hcount : line.toNat ≤ (lines text).length := Nat.le_of_not_lt fun h => hline (.inr h)
    obtain ⟨before, here, after, h, hnumber⟩ := exists_line_of_number hpos hcount
    rw [offsetAt?_of_lines h hnumber, hnumber, standsAt_iff h]
    constructor
    · intro hoffset
      split at hoffset
      · cases hoffset
      · rename_i hinside
        cases hoffset
        refine ⟨column.toNat - 1, by omega, rfl, ?_⟩
        by_cases hafter : after = []
        · exact .inr ⟨hafter, by omega⟩
        · refine .inl (Nat.lt_of_le_of_ne (by omega) fun hend =>
            hinside (.inr (.inr ⟨hend, hafter⟩)))
    · rintro ⟨c, hc, rfl, hinside⟩
      rw [hc, Nat.add_sub_cancel, if_neg]
      rintro (hzero | hpast | ⟨hend, hafter⟩)
      · omega
      · omega
      · rcases hinside with hlt | ⟨hlast, _⟩
        · omega
        · exact hafter hlast

/-- A line and column and an offset that stands there can be turned into one another. Every offset
inside the text or at its end has a line and column, and no other has. -/
theorem lineColumn?_offsetAt?_inverse (text : List Char) (hsize : size text ≤ UInt32.size - 2) :
    (∀ o, (∃ p, (LineTable.ofText text).lineColumn? o = some p) ↔ o ≤ size text) ∧
      (∀ o p, (LineTable.ofText text).lineColumn? o = some p ↔
        (LineTable.ofText text).offsetAt? p.line p.column = some o) ∧
      (∀ (p q : LineColumn) o, (LineTable.ofText text).offsetAt? p.line p.column = some o →
        (LineTable.ofText text).offsetAt? q.line q.column = some o → p = q) ∧
      ∀ o, o ≤ size text → ∃ p : LineColumn, (LineTable.ofText text).offsetAt? p.line p.column =
        some o := by
  have hdefined : ∀ o, (∃ p, (LineTable.ofText text).lineColumn? o = some p) ↔ o ≤ size text := by
    intro o
    constructor
    · rintro ⟨p, hp⟩
      refine Nat.le_of_not_lt fun hpast => ?_
      rw [LineTable.lineColumn?_eq_none _ hpast] at hp
      cases hp
    · exact LineTable.exists_lineColumn? (.ofText text)
  have hinverse : ∀ o p, (LineTable.ofText text).lineColumn? o = some p ↔
      (LineTable.ofText text).offsetAt? p.line p.column = some o := by
    intro o p
    have hcount : size text + 1 < UInt32.size := by
      have hwords : 2 ≤ UInt32.size := by decide
      omega
    rw [lineColumn?_eq_some_iff hcount, offsetAt?_eq_some_iff]
  refine ⟨hdefined, hinverse, ?_, ?_⟩
  · intro p q o hp hq
    have hpq := ((hinverse o p).2 hp).symm.trans ((hinverse o q).2 hq)
    exact Option.some.inj hpq
  · intro o ho
    obtain ⟨p, hp⟩ := (hdefined o).2 ho
    exact ⟨p, (hinverse o p).1 hp⟩

theorem lineColumn?_offsetAt?_inverse_accented :
    size "é\n".toList ≤ UInt32.size - 2 ∧
      (LineTable.ofText "é\n".toList).offsetAt? 2 1 = some 3 ∧
      (LineTable.ofText "é\n".toList).lineColumn? 3 = some ⟨2, 1⟩ ∧
      (LineTable.ofText "é\n".toList).offsetAt? 1 4 = none := by
  have hoffset : (LineTable.ofText "é\n".toList).offsetAt? 2 1 = some 3 := by decide
  exact ⟨by decide, hoffset,
    ((lineColumn?_offsetAt?_inverse _ (by decide)).2.1 3 ⟨2, 1⟩).2 hoffset, by decide⟩

/-! ## Octets and units -/

/-- The text can be cut where its front has `o` octets, and these are `u` units. -/
def CutAt (text : List Char) (o u : Nat) : Prop :=
  ∃ l r, text = l ++ r ∧ size l = o ∧ unitCount l = u

theorem unitOffset?_append (l r : List Char) :
    (LineTable.ofText (l ++ r)).unitOffset? (size l) = some (unitCount l) := by
  obtain ⟨before, line, after, c, h⟩ := exists_fallsOn size_append (l ++ r) (size l)
  obtain ⟨hunits, hstart, hascii, hafter⟩ := table_of_lines h.lines_eq
  have hindex := h.lineIndex_eq size_append
  rw [← LineTable.ofText_starts] at hindex
  have hoffset := h.offset_eq
  -- `m` is the part of the line in front of the cut
  obtain ⟨m, rfl, hrest⟩ := Text.exists_of_append_eq (text_of_lines h.lines_eq).symm (by omega)
  have hm : size m = c := by rw [size_append] at hoffset; omega
  obtain ⟨x, hline⟩ : ∃ x, line = m ++ x := by
    rcases h.inside with hc | rfl
    · obtain ⟨x, hx, _⟩ := Text.exists_of_append_eq hrest.symm (by omega)
      exact ⟨x, hx⟩
    · exact ⟨r, by simpa using hrest⟩
  have hboundary : isBoundary (size (before.flatten ++ m)) (before.flatten ++ m ++ r) = true :=
    isBoundary_iff.2 ⟨_, r, rfl, rfl⟩
  have hinside : size (before.flatten ++ m) - size before.flatten = size m := by
    rw [size_append]; omega
  unfold LineTable.unitOffset?
  rw [LineTable.ofText_text, if_pos hboundary]
  simp only [hindex, hunits, hstart, hascii, hafter, hrest, hinside, Text.splitAt?_append,
    Option.map_some, Option.getD_some, unitCount_append]
  congr 2
  split
  · rename_i hall
    rw [hline, List.all_append, Bool.and_eq_true] at hall
    exact size_eq_unitCount hall.1
  · rfl

/-- The unit offset of an offset counts the units in front of it, if it is a boundary. -/
theorem unitOffset?_eq_some_iff {text : List Char} {o u : Nat} :
    (LineTable.ofText text).unitOffset? o = some u ↔ CutAt text o u := by
  constructor
  · intro h
    have hboundary : isBoundary o text = true := by
      unfold LineTable.unitOffset? at h
      split at h
      · rename_i hb
        exact hb
      · cases h
    obtain ⟨l, r, rfl, rfl⟩ := isBoundary_iff.1 hboundary
    rw [unitOffset?_append] at h
    exact ⟨l, r, rfl, rfl, Option.some.inj h⟩
  · rintro ⟨l, r, rfl, rfl, rfl⟩
    exact unitOffset?_append l r

/-! ## Scanning for a unit -/

theorem units_pos (c : Char) : 0 < units c := by
  unfold units
  split <;> decide

theorem units_le_two (c : Char) : units c ≤ 2 := by
  unfold units
  split <;> decide

section
variable {target i u : Nat}

@[simp] theorem plainScan_self (cs : List Char) : LineTable.plainScan u i u cs = some i := by
  cases cs <;> simp [LineTable.plainScan]

theorem plainScan_passed (h : target < u) (cs : List Char) :
    LineTable.plainScan target i u cs = none := by
  cases cs with
  | nil => simp [LineTable.plainScan]; omega
  | cons c cs => simp [LineTable.plainScan, h]; omega

/-- A scan goes over a front that has not too many units. -/
theorem plainScan_append {l : List Char} (h : u + unitCount l ≤ target) (r : List Char) :
    LineTable.plainScan target i u (l ++ r) =
      LineTable.plainScan target (i + size l) (u + unitCount l) r := by
  induction l generalizing i u with
  | nil => rfl
  | cons c l ih =>
    have hc := units_pos c
    rw [unitCount] at h
    rw [List.cons_append, LineTable.plainScan, if_neg (by omega), if_neg (by omega), ih (by omega),
      unitCount, size_cons, Nat.add_assoc, Nat.add_assoc]

/-- A scan finds where the text can be cut. -/
theorem plainScan_eq_some_iff {cs : List Char} {o : Nat} :
    LineTable.plainScan target i u cs = some o ↔
      ∃ l r, cs = l ++ r ∧ i + size l = o ∧ u + unitCount l = target := by
  constructor
  · intro h
    induction cs generalizing i u with
    | nil =>
      rw [LineTable.plainScan] at h
      split at h
      · rename_i hu
        cases h
        exact ⟨[], [], rfl, rfl, hu⟩
      · cases h
    | cons c cs ih =>
      rw [LineTable.plainScan] at h
      split at h
      · rename_i hu
        cases h
        exact ⟨[], c :: cs, rfl, rfl, hu⟩
      · split at h
        · cases h
        · obtain ⟨l, r, rfl, ho, hu⟩ := ih h
          exact ⟨c :: l, r, rfl, by rw [size_cons]; omega, by rw [unitCount]; omega⟩
  · rintro ⟨l, r, rfl, rfl, rfl⟩
    rw [plainScan_append (Nat.le_refl _), plainScan_self]

/-- A scan finds nothing exactly between the two units of a character. -/
theorem plainScan_eq_none_iff {cs : List Char} (hle : u ≤ target)
    (hend : target ≤ u + unitCount cs) :
    LineTable.plainScan target i u cs = none ↔
      ∃ l c r, cs = l ++ c :: r ∧ units c = 2 ∧ target = u + unitCount l + 1 := by
  constructor
  · intro h
    induction cs generalizing i u with
    | nil =>
      rw [show u = target by simp [unitCount] at hend; omega, plainScan_self] at h
      cases h
    | cons c cs ih =>
      have hc := units_le_two c
      rw [LineTable.plainScan] at h
      split at h
      · cases h
      · rw [if_neg (by omega)] at h
        by_cases hnext : u + units c ≤ target
        · obtain ⟨l, d, r, rfl, hd, ht⟩ := ih hnext (by rw [unitCount] at hend; omega) h
          exact ⟨c :: l, d, r, rfl, hd, by rw [unitCount]; omega⟩
        · exact ⟨[], c, cs, rfl, by omega, by rw [unitCount]; omega⟩
  · rintro ⟨l, c, r, rfl, hc, rfl⟩
    rw [plainScan_append (by omega), LineTable.plainScan, if_neg (by omega), if_neg (by omega),
      plainScan_passed (by omega)]

end

/-- An ASCII line can be cut at any of its units. -/
theorem exists_cut_of_ascii {line : List Char} (h : line.all isAscii = true) {c : Nat}
    (hc : c ≤ unitCount line) : ∃ m x, line = m ++ x ∧ unitCount m = c := by
  induction line generalizing c with
  | nil => exact ⟨[], [], rfl, (Nat.le_zero.1 hc).symm⟩
  | cons d line ih =>
    rw [List.all_cons, Bool.and_eq_true] at h
    have hd := units_of_isAscii h.1
    cases c with
    | zero => exact ⟨[], d :: line, rfl, rfl⟩
    | succ c =>
      rw [unitCount] at hc
      obtain ⟨m, x, rfl, hm⟩ := ih h.2 (c := c) (by omega)
      exact ⟨d :: m, x, rfl, by rw [unitCount]; omega⟩

/-- The offset of a unit offset is what a scan from the start of the text finds. -/
theorem byteOffset?_eq_plainScan {text : List Char} (hsize : size text < UInt64.size) {u : Nat}
    (hu : u ≤ unitCount text) :
    (LineTable.ofText text).byteOffset? u = .ok (LineTable.plainScan u 0 0 text) := by
  obtain ⟨before, line, after, c, h⟩ := exists_fallsOn unitCount_append text u
  have htext := text_of_lines h.lines_eq
  have hoffset := h.offset_eq
  have hskip : LineTable.plainScan u 0 0 text = LineTable.plainScan u (size before.flatten)
      (unitCount before.flatten) (line ++ after.flatten) := by
    rw [htext, plainScan_append (by omega), Nat.zero_add, Nat.zero_add]
  rw [byteOffset?_of_fallsOn h, hskip]
  split
  · rename_i hascii
    have hc : c ≤ unitCount line := by
      rcases h.inside with hc | rfl
      · omega
      · rw [htext, List.flatten_nil, List.append_nil, unitCount_append] at hu
        omega
    obtain ⟨m, x, rfl, rfl⟩ := exists_cut_of_ascii hascii hc
    rw [List.all_append, Bool.and_eq_true] at hascii
    have hm := size_eq_unitCount hascii.1
    have hin : size before.flatten + unitCount m ≤ size text := by
      rw [htext]
      simp only [size_append]
      omega
    rw [LineTable.addWords_eq_ok (by omega), List.append_assoc, plainScan_append (by omega), hm,
      ← hoffset, plainScan_self]
    exact congrArg Except.ok (if_pos hin)
  · refine scanUnits_eq ?_ (unitCount_le_size before.flatten)
    rwa [← size_append, ← htext]

/-- A text in octets and in units. Every boundary has its offset in units, the number of units in
front of it. Up to the last unit of a text that fits into memory, every unit offset has its
boundary, unless it lies between the two units of a character. -/
theorem unitOffset?_byteOffset?_inverse (text : List Char) :
    (∀ o, (∃ u, (LineTable.ofText text).unitOffset? o = some u) ↔ isBoundary o text = true) ∧
      (∀ o u, (LineTable.ofText text).unitOffset? o = some u ↔ CutAt text o u) ∧
      (size text < UInt64.size →
        (∀ o u, u ≤ unitCount text →
          ((LineTable.ofText text).byteOffset? u = .ok (some o) ↔ CutAt text o u)) ∧
        (∀ u, u ≤ unitCount text →
          ((LineTable.ofText text).byteOffset? u = .ok none ↔
            ∃ l c r, text = l ++ c :: r ∧ units c = 2 ∧ u = unitCount l + 1)) ∧
        ∀ o u, (LineTable.ofText text).unitOffset? o = some u ↔
          u ≤ unitCount text ∧ (LineTable.ofText text).byteOffset? u = .ok (some o)) := by
  have hunits : ∀ o u, (LineTable.ofText text).unitOffset? o = some u ↔ CutAt text o u :=
    fun o u => unitOffset?_eq_some_iff
  refine ⟨fun o => ?_, hunits, fun hsize => ?_⟩
  · rw [isBoundary_iff]
    constructor
    · rintro ⟨u, hu⟩
      obtain ⟨l, r, htext, ho, _⟩ := (hunits o u).1 hu
      exact ⟨l, r, htext, ho⟩
    · rintro ⟨l, r, htext, ho⟩
      exact ⟨unitCount l, (hunits o _).2 ⟨l, r, htext, ho, rfl⟩⟩
  · have hbytes : ∀ o u, u ≤ unitCount text →
        ((LineTable.ofText text).byteOffset? u = .ok (some o) ↔ CutAt text o u) := by
      intro o u hu
      rw [byteOffset?_eq_plainScan hsize hu, Except.ok.injEq, plainScan_eq_some_iff]
      simp only [Nat.zero_add, CutAt]
    refine ⟨hbytes, fun u hu => ?_, fun o u => ?_⟩
    · rw [byteOffset?_eq_plainScan hsize hu, Except.ok.injEq,
        plainScan_eq_none_iff (Nat.zero_le u) (by omega)]
      simp only [Nat.zero_add]
    · rw [hunits]
      constructor
      · intro hcut
        have hu : u ≤ unitCount text := by
          obtain ⟨l, r, rfl, _, rfl⟩ := hcut
          rw [unitCount_append]
          omega
        exact ⟨hu, (hbytes o u hu).2 hcut⟩
      · rintro ⟨hu, ho⟩
        exact (hbytes o u hu).1 ho

/-- The unit between the two of the last character is no offset; the unit behind them is the end. -/
theorem unitOffset?_byteOffset?_inverse_paired :
    unitCount "é\n😀".toList = 4 ∧ CutAt "é\n😀".toList 7 4 ∧
      (LineTable.ofText "é\n😀".toList).unitOffset? 7 = some 4 ∧
      (LineTable.ofText "é\n😀".toList).byteOffset? 4 = .ok (some 7) ∧
      (LineTable.ofText "é\n😀".toList).byteOffset? 3 = .ok none := by
  have hcut : CutAt "é\n😀".toList 7 4 := ⟨"é\n😀".toList, [], by decide, by decide, by decide⟩
  obtain ⟨_, hunits, hword⟩ := unitOffset?_byteOffset?_inverse "é\n😀".toList
  obtain ⟨hbytes, hpair, _⟩ := hword (by decide)
  exact ⟨by decide, hcut, (hunits 7 4).2 hcut, (hbytes 7 4 (by decide)).2 hcut,
    (hpair 3 (by decide)).2 ⟨"é\n".toList, '😀', [], by decide, by decide, by decide⟩⟩

end ExplicitSelf.Source
