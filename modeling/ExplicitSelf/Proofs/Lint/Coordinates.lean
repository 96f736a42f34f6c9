import ExplicitSelf.Proofs.Lint.Convergence
import ExplicitSelf.Proofs.Lint.Lacking
import ExplicitSelf.Proofs.Source.SplicedLines

/-!
# Reported positions are where `self.` is inserted

A report names violations by line and column, and overwriting goes by offsets. They agree: on each
line of the new text `self.` stands before the columns that are reported for this line, and nowhere
else. Lines stay lines, and an octet moves along its own line only.

Results:
* `report_prints`: a report prints the positions of violations.
* `mem_columns_iff`, `splice_columns`: what is inserted into a line, by the columns that are
  reported.
* `standsAt_shifted`: where an octet of the old text stands in the new one.
* `overwrite_at_reported`: the lines of an overwritten text, and where its octets go.
-/
namespace ExplicitSelf.Lint

open Source (LineTable LineColumn StandsAt lines splice spliceOctets spliceLines lineMark below
  added Fits standsAt_iff text_of_lines)
open Text (size size_append encode isBoundary)

/-- The position of a violation, as its diagnostic prints it. -/
def Violation.position (v : Violation) : LineColumn :=
  ⟨v.line, v.column⟩

/-- The positions that a report prints, in its order. -/
def reported (vs : List Violation) : List LineColumn :=
  (vs.mergeSort fun v w => v.offset ≤ w.offset).map Violation.position

/-- The line of a report for a position. -/
def diagnosticAt (file : Path) (p : LineColumn) : String :=
  s!"{file.text}:{p.render}: error: Missing explicit reference to 'self.'"

theorem report_prints (vs : List Violation) :
    List.Forall₂ (fun p line => ∃ file, line = diagnosticAt file p) (reported vs) (report vs) := by
  unfold reported report
  rw [List.forall₂_map_left_iff, List.forall₂_map_right_iff, List.forall₂_same]
  intro v _
  exact ⟨v.file, by simp [Violation.diagnostic, diagnosticAt, Violation.position, LineColumn.render,
    toString, String.append_assoc]⟩

theorem reported_perm (vs : List Violation) : (reported vs).Perm (vs.map Violation.position) :=
  (List.mergeSort_perm vs _).map _

/-! ## Columns of a line -/

/-- Violations stand in the text at their lines and columns. -/
def Placed (text : List Char) (vs : List Violation) : Prop :=
  ∀ v ∈ vs, StandsAt text v.offset v.line.toNat v.column.toNat

/-- How far violations lie behind the start of a line. -/
def columns (vs : List Violation) (line : Nat) : List Nat :=
  (vs.filter fun v => v.line.toNat = line).map fun v => v.column.toNat - 1

section
variable {text : List Char} {vs : List Violation} {before after : List (List Char)}
  {line : List Char}

theorem mem_columns_iff (h : Placed text vs) (hlines : lines text = before ++ line :: after)
    {c : Nat} :
    c ∈ columns vs (before.length + 1) ↔
      (c < size line ∨ after = [] ∧ c ≤ size line) ∧
        size before.flatten + c ∈ vs.map (·.offset) := by
  unfold columns
  constructor
  · intro hc
    obtain ⟨v, hv, rfl⟩ := List.mem_map.1 hc
    rw [List.mem_filter, decide_eq_true_eq] at hv
    have hstands := h v hv.1
    rw [hv.2, standsAt_iff hlines] at hstands
    obtain ⟨c, hcolumn, hoffset, hinside⟩ := hstands
    rw [hcolumn, Nat.add_sub_cancel]
    exact ⟨hinside, List.mem_map.2 ⟨v, hv.1, hoffset⟩⟩
  · rintro ⟨hinside, hoffset⟩
    obtain ⟨v, hv, hoffset⟩ := List.mem_map.1 hoffset
    have hstands : StandsAt text v.offset (before.length + 1) (c + 1) :=
      (standsAt_iff hlines).2 ⟨c, rfl, hoffset, hinside⟩
    obtain ⟨hline, hcolumn⟩ := (h v hv).unique hstands
    exact List.mem_map.2 ⟨v, List.mem_filter.2 ⟨hv, by simpa using hline⟩, by omega⟩

theorem nodup_columns (h : Placed text vs) (hn : (vs.map (·.offset)).Nodup)
    (hlines : lines text = before ++ line :: after) : (columns vs (before.length + 1)).Nodup := by
  refine List.Nodup.map_on ?_ ((List.Nodup.of_map _ hn).filter _)
  intro v hv w hw hcolumn
  rw [List.mem_filter, decide_eq_true_eq] at hv hw
  have hstands := h v hv.1
  have hstands' := h w hw.1
  rw [hv.2, standsAt_iff hlines] at hstands
  rw [hw.2, standsAt_iff hlines] at hstands'
  obtain ⟨c, hc, hoffset, _⟩ := hstands
  obtain ⟨c', hc', hoffset', _⟩ := hstands'
  exact List.inj_on_of_nodup_map hn hv.1 hw.1 (by omega)

/-- On each line `self.` is inserted before the columns of violations. -/
theorem splice_columns (h : Placed text vs) (hlines : lines text = before ++ line :: after) :
    splice (lineMark (selfMark (vs.map (·.offset))) (size before.flatten) line after)
        (size before.flatten) line =
      splice (selfMark (columns vs (before.length + 1))) 0 line := by
  have hshift := Source.splice_shift
    (lineMark (selfMark (vs.map (·.offset))) (size before.flatten) line after)
      (size before.flatten) 0 line
  rw [Nat.add_zero] at hshift
  rw [hshift]
  refine Source.splice_congr_le 0 line fun o _ ho => ?_
  have hmem := mem_columns_iff h hlines (c := o)
  unfold lineMark selfMark
  by_cases hafter : after = []
  · rw [if_pos hafter]
    refine if_congr ?_ rfl rfl
    rw [hmem]
    exact ⟨fun hoffset => ⟨.inr ⟨hafter, by omega⟩, hoffset⟩, And.right⟩
  · rw [if_neg hafter]
    unfold below
    by_cases hin : o < size line
    · rw [if_pos (by omega)]
      refine if_congr ?_ rfl rfl
      rw [hmem]
      exact ⟨fun hoffset => ⟨.inl hin, hoffset⟩, And.right⟩
    · -- The end of a line that is not the last belongs to the next one.
      have hnot : o ∉ columns vs (before.length + 1) := by
        rw [hmem]
        rintro ⟨hlt | ⟨hnil, _⟩, _⟩
        · exact hin hlt
        · exact hafter hnil
      rw [if_neg (by omega), if_neg hnot]

theorem isBoundary_of_mem_columns (h : Placed text vs)
    (hb : ∀ v ∈ vs, isBoundary v.offset text = true)
    (hlines : lines text = before ++ line :: after) {c : Nat}
    (hc : c ∈ columns vs (before.length + 1)) :
    isBoundary c line = true := by
  obtain ⟨hinside, hoffset⟩ := (mem_columns_iff h hlines).1 hc
  obtain ⟨v, hv, hoffset⟩ := List.mem_map.1 hoffset
  have hboundary := hb v hv
  rw [hoffset, text_of_lines hlines, Text.isBoundary_size_add] at hboundary
  exact Text.isBoundary_front hboundary (by omega)

/-! ## The new text -/

theorem newline_notMem_selfMark (os : List Nat) (o : Nat) : '\n' ∉ selfMark os o := by
  unfold selfMark
  split <;> decide

theorem below_selfMark (n : Nat) (os : List Nat) :
    below n (selfMark os) = selfMark (os.filter (· < n)) := by
  funext o
  unfold below selfMark
  by_cases ho : o < n <;> simp [ho]

/-- Each `self.` has five octets. -/
theorem size_splice_selfMark {os : List Nat} {cs : List Char} (hn : os.Nodup)
    (hb : ∀ o ∈ os, isBoundary o cs = true) :
    size (splice (selfMark os) 0 cs) = size cs + 5 * os.length := by
  have hall : os.filter (· ≤ size cs) = os := by
    refine List.filter_eq_self.2 fun o ho => ?_
    simpa using Text.isBoundary_le (hb o ho)
  rw [size_splice (fits_selfMark hb), added_selfMark hn, hall]

/-- A line of the new text, and the size of what stands before it. -/
theorem exists_lines_splice (h : Placed text vs) (hn : (vs.map (·.offset)).Nodup)
    (hb : ∀ v ∈ vs, isBoundary v.offset text = true)
    (hlines : lines text = before ++ line :: after) :
    ∃ before' after', lines (splice (selfMark (vs.map (·.offset))) 0 text) =
        before' ++ splice (selfMark (columns vs (before.length + 1))) 0 line :: after' ∧
      before'.length = before.length ∧
      size before'.flatten =
        size before.flatten + 5 * vs.countP fun v => v.offset < size before.flatten := by
  obtain ⟨before', after', hsplice, hlength, hflatten⟩ :=
    Source.exists_spliceLines (selfMark (vs.map (·.offset))) 0 before line after
  rw [Nat.zero_add] at hsplice hflatten
  rw [splice_columns h hlines] at hsplice
  refine ⟨before', after', ?_, hlength, ?_⟩
  · rw [Source.lines_splice (newline_notMem_selfMark _), hlines, hsplice]
  · have hboundary : ∀ o ∈ (vs.map (·.offset)).filter (· < size before.flatten),
        isBoundary o before.flatten = true := by
      intro o ho
      obtain ⟨hmem, hlt⟩ := List.mem_filter.1 ho
      obtain ⟨v, hv, rfl⟩ := List.mem_map.1 hmem
      have hboundary := hb v hv
      rw [text_of_lines hlines] at hboundary
      exact Text.isBoundary_front hboundary (Nat.le_of_lt (by simpa using hlt))
    rw [hflatten, below_selfMark, size_splice_selfMark (hn.filter _) hboundary, List.filter_map,
      List.length_map, List.countP_eq_length_filter]
    rfl

/-- The violations on a line up to some column, by their offsets. -/
theorem upTo_column_iff (h : Placed text vs) (hlines : lines text = before ++ line :: after)
    {c : Nat} (hc : c < size line) {v : Violation} (hv : v ∈ vs) :
    v.line.toNat = before.length + 1 ∧ v.column.toNat ≤ c + 1 ↔
      size before.flatten ≤ v.offset ∧ v.offset ≤ size before.flatten + c := by
  have hstands := h v hv
  constructor
  · rintro ⟨hline, hcolumn⟩
    rw [hline, standsAt_iff hlines] at hstands
    obtain ⟨c', hc', hoffset, _⟩ := hstands
    omega
  · rintro ⟨hle, hge⟩
    obtain ⟨c', hoffset⟩ := Nat.exists_eq_add_of_le hle
    have hhere : StandsAt text v.offset (before.length + 1) (c' + 1) :=
      (standsAt_iff hlines).2 ⟨c', rfl, hoffset, .inl (by omega)⟩
    obtain ⟨hline, hcolumn⟩ := hstands.unique hhere
    omega

theorem countP_upTo (vs : List Violation) (s c : Nat) :
    vs.countP (fun v => v.offset ≤ s + c) =
      vs.countP (fun v => v.offset < s) + vs.countP fun v => s ≤ v.offset ∧ v.offset ≤ s + c := by
  induction vs with
  | nil => rfl
  | cons v vs ih =>
    simp only [List.countP_cons, ih, decide_eq_true_eq]
    split <;> split <;> split <;> omega

/-- An octet stays on its line, and its column grows by five for each violation at or before it on
this line. -/
theorem standsAt_shifted (h : Placed text vs) (hn : (vs.map (·.offset)).Nodup)
    (hb : ∀ v ∈ vs, isBoundary v.offset text = true) {o l column : Nat} (ho : o < size text)
    (hstands : StandsAt text o l column) :
    StandsAt (splice (selfMark (vs.map (·.offset))) 0 text) (shifted vs o) l
      (column + 5 * vs.countP fun v => v.line.toNat = l ∧ v.column.toNat ≤ column) := by
  obtain ⟨_, before, line, after, c, hfalls, rfl, rfl⟩ := hstands
  have hlines := hfalls.lines_eq
  have hoffset := hfalls.offset_eq
  have hc : c < size line := by
    rcases hfalls.inside with hc | rfl
    · exact hc
    · have htext := congrArg size (text_of_lines hlines)
      rw [size_append, size_append, List.flatten_nil, Text.size_nil] at htext
      omega
  have hcount : (vs.countP fun v => v.line.toNat = before.length + 1 ∧ v.column.toNat ≤ c + 1) =
      vs.countP fun v => size before.flatten ≤ v.offset ∧ v.offset ≤ size before.flatten + c := by
    refine List.countP_congr fun v hv => ?_
    simpa using upTo_column_iff h hlines hc hv
  obtain ⟨before', after', hnew, hlength, hbefore⟩ := exists_lines_splice h hn hb hlines
  rw [← hlength, standsAt_iff hnew, hlength]
  refine ⟨c + 5 * vs.countP fun v => v.line.toNat = before.length + 1 ∧ v.column.toNat ≤ c + 1,
    by omega, ?_, .inl ?_⟩
  · have hsplit := countP_upTo vs (size before.flatten) c
    rw [hcount, hbefore, shifted, ← List.countP_eq_length_filter, hoffset]
    omega
  · -- All violations up to the column are on the line.
    have hle : (vs.countP fun v => v.line.toNat = before.length + 1 ∧ v.column.toNat ≤ c + 1) ≤
        (columns vs (before.length + 1)).length := by
      unfold columns
      rw [List.length_map, ← List.countP_eq_length_filter]
      refine List.countP_mono_left fun v _ hv => ?_
      simp only [decide_eq_true_eq] at hv ⊢
      exact hv.1
    rw [size_splice_selfMark (nodup_columns h hn hlines) fun _ =>
      isBoundary_of_mem_columns h hb hlines]
    omega

/-- An octet of the old text is found where its offset has moved to. -/
theorem getElem?_shifted (hn : (vs.map (·.offset)).Nodup)
    (hb : ∀ v ∈ vs, isBoundary v.offset text = true) {o : Nat} (ho : o < size text) :
    (encode (splice (selfMark (vs.map (·.offset))) 0 text))[shifted vs o]? = (encode text)[o]? := by
  have hfits : Fits (selfMark (vs.map (·.offset))) 0 text :=
    fits_selfMark (List.forall_mem_map.2 hb)
  have ho' : o < (encode text).length := by rwa [Text.encode_length]
  have hoctet :=
    Source.getElem?_spliceOctets (fun o => encode (selfMark (vs.map (·.offset)) o)) 0 ho'
  rw [Source.encode_splice 0 text hfits, ← hoctet, shifted_eq_added hn]
  simp [added, Text.encode_length]

/-! ## Overwriting by the report -/

/-- What positions say is inserted on a line before a column. -/
def insertedAt (ps : List LineColumn) (line column : Nat) : Text.Octets :=
  if ∃ p ∈ ps, p.line.toNat = line ∧ p.column.toNat = column then encode selfText else []

/-- A text has the lines of another one, with `self.` inserted before positions. -/
structure InsertedInto (ps : List LineColumn) (old new : List Char) : Prop where
  length_lines : (lines new).length = (lines old).length
  encode_line (k : Nat) (line line' : List Char) : (lines old)[k]? = some line →
    (lines new)[k]? = some line' →
      encode line' = spliceOctets (fun c => insertedAt ps (k + 1) (c + 1)) 0 (encode line)

theorem mem_columns_iff_reported (h : Placed text vs) {l c : Nat} :
    c ∈ columns vs l ↔ ∃ p ∈ reported vs, p.line.toNat = l ∧ p.column.toNat = c + 1 := by
  have hcolumn : ∀ v ∈ vs, 0 < v.column.toNat := by
    intro v hv
    obtain ⟨_, _, _, _, c, _, _, hc⟩ := h v hv
    omega
  simp only [(reported_perm vs).mem_iff, columns, List.mem_map, List.mem_filter, decide_eq_true_eq,
    exists_exists_and_eq_and, Violation.position]
  constructor
  · rintro ⟨v, ⟨hv, hline⟩, rfl⟩
    have := hcolumn v hv
    exact ⟨v, hv, hline, by omega⟩
  · rintro ⟨v, hv, hline, hc⟩
    exact ⟨v, ⟨hv, hline⟩, by omega⟩

theorem insertedInto_splice (h : Placed text vs) (hn : (vs.map (·.offset)).Nodup)
    (hb : ∀ v ∈ vs, isBoundary v.offset text = true) :
    InsertedInto (reported vs) text (splice (selfMark (vs.map (·.offset))) 0 text) where
  length_lines := by
    rw [Source.lines_splice (newline_notMem_selfMark _), Source.length_spliceLines]
  encode_line := by
    intro k line line' hline hline'
    obtain ⟨hk, rfl⟩ := List.getElem?_eq_some_iff.1 hline
    have hlines : lines text = (lines text).take k ++
        (lines text)[k] :: (lines text).drop (k + 1) := by
      rw [List.getElem_cons_drop, List.take_append_drop]
    have hlength : ((lines text).take k).length = k := List.length_take_of_le (Nat.le_of_lt hk)
    obtain ⟨before', after', hnew, hbefore, _⟩ := exists_lines_splice h hn hb hlines
    have hfits := fits_selfMark fun _ => isBoundary_of_mem_columns h hb hlines
    rw [hlength] at hnew hbefore hfits
    rw [hnew, List.getElem?_append_right (Nat.le_of_eq hbefore), hbefore, Nat.sub_self] at hline'
    cases hline'
    rw [Source.encode_splice 0 _ hfits]
    congr 1
    funext c
    unfold selfMark insertedAt
    rw [apply_ite encode, if_congr (mem_columns_iff_reported h) rfl rfl]
    rfl

end

/-- Overwriting inserts `self.` on each line before the columns that a report prints for this line,
and nowhere else. So an octet keeps its line, and its column grows by five for each reported
position at or before it on this line. -/
theorem overwrite_at_reported (text : String) (vs : List Violation)
    (hsize : size text.toList + 1 < UInt32.size) (hdistinct : (vs.map (·.offset)).Nodup)
    (hboundary : ∀ v ∈ vs, isBoundary v.offset text.toList = true)
    (hposition : ∀ v ∈ vs,
      (LineTable.ofText text.toList).lineColumn? v.offset = some v.position) :
    List.Forall₂ (fun p line => ∃ file, line = diagnosticAt file p) (reported vs) (report vs) ∧
    ∃ new : String,
      (∀ t path, t.content path = .ok (encode text.toList) → t.Writable path →
        ∃ t', overwrite t path text vs = (t', .ok new) ∧
          t'.content path = .ok (encode new.toList)) ∧
      (∀ t path new', (overwrite t path text vs).2 = .ok new' → new' = new) ∧
      InsertedInto (reported vs) text.toList new.toList ∧
      ∀ o < size text.toList, ∀ p, (LineTable.ofText text.toList).lineColumn? o = some p →
        (encode new.toList)[shifted vs o]? = (encode text.toList)[o]? ∧
        StandsAt new.toList (shifted vs o) p.line.toNat (p.column.toNat +
          5 * (reported vs).countP fun q => q.line = p.line ∧ q.column ≤ p.column) := by
  have hplaced : Placed text.toList vs := fun v hv =>
    (Source.lineColumn?_eq_some_iff hsize).1 (hposition v hv)
  have happly := applyInsertions_insertions hdistinct (List.forall_mem_map.2 hboundary)
  refine ⟨report_prints vs, .ofList (splice (selfMark (vs.map (·.offset))) 0 text.toList), ?_, ?_,
    ?_, ?_⟩
  · intro t path hcontent hopen
    obtain ⟨p, x, mode, hp, _, hend, hover⟩ := overwrite_of_applied happly hcontent hopen
    exact ⟨_, hover, by rw [FileTree.content_set_self hend hp, String.toList_ofList]⟩
  · intro t path new' hover
    rw [← (attempt_of_answer hover).overwritten.text, String.ofList_toList]
  · rw [String.toList_ofList]
    exact insertedInto_splice hplaced hdistinct hboundary
  · intro o ho p hp
    rw [String.toList_ofList]
    refine ⟨getElem?_shifted hdistinct hboundary ho, ?_⟩
    have hcount : (reported vs).countP (fun q => q.line = p.line ∧ q.column ≤ p.column) =
        vs.countP fun v => v.line.toNat = p.line.toNat ∧ v.column.toNat ≤ p.column.toNat := by
      rw [(reported_perm vs).countP_eq, List.countP_map]
      refine List.countP_congr fun v _ => ?_
      rw [Function.comp_apply, decide_eq_true_iff, decide_eq_true_iff, UInt32.toNat_inj,
        UInt32.le_iff_toNat_le]
      rfl
    rw [hcount]
    exact standsAt_shifted hplaced hdistinct hboundary ho
      ((Source.lineColumn?_eq_some_iff hsize).1 hp)

/-- Violations at the starts of two lines, behind a wide character and at the end of the text. -/
def accentedViolations : List Violation :=
  [⟨"/A", 7, 2, 1⟩, ⟨"/A", 5, 1, 6⟩, ⟨"/A", 9, 3, 1⟩, ⟨"/A", 0, 1, 1⟩]

theorem reported_accentedViolations :
    reported accentedViolations = [⟨1, 1⟩, ⟨1, 6⟩, ⟨2, 1⟩, ⟨3, 1⟩] := by
  cbv

theorem overwrite_at_reported_accented :
    ∃ new : String,
      (∀ t path, t.content path = .ok (encode "x é y\nx\n".toList) → t.Writable path →
        ∃ t', overwrite t path "x é y\nx\n" accentedViolations = (t', .ok new)) ∧
      (lines new.toList).length = 3 ∧
      (∀ line, (lines new.toList)[0]? = some line →
        encode line = encode "self.x é self.y\n".toList) ∧
      (∀ line, (lines new.toList)[2]? = some line → encode line = encode "self.".toList) ∧
      StandsAt new.toList 15 1 16 := by
  obtain ⟨_, new, hover, _, hinserted, hoctets⟩ :=
    overwrite_at_reported "x é y\nx\n" accentedViolations
    (by decide) (by decide) (by decide) (by decide)
  rw [reported_accentedViolations] at hinserted hoctets
  refine ⟨new, fun t path hcontent hopen => ?_, ?_, fun line hline => ?_, fun line hline => ?_, ?_⟩
  · obtain ⟨t', h, _⟩ := hover t path hcontent hopen
    exact ⟨t', h⟩
  · rw [hinserted.length_lines]
    decide
  · rw [hinserted.encode_line 0 "x é y\n".toList line (by decide) hline]
    decide
  · rw [hinserted.encode_line 2 [] line (by decide) hline]
    decide
  · exact (hoctets 5 (by decide) ⟨1, 6⟩ (by decide)).2

end ExplicitSelf.Lint
