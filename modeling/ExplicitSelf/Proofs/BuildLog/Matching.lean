import ExplicitSelf.Proofs.BuildLog.Scan

/-!
# What a log answers

`Matches` and `Yields` say which lines of a log are about a file and what can be read from them,
without the search for a word and without an order of the tests. `Answers` says what follows for the
whole log. The first line from which arguments can be read decides; a line before it that cannot be
read is passed over. Only if there is none does the first line that is about the file make the
answer an error.

Results:
* `yields_iff`, `matches_iff`: the lines that a scan looks at.
* `Answers.unique`: a log has one answer.
* `answers_scanTails`: it is that of the scan.
* `compileCommand_eq_iff`: it is the answer of `compileCommand`, which first asks whether the path
  occurs at all.
-/
namespace ExplicitSelf.BuildLog

open Arguments (UnterminatedQuote)

/-! ## Lines -/

/-- A text that may stand in front of a word: none, or one that ends with a blank. -/
def Opens (l : List Char) : Prop :=
  l = [] ∨ ∃ l' b, l = l' ++ [b] ∧ Text.isBlank b = true

/-- A line is about a file if it has both markers, and the escaped path between blanks or its
ends. -/
def Matches (file : Path) (line : List Char) : Prop :=
  moduleMarker <:+: line ∧ compilerMarker <:+: line ∧
    ∃ l r, line = l ++ escapeSpaces file.text.toList ++ r ∧ Opens l ∧ Closes r

/-- What can be read from a line about a file: the arguments after the first name of the compiler,
or an error. -/
def Yields (file : Path) (line : List Char) (r : Except UnterminatedQuote (List String)) : Prop :=
  Matches file line ∧ ∃ l tail, line = l ++ compilerMarker ++ tail ∧
    (∀ l' tail', line = l' ++ compilerMarker ++ tail' → l.length ≤ l'.length) ∧
    Arguments.tokenize (.ofList tail) = r

section
variable {file : Path} {line : List Char}

theorem hasWord_true_iff {word : List Char} :
    hasWord word true line = true ↔ ∃ l r, line = l ++ word ++ r ∧ Opens l ∧ Closes r := by
  simp only [hasWord_iff, and_true, Opens]

/-- A scan looks at the lines that are about the file. -/
theorem matches_iff :
    Matches file line ↔ (invocation? (escapeSpaces file.text.toList) line).isSome = true := by
  have hmarker : compilerMarker <:+: line ↔
      ∃ tail, Text.afterFirst? compilerMarker line = some tail := by
    rw [← Text.occursIn_iff, Text.occursIn, Option.isSome_iff_exists]
  rw [Option.isSome_iff_exists, Matches, hmarker, ← hasWord_true_iff]
  refine ⟨fun ⟨hm, ⟨tail, ht⟩, hw⟩ => ⟨tail, invocation?_eq_some_iff.2 ⟨hm, hw, ht⟩⟩,
    fun ⟨tail, h⟩ => ?_⟩
  obtain ⟨hm, hw, ht⟩ := invocation?_eq_some_iff.1 h
  exact ⟨hm, ⟨tail, ht⟩, hw⟩

/-- It reads what they yield. -/
theorem yields_iff {r : Except UnterminatedQuote (List String)} :
    Yields file line r ↔ ∃ tail, invocation? (escapeSpaces file.text.toList) line = some tail ∧
      Arguments.tokenize (.ofList tail) = r := by
  rw [Yields, matches_iff, Option.isSome_iff_exists]
  refine ⟨fun ⟨⟨tail, h⟩, l, tail', hl, hmin, hr⟩ => ?_, fun ⟨tail, h, hr⟩ => ⟨⟨tail, h⟩, ?_⟩⟩
  · obtain ⟨_, _, ht⟩ := invocation?_eq_some_iff.1 h
    have ht' := Text.afterFirst?_eq_some_iff.2 ⟨l, hl, hmin⟩
    rw [ht, Option.some.injEq] at ht'
    exact ⟨tail, h, ht' ▸ hr⟩
  · obtain ⟨_, _, ht⟩ := invocation?_eq_some_iff.1 h
    obtain ⟨l, hl, hmin⟩ := Text.afterFirst?_eq_some_iff.1 ht
    exact ⟨l, tail, hl, hmin, hr⟩

theorem Yields.unique {r r' : Except UnterminatedQuote (List String)} (h : Yields file line r)
    (h' : Yields file line r') : r = r' := by
  obtain ⟨tail, ht, hr⟩ := yields_iff.1 h
  obtain ⟨tail', ht', hr'⟩ := yields_iff.1 h'
  rw [ht, Option.some.injEq] at ht'
  rw [← hr, ← hr', ht']

end

/-! ## Logs -/

/-- The answer of a log, given by its lines, about a file. -/
inductive Answers (file : Path) (ls : List (List Char)) :
    Except UnterminatedQuote (Option (List String)) → Prop
  /-- The first line that can be read gives the arguments. -/
  | found {before line after raw} (split : ls = before ++ line :: after)
      (first : ∀ l ∈ before, ∀ raw', ¬Yields file l (.ok raw'))
      (reads : Yields file line (.ok raw)) :
      Answers file ls (.ok (some (Arguments.normalize raw)))
  /-- There is none, and the first line about the file gives the error. -/
  | malformed {before line after e} (unread : ∀ l ∈ ls, ∀ raw, ¬Yields file l (.ok raw))
      (split : ls = before ++ line :: after) (first : ∀ l ∈ before, ¬Matches file l)
      (fails : Yields file line (.error e)) : Answers file ls (.error e)
  /-- No line is about the file. -/
  | absent (unmatched : ∀ l ∈ ls, ¬Matches file l) : Answers file ls (.ok none)

/-- Two first elements of a kind are one. -/
theorem eq_of_first {α : Type} {P : α → Prop} {before after before' after' : List α} {x x' : α}
    (h : before ++ x :: after = before' ++ x' :: after') (hx : P x) (hx' : P x')
    (hb : ∀ y ∈ before, ¬P y) (hb' : ∀ y ∈ before', ¬P y) : x = x' := by
  rcases List.append_eq_append_iff.1 h with ⟨more, rfl, hmore⟩ | ⟨more, rfl, hmore⟩
  · cases more with
    | nil => exact (List.cons.inj hmore).1
    | cons y more =>
      have hy : x = y := (List.cons.inj hmore).1
      exact absurd hx (hb' x (by simp [hy]))
  · cases more with
    | nil => exact (List.cons.inj hmore).1.symm
    | cons y more =>
      have hy : x' = y := (List.cons.inj hmore).1
      exact absurd hx' (hb x' (by simp [hy]))

section
variable {file : Path} {ls : List (List Char)}
  {r r' : Except UnterminatedQuote (Option (List String))}

/-- A log from which nothing is found has no line that can be read. -/
theorem Answers.unread_of_ne (h : Answers file ls r) (hr : ∀ args, r ≠ .ok (some args)) :
    ∀ l ∈ ls, ∀ raw, ¬Yields file l (.ok raw) := by
  cases h with
  | found split first reads => exact absurd rfl (hr _)
  | malformed unread _ _ _ => exact unread
  | absent unmatched => exact fun l hl raw hy => unmatched l hl hy.1

/-- A log has one answer. -/
theorem Answers.unique (h : Answers file ls r) (h' : Answers file ls r') : r = r' := by
  have hmem : ∀ {before line after : List _}, ls = before ++ line :: after → line ∈ ls := by
    intro before line after hs
    simp [hs]
  cases h with
  | @found _ line _ raw split first reads =>
    cases h' with
    | @found _ line' _ raw' split' first' reads' =>
      have hline : line = line' := eq_of_first (P := fun l => ∃ raw, Yields file l (.ok raw))
        (split.symm.trans split') ⟨raw, reads⟩ ⟨raw', reads'⟩
          (fun l hl ⟨raw'', hy⟩ => first l hl raw'' hy)
        fun l hl ⟨raw'', hy⟩ => first' l hl raw'' hy
      cases Yields.unique reads (hline ▸ reads')
      rfl
    | malformed unread _ _ _ => exact absurd reads (unread _ (hmem split) _)
    | absent unmatched => exact absurd reads.1 (unmatched _ (hmem split))
  | @malformed _ line _ e unread split first fails =>
    cases h' with
    | found split' _ reads' => exact absurd reads' (unread _ (hmem split') _)
    | @malformed _ line' _ e' _ split' first' fails' =>
      have hline : line = line' :=
        eq_of_first (split.symm.trans split') fails.1 fails'.1 first first'
      cases Yields.unique fails (hline ▸ fails')
      rfl
    | absent unmatched => exact absurd fails.1 (unmatched _ (hmem split))
  | absent unmatched =>
    cases h' with
    | found split' _ reads' => exact absurd reads'.1 (unmatched _ (hmem split'))
    | malformed _ split' _ fails' => exact absurd fails'.1 (unmatched _ (hmem split'))
    | absent _ => rfl

/-- A line that cannot be read gives way to any that can. -/
theorem Answers.cons_found {args : List String} (h : Answers file ls (.ok (some args)))
    {line : List Char}
    (hline : ∀ raw, ¬Yields file line (.ok raw)) : Answers file (line :: ls) (.ok (some args)) := by
  cases h with
  | @found before found after _ split first reads =>
    have hsplit : line :: ls = (line :: before) ++ found :: after := by rw [split]; rfl
    exact .found hsplit (List.forall_mem_cons.2 ⟨hline, first⟩) reads

/-- A line that is not about the file changes nothing. -/
theorem Answers.cons (h : Answers file ls r) {line : List Char} (hline : ¬Matches file line) :
    Answers file (line :: ls) r := by
  have hunread : ∀ raw, ¬Yields file line (.ok raw) := fun raw hy => hline hy.1
  cases h with
  | found split first reads => exact (Answers.found split first reads).cons_found hunread
  | @malformed before failed after _ unread split first fails =>
    have hsplit : line :: ls = (line :: before) ++ failed :: after := by rw [split]; rfl
    exact .malformed (List.forall_mem_cons.2 ⟨hunread, unread⟩) hsplit
      (List.forall_mem_cons.2 ⟨hline, first⟩) fails
  | absent unmatched => exact .absent (List.forall_mem_cons.2 ⟨hline, unmatched⟩)

end

/-- The scan of the lines gives the answer of the log: one case for each kind of line. -/
theorem answers_scanTails (file : Path) (ls : List (List Char)) :
    Answers file ls
      (scanTails (ls.filterMap (invocation? (escapeSpaces file.text.toList)))).result := by
  induction ls with
  | nil => exact .absent (List.forall_mem_nil _)
  | cons line ls ih =>
    cases hi : invocation? (escapeSpaces file.text.toList) line with
    | none =>
      rw [List.filterMap_cons_none hi]
      apply ih.cons
      rw [matches_iff, hi]
      exact Bool.false_ne_true
    | some tail =>
      rw [List.filterMap_cons_some hi, scanTails]
      cases ht : Arguments.tokenize (.ofList tail) with
      | ok raw =>
        have hreads : Yields file line (.ok raw) := yields_iff.2 ⟨tail, hi, ht⟩
        exact .found (List.nil_append _).symm (List.forall_mem_nil _) hreads
      | error e =>
        have hfails : Yields file line (.error e) := yields_iff.2 ⟨tail, hi, ht⟩
        have hline : ∀ raw, ¬Yields file line (.ok raw) := by
          intro raw hy
          cases hfails.unique hy
        generalize hs :
          scanTails (ls.filterMap (invocation? (escapeSpaces file.text.toList))) = s at ih
        cases ha : s.arguments with
        | some args =>
          rw [result_eq_ok_some_iff.2 ha] at ih
          have hresult : Scan.result ⟨some args, e :: s.malformed⟩ = .ok (some args) := rfl
          simp only [ha, hresult]
          exact ih.cons_found hline
        | none =>
          have hunread := ih.unread_of_ne fun args h => by
            rw [result_eq_ok_some_iff, ha] at h
            cases h
          have hresult : Scan.result ⟨none, e :: s.malformed⟩ = .error e := rfl
          simp only [ha, hresult]
          exact .malformed (List.forall_mem_cons.2 ⟨hline, hunread⟩) (List.nil_append _).symm
            (List.forall_mem_nil _) hfails

theorem result_scan_eq_iff {contents : String} {file : Path}
    {r : Except UnterminatedQuote (Option (List String))} :
    (scan contents file).result = r ↔ Answers file (lines contents.toList) r := by
  rw [scan_eq]
  have hanswers := answers_scanTails file (lines contents.toList)
  exact ⟨fun h => h ▸ hanswers, hanswers.unique⟩

/-- The answer for a file is that of the lines between carriage returns and line feeds: the first
line about the file that can be read, or the error of the first line about the file, or none. It is
also what the scan of all lines gives, whether or not the path occurs in the text. -/
theorem compileCommand_eq_iff (contents : String) (file : Path)
    (r : Except UnterminatedQuote (Option (List String))) :
    (compileCommand contents file = r ↔
      Answers file (contents.toList.splitOnP fun c => c = '\r' || c = '\n') r) ∧
    compileCommand contents file = (scanTails
      ((lines contents.toList).filterMap
        (invocation? (escapeSpaces file.text.toList)))).result := by
  rw [← Text.splitWhere_eq_splitOnP]
  exact ⟨result_scan_eq_iff, congrArg Scan.result (scan_eq contents file)⟩

end ExplicitSelf.BuildLog
