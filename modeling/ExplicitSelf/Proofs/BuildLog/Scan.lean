import ExplicitSelf.Proofs.Arguments.Escape
import ExplicitSelf.Proofs.Path.Texts

/-!
# Which line of a log counts

A scan passes over the lines of a log up to the first that invokes the compiler for the file and can
be read (`reading?`). That the path must occur somewhere in the log is asked first, and changes
nothing.

Whether a line is about the file is decided by the words between its blanks. Whether the file is
compiled is decided by the arguments of the invocation. The two differ where a blank is escaped or
quoted, and in what stands before the name of the compiler: `compileCommand_other_file` is about a
file that is not compiled at all.

Results:
* `hasWord_iff`: what it means that a text has a word.
* `scan_eq`: a scan is one of all lines.
* `scan_arguments`, `compileCommand_eq_ok_iff`: the line that counts.
* `compileCommand_compiles`: when the file is among the arguments that are found for it.
-/
namespace ExplicitSelf.BuildLog

open Arguments (Separated placeholder)

/-! ## Words -/

/-- A text that may follow a word: none, or one that starts with a blank. -/
def Closes (r : List Char) : Prop :=
  r = [] ∨ ∃ b r', r = b :: r' ∧ Text.isBlank b = true

theorem hasWord_cons {word : List Char} {start : Bool} {c : Char} {cs : List Char} :
    hasWord word start (c :: cs) = true ↔
      start = true ∧ (∃ r, c :: cs = word ++ r ∧ Closes r) ∨
        hasWord word (Text.isBlank c) cs = true := by
  rw [hasWord, Bool.or_eq_true, Bool.and_eq_true]
  refine or_congr_left (and_congr_right fun _ => ?_)
  cases h : Text.afterPrefix? word (c :: cs) with
  | none =>
    simp only [Bool.false_eq_true, false_iff, not_exists, not_and]
    intro r hr
    exact absurd ⟨r, hr.symm⟩ (Text.afterPrefix?_eq_none_iff.1 h)
  | some rest =>
    have hrest := Text.afterPrefix?_eq_some_iff.1 h
    have hunique : (∃ r, c :: cs = word ++ r ∧ Closes r) ↔ Closes rest := by
      constructor
      · rintro ⟨r, hr, hc⟩
        rw [hrest] at hr
        rwa [List.append_cancel_left hr]
      · intro hc
        exact ⟨rest, hrest, hc⟩
    rw [hunique]
    cases rest with
    | nil => simp [Closes]
    | cons d rest => simp [Closes]

/-- A text has a word if the word stands in it between blanks or its ends. -/
theorem hasWord_iff {word : List Char} {start : Bool} {cs : List Char} :
    hasWord word start cs = true ↔
      ∃ l r, cs = l ++ word ++ r ∧
        (l = [] ∧ start = true ∨ ∃ l' b, l = l' ++ [b] ∧ Text.isBlank b = true) ∧ Closes r := by
  -- `start` says whether a word may begin here, which the next character decides for the one after
  -- it
  induction cs generalizing start with
  | nil =>
    rw [hasWord, Bool.and_eq_true, List.isEmpty_iff]
    constructor
    · rintro ⟨hstart, rfl⟩
      exact ⟨[], [], rfl, .inl ⟨rfl, hstart⟩, .inl rfl⟩
    · rintro ⟨l, r, hnil, hl, _⟩
      obtain ⟨hlw, rfl⟩ := List.append_eq_nil_iff.1 hnil.symm
      obtain ⟨rfl, rfl⟩ := List.append_eq_nil_iff.1 hlw
      rcases hl with ⟨_, hstart⟩ | ⟨l', b, hl, _⟩
      · exact ⟨hstart, rfl⟩
      · simp at hl
  | cons c cs ih =>
    rw [hasWord_cons, ih]
    constructor
    · rintro (⟨hstart, r, hr, hc⟩ | ⟨l, r, rfl, hl, hc⟩)
      · exact ⟨[], r, hr, .inl ⟨rfl, hstart⟩, hc⟩
      · refine ⟨c :: l, r, rfl, .inr ?_, hc⟩
        rcases hl with ⟨rfl, hb⟩ | ⟨l', b, rfl, hb⟩
        · exact ⟨[], c, rfl, hb⟩
        · exact ⟨c :: l', b, rfl, hb⟩
    · rintro ⟨l, r, hcs, hl, hc⟩
      cases l with
      | nil =>
        rcases hl with ⟨_, hstart⟩ | ⟨l', b, hl, _⟩
        · exact .inl ⟨hstart, r, hcs, hc⟩
        · simp at hl
      | cons d l =>
        rw [List.cons_append, List.cons_append, List.cons.injEq] at hcs
        refine .inr ⟨l, r, hcs.2, ?_, hc⟩
        rcases hl with ⟨hl, _⟩ | ⟨l', b, hl, hb⟩
        · cases hl
        · cases l' with
          | nil =>
            simp only [List.nil_append, List.cons.injEq] at hl
            exact .inl ⟨hl.2, by rw [hcs.1, hl.1, hb]⟩
          | cons e l' =>
            rw [List.cons_append, List.cons.injEq] at hl
            exact .inr ⟨l', b, hl.2, hb⟩

theorem infix_of_hasWord {word : List Char} {start : Bool} {cs : List Char}
    (h : hasWord word start cs = true) : word <:+: cs := by
  obtain ⟨l, r, rfl, _⟩ := hasWord_iff.1 h
  exact ⟨l, r, rfl⟩

/-! ## The line that counts -/

theorem invocation?_eq_some_iff {escaped line tail : List Char} :
    invocation? escaped line = some tail ↔ moduleMarker <:+: line ∧
      hasWord escaped true line = true ∧
      Text.afterFirst? compilerMarker line = some tail := by
  rw [invocation?, ← Text.occursIn_iff]
  split
  · rename_i h
    rw [Bool.and_eq_true] at h
    simp [h]
  · rename_i h
    rw [Bool.and_eq_true, not_and] at h
    simp only [reduceCtorEq, false_iff, not_and]
    intro hm hw
    exact absurd hw (h hm)

/-- That the escaped path is looked for in the whole text first changes nothing. -/
theorem scan_eq (contents : String) (file : Path) :
    scan contents file = scanTails
      ((lines contents.toList).filterMap (invocation? (escapeSpaces file.text.toList))) := by
  unfold scan
  simp only
  split
  · rfl
  · rename_i hnot
    rw [List.filterMap_eq_nil_iff.2]
    · rfl
    · intro line hline
      rw [Option.eq_none_iff_forall_ne_some]
      intro tail htail
      have hword := infix_of_hasWord (invocation?_eq_some_iff.1 htail).2.1
      exact hnot (Text.occursIn_iff.2 (hword.trans (Text.infix_of_mem_splitWhere hline)))

/-- The arguments of a line, if it invokes the compiler for the file with this escaped path and can
be read. -/
def reading? (escaped line : List Char) : Option (List String) :=
  (invocation? escaped line).bind fun tail => (Arguments.tokenize (.ofList tail)).toOption

theorem reading?_eq_some_iff {escaped line : List Char} {raw : List String} :
    reading? escaped line = some raw ↔
      moduleMarker <:+: line ∧ hasWord escaped true line = true ∧
        ∃ tail, Text.afterFirst? compilerMarker line = some tail ∧
          Arguments.tokenize (.ofList tail) = .ok raw := by
  have hok : ∀ x : Except Arguments.UnterminatedQuote (List String),
      x.toOption = some raw ↔ x = .ok raw := by
    intro x
    cases x <;> simp [Except.toOption]
  simp only [reading?, Option.bind_eq_some_iff, invocation?_eq_some_iff, hok, and_assoc,
    exists_and_left]

theorem scanTails_filterMap (escaped : List Char) (ls : List (List Char)) :
    (scanTails (ls.filterMap (invocation? escaped))).arguments =
      (ls.findSome? (reading? escaped)).map Arguments.normalize := by
  induction ls with
  | nil => rfl
  | cons l ls ih =>
    rw [List.filterMap_cons, List.findSome?_cons, reading?]
    cases invocation? escaped l with
    | none => exact ih
    | some tail =>
      simp only [Option.bind_some, scanTails]
      cases Arguments.tokenize (.ofList tail) with
      | ok raw => rfl
      | error e => exact ih

/-- A scan finds the arguments of the first line that counts. -/
theorem scan_arguments (contents : String) (file : Path) :
    (scan contents file).arguments =
      ((lines contents.toList).findSome? (reading? (escapeSpaces file.text.toList))).map
        Arguments.normalize := by
  rw [scan_eq]
  exact scanTails_filterMap _ _

theorem result_eq_ok_some_iff {s : Scan} {args : List String} :
    s.result = .ok (some args) ↔ s.arguments = some args := by
  unfold Scan.result
  split
  · rename_i hnone _
    simp [hnone]
  · simp

/-- The arguments of a file are those of the first line that counts, in normal form. -/
theorem compileCommand_eq_ok_iff {contents : String} {file : Path} {args : List String} :
    compileCommand contents file = .ok (some args) ↔
      ∃ before line after raw, lines contents.toList = before ++ line :: after ∧
        (∀ l ∈ before, reading? (escapeSpaces file.text.toList) l = none) ∧
        reading? (escapeSpaces file.text.toList) line = some raw ∧
        args = Arguments.normalize raw := by
  rw [compileCommand, result_eq_ok_some_iff, scan_arguments, Option.map_eq_some_iff]
  constructor
  · rintro ⟨raw, hraw, rfl⟩
    obtain ⟨before, line, after, hlines, hline, hbefore⟩ := List.findSome?_eq_some_iff.1 hraw
    exact ⟨before, line, after, raw, hlines, hbefore, hline, rfl⟩
  · rintro ⟨before, line, after, raw, hlines, hbefore, hline, rfl⟩
    exact ⟨raw, List.findSome?_eq_some_iff.2 ⟨before, line, after, hlines, hline, hbefore⟩, rfl⟩

/-- A log of one line. -/
theorem compileCommand_of_line {line : String} {file : Path} {raw : List String}
    (hline : lines line.toList = [line.toList])
    (h : reading? (escapeSpaces file.text.toList) line.toList = some raw) :
    compileCommand line file = .ok (some (Arguments.normalize raw)) :=
  compileCommand_eq_ok_iff.2 ⟨[], line.toList, [], raw, hline, by simp, h, rfl⟩

/-! ## Whether the file is compiled -/

theorem tokenize_ofList_eq_ok {line : List Char} {raw : List String}
    (h : Arguments.tokenize (.ofList line) = .ok raw) :
    ∃ as, Arguments.tokenizeChars line = .ok as ∧ ∀ s : String, s ∈ raw ↔ s.toList ∈ as := by
  rw [Arguments.tokenize, String.toList_ofList] at h
  cases has : Arguments.tokenizeChars line with
  | error e => rw [has] at h; cases h
  | ok as =>
    rw [has] at h
    cases h
    refine ⟨as, rfl, fun s => ?_⟩
    rw [List.mem_map]
    constructor
    · rintro ⟨a, ha, rfl⟩
      rwa [String.toList_ofList]
    · intro hs
      exact ⟨s.toList, hs, String.ofList_toList⟩

/-- The arguments that a log gives for a file are those of an invocation in one of its lines. The
file is among them exactly if its path stands there between separating spaces, each of its own
spaces quoted or escaped. -/
theorem compileCommand_compiles (contents : String) (file : Path) (hfile : file.isAbsolute = true)
    {args : List String} (h : compileCommand contents file = .ok (some args)) :
    ∃ line ∈ lines contents.toList, ∃ tail raw,
      Text.afterFirst? compilerMarker line = some tail ∧
      Arguments.tokenize (.ofList tail) = .ok raw ∧ args = Arguments.normalize raw ∧
      (file.text ∈ raw ↔ ∃ spelling, Arguments.reveal spelling = file.text.toList ∧
        Separated (escapeSpaces spelling) (Arguments.trimSpaces (Arguments.protect false tail))) ∧
      ('"' ∉ tail → placeholder ∉ tail → (file.text ∈ raw ↔
        Separated (escapeSpaces file.text.toList) (Arguments.trimSpaces tail))) := by
  obtain ⟨before, line, after, raw, hlines, _, hline, rfl⟩ := compileCommand_eq_ok_iff.1 h
  obtain ⟨_, _, tail, htail, hraw⟩ := reading?_eq_some_iff.1 hline
  obtain ⟨as, has, hmem⟩ := tokenize_ofList_eq_ok hraw
  have hne : file.text.toList ≠ [] := by
    refine Path.text_ne_nil fun hnil => ?_
    simp [Path.isAbsolute, hnil] at hfile
  refine ⟨line, by rw [hlines]; simp, tail, raw, htail, hraw, rfl, ?_, fun hquote hplace => ?_⟩
  · rw [hmem, Arguments.mem_arguments_iff has, and_iff_right hne]
  · rw [hmem, Arguments.mem_arguments_iff_of_unquoted hquote hplace has, and_iff_right hne]

/-- A path with spaces in it, read back from an invocation that escapes them. -/
theorem compileCommand_compiles_escaped :
    compileCommand "swiftc -module-name App /src/My\\ App/A.swift" "/src/My App/A.swift" =
      .ok (some ["-module-name", "App", "/src/My App/A.swift", "-D", "DEBUG"]) ∧
    ∃ line ∈ lines "swiftc -module-name App /src/My\\ App/A.swift".toList, ∃ tail raw,
      Text.afterFirst? compilerMarker line = some tail ∧
      Arguments.tokenize (.ofList tail) = .ok raw ∧
      ["-module-name", "App", "/src/My App/A.swift", "-D", "DEBUG"] = Arguments.normalize raw ∧
      ("/src/My App/A.swift" ∈ raw ↔
        ∃ spelling, Arguments.reveal spelling = "/src/My App/A.swift".toList ∧
        Separated (escapeSpaces spelling) (Arguments.trimSpaces (Arguments.protect false tail))) ∧
      ('"' ∉ tail → placeholder ∉ tail → ("/src/My App/A.swift" ∈ raw ↔
        Separated (escapeSpaces "/src/My App/A.swift".toList) (Arguments.trimSpaces tail))) := by
  have hline : reading? (escapeSpaces "/src/My App/A.swift".toList)
      "swiftc -module-name App /src/My\\ App/A.swift".toList =
        some ["-module-name", "App", "/src/My App/A.swift"] := by decide +kernel
  have h : compileCommand "swiftc -module-name App /src/My\\ App/A.swift" "/src/My App/A.swift" =
      .ok (some ["-module-name", "App", "/src/My App/A.swift", "-D", "DEBUG"]) := by
    rw [compileCommand_of_line (by decide +kernel) (by rwa [Path.text_ofText])]
    decide +kernel
  have hcompiles := compileCommand_compiles _ _ (by decide +kernel) h
  rw [Path.text_ofText] at hcompiles
  exact ⟨h, hcompiles⟩

/-- The escaped space stands within an argument, but the path after it is a word of the line. -/
theorem compileCommand_other_file :
    ∃ raw, compileCommand "swiftc -module-name App /Users/me/Backup\\ /src/A.swift" "/src/A.swift" =
        .ok (some (Arguments.normalize raw)) ∧
      ("/src/A.swift" : Path).isAbsolute = true ∧
      lines "swiftc -module-name App /Users/me/Backup\\ /src/A.swift".toList =
        ["swiftc -module-name App /Users/me/Backup\\ /src/A.swift".toList] ∧
      Text.afterFirst? compilerMarker
          "swiftc -module-name App /Users/me/Backup\\ /src/A.swift".toList =
        some "-module-name App /Users/me/Backup\\ /src/A.swift".toList ∧
      Arguments.tokenize "-module-name App /Users/me/Backup\\ /src/A.swift" = .ok raw ∧
      "/src/A.swift" ∉ raw := by
  refine ⟨["-module-name", "App", "/Users/me/Backup /src/A.swift"], ?_, ?_, ?_, ?_, ?_, ?_⟩
  · exact compileCommand_of_line (by decide +kernel) (by decide +kernel)
  · decide +kernel
  · decide +kernel
  · decide +kernel
  · decide +kernel
  · decide +kernel

end ExplicitSelf.BuildLog
