import ExplicitSelf.Proofs.Arguments.Spelling
import ExplicitSelf.Proofs.BuildLog.Scan
import ExplicitSelf.Proofs.Plan.Steps

/-!
# One invocation, recorded three ways

The arguments of an invocation stand in a line of a build log, in a list of a build plan, or in a
line of one. A line has the spaces of an argument escaped and one space between arguments
(`written`). From each record the same arguments are recovered.

Results:
* `tokenize_written`: a written line is read back.
* `reading?_written`: a log line with a written invocation counts for each file among its arguments.
* `arguments_recovered`: the three records agree.
-/
namespace ExplicitSelf.Arguments

open BuildLog (escapeSpaces compilerMarker moduleMarker compileCommand reading? lines hasWord)
open Plan (Command RawArguments commands? compiles isCompileStep rawArguments)

/-! ## Lines -/

/-- Arguments that a line can hold. -/
structure Writable (as : List String) : Prop where
  nonempty : ∀ a ∈ as, a ≠ ""
  unquoted : ∀ a ∈ as, '"' ∉ a.toList
  visible : ∀ a ∈ as, placeholder ∉ a.toList
  closed : ∀ a ∈ as, a.toList.getLast? ≠ some '\\'
  ended : ∀ a, as.getLast? = some a → a.toList.getLast? ≠ some ' '

/-- The arguments as one line. -/
def written (as : List String) : List Char :=
  joined (as.map String.toList)

/-- A written line is a line of escaped words. -/
theorem exists_line_eq_written {as : List String} (h : Writable as) :
    ∃ ws, line ws 0 = written as ∧ ws.map (·.2.argument) = as := by
  let word (a : String) (ha : a ∈ as) : Word :=
    ⟨a, .escaped, by simpa using h.nonempty a ha, h.unquoted a ha, h.visible a ha,
      h.closed a ha, by simp⟩
  refine ⟨as.pmap (fun a ha => (0, word a ha)) fun _ ha => ha, ?_, ?_⟩
  · simp [line, written, joined, List.map_pmap, word, Word.text, spaces, Function.comp_def]
  · simp [List.map_pmap, word]

theorem tokenize_written {as : List String} (h : Writable as) :
    tokenize (.ofList (written as)) = .ok as := by
  obtain ⟨ws, hline, hwords⟩ := exists_line_eq_written h
  have hlast : ∀ n w, ws.getLast? = some (n, w) → w.style = .escaped →
      w.argument.toList.getLast? ≠ some ' ' := by
    intro n w hw _
    apply h.ended
    rw [← hwords, List.getLast?_map, hw]
    rfl
  have hread := tokenizeChars_line 0 hlast
  rw [hline, hwords] at hread
  exact tokenize_eq_ok hread

/-- Where an argument stands in a line. -/
theorem exists_joined_append (xs ys : List (List Char)) (a : List Char) :
    ∃ l r, ' ' :: joined (xs ++ a :: ys) = l ++ ' ' :: (escapeSpaces a ++ r) ∧
      (ys = [] ∧ r = [] ∨ ys ≠ [] ∧ ∃ r', r = ' ' :: r') := by
  induction xs with
  | nil =>
    by_cases hys : ys = []
    · subst hys
      exact ⟨[], [], by simp [joined, Text.joinWith], .inl ⟨rfl, rfl⟩⟩
    · exact ⟨[], ' ' :: joined ys, by rw [List.nil_append, joined_cons a hys]; rfl,
        .inr ⟨hys, _, rfl⟩⟩
  | cons x xs ih =>
    obtain ⟨l, r, hl, hr⟩ := ih
    refine ⟨' ' :: (escapeSpaces x ++ l), r, ?_, hr⟩
    rw [List.cons_append, joined_cons x (by simp), hl]
    simp

/-- Where an argument stands in a log line with a written invocation. -/
theorem exists_line_append (front : List Char) (xs ys : List String) (a : String) :
    ∃ l r, front ++ compilerMarker ++ written (xs ++ a :: ys) =
        l ++ [' '] ++ escapeSpaces a.toList ++ r ∧
      (ys = [] ∧ r = [] ∨ ys ≠ [] ∧ ∃ r', r = ' ' :: r') := by
  obtain ⟨l, r, hl, hr⟩ :=
    exists_joined_append (xs.map String.toList) (ys.map String.toList) a.toList
  have hmarker : compilerMarker = "swiftc".toList ++ [' '] := by decide
  refine ⟨front ++ "swiftc".toList ++ l, r, ?_, by simpa using hr⟩
  rw [hmarker, written, List.map_append, List.map_cons]
  simp only [List.append_assoc, List.cons_append, List.nil_append, hl]

/-! ## Logs -/

/-- A log line with a written invocation counts for each file among the arguments. -/
theorem reading?_written {as : List String} (h : Writable as) {xs ys : List String}
    (hmodule : as = xs ++ "-module-name" :: ys) (hys : ys ≠ []) {file : Path}
    (hfile : file.text ∈ as) {front : List Char} (hfront : ¬compilerMarker <:+: front) :
    reading? (escapeSpaces file.text.toList) (front ++ compilerMarker ++ written as) = some as := by
  refine BuildLog.reading?_eq_some_iff.2 ⟨?_, ?_, written as, ?_, tokenize_written h⟩
  · obtain ⟨l, r, hline, hr⟩ := exists_line_append front xs ys "-module-name"
    rcases hr with ⟨hnil, _⟩ | ⟨_, r', rfl⟩
    · exact absurd hnil hys
    · have hmarker : moduleMarker = [' '] ++ escapeSpaces "-module-name".toList ++ [' '] := by
        decide
      refine ⟨l, r', ?_⟩
      rw [hmodule, hline, hmarker]
      simp
  · obtain ⟨zs, ws, rfl⟩ := List.append_of_mem hfile
    obtain ⟨l, r, hline, hr⟩ := exists_line_append front zs ws file.text
    refine BuildLog.hasWord_iff.2 ⟨l ++ [' '], r, hline, .inr ⟨l, ' ', rfl, by decide⟩, ?_⟩
    rcases hr with ⟨_, rfl⟩ | ⟨_, r', rfl⟩
    · exact .inl rfl
    · exact .inr ⟨' ', r', rfl, by decide⟩
  · have hmarker : compilerMarker = 's' :: "wiftc ".toList := by decide
    rw [hmarker] at hfront ⊢
    exact Text.afterFirst?_append (by decide) hfront (written as)

/-! ## Plans -/

theorem compilerArguments_of_raw {c : Command} (compiler : String) {as : List String}
    (hc : (Path.ofText compiler).fileName? = some ("swiftc" : Name))
    (h : rawArguments c = .ok (compiler :: as)) :
    Plan.compilerArguments none c = .ok (normalize as) := by
  simp [Plan.compilerArguments, h, Plan.dropCompiler, hc]

theorem tokenize_compiler_written {as : List String} (hne : as ≠ []) (h : Writable as) :
    tokenize (.ofList (compilerMarker ++ written as)) = .ok ("swiftc" :: as) := by
  have hline : compilerMarker ++ written as = written ("swiftc" :: as) := by
    rw [written, written, List.map_cons, joined_cons _ (by simpa using hne)]
    rfl
  rw [hline]
  refine tokenize_written ⟨?_, ?_, ?_, ?_, ?_⟩
  · exact List.forall_mem_cons.2 ⟨by decide, h.nonempty⟩
  · exact List.forall_mem_cons.2 ⟨by decide, h.unquoted⟩
  · exact List.forall_mem_cons.2 ⟨by decide, h.visible⟩
  · exact List.forall_mem_cons.2 ⟨by decide, h.closed⟩
  · intro a ha
    rw [List.getLast?_cons_of_ne_nil hne] at ha
    exact h.ended a ha

/-- The two ways in which a plan records the arguments of an invocation. -/
inductive Records (as : List String) : RawArguments → Prop
  | list (compiler : String) (h : (Path.ofText compiler).fileName? = some ("swiftc" : Name)) :
    Records as (.list (compiler :: as))
  | line : Records as (.line (.ofList (compilerMarker ++ written as)))

theorem compilerArguments_of_records {as : List String} (hne : as ≠ []) (h : Writable as)
    (c : Command) {raw : RawArguments} (hraw : Records as raw) :
    Plan.compilerArguments none { c with arguments := some raw } = .ok (normalize as) := by
  cases hraw with
  | list compiler hcompiler => exact compilerArguments_of_raw compiler hcompiler rfl
  | line =>
    refine compilerArguments_of_raw "swiftc" (by decide +kernel) ?_
    simp only [rawArguments, tokenize_compiler_written hne h]

/-! ## The three records -/

/-- A log and both forms of a plan give the same arguments: those of the invocation that they
record, in normal form. -/
theorem arguments_recovered (as : List String) (h : Writable as)
    (hmodule : ∃ xs ys, as = xs ++ "-module-name" :: ys ∧ ys ≠ []) (file : Path)
    (hfile : file.text ∈ as) :
    (∀ (contents : String) (before after : List (List Char)) (front : List Char),
      lines contents.toList = before ++ (front ++ compilerMarker ++ written as) :: after →
      (∀ l ∈ before, reading? (escapeSpaces file.text.toList) l = none) →
      ¬compilerMarker <:+: front →
      compileCommand contents file = .ok (some (normalize as))) ∧
    (∀ (text key : String) (c : Command) (before after : List (String × Command))
      (raw : RawArguments),
      Records as raw →
      commands? text = some (some (before ++ (key, { c with arguments := some raw }) :: after)) →
      compiles file (key, c) = true →
      (∀ s ∈ before ++ after, compiles file s = false ∧
        (isCompileStep s.1 s.2 = true → ∃ bs, rawArguments s.2 = .ok bs)) →
      ∃ plan, Plan.parse none text = .ok plan ∧ plan.arguments? file = some (normalize as)) := by
  obtain ⟨xs, ys, hsplit, hys⟩ := hmodule
  constructor
  · intro contents before after front hlines hbefore hfront
    exact BuildLog.compileCommand_eq_ok_iff.2 ⟨before, _, after, as, hlines, hbefore,
      reading?_written h hsplit hys hfile hfront, rfl⟩
  · intro text key c before after raw hraw htext hstep hothers
    refine Plan.arguments?_of_only_step htext hstep
      (compilerArguments_of_records (List.ne_nil_of_mem hfile) h c hraw) fun s hs =>
        ⟨(hothers s hs).1, ?_⟩
    intro hcompile
    obtain ⟨bs, hbs⟩ := (hothers s hs).2 hcompile
    exact ⟨_, by rw [Plan.compilerArguments, hbs]⟩

/-- A log whose second line counts. -/
def recordedLog : String :=
  "note: A\nCompile swiftc -module-name A /My\\ A.swift -O"

/-- Its invocation in a plan, as a list, beside a step for no file. -/
def recordedList : String :=
  "commands:\n  swiftc:\n    inputs: [/My A.swift]\n    " ++
    "args: [/bin/swiftc, -module-name, A, /My A.swift, -O]\n  swiftc B: {}"

/-- The same as a line. -/
def recordedLine : String :=
  "commands:\n  swiftc:\n    inputs: [/My A.swift]\n    " ++
    "args: swiftc -module-name A /My\\ A.swift -O\n  swiftc B: {}"

/-- A path with a space in it. -/
theorem arguments_recovered_space :
    compileCommand recordedLog "/My A.swift" =
      .ok (some ["-module-name", "A", "/My A.swift", "-Onone", "-D", "DEBUG"]) ∧
    (∃ plan, Plan.parse none recordedList = .ok plan ∧ plan.arguments? "/My A.swift" =
      some ["-module-name", "A", "/My A.swift", "-Onone", "-D", "DEBUG"]) ∧
    ∃ plan, Plan.parse none recordedLine = .ok plan ∧ plan.arguments? "/My A.swift" =
      some ["-module-name", "A", "/My A.swift", "-Onone", "-D", "DEBUG"] := by
  have hwritable : Writable ["-module-name", "A", "/My A.swift", "-O"] :=
    ⟨by decide +kernel, by decide +kernel, by decide +kernel, by decide +kernel, by decide +kernel⟩
  have hnormal : normalize ["-module-name", "A", "/My A.swift", "-O"] =
      ["-module-name", "A", "/My A.swift", "-Onone", "-D", "DEBUG"] := by decide +kernel
  have hboth := arguments_recovered _ hwritable ⟨[], _, rfl, by simp⟩ "/My A.swift" (by simp)
  rw [hnormal] at hboth
  obtain ⟨hlog, hplan⟩ := hboth
  have hstep : compiles "/My A.swift" ("swiftc", ⟨none, ["/My A.swift"], none⟩) = true :=
    Plan.compiles_of_mem_inputs (by decide +kernel) (by decide +kernel) (by decide +kernel)
      (by simp)
  have hother : ∀ s ∈ [("swiftc B", ({} : Command))], compiles "/My A.swift" s = false ∧
      (isCompileStep s.1 s.2 = true → ∃ bs, rawArguments s.2 = .ok bs) := by
    simp only [List.mem_singleton, forall_eq]
    exact ⟨by decide +kernel, fun _ => ⟨[], rfl⟩⟩
  refine ⟨?_, ?_, ?_⟩
  · exact hlog recordedLog ["note: A".toList] [] "Compile ".toList (by decide +kernel)
      (by decide +kernel) (by decide +kernel)
  · exact hplan recordedList "swiftc" _ [] _ _ (.list "/bin/swiftc" (by decide +kernel))
      (by decide +kernel) hstep hother
  · exact hplan recordedLine "swiftc" _ [] _ _ .line (by decide +kernel) hstep hother

end ExplicitSelf.Arguments
