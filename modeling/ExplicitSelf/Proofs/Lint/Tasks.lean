import ExplicitSelf.Lint.Run
import ExplicitSelf.Proofs.FileTree.NewFile
import ExplicitSelf.Proofs.Lint.Interleaving

/-!
# The work on a file, step by step

Tasks share the files, the argument source and the report. Linting a file is cut here where another
task can come in between: after the look-up of the arguments, after reading the file, after each
query, and after each line of a report. A task writes a report only while it holds the lock of the
output, and waits as long as another task does. A file is overwritten in one step, all calls of it
included.

What the service may answer is a relation (`Answers`). A run can thus be one in which a given
service answers (`Service.answers`), and just as well one in which anything may be answered at any
time: by a service that looks at other files, at unfinished ones, or at what it was asked before.
What was answered is kept in a log.

* `World`, `Progress`, `Goes`, `Ends`: the steps of a task.
* `lintWork`: the steps as work in the sense of `Interleaving`.
* `Fate`, `begunFate`: what a task comes to if no other comes in between.

Results:
* `inquire_again`, `inquire_dot`, `inquire_ask`, `inquire_gone`: an inquiry query by query.
* `lintFile_fate`: the fate of a task is the work on its file.
-/
namespace ExplicitSelf

open Source (LineTable)

/-- What a service may answer, and what it may make of the files on the way. -/
structure Answers where
  index : FileTree → Path → List String → FileTree × Except Service.Error Index.Node → Prop
  cursor : FileTree → Path → Nat → List String → Except Service.Error Service.Cursor → Prop

/-- What a given service answers. -/
def Service.answers (service : Service) : Answers where
  index t file arguments answer := service.index t file arguments = answer
  cursor t file o arguments answer := service.cursor t file o arguments = answer

/-- Answers that change no files. -/
def Answers.ReadOnly (answers : Answers) : Prop :=
  ∀ t file arguments t' answer, answers.index t file arguments (t', answer) → t' = t

namespace Lint

/-! ## An inquiry in parts -/

/-- What is known from two parts of an inquiry. -/
def Classification.append (c d : Classification) : Classification where
  violations := c.violations ++ d.violations
  failures := c.failures ++ d.failures
  alreadyQualified := c.alreadyQualified + d.alreadyQualified
  queries := c.queries + d.queries

instance : Append Classification := ⟨Classification.append⟩

theorem Classification.append_eq (c d : Classification) :
    c ++ d = ⟨c.violations ++ d.violations, c.failures ++ d.failures,
      c.alreadyQualified + d.alreadyQualified, c.queries + d.queries⟩ := rfl

theorem Classification.append_assoc (c d e : Classification) : c ++ d ++ e = c ++ (d ++ e) := by
  simp only [append_eq, List.append_assoc, Nat.add_assoc]

@[simp] theorem Classification.empty_append (c : Classification) : {} ++ c = c := by
  simp [append_eq]

@[simp] theorem Classification.append_empty (c : Classification) : c ++ {} = c := by
  simp [append_eq]

/-- What one answer adds to an inquiry, or the error that ends it. -/
def glance (file : Path) (table : LineTable) (o : Nat)
    (answer : Except Service.Error Service.Cursor) : Except Service.Error Classification :=
  match answer with
  | .ok cursor => .ok { violations := (violation? file table o cursor).toList, queries := 1 }
  | .error e =>
    if e.isFatal then .error e
    else .ok { failures := [.classification file o e.message], queries := 1 }

section
variable {ask : Nat → Except Service.Error Service.Cursor} {file : Path} {table : LineTable}
  {seen os : List Nat} {o : Nat}

theorem inquire_again (h : o ∈ seen) :
    inquire ask file table seen (o :: os) = inquire ask file table seen os := by
  rw [inquire, if_pos (List.contains_iff_mem.2 h)]

variable (hnew : o ∉ seen)
include hnew

theorem inquire_dot (hdot : table.charBefore? o = some '.') :
    (inquire ask file table seen (o :: os)).result =
        (inquire ask file table (o :: seen) os).result.map ({ alreadyQualified := 1 } ++ ·) ∧
      (inquire ask file table seen (o :: os)).asked =
        (inquire ask file table (o :: seen) os).asked := by
  rw [inquire, if_neg (fun h => hnew (List.contains_iff_mem.1 h)), if_pos hdot]
  refine ⟨congrArg (Except.map · _) (funext fun c => ?_), rfl⟩
  simp [Classification.append_eq, Nat.add_comm]

variable (hdot : table.charBefore? o ≠ some '.')
include hdot

theorem inquire_ask {part : Classification} (h : glance file table o (ask o) = .ok part) :
    (inquire ask file table seen (o :: os)).result =
        (inquire ask file table (o :: seen) os).result.map (part ++ ·) ∧
      (inquire ask file table seen (o :: os)).asked =
        o :: (inquire ask file table (o :: seen) os).asked := by
  rw [inquire, if_neg (fun h => hnew (List.contains_iff_mem.1 h)), if_neg hdot]
  unfold glance at h
  cases hanswer : ask o with
  | ok cursor =>
    rw [hanswer] at h
    cases h
    refine ⟨congrArg (Except.map · _) (funext fun c => ?_), rfl⟩
    simp [Classification.append_eq, Nat.add_comm]
  | error e =>
    simp only [hanswer] at h ⊢
    split at h
    · cases h
    · rename_i he
      cases h
      rw [if_neg he]
      refine ⟨congrArg (Except.map · _) (funext fun c => ?_), rfl⟩
      simp [Classification.append_eq, Nat.add_comm]

theorem inquire_gone {e : Service.Error} (h : glance file table o (ask o) = .error e) :
    (inquire ask file table seen (o :: os)).result = .error e := by
  rw [inquire, if_neg (fun h => hnew (List.contains_iff_mem.1 h)), if_neg hdot]
  unfold glance at h
  cases hanswer : ask o with
  | ok cursor => rw [hanswer] at h; cases h
  | error e' =>
    simp only [hanswer] at h ⊢
    split at h
    · rename_i he
      cases h
      rw [if_pos he]
      rfl
    · cases h

end

/-! ## The steps of a task -/

/-- What a task was answered. -/
inductive Reply where
  | arguments (file : Path) (arguments : List String)
  | index (file : Path) (arguments : List String) (answer : Except Service.Error Index.Node)
  | cursor (file : Path) (offset : Nat) (arguments : List String)
    (answer : Except Service.Error Service.Cursor)

/-- What tasks share while they lint. -/
structure World where
  tree : FileTree
  source : ArgumentSource
  /-- The lines of the report so far. -/
  output : List String := []
  /-- Whether some task writes to the report. -/
  locked : Bool := false
  /-- What was answered so far. -/
  log : List Reply := []

/-- How far the work on a file is. -/
inductive Progress where
  | begun
  | resolved (arguments : List String)
  | opened (arguments : List String) (text : String)
  /-- The candidates at `rest` are left, those at `seen` were looked at, and `found` is known. -/
  | asking (arguments : List String) (text : String) (seen rest : List Nat) (found : Classification)
  /-- The task has the lock, and the lines that are left to write. -/
  | reporting (found : Classification) (rest : List String)

/-- The offsets of the candidates of a text. -/
def candidateOffsets (text : String) (root : Index.Node) : List Nat :=
  (Index.candidates (.ofText text.toList) root).map (·.offset)

section
variable (answers : Answers) (mode : Mode) (file : Path)

/-- A step to further progress. There is none while the task waits for the lock. -/
inductive Goes : World → Progress → World → Progress → Prop where
  | resolve {w : World} {arguments : List String}
    (h : (w.source.resolve w.tree file).result = .ok (some arguments)) :
    Goes w .begun
      { w with source := (w.source.resolve w.tree file).source
               log := w.log ++ [.arguments file arguments] }
      (.resolved arguments)
  | read {w : World} {arguments : List String} {text : String}
    (h : w.tree.readText file = .ok text) :
    Goes w (.resolved arguments) w (.opened arguments text)
  | index {w : World} {t : FileTree} {arguments : List String} {text : String} {root : Index.Node}
    (h : answers.index w.tree file arguments (t, .ok root)) :
    Goes w (.opened arguments text)
      { w with tree := t, log := w.log ++ [.index file arguments (.ok root)] }
      (.asking arguments text [] (candidateOffsets text root) {})
  | again {w : World} {arguments : List String} {text : String} {seen rest : List Nat} {o : Nat}
    {found : Classification} (h : o ∈ seen) :
    Goes w (.asking arguments text seen (o :: rest) found) w
      (.asking arguments text seen rest found)
  | dot {w : World} {arguments : List String} {text : String} {seen rest : List Nat} {o : Nat}
    {found : Classification} (hnew : o ∉ seen)
    (hdot : (LineTable.ofText text.toList).charBefore? o = some '.') :
    Goes w (.asking arguments text seen (o :: rest) found) w
      (.asking arguments text (o :: seen) rest (found ++ { alreadyQualified := 1 }))
  | ask {w : World} {arguments : List String} {text : String} {seen rest : List Nat} {o : Nat}
    {found part : Classification} {answer : Except Service.Error Service.Cursor} (hnew : o ∉ seen)
    (hdot : (LineTable.ofText text.toList).charBefore? o ≠ some '.')
    (h : answers.cursor w.tree file o arguments answer)
    (hpart : glance file (.ofText text.toList) o answer = .ok part) :
    Goes w (.asking arguments text seen (o :: rest) found)
      { w with log := w.log ++ [.cursor file o arguments answer] }
      (.asking arguments text (o :: seen) rest (found ++ part))
  | lock {w : World} {arguments : List String} {text : String} {seen : List Nat}
    {found : Classification} (hm : mode = .report) (hv : found.violations ≠ [])
    (hl : w.locked = false) :
    Goes w (.asking arguments text seen [] found) { w with locked := true }
      (.reporting found (report found.violations))
  | line {w : World} {found : Classification} {line : String} {rest : List String} :
    Goes w (.reporting found (line :: rest)) { w with output := w.output ++ [line] }
      (.reporting found rest)

/-- A step to the end of the work. -/
inductive Ends : World → Progress → World → Outcome → Prop where
  | skip {w : World}
    (h : ∀ arguments, (w.source.resolve w.tree file).result ≠ .ok (some arguments)) :
    Ends w .begun { w with source := (w.source.resolve w.tree file).source } .skipped
  | unread {w : World} {arguments : List String} {e : IoError}
    (h : w.tree.readText file = .error e) : Ends w (.resolved arguments) w (.failed none)
  | unindexed {w : World} {t : FileTree} {arguments : List String} {text : String}
    {e : Service.Error} (h : answers.index w.tree file arguments (t, .error e)) :
    Ends w (.opened arguments text)
      { w with tree := t, log := w.log ++ [.index file arguments (.error e)] }
      (queryFailed file e).1
  | gone {w : World} {arguments : List String} {text : String} {seen rest : List Nat} {o : Nat}
    {found : Classification} {answer : Except Service.Error Service.Cursor} {e : Service.Error}
    (hnew : o ∉ seen) (hdot : (LineTable.ofText text.toList).charBefore? o ≠ some '.')
    (h : answers.cursor w.tree file o arguments answer)
    (hpart : glance file (.ofText text.toList) o answer = .error e) :
    Ends w (.asking arguments text seen (o :: rest) found)
      { w with log := w.log ++ [.cursor file o arguments answer] } (queryFailed file e).1
  | clean {w : World} {arguments : List String} {text : String} {seen : List Nat}
    {found : Classification} (hv : found.violations = []) :
    Ends w (.asking arguments text seen [] found) w
      (.linted found.violations.length found.failures.length .kept)
  | overwritten {w : World} {t : FileTree} {arguments : List String} {text new : String}
    {seen : List Nat} {found : Classification} (hm : mode = .overwrite) (hv : found.violations ≠ [])
    (h : overwrite w.tree file text found.violations = (t, .ok new)) :
    Ends w (.asking arguments text seen [] found) { w with tree := t }
      (.linted found.violations.length found.failures.length .overwritten)
  | unwritten {w : World} {t : FileTree} {arguments : List String} {text : String}
    {e : OverwriteError} {seen : List Nat} {found : Classification} (hm : mode = .overwrite)
    (hv : found.violations ≠ [])
    (h : overwrite w.tree file text found.violations = (t, .error e)) :
    Ends w (.asking arguments text seen [] found) { w with tree := t }
      (.linted found.violations.length found.failures.length .unwritten)
  | reported {w : World} {found : Classification} :
    Ends w (.reporting found []) { w with locked := false }
      (.linted found.violations.length found.failures.length .kept)

end

theorem queryFailed_cases (file : Path) (e : Service.Error) :
    (queryFailed file e).1 = .failed none ∨ (queryFailed file e).1 = .failed (some e) := by
  unfold queryFailed
  split
  · exact .inr rfl
  · exact .inl rfl

theorem queryFailed_ne_linted (file : Path) (e : Service.Error) (violations failures : Nat)
    (ending : Ending) : (queryFailed file e).1 ≠ .linted violations failures ending := by
  rcases queryFailed_cases file e with h | h <;> rw [h] <;> simp

/-- A step that goes on changes no files. -/
theorem Goes.tree_eq {answers : Answers} (ha : answers.ReadOnly) {mode : Mode} {w w' : World}
    {file : Path} {p p' : Progress} (h : Goes answers mode file w p w' p') : w'.tree = w.tree := by
  cases h with
  | index h => exact ha _ _ _ _ _ h
  | _ => rfl

theorem Ends.ne_notStarted {answers : Answers} {mode : Mode} {w w' : World} {file : Path}
    {p : Progress} {o : Outcome} (h : Ends answers mode file w p w' o) : o ≠ .notStarted := by
  cases h with
  | unindexed h => rcases queryFailed_cases file _ with h | h <;> rw [h] <;> simp
  | gone hnew hdot h hpart => rcases queryFailed_cases file _ with h | h <;> rw [h] <;> simp
  | _ => simp

/-- Linting as the work of tasks. -/
def lintWork (answers : Answers) (mode : Mode) : Work World Progress where
  start := .begun
  Goes w file p w' p' := Goes answers mode file w p w' p'
  Ends w file p w' o := Ends answers mode file w p w' o
  ends_started := Ends.ne_notStarted

/-! ## What is linted -/

/-- What is linted, and how. -/
structure Job where
  mode : Mode
  tree : FileTree
  source : ArgumentSource
  files : List Path

namespace Job
variable (J : Job)

/-- A state that tasks reach, if they may be answered so. -/
def Runs (answers : Answers) (s : State World Progress) : Prop :=
  Reaches (lintWork answers J.mode) J.files
    (.initial Progress { tree := J.tree, source := J.source } J.files) s

/-- No two paths end at the same file or link, however many links are on the way. -/
def Distinct : Prop :=
  J.files.Pairwise fun f g => ∀ q, J.tree.Ends f q → ¬J.tree.Ends g q

variable {J} {i j : Nat} {file other : Path}

theorem Distinct.of_ne (hd : J.Distinct) (hij : i ≠ j) (hi : J.files[i]? = some file)
    (hj : J.files[j]? = some other) :
    ∀ q, J.tree.Ends file q → ¬J.tree.Ends other q := by
  obtain ⟨hi', rfl⟩ := List.getElem?_eq_some_iff.1 hi
  obtain ⟨hj', rfl⟩ := List.getElem?_eq_some_iff.1 hj
  have hpair := List.pairwise_iff_getElem.1 hd
  intro q hq hq'
  rcases Nat.lt_or_gt_of_ne hij with hlt | hgt
  · exact hpair i j hi' hj' hlt q hq hq'
  · exact hpair j i hj' hi' hgt q hq' hq

end Job

/-! ## What the work comes to -/

/-- What the work on a file comes to, if no other task comes in between: its outcome, the files
after it, and the lines that it reports. -/
structure Fate where
  outcome : Outcome
  tree : FileTree
  lines : List String

/-- The fate of a task whose candidates are classified. -/
def classifiedFate (mode : Mode) (t : FileTree) (file : Path) (text : String) (c : Classification) :
    Fate where
  outcome := .linted c.violations.length c.failures.length (settle mode t file text c).1
  tree := (settle mode t file text c).2.1
  lines := (settle mode t file text c).2.2.2.flatMap (·.lines)

section
variable (t : FileTree) (file : Path) (text : String) {c : Classification}

theorem classifiedFate_clean (mode : Mode) (hv : c.violations = []) :
    classifiedFate mode t file text c =
      ⟨.linted c.violations.length c.failures.length .kept, t, []⟩ := by
  simp [classifiedFate, settle, hv]

theorem classifiedFate_report (hv : c.violations ≠ []) :
    classifiedFate .report t file text c =
      ⟨.linted c.violations.length c.failures.length .kept, t, report c.violations⟩ := by
  simp [classifiedFate, settle, hv]

theorem classifiedFate_overwritten (hv : c.violations ≠ []) {t t' : FileTree} {new : String}
    (ho : overwrite t file text c.violations = (t', .ok new)) :
    classifiedFate .overwrite t file text c =
      ⟨.linted c.violations.length c.failures.length .overwritten, t', []⟩ := by
  simp [classifiedFate, settle, hv, ho]

theorem classifiedFate_unwritten (hv : c.violations ≠ []) {t t' : FileTree} {e : OverwriteError}
    (ho : overwrite t file text c.violations = (t', .error e)) :
    classifiedFate .overwrite t file text c =
      ⟨.linted c.violations.length c.failures.length .unwritten, t', []⟩ := by
  simp [classifiedFate, settle, hv, ho]

end

/-- The fate of a task that has an index, with what is left of its candidates. -/
def askingFate (service : Service) (mode : Mode) (t : FileTree) (file : Path)
    (arguments : List String) (text : String) (seen rest : List Nat) (found : Classification) :
    Fate :=
  match (inquire (service.cursor t file · arguments) file
    (.ofText text.toList) seen rest).result with
  | .error e => ⟨(queryFailed file e).1, t, []⟩
  | .ok c => classifiedFate mode t file text (found ++ c)

/-- The fate of a task that has read its file. -/
def openedFate (service : Service) (mode : Mode) (t : FileTree) (file : Path)
    (arguments : List String) (text : String) : Fate :=
  match service.index t file arguments with
  | (t, .error e) => ⟨(queryFailed file e).1, t, []⟩
  | (t, .ok root) =>
    askingFate service mode t file arguments text [] (candidateOffsets text root) {}

/-- The fate of a task that has its arguments. -/
def resolvedFate (service : Service) (mode : Mode) (t : FileTree) (file : Path)
    (arguments : List String) : Fate :=
  match t.readText file with
  | .error _ => ⟨.failed none, t, []⟩
  | .ok text => openedFate service mode t file arguments text

/-- The fate of a task that has begun, by the answer to its look-up. -/
def begunFate (service : Service) (mode : Mode) (t : FileTree) (file : Path)
    (answer : Except Error (Option (List String))) : Fate :=
  match answer with
  | .ok (some arguments) => resolvedFate service mode t file arguments
  | _ => ⟨.skipped, t, []⟩

section
variable {service : Service} {mode : Mode} {t : FileTree} {file : Path} {arguments : List String}
  {text : String} {seen rest : List Nat} {o : Nat} {found : Classification}

@[simp] theorem askingFate_nil :
    askingFate service mode t file arguments text seen [] found =
      classifiedFate mode t file text found := by
  simp [askingFate, inquire, Inquiry.empty]

theorem askingFate_again (h : o ∈ seen) :
    askingFate service mode t file arguments text seen (o :: rest) found =
      askingFate service mode t file arguments text seen rest found := by
  rw [askingFate, inquire_again h, askingFate]

/-- What one candidate adds can be added before or after the inquiry about the others. -/
theorem askingFate_part {seen' rest' : List Nat} {part : Classification}
    (h : (inquire (service.cursor t file · arguments) file (.ofText text.toList) seen rest).result =
      (inquire (service.cursor t file · arguments) file
        (.ofText text.toList) seen' rest').result.map
        (part ++ ·)) :
    askingFate service mode t file arguments text seen rest found =
      askingFate service mode t file arguments text seen' rest' (found ++ part) := by
  rw [askingFate, askingFate, h]
  cases (inquire (service.cursor t file · arguments) file
    (.ofText text.toList) seen' rest').result with
  | error e => rfl
  | ok c =>
    show classifiedFate mode t file text (found ++ (part ++ c)) = _
    rw [← Classification.append_assoc]

variable (hnew : o ∉ seen)
include hnew

theorem askingFate_dot (hdot : (LineTable.ofText text.toList).charBefore? o = some '.') :
    askingFate service mode t file arguments text seen (o :: rest) found =
      askingFate service mode t file arguments text (o :: seen) rest
        (found ++ { alreadyQualified := 1 }) :=
  askingFate_part (inquire_dot hnew hdot).1

variable (hdot : (LineTable.ofText text.toList).charBefore? o ≠ some '.')
include hdot

theorem askingFate_ask {part : Classification}
    (h : glance file (.ofText text.toList) o (service.cursor t file o arguments) = .ok part) :
    askingFate service mode t file arguments text seen (o :: rest) found =
      askingFate service mode t file arguments text (o :: seen) rest (found ++ part) :=
  askingFate_part (inquire_ask hnew hdot h).1

theorem askingFate_gone {e : Service.Error}
    (h : glance file (.ofText text.toList) o (service.cursor t file o arguments) = .error e) :
    askingFate service mode t file arguments text seen (o :: rest) found =
      ⟨(queryFailed file e).1, t, []⟩ := by
  rw [askingFate, inquire_gone hnew hdot h]

end

theorem lintText_fate (service : Service) (mode : Mode) (t : FileTree) (source : ArgumentSource)
    (file : Path) (arguments : List String) (text : String) :
    openedFate service mode t file arguments text =
      ⟨(lintText service mode t source file arguments text).outcome,
        (lintText service mode t source file arguments text).tree,
        (lintText service mode t source file arguments text).report.flatMap (·.lines)⟩ := by
  unfold openedFate lintText
  cases service.index t file arguments with
  | mk t answer =>
    cases answer with
    | error e => rfl
    | ok root =>
      simp only [askingFate, classify, candidateOffsets, Classification.empty_append]
      cases (inquire (fun o => service.cursor t file o arguments) file (.ofText text.toList) []
          ((Index.candidates (.ofText text.toList) root).map (·.offset))).result with
      | error e => rfl
      | ok c => rfl

/-- The fate of a task is the work on its file. -/
theorem lintFile_fate (service : Service) (mode : Mode) (t : FileTree) (source : ArgumentSource)
    (file : Path) :
    begunFate service mode t file (source.resolve t file).result =
      ⟨(lintFile service mode t source file).outcome, (lintFile service mode t source file).tree,
        (lintFile service mode t source file).report.flatMap (·.lines)⟩ := by
  unfold begunFate lintFile
  simp only
  cases (source.resolve t file).result with
  | error e => rfl
  | ok answer =>
    cases answer with
    | none => rfl
    | some arguments =>
      unfold resolvedFate
      simp only
      cases t.readText file with
      | error e => rfl
      | ok text =>
        exact lintText_fate service mode t (source.resolve t file).source file arguments text

end Lint

end ExplicitSelf
