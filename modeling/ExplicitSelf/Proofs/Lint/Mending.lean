import ExplicitSelf.Proofs.Lint.Convergence
import ExplicitSelf.Proofs.Lint.Dialogue
import ExplicitSelf.Proofs.Lint.Undisturbed
import ExplicitSelf.Proofs.Text.Decode

/-!
# What a run does to the files

In a run anything may be answered, as long as the answers change no files. They may depend on all
files, on unfinished work, and on what was asked before; the machine may refuse to read or to
replace files. Even so each file is left as it was, or gets `self.` in front of the violations that
were found in it, and nothing else changes. This holds at every moment of a run, so also where it is
aborted.

* `Job.Mended`: a file with `self.` in front of its violations.
* `Frame`, `Framed`: what holds of the files, and of a run, at every moment.

Results:
* `of_overwrite`: what overwriting a file does if nobody has changed it.
* `Ends.tree_cases`: the end of a task changes no files, or overwrites one.
* `Frame.set`: one file is replaced.
* `Framed.step`, `framed_of_runs`: one step, and all of a run.
-/
namespace ExplicitSelf.Lint

open Source (spliceOctets)
open Text (encode Octets isBoundary size)

/-! ## Overwriting a file -/

/-- Some content with `self.` in front of each of some offsets. -/
def withSelf (os : List Nat) (content : Octets) : Octets :=
  spliceOctets (fun o => encode (selfMark os o)) 0 content

theorem withSelf_encode {os : List Nat} {text : List Char}
    (h : ∀ o ∈ os, isBoundary o text = true) :
    withSelf os (encode text) = encode (Source.splice (selfMark os) 0 text) :=
  (Source.encode_splice 0 text (fits_selfMark h)).symm

theorem length_withSelf {os : List Nat} {text : List Char} (hne : os ≠ []) (hnodup : os.Nodup)
    (h : ∀ o ∈ os, isBoundary o text = true) :
    (encode text).length < (withSelf os (encode text)).length := by
  have hall : os.filter (· ≤ size text) = os := by
    refine List.filter_eq_self.2 fun o ho => ?_
    simpa using Text.isBoundary_le (h o ho)
  have hpos : 0 < os.length := List.length_pos_iff.2 hne
  rw [withSelf_encode h, Text.encode_length, Text.encode_length, size_splice (fits_selfMark h),
    added_selfMark hnodup, hall]
  omega

section
variable {t t' : FileTree} {file : Path} {text new : String} {vs : List Violation}

theorem content_of_overwrite (h : overwrite t file text vs = (t', .ok new)) :
    ∃ content, t.content file = .ok content := by
  cases attempt_of_eq h with
  | done _ hread _ _ _ _ => exact ⟨_, FileTree.content_of_reread hread⟩

/-- A file that still has the text that was looked at gets `self.` in front of each violation. -/
theorem of_overwrite (h : overwrite t file text vs = (t', .ok new))
    (hcontent : t.content file = .ok (encode text.toList)) (hne : vs ≠ []) :
    ∃ p x mode, t.resolve false file = .ok p ∧ t.resolve true file = .ok x ∧ t.EndsAt p x ∧
      t' = t.set p
        (.file (withSelf (vs.map (·.offset)) (encode text.toList)) mode t.now) ∧
      (encode text.toList).length <
        (withSelf (vs.map (·.offset)) (encode text.toList)).length := by
  obtain ⟨p, x, _, _, hp, hx, _, hend⟩ := FileTree.exists_place_of_content hcontent
  cases attempt_of_eq h with
  | @done _ _ _ mode happlied _ _ _ hplace _ =>
    rw [hp] at hplace
    cases hplace
    obtain ⟨hnodup, hboundary, htext⟩ := of_applyInsertions_insertions happlied
    refine ⟨p, x, mode, hp, hx, hend, ?_, length_withSelf (by simpa using hne) hnodup hboundary⟩
    rw [withSelf_encode hboundary, ← htext]

end

/-! ## The steps of a task -/

section
variable {answers : Answers} {mode : Mode} {w w' : World} {file : Path} {p p' : Progress}
  {o : Outcome}

/-- A step adds to the log what is about the file of its task. -/
theorem Goes.log_eq (h : Goes answers mode file w p w' p') :
    ∃ more, w'.log = w.log ++ more ∧ ∀ r ∈ more, r.file = file := by
  cases h with
  | resolve _ => exact ⟨_, rfl, by simp [Reply.file]⟩
  | index _ => exact ⟨_, rfl, by simp [Reply.file]⟩
  | ask _ _ _ _ => exact ⟨_, rfl, by simp [Reply.file]⟩
  | _ => exact ⟨[], (List.append_nil _).symm, by simp⟩

theorem Ends.log_eq (h : Ends answers mode file w p w' o) :
    ∃ more, w'.log = w.log ++ more ∧ ∀ r ∈ more, r.file = file := by
  cases h with
  | unindexed _ => exact ⟨_, rfl, by simp [Reply.file]⟩
  | gone _ _ _ _ => exact ⟨_, rfl, by simp [Reply.file]⟩
  | _ => exact ⟨[], (List.append_nil _).symm, by simp⟩

/-- The end of a task changes no files, or overwrites that of the task. -/
theorem Ends.tree_cases (ha : answers.ReadOnly) (h : Ends answers mode file w p w' o) :
    (w'.tree = w.tree ∧ ∀ violations failures, o ≠ .linted violations failures .overwritten) ∨
      mode = .overwrite ∧ ∃ arguments text seen c new, p = .asking arguments text seen [] c ∧
        c.violations ≠ [] ∧ overwrite w.tree file text c.violations = (w'.tree, .ok new) ∧
        w'.log = w.log ∧ o = .linted c.violations.length c.failures.length .overwritten := by
  cases h with
  | unindexed h => exact .inl ⟨ha _ _ _ _ _ h, fun v f => queryFailed_ne_linted file _ v f _⟩
  | gone _ _ _ _ => exact .inl ⟨rfl, fun v f => queryFailed_ne_linted file _ v f _⟩
  | overwritten hm hv h => exact .inr ⟨hm, _, _, _, _, _, rfl, hv, h, rfl, rfl⟩
  | unwritten hm hv h => exact .inl ⟨(attempt_of_eq h).tree_of_error, by simp⟩
  | _ => exact .inl ⟨rfl, by simp⟩

end

/-! ## What was found -/

namespace Job
variable (J : Job)

/-- A file had this text at the start. -/
def HasText (file : Path) (text : String) : Prop :=
  J.tree.content file = .ok (encode text.toList)

/-- A file that got `self.` in front of each violation that was found in it, and there are some. -/
def Mended (w : World) (file : Path) : Prop :=
  ∃ text c, (∀ c', Finds (dialogue w.log file) file text c' ↔ c' = c) ∧ c.violations ≠ [] ∧
    J.HasText file text ∧
    w.tree.content file =
      .ok (withSelf (c.violations.map (·.offset)) (encode text.toList)) ∧
    (encode text.toList).length <
      (withSelf (c.violations.map (·.offset)) (encode text.toList)).length

/-- What a task knows of its file was said. -/
def Stands (said : List Reply) (file : Path) : Phase Progress → Prop
  | .waiting => said = []
  | .working .begun => said = []
  | .working (.resolved arguments) => said = [.arguments file arguments]
  | .working (.opened arguments text) => said = [.arguments file arguments] ∧ J.HasText file text
  | .working (.asking arguments text seen rest found) =>
    Inquired said file arguments text seen rest found ∧ J.HasText file text
  | _ => True

variable {J}

theorem Mended.mono {w w' : World} {file : Path} (h : J.Mended w file)
    (hlog : dialogue w'.log file = dialogue w.log file)
    (hsame : w'.tree.SameContent w.tree file) : J.Mended w' file := by
  obtain ⟨text, c, hfinds, hne, htext, hcontent, hlonger⟩ := h
  exact ⟨text, c, hlog ▸ hfinds, hne, htext, (hsame _).2 hcontent, hlonger⟩

/-- A task that goes on knows what it is answered. -/
theorem Stands.next {answers : Answers} {mode : Mode} {w w' : World} {file : Path}
    {p p' : Progress} (hu : Unchanged J.tree w.tree file)
    (h : J.Stands (dialogue w.log file) file (.working p))
    (hgoes : Goes answers mode file w p w' p') :
    J.Stands (dialogue w'.log file) file (.working p') := by
  cases hgoes with
  | resolve _ =>
    rw [Stands, dialogue_append_self (by simp [Reply.file]), show dialogue w.log file = [] from h]
    rfl
  | read htext =>
    obtain ⟨content, hread, hdecode⟩ := FileTree.readText_eq_ok_iff.1 htext
    have hcontent := (hu.content content).1 (FileTree.read_eq_ok_iff.1 hread).2
    exact ⟨h, by rw [HasText, hcontent, Text.encode_of_decode hdecode]⟩
  | index _ =>
    obtain ⟨hsaid, htext⟩ := h
    rw [Stands, dialogue_append_self (by simp [Reply.file]), hsaid]
    exact ⟨inquired_start file _ _ _, htext⟩
  | again hseen => exact ⟨h.1.again hseen, h.2⟩
  | dot hnew hdot => exact ⟨h.1.dot hnew hdot, h.2⟩
  | ask hnew hdot _ hpart =>
    rw [Stands, dialogue_append_self (by simp [Reply.file])]
    exact ⟨h.1.ask hnew hdot hpart, h.2⟩
  | lock _ _ _ => trivial
  | line => trivial

end Job

/-! ## The files at every moment -/

/-- What holds of the files when some of them, those of the tasks in `written`, are overwritten. -/
structure Frame (J : Job) (written : Nat → Prop) (t : FileTree) : Prop where
  unchanged : ∀ (j : Nat) file, J.files[j]? = some file → ¬written j → Unchanged J.tree t file
  ends : ∀ (j : Nat) file, J.files[j]? = some file → ∀ q, t.Ends file q → J.tree.Ends file q
  /-- Only overwritten files have a new entry. -/
  entries : ∀ q, (∀ (j : Nat) file, J.files[j]? = some file → written j →
    J.tree.resolve false file ≠ .ok q) → FileTree.entryAt? t q = J.tree.entryAt? q
  /-- Only paths that lead to overwritten files have a new content. -/
  paths : ∀ path, t.SameContent J.tree path ∨
    ∃ (j : Nat) (file : Path) (q : Place), J.files[j]? = some file ∧ written j ∧
      J.tree.resolve false file = .ok q ∧ t.resolve true path = .ok q

section
variable {J : Job} {written written' : Nat → Prop} {t : FileTree} {i : Nat} {file : Path}

theorem Frame.congr (h : Frame J written t) (hover : ∀ j, written' j ↔ written j) :
    Frame J written' t := by
  rwa [show written' = written from funext fun j => propext (hover j)]

/-! ### One file is replaced -/

section
variable (h : Frame J written t) (hd : J.Distinct) (hf : J.files[i]? = some file) {p x : Place}
  (hend : t.EndsAt p x) (hp : J.tree.resolve false file = .ok p) (hx : J.tree.Ends file x)
  (content : Octets) (mode : Nat)
include h hd hf hp hx

/-- The other files end elsewhere. -/
theorem Frame.apart {j : Nat} {g : Path} (hij : i ≠ j) (hj : J.files[j]? = some g) :
    ¬t.Ends g p ∧ ¬t.Ends g x := by
  have hends := hd.of_ne hij hf hj
  exact ⟨fun hg => hends p (.of_resolve hp) (h.ends j g hj p hg),
    fun hg => hends x hx (h.ends j g hj x hg)⟩

include hend

/-- The other files keep their content. -/
theorem Frame.sameContent_set {j : Nat} {g : Path} (hij : i ≠ j) (hj : J.files[j]? = some g) :
    (t.set p (.file content mode t.now)).SameContent t g := by
  obtain ⟨hgp, hgx⟩ := h.apart hd hf hp hx hij hj
  refine FileTree.sameContent_set hend g fun hnew => ?_
  exact hgp (.of_set_other hend hgx (.of_resolve hnew))

theorem Frame.unchanged_set {j : Nat} {g : Path} (hj : J.files[j]? = some g) (hij : i ≠ j)
    (hover : ¬written j) : Unchanged J.tree (t.set p (.file content mode t.now)) g := by
  obtain ⟨hgp, hgx⟩ := h.apart hd hf hp hx hij hj
  exact (h.unchanged j g hj hover).set hend hgp hgx _ _ _

theorem Frame.ends_set {j : Nat} {g : Path} (hj : J.files[j]? = some g) {q : Place}
    (hq : (t.set p (.file content mode t.now)).Ends g q) : J.tree.Ends g q := by
  by_cases hij : i = j
  · subst hij
    rw [hf] at hj
    cases hj
    by_cases hqp : q = p
    · rw [hqp]
      exact .of_resolve hp
    · exact h.ends i file hf q (.of_set hend hqp hq)
  · exact h.ends j g hj q (.of_set_other hend (h.apart hd hf hp hx hij hj).2 hq)

omit hd hx in
theorem Frame.paths_set (path : Path) :
    (t.set p (.file content mode t.now)).SameContent J.tree path ∨
      ∃ (j : Nat) (g : Path) (q : Place), J.files[j]? = some g ∧ (written j ∨ j = i) ∧
        J.tree.resolve false g = .ok q ∧
        (t.set p (.file content mode t.now)).resolve true path = .ok q := by
  by_cases hnew : (t.set p (.file content mode t.now)).resolve true path = .ok p
  · exact .inr ⟨i, file, p, hf, .inr rfl, hp, hnew⟩
  · rcases h.paths path with hsame | ⟨j, g, q, hj, hdone, hg, hq⟩
    · refine .inl fun old => ?_
      exact (FileTree.sameContent_set hend path hnew old).trans (hsame old)
    · refine .inr ⟨j, g, q, hj, .inl hdone, hg, ?_⟩
      exact (FileTree.resolve_set hend hq).resolve_right hnew

theorem Frame.set : Frame J (fun j => written j ∨ j = i) (t.set p (.file content mode t.now)) := by
  refine ⟨fun j g hj hnot => ?_, fun j g hj q => h.ends_set hd hf hend hp hx content mode hj,
    fun q hq => ?_, h.paths_set hf hend hp content mode⟩
  · have hij : i ≠ j := fun hij => hnot (.inr hij.symm)
    exact h.unchanged_set hd hf hend hp hx content mode hj hij fun hover => hnot (.inl hover)
  · have hqp : q ≠ p := fun hqp => hq i file hf (.inr rfl) (hqp ▸ hp)
    rw [FileTree.entryAt_set _ _ _ hend.ne_nil, if_neg hqp]
    exact h.entries q fun j g hj hover => hq j g hj (.inl hover)

end

end

/-! ## A run at every moment -/

/-- The task of a file is done, and has overwritten it. -/
def State.Overwritten (s : State World Progress) (j : Nat) : Prop :=
  ∃ violations failures, s.phases[j]? = some (.done (.linted violations failures .overwritten))

/-- What holds at every moment of a run. -/
structure Framed (J : Job) (s : State World Progress) : Prop where
  length : s.phases.length = J.files.length
  frame : Frame J s.Overwritten s.world.tree
  /-- Tasks whose files are there know what was said about them. -/
  stands : ∀ (j : Nat) file phase, J.files[j]? = some file → (∃ q, J.tree.Ends file q) →
    s.phases[j]? = some phase → J.Stands (dialogue s.world.log file) file phase
  mended : ∀ (j : Nat) file, J.files[j]? = some file → s.Overwritten j → J.Mended s.world file

theorem framed_initial (J : Job) :
    Framed J (.initial Progress { tree := J.tree, source := J.source } J.files) := by
  have hnot : ∀ j, ¬(State.initial Progress ({ tree := J.tree, source := J.source } : World)
      J.files).Overwritten j := by
    rintro j ⟨_, _, h⟩
    cases State.phase_initial h
  refine ⟨List.length_map _, ⟨fun _ _ _ _ => .refl _ _, fun _ _ _ _ h => h, fun _ _ => rfl,
    fun _ => .inl (.refl _ _)⟩, fun j file phase _ _ h => ?_, fun j _ _ h => absurd h (hnot j)⟩
  cases State.phase_initial h
  rfl

section
variable {J : Job} {answers : Answers} {s s' : State World Progress} {i : Nat} {file : Path}

theorem State.not_overwritten {p : Progress} (hi : s.phases[i]? = some (.working p)) :
    ¬s.Overwritten i := by
  rintro ⟨_, _, h⟩
  rw [hi] at h
  cases h

theorem State.phases_set {old phase : Phase Progress} (hi : s.phases[i]? = some old)
    (hphases : s'.phases = s.phases.set i phase) (j : Nat) :
    s'.phases[j]? = if i = j then some phase else s.phases[j]? := by
  have hlt := (List.getElem?_eq_some_iff.1 hi).1
  rw [hphases, List.getElem?_set]
  simp [hlt]

/-- What is said about one file is not about another, if both are there. -/
theorem dialogue_other (hd : J.Distinct) {more : List Reply}
    (hlog : s'.world.log = s.world.log ++ more) (hmore : ∀ r ∈ more, r.file = file)
    (hf : J.files[i]? = some file) {j : Nat} {g : Path} (hij : i ≠ j) (hj : J.files[j]? = some g)
    (hg : ∃ q, J.tree.Ends g q) : dialogue s'.world.log g = dialogue s.world.log g := by
  obtain ⟨q, hq⟩ := hg
  rw [hlog]
  refine dialogue_append_other hmore ?_
  rintro rfl
  exact hd.of_ne hij hf hj q hq hq

/-- The others know what they knew. -/
theorem Framed.stands_step (hd : J.Distinct) (h : Framed J s) {old phase : Phase Progress}
    (hi : s.phases[i]? = some old) (hphases : s'.phases = s.phases.set i phase)
    (hf : J.files[i]? = some file) {more : List Reply}
    (hlog : s'.world.log = s.world.log ++ more) (hmore : ∀ r ∈ more, r.file = file)
    (hstands : (∃ q, J.tree.Ends file q) → J.Stands (dialogue s'.world.log file) file phase)
    (j : Nat) (g : Path) (phase' : Phase Progress) (hj : J.files[j]? = some g)
    (hg : ∃ q, J.tree.Ends g q) (hp : s'.phases[j]? = some phase') :
    J.Stands (dialogue s'.world.log g) g phase' := by
  rw [State.phases_set hi hphases] at hp
  split at hp
  · rename_i hij
    subst hij
    rw [hf] at hj
    cases hj
    cases hp
    exact hstands hg
  · rename_i hij
    rw [dialogue_other hd hlog hmore hf hij hj hg]
    exact h.stands j g phase' hj hg hp

/-- A file that is mended is there. -/
theorem Job.Mended.ends {w : World} (h : J.Mended w file) : ∃ q, J.tree.Ends file q := by
  obtain ⟨text, _, _, _, htext, _⟩ := h
  obtain ⟨p, _, _, _, hp, _⟩ := FileTree.exists_place_of_content htext
  exact ⟨p, .of_resolve hp⟩

/-- A task goes on, or ends, and no file is written. -/
theorem Framed.move (hd : J.Distinct) (h : Framed J s) {old phase : Phase Progress}
    (hi : s.phases[i]? = some old) (hold : ∀ o, old ≠ .done o)
    (hphases : s'.phases = s.phases.set i phase) (hf : J.files[i]? = some file)
    (htree : s'.world.tree = s.world.tree) {more : List Reply}
    (hlog : s'.world.log = s.world.log ++ more) (hmore : ∀ r ∈ more, r.file = file)
    (hnew : ∀ violations failures, phase ≠ .done (.linted violations failures .overwritten))
    (hstands : (∃ q, J.tree.Ends file q) → J.Stands (dialogue s'.world.log file) file phase) :
    Framed J s' := by
  have hget := State.phases_set hi hphases
  have hself : ¬s'.Overwritten i := by
    rintro ⟨v, f, hover⟩
    rw [hget, if_pos rfl] at hover
    exact hnew v f (Option.some.inj hover)
  have hover : ∀ j, s'.Overwritten j ↔ s.Overwritten j := by
    intro j
    unfold State.Overwritten
    rw [hget]
    split
    · rename_i hij
      subst hij
      simp [hi, hnew, hold]
    · exact Iff.rfl
  refine ⟨by rw [hphases, List.length_set, h.length], htree ▸ h.frame.congr hover,
    h.stands_step hd hi hphases hf hlog hmore hstands, fun j g hj hdone => ?_⟩
  have hij : i ≠ j := by
    rintro rfl
    exact hself hdone
  have hmended := h.mended j g hj ((hover j).1 hdone)
  exact hmended.mono (dialogue_other hd hlog hmore hf hij hj hmended.ends) (htree ▸ .refl _ _)

/-- A step without an answer, and without a file of its own. -/
theorem Framed.move_silent (hd : J.Distinct) (h : Framed J s) {old phase : Phase Progress}
    (hi : s.phases[i]? = some old) (hold : ∀ o, old ≠ .done o)
    (hphases : s'.phases = s.phases.set i phase) (hworld : s'.world = s.world)
    (hnew : ∀ violations failures, phase ≠ .done (.linted violations failures .overwritten))
    (hstands : ∀ said file, J.Stands said file old → J.Stands said file phase) : Framed J s' := by
  have hlt : i < J.files.length := h.length ▸ (List.getElem?_eq_some_iff.1 hi).1
  have hf := List.getElem?_eq_getElem hlt
  have hlog : s'.world.log = s.world.log ++ [] := by rw [hworld, List.append_nil]
  refine h.move hd hi hold hphases hf (by rw [hworld]) hlog (by simp) hnew fun hends => ?_
  rw [hworld]
  exact hstands _ _ (h.stands i _ _ hf hends hi)

/-- A task overwrites its file. -/
theorem Framed.overwrite (hd : J.Distinct) (h : Framed J s) {arguments : List String}
    {text new : String} {seen : List Nat} {c : Classification}
    (hi : s.phases[i]? = some (.working (.asking arguments text seen [] c)))
    (hf : J.files[i]? = some file) (hne : c.violations ≠ [])
    (hover : Lint.overwrite s.world.tree file text c.violations = (s'.world.tree, .ok new))
    (hlog : s'.world.log = s.world.log) {violations failures : Nat}
    (hphases : s'.phases = s.phases.set i (.done (.linted violations failures .overwritten))) :
    Framed J s' := by
  have hget := State.phases_set hi hphases
  have hdone : ∀ j, s'.Overwritten j ↔ s.Overwritten j ∨ j = i := by
    intro j
    unfold State.Overwritten
    rw [hget]
    by_cases hij : i = j
    · simp [hij]
    · simp [hij, Ne.symm hij]
  have hlog' : s'.world.log = s.world.log ++ [] := by rw [hlog, List.append_nil]
  -- the file is as at the start, so the text is that which was looked at
  have hu := h.frame.unchanged i file hf (State.not_overwritten hi)
  obtain ⟨old, hold⟩ := content_of_overwrite hover
  obtain ⟨p₀, _, _, _, hp₀, _⟩ := FileTree.exists_place_of_content ((hu.content old).1 hold)
  obtain ⟨hinquired, htext⟩ := h.stands i file _ hf ⟨p₀, .of_resolve hp₀⟩ hi
  obtain ⟨_, _, hstat⟩ := FileTree.content_eq_ok_iff.1 htext
  obtain ⟨p, x, mode, hp, hx, hend, htree, hlonger⟩ :=
    of_overwrite hover ((hu.content _).2 htext) hne
  have hp' : J.tree.resolve false file = .ok p := (hu.place _ hstat false).symm.trans hp
  have hx' : J.tree.Ends file x := hu.ends x (.of_resolve hx)
  refine ⟨by rw [hphases, List.length_set, h.length], ?_,
    h.stands_step hd hi hphases hf hlog' (by simp) fun _ => trivial, fun j g hj hover => ?_⟩
  · rw [htree]
    exact (h.frame.set hd hf hend hp' hx' _ mode).congr hdone
  · by_cases hij : i = j
    · subst hij
      rw [hf] at hj
      cases hj
      refine ⟨text, c, fun c' => ?_, hne, htext, htree ▸ FileTree.content_set_self hend hp, hlonger⟩
      rw [hlog]
      refine ⟨fun hc' => finds_unique hc' hinquired.finds, ?_⟩
      rintro rfl
      exact hinquired.finds
    · have hmended := h.mended j g hj (((hdone j).1 hover).resolve_right (Ne.symm hij))
      exact hmended.mono (by rw [hlog])
        (htree ▸ h.frame.sameContent_set hd hf hend hp' hx' _ mode hij hj)

/-- Each step of each task keeps what holds at every moment. -/
theorem Framed.step (ha : answers.ReadOnly) (hd : J.Distinct) (h : Framed J s)
    (hstep : Step (lintWork answers J.mode) J.files i s s') : Framed J s' := by
  cases hstep with
  | refuse hi _ => exact h.move_silent hd hi (by simp) rfl rfl (by simp) fun _ _ _ => trivial
  | start hi _ => exact h.move_silent hd hi (by simp) rfl rfl (by simp) fun _ _ hsaid => hsaid
  | go hi hf hw =>
    obtain ⟨more, hlog, hmore⟩ := Goes.log_eq hw
    have hu := h.frame.unchanged i _ hf (State.not_overwritten hi)
    exact h.move hd hi (by simp) rfl hf (Goes.tree_eq ha hw) hlog hmore (by simp)
      fun hends => (h.stands i _ _ hf hends hi).next hu hw
  | finish hi hf hw ho =>
    -- the one step that writes
    rcases Ends.tree_cases ha hw with ⟨htree, hkept⟩ |
      ⟨_, _, _, _, _, _, rfl, hne, hover, hlog, rfl⟩
    · obtain ⟨more, hlog, hmore⟩ := Ends.log_eq hw
      exact h.move hd hi (by simp) rfl hf htree hlog hmore (by simpa using hkept) fun _ => trivial
    · exact h.overwrite hd hi hf hne hover hlog rfl
  | fail hi hf hw =>
    rcases Ends.tree_cases ha hw with ⟨htree, _⟩ | ⟨_, _, _, _, _, _, _, _, _, _, ho⟩
    · obtain ⟨more, hlog, hmore⟩ := Ends.log_eq hw
      exact h.move hd hi (by simp) rfl hf htree hlog hmore (by simp) fun _ => trivial
    · cases ho
  | raise hi _ => exact h.move_silent hd hi (by simp) rfl rfl (by simp) fun _ _ _ => trivial
  | late hi _ => exact h.move_silent hd hi (by simp) rfl rfl (by simp) fun _ _ _ => trivial
  | store hi => exact h.move_silent hd hi (by simp) rfl rfl (by simp) fun _ _ _ => trivial

theorem framed_of_runs (ha : answers.ReadOnly) (hd : J.Distinct) (h : J.Runs answers s) :
    Framed J s := by
  induction h with
  | refl => exact framed_initial J
  | tail _ hstep ih =>
    obtain ⟨i, hstep⟩ := hstep
    exact ih.step ha hd hstep

/-- Reporting changes no files. -/
theorem tree_of_report (ha : answers.ReadOnly) (hmode : J.mode = .report)
    (h : J.Runs answers s) : s.world.tree = J.tree := by
  have hends : ∀ {p : Progress} {w w' : World} {file : Path} {o : Outcome},
      Ends answers J.mode file w p w' o → w'.tree = w.tree := by
    intro p w w' file o hw
    rcases Ends.tree_cases ha hw with ⟨htree, _⟩ | ⟨hover, _⟩
    · exact htree
    · rw [hmode] at hover
      cases hover
  induction h with
  | refl => rfl
  | tail _ hstep ih =>
    obtain ⟨i, hstep⟩ := hstep
    cases hstep with
    | go hi hf hw => exact (Goes.tree_eq ha hw).trans ih
    | finish hi hf hw ho => exact (hends hw).trans ih
    | fail hi hf hw => exact (hends hw).trans ih
    | refuse | start | raise | late | store => exact ih

end

end ExplicitSelf.Lint
