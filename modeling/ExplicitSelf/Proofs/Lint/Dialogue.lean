import ExplicitSelf.Proofs.Lint.Tasks
import Mathlib.Logic.Function.Basic

/-!
# What was said about a file

All tasks write to one log. What it has about one file is all that the task of this file was
answered: its arguments, its index, and an answer for each candidate that was asked about. So the
violations that were found in a file can be told from the log, however the service came to its
answers, and whatever it was asked in between.

* `dialogue`: the part of a log that is about a file.
* `Finds`: what the answers in a dialogue say about a text.
* `Inquired`: a dialogue about a text, in the middle of it.

Results:
* `finds_unique`: a dialogue says one thing about a text.
* `Inquired.again`, `Inquired.dot`, `Inquired.ask`: the next candidate.
* `Inquired.finds`: the end of a dialogue.
-/
namespace ExplicitSelf.Lint

open Source (LineTable)

def Reply.file : Reply → Path
  | .arguments file _ => file
  | .index file _ _ => file
  | .cursor file _ _ _ => file

/-- The part of a log that is about a file. -/
def dialogue (log : List Reply) (file : Path) : List Reply :=
  log.filter (·.file = file)

theorem dialogue_append_self {log more : List Reply} {file : Path}
    (h : ∀ r ∈ more, r.file = file) : dialogue (log ++ more) file = dialogue log file ++ more := by
  rw [dialogue, List.filter_append, List.filter_eq_self.2 fun r hr => decide_eq_true (h r hr)]
  rfl

theorem dialogue_append_other {log more : List Reply} {file other : Path}
    (h : ∀ r ∈ more, r.file = file) (hne : file ≠ other) :
    dialogue (log ++ more) other = dialogue log other := by
  have hnone : more.filter (·.file = other) = [] := by
    refine List.filter_eq_nil_iff.2 fun r hr => ?_
    simpa using fun heq => hne ((h r hr).symm.trans heq)
  rw [dialogue, List.filter_append, hnone, List.append_nil]
  rfl

/-- A dialogue with answers about the offsets `asked`. -/
def exchange (file : Path) (arguments : List String) (root : Index.Node)
    (ask : Nat → Except Service.Error Service.Cursor) (asked : List Nat) : List Reply :=
  .arguments file arguments :: .index file arguments (.ok root) ::
    asked.map fun o => .cursor file o arguments (ask o)

/-- The dialogue about a file classifies the candidates of a text. -/
def Finds (said : List Reply) (file : Path) (text : String) (c : Classification) : Prop :=
  ∃ arguments root ask,
    said = exchange file arguments root ask (classify ask file (.ofText text.toList)
      (Index.candidates (.ofText text.toList) root)).asked ∧
    (classify ask file (.ofText text.toList)
      (Index.candidates (.ofText text.toList) root)).result = .ok c

/-! ## One thing only -/

/-- An inquiry depends on no answers but those that it asks for. -/
theorem inquire_congr {ask ask' : Nat → Except Service.Error Service.Cursor} {file : Path}
    {table : LineTable} {seen os : List Nat}
    (h : ∀ o ∈ (inquire ask file table seen os).asked, ask' o = ask o) :
    inquire ask' file table seen os = inquire ask file table seen os := by
  induction os generalizing seen with
  | nil => rfl
  | cons o os ih =>
    by_cases hseen : o ∈ seen
    · rw [inquire_again hseen] at h ⊢
      rw [inquire_again hseen]
      exact ih h
    · have hnot : ¬seen.contains o = true := fun hc => hseen (List.contains_iff_mem.1 hc)
      rw [inquire, if_neg hnot] at h ⊢
      rw [inquire, if_neg hnot]
      split
      · rename_i hdot
        rw [if_pos hdot] at h
        exact congrArg Inquiry.qualified (ih h)
      · rename_i hdot
        rw [if_neg hdot] at h
        -- the offset itself is asked about in all cases, and the others unless the service is gone
        have hself : ask' o = ask o := by
          refine h o ?_
          cases ask o with
          | ok cursor => exact List.mem_cons_self ..
          | error e =>
            simp only
            split <;> exact List.mem_cons_self ..
        rw [hself]
        cases hanswer : ask o with
        | ok cursor =>
          rw [hanswer] at h
          exact congrArg (Inquiry.answered o _) (ih fun p hp => h p (List.mem_cons_of_mem _ hp))
        | error e =>
          simp only [hanswer] at h ⊢
          split
          · rfl
          · rename_i hfatal
            rw [if_neg hfatal] at h
            exact congrArg (Inquiry.failed file o e) (ih fun p hp =>
              h p (List.mem_cons_of_mem _ hp))

theorem exchange_inj {file : Path} {arguments arguments' : List String} {root root' : Index.Node}
    {ask ask' : Nat → Except Service.Error Service.Cursor} {asked asked' : List Nat}
    (h : exchange file arguments root ask asked = exchange file arguments' root' ask' asked') :
    root = root' ∧ asked = asked' ∧ ∀ o ∈ asked, ask' o = ask o := by
  unfold exchange at h
  injection h with harguments h
  injection h with hindex h
  injection hindex with _ _ hroot
  refine ⟨Except.ok.inj hroot, ?_⟩
  induction asked generalizing asked' with
  | nil =>
    cases asked' with
    | nil => exact ⟨rfl, by simp⟩
    | cons o' asked' => cases h
  | cons o asked ih =>
    cases asked' with
    | nil => cases h
    | cons o' asked' =>
      injection h with hhead htail
      injection hhead with _ ho _ hanswer
      subst ho
      obtain ⟨rfl, hrest⟩ := ih htail
      refine ⟨rfl, fun p hp => ?_⟩
      rcases List.mem_cons.1 hp with rfl | hp
      · exact hanswer.symm
      · exact hrest p hp

theorem finds_unique {said : List Reply} {file : Path} {text : String} {c c' : Classification}
    (h : Finds said file text c) (h' : Finds said file text c') : c = c' := by
  obtain ⟨arguments, root, ask, rfl, hc⟩ := h
  obtain ⟨arguments', root', ask', hsaid, hc'⟩ := h'
  obtain ⟨rfl, hasked, hask⟩ := exchange_inj hsaid
  have hsame := inquire_congr hask
  rw [classify, hsame] at hc'
  exact Except.ok.inj (hc.symm.trans hc')

/-! ## Candidate by candidate -/

/-- A dialogue about a text, in the middle of it: whatever the answers about the `rest` will be, the
classification will be made of what is `found` and of what they say. -/
def Inquired (said : List Reply) (file : Path) (arguments : List String) (text : String)
    (seen rest : List Nat) (found : Classification) : Prop :=
  ∃ root ask asked, said = exchange file arguments root ask asked ∧ (∀ o ∈ asked, o ∈ seen) ∧
    ∀ ask', (∀ o ∈ asked, ask' o = ask o) →
      (classify ask' file (.ofText text.toList)
          (Index.candidates (.ofText text.toList) root)).result =
        (inquire ask' file (.ofText text.toList) seen rest).result.map (found ++ ·) ∧
      (classify ask' file (.ofText text.toList)
          (Index.candidates (.ofText text.toList) root)).asked =
        asked ++ (inquire ask' file (.ofText text.toList) seen rest).asked

section
variable {said : List Reply} {file : Path} {arguments : List String} {text : String}
  {seen rest : List Nat} {found : Classification} {o : Nat}

theorem Classification.map_map_append (found part : Classification)
    (r : Except Service.Error Classification) :
    (r.map (part ++ ·)).map (found ++ ·) = r.map (found ++ part ++ ·) := by
  cases r with
  | error e => rfl
  | ok c => exact congrArg Except.ok (append_assoc found part c).symm

/-- The file has its index. -/
theorem inquired_start (file : Path) (arguments : List String) (text : String)
    (root : Index.Node) :
    Inquired [.arguments file arguments, .index file arguments (.ok root)] file arguments text []
      (candidateOffsets text root) {} := by
  refine ⟨root, fun _ => .ok {}, [], rfl, by simp, fun ask' _ => ⟨?_, rfl⟩⟩
  rw [classify, candidateOffsets]
  cases (inquire ask' file (.ofText text.toList) []
    ((Index.candidates (.ofText text.toList) root).map (·.offset))).result with
  | error e => rfl
  | ok c => exact congrArg Except.ok (Classification.empty_append c).symm

theorem Inquired.again (h : Inquired said file arguments text seen (o :: rest) found)
    (hseen : o ∈ seen) : Inquired said file arguments text seen rest found := by
  obtain ⟨root, ask, asked, hsaid, hasked, hall⟩ := h
  refine ⟨root, ask, asked, hsaid, hasked, fun ask' hask' => ?_⟩
  have hclass := hall ask' hask'
  rwa [inquire_again hseen] at hclass

variable (hnew : o ∉ seen)
include hnew

theorem Inquired.dot (h : Inquired said file arguments text seen (o :: rest) found)
    (hdot : (LineTable.ofText text.toList).charBefore? o = some '.') :
    Inquired said file arguments text (o :: seen) rest
      (found ++ { alreadyQualified := 1 }) := by
  obtain ⟨root, ask, asked, hsaid, hasked, hall⟩ := h
  refine ⟨root, ask, asked, hsaid, fun p hp => List.mem_cons_of_mem _ (hasked p hp),
    fun ask' hask' => ?_⟩
  have hclass := hall ask' hask'
  rwa [(inquire_dot hnew hdot).1, (inquire_dot hnew hdot).2, Classification.map_map_append]
    at hclass

theorem Inquired.ask (h : Inquired said file arguments text seen (o :: rest) found)
    (hdot : (LineTable.ofText text.toList).charBefore? o ≠ some '.')
    {answer : Except Service.Error Service.Cursor} {part : Classification}
    (hpart : glance file (.ofText text.toList) o answer = .ok part) :
    Inquired (said ++ [.cursor file o arguments answer]) file arguments text (o :: seen) rest
      (found ++ part) := by
  obtain ⟨root, ask, asked, rfl, hasked, hall⟩ := h
  have hfresh : ∀ p ∈ asked, p ≠ o := by
    rintro p hp rfl
    exact hnew (hasked p hp)
  -- what was answered before stays, and the new answer comes last
  refine ⟨root, Function.update ask o answer, asked ++ [o], ?_, ?_, fun ask' hask' => ?_⟩
  · have hbefore :
      asked.map (fun p => Reply.cursor file p arguments (Function.update ask o answer p))
        = asked.map fun p => .cursor file p arguments (ask p) := by
      refine List.map_congr_left fun p hp => ?_
      rw [Function.update_of_ne (hfresh p hp)]
    simp only [exchange, List.map_append, hbefore, List.map_cons, List.map_nil,
      Function.update_self, List.cons_append]
  · intro p hp
    rcases List.mem_append.1 hp with hp | hp
    · exact List.mem_cons_of_mem _ (hasked p hp)
    · exact List.mem_singleton.1 hp ▸ List.mem_cons_self ..
  · have hself : ask' o = answer := by
      rw [hask' o (by simp), Function.update_self]
    have hclass := hall ask' fun p hp => by
      rw [hask' p (List.mem_append_left _ hp), Function.update_of_ne (hfresh p hp)]
    rw [← hself] at hpart
    rwa [(inquire_ask hnew hdot hpart).1, (inquire_ask hnew hdot hpart).2,
      Classification.map_map_append, List.append_cons] at hclass

end

/-- No candidate is left. -/
theorem Inquired.finds {said : List Reply} {file : Path} {arguments : List String} {text : String}
    {seen : List Nat} {found : Classification}
    (h : Inquired said file arguments text seen [] found) : Finds said file text found := by
  obtain ⟨root, ask, asked, rfl, _, hall⟩ := h
  obtain ⟨hresult, hasked⟩ := hall ask fun _ _ => rfl
  refine ⟨arguments, root, ask, ?_, hresult.trans ?_⟩
  · rw [hasked, inquire, Inquiry.empty, List.append_nil]
  · rw [inquire, Inquiry.empty]
    exact congrArg Except.ok (Classification.append_empty found)

end ExplicitSelf.Lint
