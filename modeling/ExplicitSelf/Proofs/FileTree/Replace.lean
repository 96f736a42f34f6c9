import ExplicitSelf.Proofs.FileTree.Directory

/-!
# Replacing a file is all or nothing

`FileTree.replace` makes several calls one after the other, and the machine can refuse any of them.
`Underway` says what has been done when some calls are still to come. Until the last of them the old
files are all there, with at most one more (`Undone`), which is removed if a call is refused.

Results:
* `follow_set_free`: a new file is on no path that leads anywhere.
* `Underway.act`: a call that is not refused succeeds, and leaves the next ones to come.
* `run_underway`: the calls are all done, or one of them was refused and nothing is replaced.
* `replace_cases`: all or nothing.
* `Writable.replace`: all, on a machine that refuses nothing.
-/
namespace ExplicitSelf

open Text (Octets)

/-! ## New files -/

namespace FileTree

/-- A place without an entry. -/
def Free (t : FileTree) (p : Place) : Prop :=
  p ≠ [] ∧ p ∉ t.entries.map (·.1)

section
variable {t : FileTree} {p : Place}

theorem set_set (t : FileTree) (p : Place) (e e' : Entry) : (t.set p e).set p e' = t.set p e' := by
  simp [set, List.filter_filter]

theorem Free.entryAt?_eq_none (h : t.Free p) : t.entryAt? p = none := by
  rw [entryAt?, if_neg h.1, Option.map_eq_none_iff, List.find?_eq_none]
  intro found hfound heq
  exact h.2 (List.mem_map.2 ⟨found, hfound, of_decide_eq_true heq⟩)

/-- A new file leaves nothing behind. -/
theorem erase_set (h : t.Free p) (e : Entry) : (t.set p e).erase p = t := by
  have hkept : t.entries.filter (·.1 ≠ p) = t.entries := by
    refine List.filter_eq_self.2 fun found hfound => decide_eq_true ?_
    intro heq
    exact h.2 (List.mem_map.2 ⟨found, hfound, heq⟩)
  simp only [erase, set]
  rw [List.filter_cons_of_neg (by simp), hkept, hkept]

/-- A name that a directory does not have is free in it. -/
theorem free_of_notMem {n : Name} (h : n ∉ t.namesAt p) : t.Free (p ++ [n]) := by
  refine ⟨by simp, fun hmem => h ?_⟩
  rw [namesAt_eq, List.mem_filterMap]
  exact ⟨p ++ [n], hmem, by simp [nameIn?]⟩

variable (h : t.Free p) {content : Octets} {mode modified : Nat}
include h

/-- A way that goes on does not lead over a new file. -/
theorem turn_set_free {place : Place} {name : Name} (hturn : ∀ e, t.turn place name ≠ .stuck e) :
    (t.set p (.file content mode modified)).turn place name = t.turn place name := by
  have hset := t.entryAt_set p (.file content mode modified) h.1
  have hnone := h.entryAt?_eq_none
  have hplace : place ≠ p := by
    intro heq
    exact hturn .notADirectory (by rw [turn, heq, hnone]; rfl)
  unfold turn at hturn ⊢
  rw [hset, if_neg hplace, hset]
  by_cases hinner : place ++ [name] = p
  · rw [hinner, hnone] at hturn
    rw [if_pos hinner, hinner, hnone]
    by_cases hdir : t.entryAt? place = some .directory
    · simp only [hdir, ne_eq, not_true_eq_false, if_false] at hturn ⊢
      split
      · rfl
      · rename_i hidle
        rw [if_neg hidle] at hturn
        split
        · rfl
        · rename_i hup
          rw [if_neg hup] at hturn
          split
          · rfl
          · rename_i hsize
            rw [if_neg hsize] at hturn
            exact absurd rfl (hturn .notFound)
    · simp only [ne_eq, hdir, not_false_eq_true, if_true]
  · rw [if_neg hinner]

/-- A new file is on no path that leads anywhere. -/
theorem follow_set_free (last : Bool) (links : Nat) (place : Place) (pieces : List Name)
    {q : Place} :
    t.follow last links place pieces = .ok q →
      (t.set p (.file content mode modified)).follow last links place pieces = .ok q := by
  induction links, place, pieces using follow_induct t with
  | nil links place =>
    intro hq
    rwa [follow_nil] at hq ⊢
  | stuck links place name rest e hturn =>
    intro hq
    rw [follow_stuck hturn] at hq
    cases hq
  | go links place name rest p' hturn ih =>
    intro hq
    rw [follow_go hturn] at hq
    rw [follow_go ((turn_set_free h (by simp [hturn])).trans hturn)]
    exact ih hq
  | link links place name rest p' target hturn ih =>
    intro hq
    have hturn' : (t.set p (.file content mode modified)).turn place name = .link p' target :=
      (turn_set_free h (by simp [hturn])).trans hturn
    by_cases hr : rest = [] ∧ (!last) = true
    · obtain ⟨rfl, hlast⟩ := hr
      obtain rfl : last = false := by simpa using hlast
      rw [follow_last_link hturn] at hq
      rwa [follow_last_link hturn']
    · cases links with
      | zero =>
        rw [follow_no_links hturn hr] at hq
        cases hq
      | succ k =>
        by_cases he : target.octets.isEmpty = true
        · rw [follow_empty_link hturn hr he] at hq
          cases hq
        · rw [follow_link hturn hr he] at hq
          rw [follow_link hturn' hr he]
          exact ih k rfl hq

theorem resolve_set_free {last : Bool} {path : Path} {q : Place}
    (hq : t.resolve last path = .ok q) :
    (t.set p (.file content mode modified)).resolve last path = .ok q := by
  rcases resolve_cases path with ⟨e, hno⟩ | hfollow
  · rw [hno] at hq
    cases hq
  · rw [hfollow] at hq ⊢
    exact follow_set_free h last maxLinks _ _ hq

end

end FileTree

/-! ## Work that can be undone -/

/-- Nothing but a temporary file was added. -/
inductive Undone (t : FileTree) : Work → Prop where
  | clean {mode : Nat} : Undone t ⟨t, none, mode⟩
  | extra {p : Place} {content : Octets} {m mode : Nat} (free : t.Free p) :
    Undone t ⟨t.set p (.file content m t.now), some p, mode⟩

section
variable {t : FileTree} {w : Work}

theorem Undone.dispose (h : Undone t w) : w.dispose = t := by
  cases h with
  | clean => rfl
  | extra free => exact FileTree.erase_set free _

/-- The temporary file can be changed as long as it is there. -/
theorem edit_extra {p : Place} (free : t.Free p) (content : Octets) (m mode : Nat)
    (change : Octets → Nat → Octets × Nat) :
    Work.edit ⟨t.set p (.file content m t.now), some p, mode⟩ change =
      .ok ⟨t.set p (.file (change content m).1 (change content m).2 t.now), some p, mode⟩ := by
  simp only [Work.edit, FileTree.entryAt_set t p _ free.1, if_true, FileTree.set_set]

theorem Undone.halt (h : Undone t w) (path : Path) (content : Octets) (c : Call) :
    Undone t (w.halt path content c) := by
  cases c with
  | write =>
    cases h with
    | clean => exact .clean
    | extra free =>
      rw [Work.halt, edit_extra free]
      exact .extra free
  | _ => exact h

end

/-! ## The stages of a replacement -/

/-- What has been done when these calls are to come. -/
inductive Underway (t : FileTree) (path : Path) (content : Octets) : List Call → Work → Prop where
  | begun : Underway t path content [.look, .create, .write, .flush, .permit, .rename] ⟨t, none, 0⟩
  | looked {mode : Nat} (hmode : t.mode path = .ok mode) :
    Underway t path content [.create, .write, .flush, .permit, .rename] ⟨t, none, mode⟩
  | created {mode : Nat} {p : Place} (hmode : t.mode path = .ok mode) (free : t.Free p) :
    Underway t path content [.write, .flush, .permit, .rename]
      ⟨t.set p (.file [] Work.temporaryMode t.now), some p, mode⟩
  | written {mode : Nat} {p : Place} (hmode : t.mode path = .ok mode) (free : t.Free p) :
    Underway t path content [.flush, .permit, .rename]
      ⟨t.set p (.file content Work.temporaryMode t.now), some p, mode⟩
  | flushed {mode : Nat} {p : Place} (hmode : t.mode path = .ok mode) (free : t.Free p) :
    Underway t path content [.permit, .rename]
      ⟨t.set p (.file content Work.temporaryMode t.now), some p, mode⟩
  | permitted {mode : Nat} {p : Place} (hmode : t.mode path = .ok mode) (free : t.Free p) :
    Underway t path content [.rename] ⟨t.set p (.file content mode t.now), some p, mode⟩
  | renamed {mode : Nat} {place : Place} (hmode : t.mode path = .ok mode)
      (hplace : t.resolve false path = .ok place) :
    Underway t path content [] ⟨t.set place (.file content mode t.now), none, mode⟩

section
variable {t : FileTree} {path : Path} {content old : Octets} {w : Work}

theorem Underway.undone {c : Call} {cs : List Call} (h : Underway t path content (c :: cs) w) :
    Undone t w := by
  cases h with
  | begun => exact .clean
  | looked _ => exact .clean
  | created _ free => exact .extra free
  | written _ free => exact .extra free
  | flushed _ free => exact .extra free
  | permitted _ free => exact .extra free

/-- A call that is not refused succeeds if the file can be read, and leaves the next ones to
come. -/
theorem Underway.act (hcontent : t.content path = .ok old) {c : Call} {cs : List Call}
    (h : Underway t path content (c :: cs) w) :
    ∃ w', w.act path content c = .ok w' ∧ Underway t path content cs w' := by
  obtain ⟨place, x, m, modified, hplace, hx, he, hend⟩ := FileTree.exists_place_of_content hcontent
  have hmode : t.mode path = .ok m := by
    rw [FileTree.mode, FileTree.stat_of_resolve hx he]
    rfl
  cases h with
  | begun =>
    refine ⟨⟨t, none, m⟩, ?_, .looked hmode⟩
    rw [Work.act, hmode]
    rfl
  | looked hm =>
    obtain ⟨dir, hdir, hentry⟩ := FileTree.exists_directory hplace hend.ne_directory
    have free := FileTree.free_of_notMem (t.machine.fresh (t.namesAt dir)).2.2
    refine ⟨_, ?_, .created hm free⟩
    simp only [Work.act, Work.createIn, hdir, hentry, if_true]
  | created hm free =>
    refine ⟨_, ?_, .written hm free⟩
    rw [Work.act, edit_extra free]
  | written hm free => exact ⟨_, rfl, .flushed hm free⟩
  | flushed hm free =>
    refine ⟨_, ?_, .permitted hm free⟩
    rw [Work.act, edit_extra free]
  | @permitted mode p hm free =>
    refine ⟨_, ?_, .renamed hm hplace⟩
    have hne : place ≠ p := by
      intro heq
      obtain ⟨e, he⟩ := hend.exists_entry
      rw [heq, free.entryAt?_eq_none] at he
      cases he
    have hset := t.entryAt_set p (.file content mode t.now) free.1
    have htemporary : FileTree.entryAt? (t.set p (.file content mode t.now)) p =
        some (.file content mode t.now) := by
      rw [hset, if_pos rfl]
    have hnot : FileTree.entryAt? (t.set p (.file content mode t.now)) place ≠ some .directory := by
      rw [hset, if_neg hne]
      exact hend.ne_directory
    have hresolve : (t.set p (.file content mode t.now)).resolve false path = .ok place :=
      FileTree.resolve_set_free free hplace
    simp only [Work.act, Work.rename, Option.bind_some, htemporary, Option.map_some, hresolve,
      if_neg hnot, FileTree.erase_set free]

/-- No call changes the machine. -/
theorem Underway.machine_eq {cs : List Call} (h : Underway t path content cs w) :
    w.tree.machine = t.machine := by
  cases h <;> rfl

/-- The calls are all done, or one of them was refused and what was done can be undone. -/
theorem run_underway (hcontent : t.content path = .ok old) {cs : List Call}
    (h : Underway t path content cs w) :
    (∀ c ∈ cs, t.machine.refuses c path = none) ∧
      (∃ w', Work.run path content cs w = (w', .ok ()) ∧ Underway t path content [] w') ∨
    ∃ c ∈ cs, ∃ e, t.machine.refuses c path = some e ∧
      ∃ w', Work.run path content cs w = (w', .error e) ∧ Undone t w' := by
  induction cs generalizing w with
  | nil => exact .inl ⟨List.forall_mem_nil _, w, rfl, h⟩
  | cons c cs ih =>
    rw [Work.run, h.machine_eq]
    cases hc : t.machine.refuses c path with
    | some e => exact .inr ⟨c, List.mem_cons_self .., e, hc, _, rfl, h.undone.halt path content c⟩
    | none =>
      obtain ⟨w', hact, hw'⟩ := h.act hcontent
      simp only [hact]
      rcases ih hw' with ⟨hall, hdone⟩ | ⟨c', hc', hrefused⟩
      · exact .inl ⟨List.forall_mem_cons.2 ⟨hc, hall⟩, hdone⟩
      · exact .inr ⟨c', List.mem_cons_of_mem c hc', hrefused⟩

/-- A file is replaced if no call is refused. Otherwise nothing happens. -/
theorem replace_cases (hcontent : t.content path = .ok old) (content : Octets) :
    (∀ c ∈ FileTree.replacement, t.machine.refuses c path = none) ∧
      (∃ place mode, t.resolve false path = .ok place ∧ t.mode path = .ok mode ∧
        t.replace path content = (t.set place (.file content mode t.now), .ok ())) ∨
    ∃ c ∈ FileTree.replacement, ∃ e, t.machine.refuses c path = some e ∧
      t.replace path content = (t, .error e) := by
  have hbegun : Underway t path content FileTree.replacement ⟨t, none, 0⟩ := .begun
  rcases run_underway hcontent hbegun with
    ⟨hall, w, hrun, hdone⟩ | ⟨c, hc, e, hrefused, w, hrun, hundone⟩
  · cases hdone with
    | renamed hmode hplace =>
      refine .inl ⟨hall, _, _, hplace, hmode, ?_⟩
      simp only [FileTree.replace, hrun]
      rfl
  · refine .inr ⟨c, hc, e, hrefused, ?_⟩
    simp only [FileTree.replace, hrun, hundone.dispose]

end

namespace FileTree

/-- The machine refuses no call by which the file at a path is overwritten. -/
def Writable (t : FileTree) (path : Path) : Prop :=
  t.machine.refusesReread path = none ∧ ∀ c ∈ replacement, t.machine.refuses c path = none

theorem Writable.reread {t : FileTree} {path : Path} (h : t.Writable path) :
    t.reread path = t.content path := by
  rw [FileTree.reread, h.1, contentUnless]

/-- A file that is replaced is so at the place where its path ends. -/
theorem of_replace {t t' : FileTree} {path : Path} {old content : Octets}
    (hcontent : t.content path = .ok old) (h : t.replace path content = (t', .ok ())) :
    ∃ p x mode, t.resolve false path = .ok p ∧ t.resolve true path = .ok x ∧ t.EndsAt p x ∧
      t' = t.set p (.file content mode t.now) := by
  obtain ⟨p, x, _, _, hp, hx, _, hend⟩ := exists_place_of_content hcontent
  rcases replace_cases hcontent content with ⟨_, place, mode, hplace, _, hr⟩ | ⟨_, _, _, _, hr⟩
  · rw [hplace] at hp
    cases hp
    rw [h] at hr
    exact ⟨p, x, mode, hplace, hx, hend, congrArg Prod.fst hr⟩
  · rw [h] at hr
    cases hr

/-- A file is replaced on a machine that refuses nothing. -/
theorem Writable.replace {t : FileTree} {path : Path} (h : t.Writable path) {old : Octets}
    (hcontent : t.content path = .ok old) (content : Octets) :
    ∃ p x mode, t.resolve false path = .ok p ∧ t.resolve true path = .ok x ∧ t.EndsAt p x ∧
      t.replace path content = (t.set p (.file content mode t.now), .ok ()) := by
  rcases replace_cases hcontent content with ⟨_, _, _, _, _, hreplace⟩ | ⟨c, hc, e, he, _⟩
  · obtain ⟨p, x, mode, hp, hx, hend, hset⟩ := of_replace hcontent hreplace
    exact ⟨p, x, mode, hp, hx, hend, hset ▸ hreplace⟩
  · rw [h.2 c hc] at he
    cases he

end FileTree

end ExplicitSelf
