import ExplicitSelf.Proofs.FileTree.Follow

/-!
# A new file in the place of an old one

A file is replaced at the place where its path ends, a link there included. Afterwards its path
leads to the new content; a path that led to another file leads there still.

Results:
* `resolve_eq_follow`: a path that can be followed at all (`Plain`) is followed from its start.
* `content_eq_ok_iff`, `read_eq_ok_iff`: the content of a file, and when it can be read.
* `exists_place_of_content`: the place of a file.
* `content_set_self`: the path of a replaced file leads to the new content.
* `stat_set_other`, `resolve_set_other`: a path that never ends at the replaced file is as before.
* `resolve_set`, `sameContent_set`: every path leads where it led, or to the new file.
* `content_congr`: what a file holds depends on the entries only.
-/
namespace ExplicitSelf.FileTree

variable {t : FileTree} {p x : Place} {path : Path} {content : Text.Octets} {mode modified : Nat}

/-- Where a path is followed from. -/
def start (t : FileTree) (path : Path) : Place :=
  if path.isAbsolute then [] else t.working

theorem set_start (t : FileTree) (p : Place) (e : Entry) (path : Path) :
    (t.set p e).start path = t.start path := rfl

/-- A path that can be followed: it has no NUL in it, is not empty and not too long. -/
def Plain (path : Path) : Prop :=
  path.octets.contains 0 = false ∧ path.octets.isEmpty = false ∧ path.octets.length ≤ maxPath

instance (path : Path) : Decidable (Plain path) :=
  inferInstanceAs (Decidable (_ ∧ _))

/-- Some paths are refused in every tree. All others are followed. -/
theorem resolve_cases (path : Path) :
    (∃ e, ∀ (t : FileTree) last, t.resolve last path = .error e) ∨
      ∀ (t : FileTree) last,
        t.resolve last path = t.follow last maxLinks (t.start path) (linkNames path) := by
  unfold resolve
  by_cases h1 : path.octets.contains 0 = true
  · simp only [if_pos h1]
    exact .inl ⟨_, fun _ _ => rfl⟩
  by_cases h2 : path.octets.isEmpty = true
  · simp only [if_neg h1, if_pos h2]
    exact .inl ⟨_, fun _ _ => rfl⟩
  by_cases h3 : maxPath < path.octets.length
  · simp only [if_neg h1, if_neg h2, if_pos h3]
    exact .inl ⟨_, fun _ _ => rfl⟩
  · simp only [if_neg h1, if_neg h2, if_neg h3]
    exact .inr fun _ _ => rfl

theorem resolve_eq_follow (last : Bool) (hplain : Plain path) :
    t.resolve last path = t.follow last maxLinks (t.start path) (linkNames path) := by
  obtain ⟨hnul, hempty, hsize⟩ := hplain
  unfold resolve
  rw [hnul, hempty, if_neg (by simp), if_neg (by simp), if_neg (by omega)]
  rfl

theorem plain_of_resolve {last : Bool} (h : t.resolve last path = .ok p) : Plain path := by
  unfold resolve at h
  split at h
  · cases h
  · rename_i hnul
    split at h
    · cases h
    · rename_i hempty
      split at h
      · cases h
      · rename_i hsize
        exact ⟨by simpa using hnul, by simpa using hempty, by omega⟩

theorem resolve_straight (last : Bool) {r : Except IoError Place}
    (hplain : Plain path)
    (h : t.straight (t.start path) (linkNames path) = some r) : t.resolve last path = r :=
  (resolve_eq_follow last hplain).trans (follow_straight last maxLinks h)

theorem stat_straight (q : Place) {e : Entry}
    (hplain : Plain path)
    (hq : t.straight (t.start path) (linkNames path) = some (.ok q)) (he : t.entryAt? q = some e) :
    t.stat path = .ok e := by
  simp only [stat, resolve_straight true hplain hq, he]

theorem isDirectory_straight {r : Except IoError Place}
    (hplain : Plain path)
    (h : t.straight (t.start path) (linkNames path) = some r) :
    t.isDirectory path = r.toOption.any fun place => t.entryAt? place = some .directory := by
  unfold isDirectory stat
  rw [resolve_straight true hplain h]
  cases r with
  | error e => rfl
  | ok place =>
    simp only [Except.toOption, Option.any_some]
    cases t.entryAt? place with
    | none => rfl
    | some e => cases e <;> simp [Entry.isDirectory]

theorem names_straight (q : Place)
    (hplain : Plain path)
    (h : t.straight (t.start path) (linkNames path) = some (.ok q))
    (hdirectory : t.entryAt? q = some .directory) : t.names path = .ok (t.namesAt q) := by
  rw [names, resolve_straight true hplain h]
  exact if_pos hdirectory

theorem content_eq_ok_iff :
    t.content path = .ok content ↔
      ∃ mode modified, t.stat path = .ok (.file content mode modified) := by
  unfold FileTree.content
  constructor
  · intro h
    split at h
    · cases h
    · rename_i c m d hs
      cases h
      exact ⟨m, d, hs⟩
    · cases h
    · cases h
  · rintro ⟨_, _, h⟩
    rw [h]

theorem contentUnless_eq_ok_iff {refusal : Option IoError} :
    t.contentUnless refusal path = .ok content ↔ refusal = none ∧ t.content path = .ok content := by
  cases refusal with
  | none => exact (and_iff_right rfl).symm
  | some e => simp [contentUnless]

/-- A file can be read if the machine does not refuse it. -/
theorem read_eq_ok_iff :
    t.read path = .ok content ↔
      t.machine.refusesRead path = none ∧ t.content path = .ok content :=
  contentUnless_eq_ok_iff

theorem content_of_reread (h : t.reread path = .ok content) : t.content path = .ok content :=
  (contentUnless_eq_ok_iff.1 h).2

theorem readText_eq_ok_iff {text : String} :
    t.readText path = .ok text ↔
      ∃ content, t.read path = .ok content ∧ Text.decode content = .ok text.toList := by
  unfold readText
  constructor
  · intro h
    split at h
    · cases h
    · rename_i content hr
      split at h
      · rename_i cs hd
        cases h
        exact ⟨content, hr, by rw [hd, String.toList_ofList]⟩
      · cases h
  · rintro ⟨content, hr, hd⟩
    rw [hr]
    simp only
    rw [hd]
    simp only [String.ofList_toList]

theorem stat_of_resolve {place : Place} {e : Entry} (hp : t.resolve true path = .ok place)
    (he : t.entryAt? place = some e) : t.stat path = .ok e := by
  simp only [stat, hp, he]

theorem resolve_of_stat {e : Entry} (h : t.stat path = .ok e) :
    ∃ x, t.resolve true path = .ok x ∧ t.entryAt? x = some e := by
  unfold stat at h
  split at h
  · cases h
  · rename_i x hx
    split at h
    · rename_i e' he
      cases h
      exact ⟨x, hx, he⟩
    · cases h

/-- A path that leads to a file ends at a place. -/
theorem exists_place_of_content (h : t.content path = .ok content) :
    ∃ p x mode modified, t.resolve false path = .ok p ∧ t.resolve true path = .ok x ∧
      t.entryAt? x = some (.file content mode modified) ∧ t.EndsAt p x := by
  obtain ⟨mode, modified, hs⟩ := content_eq_ok_iff.1 h
  obtain ⟨x, hx, he⟩ := resolve_of_stat hs
  rcases resolve_cases path with ⟨e, hno⟩ | hfollow
  · rw [hno] at hx
    cases hx
  · have hx' := hx
    rw [hfollow] at hx'
    obtain ⟨p, hp, hend⟩ := exists_endsAt t _ _ _ hx' ⟨content, mode, modified, he⟩
    exact ⟨p, x, mode, modified, (hfollow t false).trans hp, hx, he, hend⟩

/-- A path that ends at the place leads to the new file. -/
theorem resolve_set_self (h : t.EndsAt p x) (hp : t.resolve false path = .ok p) (last : Bool) :
    (t.set p (.file content mode modified)).resolve last path = .ok p := by
  rcases resolve_cases path with ⟨e, hno⟩ | hfollow
  · rw [hno] at hp
    cases hp
  · rw [hfollow] at hp ⊢
    exact follow_set_self h last _ _ _ hp

/-- The path of a replaced file leads to the new content. -/
theorem content_set_self (h : t.EndsAt p x) (hp : t.resolve false path = .ok p) :
    (t.set p (.file content mode modified)).content path = .ok content := by
  unfold FileTree.content stat
  rw [resolve_set_self h hp]
  simp only
  rw [entryAt_set t p _ h.ne_nil, if_pos rfl]

/-! ## Other paths -/

/-- A path has the same content in both trees, or none in either. -/
def SameContent (t t' : FileTree) (path : Path) : Prop :=
  ∀ content, t.content path = .ok content ↔ t'.content path = .ok content

theorem SameContent.refl (t : FileTree) (path : Path) : t.SameContent t path :=
  fun _ => Iff.rfl

/-- A path can be read with the same content in both trees, or in neither. -/
def SameReading (t t' : FileTree) (path : Path) : Prop :=
  ∀ content, t.read path = .ok content ↔ t'.read path = .ok content

theorem SameContent.sameReading {t t' : FileTree} (h : t.SameContent t' path)
    (hm : t.machine = t'.machine) : t.SameReading t' path := by
  intro content
  rw [read_eq_ok_iff, read_eq_ok_iff, hm, h content]

/-- With the last link followed there are no fewer links. -/
theorem follow_tooManyLinks (t : FileTree) (links : Nat) (place : Place) (pieces : List Name) :
    t.follow false links place pieces = .error .tooManyLinks →
      t.follow true links place pieces = .error .tooManyLinks := by
  induction links, place, pieces using follow_induct t with
  | nil links place => intro h; rw [follow_nil] at h; cases h
  | stuck links place name rest e hq => intro h; rwa [follow_stuck hq] at h ⊢
  | go links place name rest q hq ih => intro h; rw [follow_go hq] at h ⊢; exact ih h
  | link links place name rest q target hq ih =>
    intro h
    by_cases hrest : rest = []
    · subst hrest
      rw [follow_last_link hq] at h
      cases h
    · have hr : ∀ b : Bool, ¬(rest = [] ∧ (!b) = true) := fun b hr => hrest hr.1
      cases links with
      | zero => exact follow_no_links hq (hr _)
      | succ k =>
        by_cases he : target.octets.isEmpty = true
        · rw [follow_empty_link hq (hr _) he] at h; cases h
        · rw [follow_link hq (hr _) he] at h ⊢
          exact ih k rfl h

/-- A place where a path ends, with the last link followed or not, however many links there are. -/
def Ends (t : FileTree) (path : Path) (place : Place) : Prop :=
  ∃ last links, t.follow last links (t.start path) (linkNames path) = .ok place

theorem Ends.of_resolve {last : Bool} (h : t.resolve last path = .ok p) : t.Ends path p := by
  rcases resolve_cases path with ⟨e, hno⟩ | hfollow
  · rw [hno] at h
    cases h
  · exact ⟨last, maxLinks, (hfollow t last).symm.trans h⟩

theorem Ends.of_set (h : t.EndsAt p x) {q : Place} (hne : q ≠ p)
    (hq : (t.set p (.file content mode modified)).Ends path q) : t.Ends path q := by
  obtain ⟨last, links, hq⟩ := hq
  exact ⟨last, links, follow_of_set h last links _ _ hne hq⟩

section
variable (h : t.EndsAt p x) (hx : ¬t.Ends path x)
include h hx

theorem Ends.of_set_other {q : Place} (hq : (t.set p (.file content mode modified)).Ends path q) :
    t.Ends path q := by
  obtain ⟨last, links, hq⟩ := hq
  rw [set_start] at hq
  rcases follow_set_other h last links (t.start path) (linkNames path)
    fun more hmore => hx ⟨true, more, hmore⟩ with hsame | ⟨_, e, he⟩
  · exact ⟨last, links, hsame.symm.trans hq⟩
  · rw [he] at hq
    cases hq

/-- A path that never ends at the file leads where it led, if it led anywhere. -/
theorem resolve_set_other (last : Bool) :
    (t.set p (.file content mode modified)).resolve last path = t.resolve last path ∨
      t.resolve true path = .error .tooManyLinks ∧
        ∃ e, (t.set p (.file content mode modified)).resolve last path = .error e := by
  rcases resolve_cases path with ⟨e, hno⟩ | hfollow
  · exact .inl ((hno _ _).trans (hno _ _).symm)
  · rw [hfollow, hfollow, hfollow, set_start]
    refine (follow_set_other h last maxLinks (t.start path) (linkNames path)
      fun more hmore => hx ⟨true, more, hmore⟩).imp id (And.imp_left fun hmany => ?_)
    cases last with
    | true => exact hmany
    | false => exact follow_tooManyLinks t _ _ _ hmany

/-- What a path leads to stays the same. -/
theorem stat_set_other (hp : ¬t.Ends path p) (e : Entry) :
    (t.set p (.file content mode modified)).stat path = .ok e ↔ t.stat path = .ok e := by
  unfold stat
  rcases resolve_set_other h hx true with hsame | ⟨hmany, e', he'⟩
  · rw [hsame]
    cases hy : t.resolve true path with
    | error e' => exact Iff.rfl
    | ok y =>
      have hne : y ≠ p := by
        rintro rfl
        exact hp (.of_resolve hy)
      simp only
      rw [entryAt_set t p _ h.ne_nil, if_neg hne]
  · rw [he', hmany]
    constructor <;> (intro he; cases he)

end

/-- A path leads where it led, or to the new file. -/
theorem resolve_set (h : t.EndsAt p x) {y : Place} (hy : t.resolve true path = .ok y) :
    (t.set p (.file content mode modified)).resolve true path = .ok y ∨
      (t.set p (.file content mode modified)).resolve true path = .ok p := by
  rcases resolve_cases path with ⟨e, hno⟩ | hfollow
  · rw [hno] at hy
    cases hy
  · rw [hfollow] at hy ⊢
    exact follow_set h _ _ _ hy

theorem resolve_of_set (h : t.EndsAt p x) {q : Place} (hne : q ≠ p)
    (hq : (t.set p (.file content mode modified)).resolve true path = .ok q) :
    t.resolve true path = .ok q := by
  rcases resolve_cases path with ⟨e, hno⟩ | hfollow
  · rw [hno] at hq
    cases hq
  · rw [hfollow] at hq ⊢
    exact follow_of_set h _ _ _ _ hne hq

/-- A path leads to what it led to unless it now leads to the new file. -/
theorem stat_set_iff (h : t.EndsAt p x)
    (hnew : (t.set p (.file content mode modified)).resolve true path ≠ .ok p) (e : Entry) :
    (t.set p (.file content mode modified)).stat path = .ok e ↔ t.stat path = .ok e := by
  constructor
  · intro he
    obtain ⟨y, hy, hentry⟩ := resolve_of_stat he
    have hne : y ≠ p := by
      rintro rfl
      exact hnew hy
    rw [entryAt_set t p _ h.ne_nil, if_neg hne] at hentry
    exact stat_of_resolve (resolve_of_set h hne hy) hentry
  · intro he
    obtain ⟨y, hy, hentry⟩ := resolve_of_stat he
    have hnow : (t.set p (.file content mode modified)).resolve true path = .ok y ∨ _ :=
      resolve_set h hy
    rcases hnow with hy' | hy'
    · have hne : y ≠ p := by
        rintro rfl
        exact hnew hy'
      refine stat_of_resolve hy' ?_
      rw [entryAt_set t p _ h.ne_nil, if_neg hne, hentry]
    · exact absurd hy' hnew

/-- A path keeps its content unless it now leads to the new file. -/
theorem sameContent_set (h : t.EndsAt p x) (path : Path)
    (hnew : (t.set p (.file content mode modified)).resolve true path ≠ .ok p) :
    (t.set p (.file content mode modified)).SameContent t path := by
  intro bytes
  rw [content_eq_ok_iff, content_eq_ok_iff]
  exact exists_congr fun _ => exists_congr fun _ => stat_set_iff h hnew _

/-- Trees with the same entries have the same files. -/
theorem content_congr {t t' : FileTree} (hw : t.working = t'.working)
    (h : ∀ q, t.entryAt? q = t'.entryAt? q) (path : Path) : t.content path = t'.content path := by
  have hresolve : t.resolve true path = t'.resolve true path := by
    unfold resolve
    rw [hw]
    simp only [follow_congr h]
  unfold FileTree.content stat
  rw [hresolve]
  cases t'.resolve true path with
  | error e => rfl
  | ok x =>
    simp only
    rw [h x]

end ExplicitSelf.FileTree
