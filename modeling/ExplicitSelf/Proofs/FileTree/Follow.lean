import ExplicitSelf.FileTree.Basic
import Mathlib.Order.Basic

/-!
# Following a path, name by name

`FileTree.follow` takes one name at a time. What it does at a name is a `Turn`: it goes on at a
place, meets a link, or is stuck. Everything below is an induction on turns (`follow_induct`).

Then one place that holds a file, or a link that leads to one, gets a new file (`EndsAt`). This is
all that an overwritten file does to the tree.

Results:
* `follow_straight`: a path without links is followed name by name.
* `follow_mono`: more links to follow change an answer only if it was that there are too many links.
* `follow_past_end`: nothing can be followed past an entry that is no directory.
* `exists_endsAt`: the place of a path that leads to a file, with the last link not followed.
* `follow_set_self`: that path leads to the new file.
* `follow_set`, `follow_of_set`: a path leads to the new file, or where it led.
* `follow_set_other`: a path that never leads to the file leads where it led, or nowhere if there
  were too many links on the way.
-/
namespace ExplicitSelf.FileTree

/-- What a name does when it is followed from a place. -/
inductive Turn where
  /-- The way goes on at a place. -/
  | go (place : Place)
  /-- There is a link at a place. -/
  | link (place : Place) (target : Path)
  | stuck (e : IoError)

/-- Where a link's target is looked up from. -/
def linkBase (place : Place) (target : Path) : Place :=
  if target.isAbsolute then [] else place.dropLast

/-- The names of a link's target. -/
def linkNames (target : Path) : List Name :=
  target.pieces.map Name.mk

def turn (t : FileTree) (place : Place) (name : Name) : Turn :=
  if t.entryAt? place ≠ some .directory then .stuck .notADirectory
  else if name = "" ∨ name = "." then .go place
  else if name = ".." then .go place.dropLast
  else if maxName < name.octets.length then .stuck .nameTooLong
  else
    match t.entryAt? (place ++ [name]) with
    | none => .stuck .notFound
    | some (.link target) => .link (place ++ [name]) target
    | some _ => .go (place ++ [name])

@[simp] theorem follow_nil (t : FileTree) (last : Bool) (links : Nat) (place : Place) :
    t.follow last links place [] = .ok place := by
  rw [follow]

theorem follow_cons (t : FileTree) (last : Bool) (links : Nat) (place : Place) (name : Name)
    (rest : List Name) :
    t.follow last links place (name :: rest) =
      match t.turn place name with
      | .stuck e => .error e
      | .go p => t.follow last links p rest
      | .link p target =>
        if rest = [] ∧ !last then .ok p
        else
          match links with
          | 0 => .error .tooManyLinks
          | links + 1 =>
            if target.octets.isEmpty then .error .notFound
            else t.follow last links (linkBase p target) (linkNames target ++ rest) := by
  rw [follow, turn]
  by_cases h1 : t.entryAt? place ≠ some .directory
  · rw [if_pos h1, if_pos h1]
  rw [if_neg h1, if_neg h1]
  by_cases h2 : name = "" ∨ name = "."
  · rw [if_pos h2, if_pos h2]
  rw [if_neg h2, if_neg h2]
  by_cases h3 : name = ".."
  · rw [if_pos h3, if_pos h3]
  rw [if_neg h3, if_neg h3]
  by_cases h4 : maxName < name.octets.length
  · rw [if_pos h4, if_pos h4]
  rw [if_neg h4, if_neg h4]
  cases t.entryAt? (place ++ [name]) with
  | none => rfl
  | some e =>
    cases e with
    | directory => rfl
    | file _ _ _ => rfl
    | link target =>
      cases links <;> simp only [linkBase, linkNames, List.dropLast_concat]

section
variable {t : FileTree} {last : Bool} {links : Nat} {place : Place} {name : Name}
  {rest : List Name}

theorem follow_stuck {e : IoError} (h : t.turn place name = .stuck e) :
    t.follow last links place (name :: rest) = .error e := by
  rw [follow_cons, h]

theorem follow_go {p : Place} (h : t.turn place name = .go p) :
    t.follow last links place (name :: rest) = t.follow last links p rest := by
  rw [follow_cons, h]

/-- The last link, if it is not to be followed. -/
theorem follow_last_link {p : Place} {target : Path} (h : t.turn place name = .link p target) :
    t.follow false links place [name] = .ok p := by
  rw [follow_cons, h]; rfl

theorem follow_no_links {p : Place} {target : Path} (h : t.turn place name = .link p target)
    (hr : ¬(rest = [] ∧ (!last) = true)) :
    t.follow last 0 place (name :: rest) = .error .tooManyLinks := by
  rw [follow_cons, h]
  exact if_neg hr

theorem follow_empty_link {p : Place} {target : Path} (h : t.turn place name = .link p target)
    (hr : ¬(rest = [] ∧ (!last) = true)) (he : target.octets.isEmpty = true) :
    t.follow last (links + 1) place (name :: rest) = .error .notFound := by
  rw [follow_cons, h]
  simp only [if_neg hr, he, if_true]

theorem follow_link {p : Place} {target : Path} (h : t.turn place name = .link p target)
    (hr : ¬(rest = [] ∧ (!last) = true)) (he : ¬target.octets.isEmpty = true) :
    t.follow last (links + 1) place (name :: rest) =
      t.follow last links (linkBase p target) (linkNames target ++ rest) := by
  rw [follow_cons, h]
  simp only [if_neg hr, if_neg he]

end

/-- Induction along a followed path: the turns of each name, and after a link the names of its
target. -/
theorem follow_induct (t : FileTree) {motive : Nat → Place → List Name → Prop}
    (nil : ∀ links place, motive links place [])
    (stuck : ∀ links place name rest e, t.turn place name = .stuck e →
      motive links place (name :: rest))
    (go : ∀ links place name rest p, t.turn place name = .go p → motive links p rest →
      motive links place (name :: rest))
    (link : ∀ links place name rest p target, t.turn place name = .link p target →
      (∀ k, links = k + 1 → motive k (linkBase p target) (linkNames target ++ rest)) →
      motive links place (name :: rest)) :
    ∀ links place pieces, motive links place pieces
  | links, place, [] => nil links place
  | links, place, name :: rest => by
    cases h : t.turn place name with
    | stuck e => exact stuck links place name rest e h
    | go p => exact go links place name rest p h (follow_induct t nil stuck go link links p rest)
    | link p target =>
      refine link links place name rest p target h fun k hk => ?_
      exact follow_induct t nil stuck go link k _ _
  termination_by links _ pieces => (links, pieces.length)

/-- Follows pieces as long as no links are met. -/
def straight (t : FileTree) : Place → List Name → Option (Except IoError Place)
  | place, [] => some (.ok place)
  | place, name :: rest =>
    match t.turn place name with
    | .go p => t.straight p rest
    | .stuck e => some (.error e)
    | .link _ _ => none

theorem follow_straight {t : FileTree} (last : Bool) (links : Nat) {place : Place}
    {pieces : List Name} {r : Except IoError Place} (h : t.straight place pieces = some r) :
    t.follow last links place pieces = r := by
  induction pieces generalizing place with
  | nil =>
    rw [follow_nil]
    exact Option.some.inj h
  | cons name rest ih =>
    rw [straight] at h
    cases hturn : t.turn place name with
    | go p =>
      rw [hturn] at h
      rw [follow_go hturn]
      exact ih h
    | stuck e =>
      rw [hturn] at h
      rw [follow_stuck hturn]
      exact Option.some.inj h
    | link p target =>
      rw [hturn] at h
      cases h

/-- A link is met only where there is one. -/
theorem link_of_turn {t : FileTree} {place p : Place} {name : Name} {target : Path}
    (h : t.turn place name = .link p target) : t.entryAt? p = some (.link target) := by
  unfold turn at h
  split at h
  · cases h
  · split at h
    · cases h
    · split at h
      · cases h
      · split at h
        · cases h
        · split at h
          · cases h
          · rename_i target' he
            cases h
            exact he
          · cases h

theorem turn_congr {t t' : FileTree} (h : ∀ q, t.entryAt? q = t'.entryAt? q) (place : Place)
    (name : Name) : t.turn place name = t'.turn place name := by
  unfold turn
  rw [h place, h (place ++ [name])]

/-- Trees with the same entries lead to the same places. -/
theorem follow_congr {t t' : FileTree} (h : ∀ q, t.entryAt? q = t'.entryAt? q) (last : Bool)
    (links : Nat) (place : Place) (pieces : List Name) :
    t.follow last links place pieces = t'.follow last links place pieces := by
  induction links, place, pieces using follow_induct t with
  | nil links place => rw [follow_nil, follow_nil]
  | stuck links place name rest e hq => rw [follow_stuck hq, follow_stuck (turn_congr h _ _ ▸ hq)]
  | go links place name rest p hq ih =>
    rw [follow_go hq, follow_go (turn_congr h _ _ ▸ hq), ih]
  | link links place name rest p target hq ih =>
    rw [follow_cons, follow_cons, ← turn_congr h, hq]
    cases links with
    | zero => rfl
    | succ k => simp only [ih k rfl]

/-! ## How many links are followed -/

/-- More links to follow do not change an answer other than that there are too many. -/
theorem follow_mono (t : FileTree) (last : Bool) (links : Nat) (place : Place)
    (pieces : List Name) : ∀ more, links ≤ more →
      t.follow last links place pieces ≠ .error .tooManyLinks →
      t.follow last more place pieces = t.follow last links place pieces := by
  induction links, place, pieces using follow_induct t with
  | nil links place => intro more _ _; rw [follow_nil, follow_nil]
  | stuck links place name rest e h => intro more _ _; rw [follow_stuck h, follow_stuck h]
  | go links place name rest p h ih =>
    intro more hm hne
    rw [follow_go h] at hne ⊢
    rw [follow_go h, ih more hm hne]
  | link links place name rest p target h ih =>
    intro more hm hne
    by_cases hr : rest = [] ∧ (!last) = true
    · obtain ⟨rfl, hlast⟩ := hr
      simp only [Bool.not_eq_true'] at hlast
      subst hlast
      rw [follow_last_link h, follow_last_link h]
    · cases links with
      | zero => exact absurd (follow_no_links h hr) hne
      | succ k =>
        obtain ⟨m, rfl⟩ : ∃ m, more = m + 1 := ⟨more - 1, by omega⟩
        by_cases he : target.octets.isEmpty = true
        · rw [follow_empty_link h hr he, follow_empty_link h hr he]
        · rw [follow_link h hr he] at hne ⊢
          rw [follow_link h hr he, ih k rfl m (by omega) hne]

/-- Nothing can be followed past an entry that is no directory. -/
theorem follow_past_end (t : FileTree) (last : Bool) (links : Nat) (place : Place)
    (pieces : List Name) : ∀ {x : Place}, t.follow true links place pieces = .ok x →
      t.entryAt? x ≠ some .directory → ∀ name rest more, links ≤ more →
      t.follow last more place (pieces ++ name :: rest) = .error .notADirectory := by
  induction links, place, pieces using follow_induct t with
  | nil links place =>
    intro x hx hd name rest more _
    rw [follow_nil] at hx
    cases hx
    exact follow_stuck (by rw [turn, if_pos hd])
  | stuck links place name rest e h =>
    intro x hx
    rw [follow_stuck h] at hx
    cases hx
  | go links place name rest p h ih =>
    intro x hx hd name' rest' more hm
    rw [follow_go h] at hx
    rw [List.cons_append, follow_go h]
    exact ih hx hd name' rest' more hm
  | link links place name rest p target h ih =>
    intro x hx hd name' rest' more hm
    have hr : ¬(rest = [] ∧ (!true) = true) := by simp
    cases links with
    | zero => rw [follow_no_links h hr] at hx; cases hx
    | succ k =>
      obtain ⟨m, rfl⟩ : ∃ m, more = m + 1 := ⟨more - 1, by omega⟩
      by_cases he : target.octets.isEmpty = true
      · rw [follow_empty_link h hr he] at hx; cases hx
      · rw [follow_link h hr he] at hx
        have hlong := ih k rfl hx hd name' rest' m (by omega)
        rw [List.append_assoc] at hlong
        rw [List.cons_append, follow_link h (by simp) he]
        exact hlong

/-! ## Where a path to a file ends -/

/-- At `p` there is a file, which is `x`, or a link that leads to the file at `x`. -/
structure EndsAt (t : FileTree) (p x : Place) : Prop where
  file : ∃ content mode modified, t.entryAt? x = some (.file content mode modified)
  leads : p = x ∨ ∃ target links, t.entryAt? p = some (.link target) ∧
    ¬target.octets.isEmpty = true ∧
    t.follow true links (linkBase p target) (linkNames target) = .ok x

theorem EndsAt.end_ne_directory {t : FileTree} {p x : Place} (h : t.EndsAt p x) :
    t.entryAt? x ≠ some .directory := by
  obtain ⟨_, _, _, hf⟩ := h.file
  rw [hf]
  intro he; cases he

theorem EndsAt.ne_directory {t : FileTree} {p x : Place} (h : t.EndsAt p x) :
    t.entryAt? p ≠ some .directory := by
  rcases h.leads with rfl | ⟨target, _, hl, _, _⟩
  · exact h.end_ne_directory
  · rw [hl]
    intro he; cases he

theorem EndsAt.exists_entry {t : FileTree} {p x : Place} (h : t.EndsAt p x) :
    ∃ e, t.entryAt? p = some e := by
  rcases h.leads with rfl | ⟨target, _, hl, _, _⟩
  · obtain ⟨_, _, _, hf⟩ := h.file
    exact ⟨_, hf⟩
  · exact ⟨_, hl⟩

theorem EndsAt.ne_nil {t : FileTree} {p x : Place} (h : t.EndsAt p x) : p ≠ [] := by
  rintro rfl
  exact h.ne_directory (by simp [entryAt?])

theorem EndsAt.target_ne_empty {t : FileTree} {p x : Place} (h : t.EndsAt p x) {target : Path}
    (hl : t.entryAt? p = some (.link target)) : ¬target.octets.isEmpty = true := by
  rcases h.leads with rfl | ⟨target', _, hl', he, _⟩
  · obtain ⟨_, _, _, hf⟩ := h.file
    rw [hl] at hf; cases hf
  · rw [hl] at hl'
    cases hl'
    exact he

/-- A link at the place leads to the file. -/
theorem EndsAt.exists_follow_link {t : FileTree} {p x : Place} (h : t.EndsAt p x) {target : Path}
    (hl : t.entryAt? p = some (.link target)) :
    ∃ links, t.follow true links (linkBase p target) (linkNames target) = .ok x := by
  rcases h.leads with rfl | ⟨target', links, hl', _, hx⟩
  · obtain ⟨_, _, _, hf⟩ := h.file
    rw [hl] at hf; cases hf
  · rw [hl] at hl'
    cases hl'
    exact ⟨links, hx⟩

/-- A path that leads to a file has a place at which it ends. -/
theorem exists_endsAt (t : FileTree) (links : Nat) (place : Place) (pieces : List Name) :
    ∀ {x : Place}, t.follow true links place pieces = .ok x →
      (∃ content mode modified, t.entryAt? x = some (.file content mode modified)) →
      ∃ p, t.follow false links place pieces = .ok p ∧ t.EndsAt p x := by
  induction links, place, pieces using follow_induct t with
  | nil links place =>
    intro x hx hf
    rw [follow_nil] at hx
    cases hx
    exact ⟨place, follow_nil _ _ _ _, hf, .inl rfl⟩
  | stuck links place name rest e h =>
    intro x hx
    rw [follow_stuck h] at hx
    cases hx
  | go links place name rest p h ih =>
    intro x hx hf
    rw [follow_go h] at hx ⊢
    exact ih hx hf
  | link links place name rest p target h ih =>
    intro x hx hf
    have hr : ¬(rest = [] ∧ (!true) = true) := by simp
    cases links with
    | zero => rw [follow_no_links h hr] at hx; cases hx
    | succ k =>
      by_cases he : target.octets.isEmpty = true
      · rw [follow_empty_link h hr he] at hx; cases hx
      · rw [follow_link h hr he] at hx
        by_cases hrest : rest = []
        · subst hrest
          rw [List.append_nil] at hx
          exact ⟨p, follow_last_link h, hf, .inr ⟨target, k, link_of_turn h, he, hx⟩⟩
        · rw [follow_link h (fun hr => hrest hr.1) he]
          exact ih k rfl hx hf

/-! ## A new file at one place -/

theorem entryAt_set (t : FileTree) (p : Place) (e : Entry) (hp : p ≠ []) (q : Place) :
    FileTree.entryAt? (t.set p e) q = if q = p then some e else t.entryAt? q := by
  unfold entryAt? set
  by_cases hq : q = p
  · subst hq
    simp [hp]
  · by_cases hn : q = []
    · simp [hn, Ne.symm hp]
    · have hne : p ≠ q := Ne.symm hq
      simp only [hn, hq, if_false]
      rw [List.find?_cons_of_neg (by simpa using hne), List.find?_filter]
      congr 2
      funext x
      by_cases hx : x.1 = q
      · simp [hx, hq]
      · simp [hx]

section
variable {t : FileTree} {p x : Place} {content : Text.Octets} {mode modified : Nat}

/-- A new file changes the turns only where it takes the place of a link. -/
theorem turn_set (h : t.EndsAt p x) (place : Place) (name : Name) :
    (t.set p (.file content mode modified)).turn place name =
      match t.turn place name with
      | .link q target => if q = p then .go p else .link q target
      | other => other := by
  have hset := t.entryAt_set p (.file content mode modified) h.ne_nil
  unfold turn
  by_cases hplace : place = p
  · subst hplace
    rw [if_pos h.ne_directory, if_pos]
    rw [hset, if_pos rfl]
    intro he; cases he
  rw [hset place, if_neg hplace]
  by_cases h1 : t.entryAt? place ≠ some .directory
  · rw [if_pos h1, if_pos h1]
  rw [if_neg h1, if_neg h1]
  by_cases h2 : name = "" ∨ name = "."
  · rw [if_pos h2, if_pos h2]
  rw [if_neg h2, if_neg h2]
  by_cases h3 : name = ".."
  · rw [if_pos h3, if_pos h3]
  rw [if_neg h3, if_neg h3]
  by_cases h4 : maxName < name.octets.length
  · rw [if_pos h4, if_pos h4]
  rw [if_neg h4, if_neg h4, hset (place ++ [name])]
  by_cases hq : place ++ [name] = p
  · rw [if_pos hq, ← hq]
    rcases h.leads with hpx | ⟨target, _, hl, _, _⟩
    · obtain ⟨_, _, _, hf⟩ := h.file
      rw [hq, hpx, hf]
    · rw [hq, hl]
      simp
  · rw [if_neg hq]
    cases t.entryAt? (place ++ [name]) with
    | none => rfl
    | some e =>
      cases e with
      | directory => rfl
      | file _ _ _ => rfl
      | link target => simp [hq]

theorem turn_set_of_go (h : t.EndsAt p x) {place q : Place} {name : Name}
    (hq : t.turn place name = .go q) :
    (t.set p (.file content mode modified)).turn place name = .go q := by
  rw [turn_set h, hq]

theorem turn_set_of_stuck (h : t.EndsAt p x) {place : Place} {name : Name} {e : IoError}
    (hq : t.turn place name = .stuck e) :
    (t.set p (.file content mode modified)).turn place name = .stuck e := by
  rw [turn_set h, hq]

theorem turn_set_of_link (h : t.EndsAt p x) {place q : Place} {name : Name} {target : Path}
    (hq : t.turn place name = .link q target) (hne : q ≠ p) :
    (t.set p (.file content mode modified)).turn place name = .link q target := by
  rw [turn_set h, hq]
  simp only [if_neg hne]

theorem turn_set_of_link_self (h : t.EndsAt p x) {place : Place} {name : Name} {target : Path}
    (hq : t.turn place name = .link p target) :
    (t.set p (.file content mode modified)).turn place name = .go p := by
  rw [turn_set h, hq]
  simp only [if_true]

/-- Past the place there is nothing to follow, before and after. -/
theorem follow_link_past (h : t.EndsAt p x) {target : Path}
    (hl : t.entryAt? p = some (.link target))
    (last : Bool) (links : Nat) (name : Name) (rest : List Name) :
    t.follow last links (linkBase p target) (linkNames target ++ name :: rest) =
        .error .notADirectory ∨
      t.follow last links (linkBase p target) (linkNames target ++ name :: rest) =
        .error .tooManyLinks := by
  obtain ⟨enough, hx⟩ := h.exists_follow_link hl
  by_cases hmany : t.follow last links (linkBase p target) (linkNames target ++ name :: rest) =
      .error .tooManyLinks
  · exact .inr hmany
  · left
    have hend := follow_past_end t last enough _ _ hx h.end_ne_directory name rest
      (max links enough) (Nat.le_max_right _ _)
    rw [follow_mono t last links _ _ (max links enough) (Nat.le_max_left _ _) hmany] at hend
    exact hend

/-- A place with nothing but a file cannot be followed further. -/
theorem follow_set_past (h : t.EndsAt p x) (last : Bool) (links : Nat) (name : Name)
    (rest : List Name) :
    (t.set p (.file content mode modified)).follow last links p (name :: rest) =
      .error .notADirectory := by
  refine follow_stuck ?_
  unfold turn
  rw [if_pos]
  rw [entryAt_set t p _ h.ne_nil, if_pos rfl]
  intro he; cases he

/-- The path that ends at the place leads to the new file. -/
theorem follow_set_self (h : t.EndsAt p x) (last : Bool) (links : Nat) (place : Place)
    (pieces : List Name) :
    t.follow false links place pieces = .ok p →
      (t.set p (.file content mode modified)).follow last links place pieces = .ok p := by
  induction links, place, pieces using follow_induct t with
  | nil links place =>
    intro hp
    rw [follow_nil] at hp ⊢
    exact hp
  | stuck links place name rest e hq =>
    intro hp
    rw [follow_stuck hq] at hp
    cases hp
  | go links place name rest q hq ih =>
    intro hp
    rw [follow_go hq] at hp
    rw [follow_go (turn_set_of_go h hq)]
    exact ih hp
  | link links place name rest q target hq ih =>
    intro hp
    by_cases hqp : q = p
    · -- The place is met: this must be the end of the path.
      subst hqp
      rw [follow_go (turn_set_of_link_self h hq)]
      cases rest with
      | nil => exact follow_nil _ _ _ _
      | cons name' rest' =>
        exfalso
        have hr : ¬(name' :: rest' = [] ∧ (!false) = true) := by simp
        cases links with
        | zero => rw [follow_no_links hq hr] at hp; cases hp
        | succ k =>
          by_cases he : target.octets.isEmpty = true
          · rw [follow_empty_link hq hr he] at hp; cases hp
          · rw [follow_link hq hr he] at hp
            rcases follow_link_past h (link_of_turn hq) false k name' rest' with hs | hs <;>
              (rw [hs] at hp; cases hp)
    · by_cases hrest : rest = []
      · subst hrest
        rw [follow_last_link hq] at hp
        cases hp
        exact absurd rfl hqp
      · have hr : ∀ b : Bool, ¬(rest = [] ∧ (!b) = true) := fun b hr => hrest hr.1
        cases links with
        | zero => rw [follow_no_links hq (hr _)] at hp; cases hp
        | succ k =>
          by_cases he : target.octets.isEmpty = true
          · rw [follow_empty_link hq (hr _) he] at hp; cases hp
          · rw [follow_link hq (hr _) he] at hp
            rw [follow_link (turn_set_of_link h hq hqp) (hr _) he]
            exact ih k rfl hp

/-- A path that never leads to the file leads where it led. Only if it gave up because of too many
links it may now give up for another reason, since the new file can take the place of a link. -/
theorem follow_set_other (h : t.EndsAt p x) (last : Bool) (links : Nat) (place : Place)
    (pieces : List Name) :
    (∀ more, t.follow true more place pieces ≠ .ok x) →
      (t.set p (.file content mode modified)).follow last links place pieces =
          t.follow last links place pieces ∨
        t.follow last links place pieces = .error .tooManyLinks ∧
          ∃ e, (t.set p (.file content mode modified)).follow last links place pieces =
            .error e := by
  induction links, place, pieces using follow_induct t with
  | nil links place => exact fun _ => .inl (by rw [follow_nil, follow_nil])
  | stuck links place name rest e hq =>
    exact fun _ => .inl (by rw [follow_stuck hq, follow_stuck (turn_set_of_stuck h hq)])
  | go links place name rest q hq ih =>
    intro hx
    rw [follow_go hq, follow_go (turn_set_of_go h hq)]
    exact ih fun more => follow_go hq ▸ hx more
  | link links place name rest q target hq ih =>
    intro hx
    by_cases hr : rest = [] ∧ (!last) = true
    · left
      obtain ⟨rfl, hlast⟩ := hr
      simp only [Bool.not_eq_true'] at hlast
      subst hlast
      rw [follow_last_link hq]
      by_cases hqp : q = p
      · subst hqp
        rw [follow_go (turn_set_of_link_self h hq), follow_nil]
      · exact follow_last_link (turn_set_of_link h hq hqp)
    · by_cases hqp : q = p
      · -- The link is replaced: the path must go on past it.
        subst hqp
        have hl := link_of_turn hq
        rw [follow_go (turn_set_of_link_self h hq)]
        cases rest with
        | nil =>
          obtain ⟨enough, henough⟩ := h.exists_follow_link hl
          refine absurd ?_ (hx (enough + 1))
          rw [follow_link hq (by simp) (h.target_ne_empty hl), List.append_nil]
          exact henough
        | cons name' rest' =>
          rw [follow_set_past h]
          cases links with
          | zero => exact .inr ⟨follow_no_links hq hr, _, rfl⟩
          | succ k =>
            rw [follow_link hq hr (h.target_ne_empty hl)]
            rcases follow_link_past h hl last k name' rest' with hs | hs
            · exact .inl hs.symm
            · exact .inr ⟨hs, _, rfl⟩
      · have hq' : (t.set p (.file content mode modified)).turn place name = .link q target :=
          turn_set_of_link h hq hqp
        cases links with
        | zero => exact .inl (by rw [follow_no_links hq hr, follow_no_links hq' hr])
        | succ k =>
          by_cases he : target.octets.isEmpty = true
          · exact .inl (by rw [follow_empty_link hq hr he, follow_empty_link hq' hr he])
          · rw [follow_link hq hr he, follow_link hq' hr he]
            refine ih k rfl fun more hmore => hx (more + 1) ?_
            rw [follow_link hq (by simp) he]
            exact hmore

/-- A path that does not end at the new file ends where it ended. -/
theorem follow_of_set (h : t.EndsAt p x) (last : Bool) (links : Nat) (place : Place)
    (pieces : List Name) {q : Place} (hne : q ≠ p) :
    (t.set p (.file content mode modified)).follow last links place pieces = .ok q →
      t.follow last links place pieces = .ok q := by
  induction links, place, pieces using follow_induct t with
  | nil links place => intro hq; rwa [follow_nil] at hq ⊢
  | stuck links place name rest e ht =>
    intro hq
    rw [follow_stuck (turn_set_of_stuck h ht)] at hq
    cases hq
  | go links place name rest p' ht ih =>
    intro hq
    rw [follow_go (turn_set_of_go h ht)] at hq
    rw [follow_go ht]
    exact ih hq
  | link links place name rest p' target ht ih =>
    intro hq
    by_cases hp : p' = p
    · -- The way ends at the new file, or is stuck there.
      subst hp
      rw [follow_go (turn_set_of_link_self h ht)] at hq
      cases rest with
      | nil =>
        rw [follow_nil] at hq
        cases hq
        exact absurd rfl hne
      | cons name' rest' =>
        rw [follow_set_past h] at hq
        cases hq
    · rw [follow_cons, turn_set_of_link h ht hp] at hq
      rw [follow_cons, ht]
      cases links with
      | zero => exact hq
      | succ k =>
        simp only at hq ⊢
        split at hq
        · rename_i hr
          rw [if_pos hr]
          exact hq
        · rename_i hr
          rw [if_neg hr]
          split at hq
          · cases hq
          · rename_i he
            rw [if_neg he]
            exact ih k rfl hq

/-- A path leads where it led, or to the new file. -/
theorem follow_set (h : t.EndsAt p x) (links : Nat) (place : Place) (pieces : List Name)
    {y : Place} :
    t.follow true links place pieces = .ok y →
      (t.set p (.file content mode modified)).follow true links place pieces = .ok y ∨
        (t.set p (.file content mode modified)).follow true links place pieces = .ok p := by
  induction links, place, pieces using follow_induct t with
  | nil links place => intro hy; exact .inl (by rwa [follow_nil] at hy ⊢)
  | stuck links place name rest e ht =>
    intro hy
    rw [follow_stuck ht] at hy
    cases hy
  | go links place name rest p' ht ih =>
    intro hy
    rw [follow_go ht] at hy
    rw [follow_go (turn_set_of_go h ht)]
    exact ih hy
  | link links place name rest p' target ht ih =>
    intro hy
    have hr : ¬(rest = [] ∧ (!true) = true) := by simp
    cases links with
    | zero =>
      rw [follow_no_links ht hr] at hy
      cases hy
    | succ k =>
      by_cases he : target.octets.isEmpty = true
      · rw [follow_empty_link ht hr he] at hy
        cases hy
      · rw [follow_link ht hr he] at hy
        by_cases hp : p' = p
        · -- The link is replaced, and nothing can come after it.
          subst hp
          rw [follow_go (turn_set_of_link_self h ht)]
          cases rest with
          | nil => exact .inr (follow_nil _ _ _ _)
          | cons name' rest' =>
            rcases follow_link_past h (link_of_turn ht) true k name' rest' with hs | hs <;>
              (rw [hs] at hy; cases hy)
        · rw [follow_link (turn_set_of_link h ht hp) hr he]
          exact ih k rfl hy

end

end ExplicitSelf.FileTree
