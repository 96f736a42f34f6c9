import ExplicitSelf.Text.Split
import Mathlib.Data.List.Infix

/-!
# Pieces of a text, and texts inside a text

`splitWhere` is `List.splitOnP`, so its laws are those of the library. A separator in the middle of
a text splits the pieces in two, and each piece is a stretch of the text without separators.

Results:
* `splitWhere_append`, `splitWhere_eq_singleton`: the pieces of a text.
* `infix_of_mem_splitWhere`, `flatten_splitWhere`: a piece is a stretch of the text, and only
  separators are outside all pieces.
* `joinWith_append_pieces`, `head?_joinWith`, `getLast?_joinWith`: joined pieces, and their ends.
* `splitOn_joinWith`: pieces can be joined and split again.
* `afterPrefix?_eq_some_iff`, `occursIn_iff`: what the searches find.
* `afterFirst?_append`: the first occurrence of a text that cannot overlap itself.
-/
namespace ExplicitSelf.Text

/-! ## Pieces -/

section
variable {α : Type}

theorem splitWhere_eq_splitOnP (separates : α → Bool) (cs : List α) :
    splitWhere separates cs = cs.splitOnP separates := by
  induction cs with
  | nil => rfl
  | cons c cs ih =>
    rw [splitWhere, List.splitOnP_cons_eq_if_modifyHead, ih]
    split
    · rfl
    · cases h : cs.splitOnP separates with
      | nil => exact absurd h (List.splitOnP_ne_nil _ _)
      | cons p ps => rfl

section
variable {separates : α → Bool}

/-- A text without separators is one piece. -/
theorem splitWhere_eq_singleton {cs : List α} (h : ∀ c ∈ cs, separates c = false) :
    splitWhere separates cs = [cs] := by
  rw [splitWhere_eq_splitOnP, List.splitOnP_eq_singleton h]

/-- A separator stands between the pieces before it and those after it. -/
theorem splitWhere_append {c : α} (h : separates c = true) (l r : List α) :
    splitWhere separates (l ++ c :: r) = splitWhere separates l ++ splitWhere separates r := by
  simp only [splitWhere_eq_splitOnP, List.splitOnP_append_cons l r h]

/-- The first piece, and what is left. -/
theorem exists_of_splitWhere_eq_cons {cs p : List α} {ps : List (List α)}
    (h : splitWhere separates cs = p :: ps) :
    cs = p ∧ ps = [] ∨ ∃ c r, separates c = true ∧ cs = p ++ c :: r ∧
      ps = splitWhere separates r := by
  induction cs generalizing p with
  | nil => cases h; exact .inl ⟨rfl, rfl⟩
  | cons d cs ih =>
    rw [splitWhere] at h
    split at h
    · rename_i hd
      cases h
      exact .inr ⟨d, cs, hd, rfl, rfl⟩
    · split at h
      · rename_i hnil
        rw [splitWhere_eq_splitOnP] at hnil
        exact absurd hnil (List.splitOnP_ne_nil _ _)
      · rename_i q qs hq
        cases h
        rcases ih hq with ⟨rfl, rfl⟩ | ⟨c, r, hc, rfl, rfl⟩
        · exact .inl ⟨rfl, rfl⟩
        · exact .inr ⟨c, r, hc, rfl, rfl⟩

/-- A piece is a stretch of the text. -/
theorem infix_of_mem_splitWhere {cs p : List α} (h : p ∈ splitWhere separates cs) : p <:+: cs := by
  generalize hps : splitWhere separates cs = ps at h
  induction ps generalizing cs with
  | nil => cases h
  | cons q qs ih =>
    rcases exists_of_splitWhere_eq_cons hps with ⟨rfl, rfl⟩ | ⟨c, r, _, rfl, rfl⟩
    · rw [List.mem_singleton.1 h]
    · rcases List.mem_cons.1 h with rfl | hr
      · exact (List.prefix_append p _).isInfix
      · exact (ih rfl hr).trans ((List.suffix_cons c r).trans (List.suffix_append q _)).isInfix

end

/-- Cutting loses the separators only. -/
theorem flatten_splitWhere (separates : α → Bool) (cs : List α) :
    (splitWhere separates cs).flatten = cs.filter (!separates ·) := by
  induction cs with
  | nil => rfl
  | cons c cs ih =>
    rw [splitWhere, List.filter_cons]
    split
    · rename_i hc
      simp [hc, ih]
    · rename_i hc
      rw [if_pos (by simpa using hc), ← ih]
      split
      · rename_i hnil
        simp [hnil]
      · rename_i p ps hps
        simp [hps]

theorem joinWith_cons (separator : α) (p : List α) {ps : List (List α)} (h : ps ≠ []) :
    joinWith separator (p :: ps) = p ++ separator :: joinWith separator ps := by
  cases ps with
  | nil => exact absurd rfl h
  | cons q qs => rfl

/-- What stands in front of the first piece stands in front of all. -/
theorem joinWith_append (separator : α) (front p : List α) (ps : List (List α)) :
    joinWith separator ((front ++ p) :: ps) = front ++ joinWith separator (p :: ps) := by
  cases ps with
  | nil => rfl
  | cons q qs => exact List.append_assoc front p _

theorem head?_joinWith (separator : α) {p : List α} (hp : p ≠ []) (ps : List (List α)) :
    (joinWith separator (p :: ps)).head? = p.head? := by
  cases ps with
  | nil => rfl
  | cons q qs => exact List.head?_append_of_ne_nil p hp

theorem getLast?_joinWith (separator : α) {p : List α} (hp : p ≠ []) (ps : List (List α)) :
    (joinWith separator (ps ++ [p])).getLast? = p.getLast? := by
  induction ps with
  | nil => rfl
  | cons q qs ih =>
    rw [List.cons_append, joinWith_cons separator q (by simp), List.getLast?_append,
      List.getLast?_cons, ih, List.getLast?_eq_some_getLast hp]
    rfl

/-- A separator stands between the last piece of one list and the first of another. -/
theorem joinWith_append_pieces (separator : α) {ps qs : List (List α)} (hps : ps ≠ [])
    (hqs : qs ≠ []) :
    joinWith separator (ps ++ qs) = joinWith separator ps ++
      separator :: joinWith separator qs := by
  induction ps with
  | nil => exact absurd rfl hps
  | cons p ps ih =>
    by_cases hnil : ps = []
    · subst hnil
      exact joinWith_cons separator p hqs
    · rw [List.cons_append, joinWith_cons separator p (by simp [hnil]), ih hnil,
        joinWith_cons separator p hnil, List.append_assoc, List.cons_append]

/-- The first pieces of a text make a front of it. -/
theorem joinWith_isPrefix (separator : α) {ps qs : List (List α)} (h : ps <+: qs) :
    joinWith separator ps <+: joinWith separator qs := by
  obtain ⟨rest, rfl⟩ := h
  induction ps with
  | nil => exact List.nil_prefix
  | cons p ps ih =>
    by_cases hps : ps = []
    · subst hps
      by_cases hrest : rest = []
      · rw [hrest, List.append_nil]
      · rw [List.singleton_append, joinWith_cons separator p hrest]
        exact List.prefix_append p _
    · have happend : ps ++ rest ≠ [] := List.append_ne_nil_of_left_ne_nil hps rest
      rw [List.cons_append, joinWith_cons separator p hps, joinWith_cons separator p happend]
      exact (List.prefix_append_right_inj p).2 (List.cons_prefix_cons.2 ⟨rfl, ih⟩)

variable [DecidableEq α]

theorem splitOn_eq_singleton {separator : α} {cs : List α} (h : separator ∉ cs) :
    splitOn separator cs = [cs] := by
  refine splitWhere_eq_singleton fun c hc => ?_
  have hne : c ≠ separator := fun he => h (he ▸ hc)
  simpa using hne

theorem splitOn_append (separator : α) (l r : List α) :
    splitOn separator (l ++ separator :: r) = splitOn separator l ++ splitOn separator r :=
  splitWhere_append (by simp) l r

/-- A piece has no separators. -/
theorem notMem_of_mem_splitOn {separator : α} {cs p : List α} (h : p ∈ splitOn separator cs) :
    separator ∉ p := by
  induction cs generalizing p with
  | nil =>
    rw [List.mem_singleton.1 h]
    exact List.not_mem_nil
  | cons c cs ih =>
    rw [splitOn, splitWhere] at h
    split at h
    · rcases List.mem_cons.1 h with rfl | h
      · exact List.not_mem_nil
      · exact ih h
    · rename_i hc
      have hne : separator ≠ c := fun he => hc (by simp [he])
      split at h
      · rw [List.mem_singleton.1 h]
        simpa using hne
      · rename_i q qs hqs
        have hpieces : splitOn separator cs = q :: qs := hqs
        rw [hpieces] at ih
        rcases List.mem_cons.1 h with rfl | h
        · simpa [hne] using ih (.head _)
        · exact ih (.tail _ h)

/-- Pieces without separators can be joined and split again. -/
theorem splitOn_joinWith {separator : α} {ps : List (List α)} (hne : ps ≠ [])
    (h : ∀ p ∈ ps, separator ∉ p) : splitOn separator (joinWith separator ps) = ps := by
  induction ps with
  | nil => exact absurd rfl hne
  | cons p ps ih =>
    have hp := splitOn_eq_singleton (h p (.head _))
    by_cases hps : ps = []
    · subst hps
      exact hp
    · rw [joinWith_cons separator p hps, splitOn_append, hp, ih hps fun q hq => h q (.tail _ hq)]
      rfl

/-- The pieces of a text make the text. -/
theorem joinWith_splitOn (separator : α) (cs : List α) :
    joinWith separator (splitOn separator cs) = cs := by
  have hne : ∀ cs, splitOn separator cs ≠ [] := by
    intro cs
    rw [splitOn, splitWhere_eq_splitOnP]
    exact List.splitOnP_ne_nil _ _
  induction cs with
  | nil => rfl
  | cons c cs ih =>
    rw [splitOn, splitWhere]
    split
    · rename_i hc
      rw [← splitOn, joinWith_cons separator [] (hne cs), ih, of_decide_eq_true hc]
      rfl
    · rw [← splitOn]
      cases hps : splitOn separator cs with
      | nil => exact absurd hps (hne cs)
      | cons p ps =>
        rw [hps] at ih
        exact (joinWith_append separator [c] p ps).trans (congrArg (c :: ·) ih)

end

/-! ## Searching -/

theorem afterPrefix?_eq_some_iff {front cs rest : List Char} :
    afterPrefix? front cs = some rest ↔ cs = front ++ rest := by
  induction front generalizing cs with
  | nil => simp [afterPrefix?, eq_comm]
  | cons p ps ih =>
    cases cs with
    | nil => simp [afterPrefix?]
    | cons c cs =>
      rw [afterPrefix?]
      split
      · rename_i hp
        rw [ih, hp, List.cons_append, List.cons.injEq, and_iff_right rfl]
      · rename_i hp
        constructor
        · intro h; cases h
        · intro h
          rw [List.cons_append, List.cons.injEq] at h
          exact absurd h.1.symm hp

theorem afterPrefix?_eq_none_iff {front cs : List Char} :
    afterPrefix? front cs = none ↔ ¬front <+: cs := by
  rw [Option.eq_none_iff_forall_ne_some, List.prefix_iff_exists_append_eq, not_exists]
  exact forall_congr' fun rest => not_congr (afterPrefix?_eq_some_iff.trans eq_comm)

/-- What stands after the occurrence with the shortest text in front. -/
theorem afterFirst?_eq_some_iff {needle cs rest : List Char} :
    afterFirst? needle cs = some rest ↔ ∃ l, cs = l ++ needle ++ rest ∧
      ∀ l' rest', cs = l' ++ needle ++ rest' → l.length ≤ l'.length := by
  induction cs generalizing rest with
  | nil =>
    rw [afterFirst?, afterPrefix?_eq_some_iff]
    refine ⟨fun h => ⟨[], h, fun _ _ _ => Nat.zero_le _⟩, fun ⟨l, h, _⟩ => ?_⟩
    obtain ⟨hl, rfl⟩ := List.append_eq_nil_iff.1 h.symm
    rw [(List.append_eq_nil_iff.1 hl).2, List.append_nil]
  | cons c cs ih =>
    rw [afterFirst?]
    cases h : afterPrefix? needle (c :: cs) with
    | some first =>
      have hfirst := afterPrefix?_eq_some_iff.1 h
      rw [Option.some_or, Option.some.injEq]
      refine ⟨fun he => ⟨[], he ▸ hfirst, fun _ _ _ => Nat.zero_le _⟩, fun ⟨l, hl, hmin⟩ => ?_⟩
      have hnil : l = [] := List.eq_nil_of_length_eq_zero (Nat.le_zero.1 (hmin [] first hfirst))
      rw [hnil, List.nil_append, hfirst] at hl
      exact List.append_cancel_left hl
    | none =>
      have hnone := afterPrefix?_eq_none_iff.1 h
      -- the needle is not in front, so each occurrence has the first character before it
      have hcons : ∀ l rest', c :: cs = l ++ needle ++ rest' →
          ∃ l', l = c :: l' ∧ cs = l' ++ needle ++ rest' := by
        intro l rest' hl
        cases l with
        | nil => exact absurd ⟨rest', hl.symm⟩ hnone
        | cons d l' =>
          simp only [List.cons_append, List.cons.injEq] at hl
          exact ⟨l', by rw [hl.1], hl.2⟩
      rw [Option.none_or, ih]
      refine ⟨fun ⟨l, hl, hmin⟩ => ⟨c :: l, by rw [hl]; rfl, fun l' rest' hl' => ?_⟩,
        fun ⟨l, hl, hmin⟩ => ?_⟩
      · obtain ⟨l'', rfl, hcs⟩ := hcons l' rest' hl'
        exact Nat.succ_le_succ (hmin l'' rest' hcs)
      · obtain ⟨l'', rfl, hcs⟩ := hcons l rest hl
        refine ⟨l'', hcs, fun l' rest' hl' => ?_⟩
        exact Nat.le_of_succ_le_succ (hmin (c :: l') rest' (by rw [hl']; rfl))

/-- What stands after an occurrence is the end of the text. -/
theorem exists_of_afterFirst?_eq_some {needle cs rest : List Char}
    (h : afterFirst? needle cs = some rest) : ∃ l, cs = l ++ needle ++ rest := by
  obtain ⟨l, hl, _⟩ := afterFirst?_eq_some_iff.1 h
  exact ⟨l, hl⟩

theorem afterFirst?_isSome_of_infix {needle cs : List Char} (h : needle <:+: cs) :
    (afterFirst? needle cs).isSome = true := by
  induction cs with
  | nil =>
    rw [List.infix_nil.1 h]
    rfl
  | cons c cs ih =>
    rw [afterFirst?, Option.isSome_or, Bool.or_eq_true]
    rcases List.infix_cons_iff.1 h with ⟨rest, hrest⟩ | h
    · rw [afterPrefix?_eq_some_iff.2 hrest.symm]
      exact .inl rfl
    · exact .inr (ih h)

theorem occursIn_iff {needle cs : List Char} : occursIn needle cs = true ↔ needle <:+: cs := by
  constructor
  · intro h
    obtain ⟨rest, hrest⟩ := Option.isSome_iff_exists.1 h
    obtain ⟨l, rfl⟩ := exists_of_afterFirst?_eq_some hrest
    exact ⟨l, rest, rfl⟩
  · exact afterFirst?_isSome_of_infix

theorem endsWith_iff {cs ending : List Char} : endsWith cs ending = true ↔ ending <:+ cs := by
  rw [endsWith, Option.isSome_iff_exists, ← List.reverse_prefix]
  exact exists_congr fun rest => afterPrefix?_eq_some_iff.trans eq_comm

/-- A text whose first character does not recur in it cannot overlap itself. So its first occurrence
is the one that follows a front without any. -/
theorem afterFirst?_append {c : Char} {needle : List Char} (hc : c ∉ needle) {l : List Char}
    (h : ¬(c :: needle) <:+: l) (rest : List Char) :
    afterFirst? (c :: needle) (l ++ (c :: needle) ++ rest) = some rest := by
  induction l with
  | nil =>
    rw [List.nil_append, List.cons_append, afterFirst?, Option.or_eq_some_iff]
    exact .inl (afterPrefix?_eq_some_iff.2 rfl)
  | cons d l ih =>
    have hnot : ¬(c :: needle) <+: d :: (l ++ (c :: needle) ++ rest) := by
      rintro ⟨more, hmore⟩
      have hmore : (c :: needle) ++ more = (d :: l) ++ ((c :: needle) ++ rest) := by
        simpa using hmore
      rcases List.append_eq_append_iff.1 hmore with ⟨a, ha, _⟩ | ⟨a, ha, hb⟩
      · exact h ⟨[], a, by rw [List.nil_append, ha]⟩
      · -- the occurrence would end inside the one that follows, so that one starts inside it
        cases a with
        | nil => exact h (by rw [ha, List.append_nil])
        | cons e a =>
          rw [List.cons_append, List.cons_append, List.cons.injEq] at hb
          rw [List.cons_append, List.cons.injEq] at ha
          exact hc (by rw [ha.2, hb.1]; simp)
    have hl : ¬(c :: needle) <:+: l := fun hl => h (hl.trans (List.suffix_cons d l).isInfix)
    rw [List.cons_append, List.cons_append, afterFirst?, afterPrefix?_eq_none_iff.2 hnot,
      Option.none_or]
    exact ih hl

end ExplicitSelf.Text
