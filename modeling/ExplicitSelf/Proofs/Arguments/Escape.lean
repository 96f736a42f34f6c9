import ExplicitSelf.BuildLog.Invocation
import ExplicitSelf.Proofs.Text.Split

/-!
# Argument lines, piece by piece

A space separates two arguments unless it is quoted or a backslash stands right before it. `cut`
gives the pieces between such spaces as they are written, once the quotes are gone. The arguments of
a line are these pieces with their backslashes gone, and each argument has one written form without
quotes, `escapeSpaces`.

Results:
* `splitOn_unescape`: the pieces may be taken before the backslashes go.
* `mem_cut_iff`: what a piece is, by what stands around it.
* `mem_arguments_iff`, `mem_arguments_iff_of_unquoted`: the arguments of a line.
-/
namespace ExplicitSelf.Arguments

open BuildLog (escapeSpaces)

/-- The pieces of a text between the spaces that no backslash precedes. -/
def cut : List Char → List (List Char)
  | [] => [[]]
  | '\\' :: ' ' :: cs => (cut cs).modifyHead ('\\' :: ' ' :: ·)
  | c :: cs => if c = ' ' then [] :: cut cs else (cut cs).modifyHead (c :: ·)

/-! ## The written form of an argument -/

@[simp] theorem escapeSpaces_nil : escapeSpaces [] = [] := rfl

theorem escapeSpaces_cons (c : Char) (cs : List Char) :
    escapeSpaces (c :: cs) = (if c = ' ' then ['\\', ' '] else [c]) ++ escapeSpaces cs := rfl

theorem escapeSpaces_eq_nil_iff {cs : List Char} : escapeSpaces cs = [] ↔ cs = [] := by
  cases cs with
  | nil => simp
  | cons c cs =>
    rw [escapeSpaces_cons]
    split <;> simp

theorem head?_escapeSpaces (cs : List Char) : (escapeSpaces cs).head? ≠ some ' ' := by
  cases cs with
  | nil => simp
  | cons c cs =>
    rw [escapeSpaces_cons]
    split
    · simp
    · rename_i hc
      simpa using hc

theorem getLast?_escapeSpaces (cs : List Char) : (escapeSpaces cs).getLast? = cs.getLast? := by
  induction cs with
  | nil => rfl
  | cons c cs ih =>
    rw [escapeSpaces_cons, List.getLast?_append, ih, List.getLast?_cons]
    cases cs.getLast? with
    | none => split <;> simp_all
    | some d => rfl

theorem mem_escapeSpaces {c : Char} {cs : List Char} (h : c ∈ escapeSpaces cs) :
    c ∈ cs ∨ c = '\\' := by
  obtain ⟨d, hd, hc⟩ := List.mem_flatMap.1 h
  split at hc
  · rename_i hspace
    rcases List.mem_pair.1 hc with rfl | rfl
    · exact .inr rfl
    · exact .inl (hspace ▸ hd)
  · rw [List.mem_singleton.1 hc]
    exact .inl hd

theorem mem_escapeSpaces_of_mem {c : Char} {cs : List Char} (h : c ∈ cs) : c ∈ escapeSpaces cs := by
  refine List.mem_flatMap.2 ⟨c, h, ?_⟩
  split
  · rename_i hc
    simp [hc]
  · simp

/-! ## Pieces -/

/-- A backslash that no space follows stands for itself. -/
theorem unescape_cons {c : Char} {cs : List Char} (h : c = '\\' → cs.head? ≠ some ' ') :
    unescape (c :: cs) = c :: unescape cs := by
  rw [unescape]
  rintro cs' rfl rfl
  exact h rfl rfl

theorem cut_space (cs : List Char) : cut (' ' :: cs) = [] :: cut cs := by
  rw [cut]
  · simp
  · intro cs' h
    simp at h

/-- A character that separates nothing belongs to the first piece. -/
theorem cut_cons {c : Char} {cs : List Char} (hc : c ≠ ' ') (h : c = '\\' → cs.head? ≠ some ' ') :
    cut (c :: cs) = (cut cs).modifyHead (c :: ·) := by
  rw [cut, if_neg hc]
  rintro cs' rfl rfl
  exact h rfl rfl

theorem cut_ne_nil (cs : List Char) : cut cs ≠ [] := by
  fun_induction cut cs with
  | case1 => simp
  | case2 cs ih => simpa using ih
  | case3 cs _ => simp
  | case4 c cs _ _ ih => simpa using ih

/-- A space that no backslash precedes stands between the pieces before it and those after it. -/
theorem cut_append {l : List Char} (h : l.getLast? ≠ some '\\') (r : List Char) :
    cut (l ++ ' ' :: r) = cut l ++ cut r := by
  have hhead : ∀ (f : List Char → List Char) (ps qs : List (List Char)), ps ≠ [] →
      (ps ++ qs).modifyHead f = ps.modifyHead f ++ qs := by
    intro f ps qs hps
    cases ps with
    | nil => exact absurd rfl hps
    | cons p ps => rfl
  fun_induction cut l with
  | case1 => rw [List.nil_append, cut_space]; rfl
  | case2 cs ih =>
    have hcs : cs.getLast? ≠ some '\\' := by
      intro hlast
      simp [List.getLast?_cons, hlast] at h
    rw [List.cons_append, List.cons_append, cut, ih hcs, hhead _ _ _ (cut_ne_nil cs)]
  | case3 cs _ ih =>
    have hcs : cs.getLast? ≠ some '\\' := by
      intro hlast
      simp [List.getLast?_cons, hlast] at h
    rw [List.cons_append, cut_space, ih hcs, List.cons_append]
  | case4 c cs hne hc ih =>
    have hcs : cs.getLast? ≠ some '\\' := by
      intro hlast
      simp [List.getLast?_cons, hlast] at h
    have hnext : c = '\\' → (cs ++ ' ' :: r).head? ≠ some ' ' := by
      rintro rfl hhead
      cases cs with
      | nil => exact h rfl
      | cons d cs =>
        simp only [List.cons_append, List.head?_cons, Option.some.injEq] at hhead
        exact hne cs rfl (hhead ▸ rfl)
    rw [List.cons_append, cut_cons hc hnext, ih hcs, hhead _ _ _ (cut_ne_nil cs)]

/-- The first piece, and what is left. -/
theorem exists_of_cut_eq_cons {cs p : List Char} {ps : List (List Char)} (h : cut cs = p :: ps) :
    cs = p ∧ ps = [] ∨ ∃ r, cs = p ++ ' ' :: r ∧ p.getLast? ≠ some '\\' ∧ ps = cut r := by
  fun_induction cut cs generalizing p with
  | case1 => cases h; exact .inl ⟨rfl, rfl⟩
  | case2 cs ih =>
    cases hcs : cut cs with
    | nil => exact absurd hcs (cut_ne_nil cs)
    | cons q qs =>
      rw [hcs] at h
      cases h
      rcases ih hcs with ⟨rfl, rfl⟩ | ⟨r, rfl, hlast, rfl⟩
      · exact .inl ⟨rfl, rfl⟩
      · refine .inr ⟨r, rfl, ?_, rfl⟩
        cases hq : q.getLast? with
        | none => simp [List.getLast?_cons, hq]
        | some d =>
          rw [hq] at hlast
          simpa [List.getLast?_cons, hq] using hlast
  | case3 cs _ =>
    cases h
    exact .inr ⟨cs, rfl, by simp, rfl⟩
  | case4 c cs hne hc ih =>
    cases hcs : cut cs with
    | nil => exact absurd hcs (cut_ne_nil cs)
    | cons q qs =>
      rw [hcs] at h
      cases h
      rcases ih hcs with ⟨rfl, rfl⟩ | ⟨r, rfl, hlast, rfl⟩
      · exact .inl ⟨rfl, rfl⟩
      · refine .inr ⟨r, rfl, ?_, rfl⟩
        cases hq : q.getLast? with
        | none =>
          rw [List.getLast?_eq_none_iff.1 hq] at hne ⊢
          intro hback
          simp only [List.getLast?_singleton, Option.some.injEq] at hback
          exact hne r hback rfl
        | some d =>
          rw [hq] at hlast
          simpa [List.getLast?_cons, hq] using hlast

theorem cut_of_mem {cs p : List Char} (h : p ∈ cut cs) : cut p = [p] := by
  generalize hps : cut cs = ps at h
  induction ps generalizing cs with
  | nil => cases h
  | cons q qs ih =>
    rcases exists_of_cut_eq_cons hps with ⟨rfl, rfl⟩ | ⟨r, rfl, hlast, rfl⟩
    · rwa [List.mem_singleton.1 h]
    · rw [cut_append hlast] at hps
      rcases List.mem_cons.1 h with rfl | hr
      · have hcancel : cut p ++ cut r = [p] ++ cut r := hps
        exact List.append_cancel_right hcancel
      · exact ih rfl hr

/-- A word stands in a text between spaces that no backslash precedes, or ends of the text. -/
def Separated (word text : List Char) : Prop :=
  ∃ l r, text = l ++ word ++ r ∧ (l = [] ∨ ∃ l', l = l' ++ [' '] ∧ l'.getLast? ≠ some '\\') ∧
    (r = [] ∨ ∃ r', r = ' ' :: r' ∧ word.getLast? ≠ some '\\')

/-- The pieces of a text are the words that stand separated in it, if such a space cannot be
inside. -/
theorem mem_cut_iff {word text : List Char} (hword : cut word = [word]) :
    word ∈ cut text ↔ Separated word text := by
  constructor
  · intro h
    -- on the pieces, not on the text: a cut takes a whole piece off the front
    generalize hps : cut text = ps at h
    induction ps generalizing text with
    | nil => cases h
    | cons q qs ih =>
      rcases exists_of_cut_eq_cons hps with ⟨rfl, rfl⟩ | ⟨s, rfl, hlast, rfl⟩
      · rw [List.mem_singleton.1 h]
        exact ⟨[], [], by simp, .inl rfl, .inl rfl⟩
      · rcases List.mem_cons.1 h with rfl | hs
        · exact ⟨[], ' ' :: s, by simp, .inl rfl, .inr ⟨s, rfl, hlast⟩⟩
        · obtain ⟨l, r, rfl, hl, hr⟩ := ih rfl hs
          refine ⟨q ++ ' ' :: l, r, by simp, .inr ?_, hr⟩
          rcases hl with rfl | ⟨l', rfl, hl'⟩
          · exact ⟨q, by simp, hlast⟩
          · refine ⟨q ++ ' ' :: l', by simp, ?_⟩
            cases hlast' : l'.getLast? with
            | none => simp [List.getLast?_append, List.getLast?_cons, hlast']
            | some d =>
              rw [hlast'] at hl'
              simpa [List.getLast?_append, List.getLast?_cons, hlast'] using hl'
  · rintro ⟨l, r, rfl, hl, hr⟩
    have hright : word ∈ cut (word ++ r) := by
      rcases hr with rfl | ⟨r', rfl, hlast⟩
      · simp [hword]
      · simp [cut_append hlast, hword]
    rcases hl with rfl | ⟨l', rfl, hl'⟩
    · simpa using hright
    · have htext : l' ++ [' '] ++ word ++ r = l' ++ ' ' :: (word ++ r) := by simp
      rw [htext, cut_append hl']
      exact List.mem_append_right _ hright

/-! ## Pieces and arguments -/

theorem cut_escapeSpaces (cs : List Char) : cut (escapeSpaces cs) = [escapeSpaces cs] := by
  induction cs with
  | nil => rfl
  | cons c cs ih =>
    rw [escapeSpaces_cons]
    split
    · rw [List.cons_append, List.singleton_append, cut, ih]
      rfl
    · rename_i hc
      rw [List.singleton_append, cut_cons hc fun _ => head?_escapeSpaces cs, ih]
      rfl

/-- A piece is the written form of some argument. -/
theorem exists_eq_escapeSpaces {p : List Char} (h : cut p = [p]) : ∃ cs, p = escapeSpaces cs := by
  have hrest : ∀ {f : List Char → List Char} {q : List Char}, f.Injective →
      (cut q).modifyHead f = [f q] → cut q = [q] := by
    intro f q hf hq
    cases hcut : cut q with
    | nil => exact absurd hcut (cut_ne_nil q)
    | cons r rs =>
      rw [hcut] at hq
      simp only [List.modifyHead_cons, List.cons.injEq] at hq
      rw [hf hq.1, hq.2]
  fun_induction cut p with
  | case1 => exact ⟨[], rfl⟩
  | case2 q ih =>
    obtain ⟨cs, rfl⟩ := ih (hrest (fun _ _ he => by simpa using he) h)
    exact ⟨' ' :: cs, rfl⟩
  | case3 q _ => simp at h
  | case4 c q _ hc ih =>
    obtain ⟨cs, rfl⟩ := ih (hrest (fun _ _ he => by simpa using he) h)
    exact ⟨c :: cs, by rw [escapeSpaces_cons, if_neg hc]; rfl⟩

/-- A text with each space replaced by a placeholder. -/
def veil (cs : List Char) : List Char :=
  cs.map fun c => if c = ' ' then placeholder else c

theorem space_notMem_veil (cs : List Char) : ' ' ∉ veil cs := by
  intro h
  obtain ⟨c, _, hc⟩ := List.mem_map.1 h
  by_cases hspace : c = ' '
  · simp [hspace, placeholder] at hc
  · simp [hspace] at hc

theorem reveal_veil (cs : List Char) : reveal (veil cs) = reveal cs := by
  rw [reveal, veil, List.map_map]
  refine List.map_congr_left fun c _ => ?_
  by_cases hspace : c = ' '
  · simp [hspace]
  · simp [hspace]

theorem unescape_escapeSpaces (cs : List Char) : unescape (escapeSpaces cs) = veil cs := by
  induction cs with
  | nil => rfl
  | cons c cs ih =>
    rw [escapeSpaces_cons, veil, List.map_cons]
    split
    · rw [List.cons_append, List.singleton_append, unescape, ih, veil]
    · rw [List.singleton_append, unescape_cons fun _ => head?_escapeSpaces cs, ih, veil]

theorem reveal_unescape_escapeSpaces (cs : List Char) :
    reveal (unescape (escapeSpaces cs)) = reveal cs := by
  rw [unescape_escapeSpaces, reveal_veil]

theorem reveal_eq_self {cs : List Char} (h : placeholder ∉ cs) : reveal cs = cs := by
  refine (List.map_congr_left fun c hc => ?_).trans (List.map_id' cs)
  have hne : c ≠ placeholder := fun he => h (he ▸ hc)
  simp [hne]

theorem unescape_append {l : List Char} (h : l.getLast? ≠ some '\\') (r : List Char) :
    unescape (l ++ ' ' :: r) = unescape l ++ ' ' :: unescape r := by
  fun_induction unescape l with
  | case1 => exact unescape_cons (by simp)
  | case2 cs ih =>
    have hcs : cs.getLast? ≠ some '\\' := by
      intro hlast
      simp [List.getLast?_cons, hlast] at h
    rw [List.cons_append, List.cons_append, unescape, ih hcs, List.cons_append]
  | case3 c cs hne ih =>
    have hcs : cs.getLast? ≠ some '\\' := by
      intro hlast
      simp [List.getLast?_cons, hlast] at h
    have hnext : c = '\\' → (cs ++ ' ' :: r).head? ≠ some ' ' := by
      rintro rfl hhead
      cases cs with
      | nil => exact h rfl
      | cons d cs =>
        simp only [List.cons_append, List.head?_cons, Option.some.injEq] at hhead
        exact hne cs rfl (hhead ▸ rfl)
    rw [List.cons_append, unescape_cons hnext, ih hcs, List.cons_append]

/-- Spaces separate the same pieces before and after the backslashes go. -/
theorem splitOn_unescape (cs : List Char) :
    Text.splitOn ' ' (unescape cs) = (cut cs).map unescape := by
  have hpiece : ∀ p, cut p = [p] → Text.splitOn ' ' (unescape p) = [unescape p] := by
    intro p hp
    obtain ⟨a, rfl⟩ := exists_eq_escapeSpaces hp
    rw [unescape_escapeSpaces]
    exact Text.splitOn_eq_singleton (space_notMem_veil a)
  generalize hps : cut cs = ps
  induction ps generalizing cs with
  | nil => exact absurd hps (cut_ne_nil cs)
  | cons p ps ih =>
    have hp : cut p = [p] := cut_of_mem (hps ▸ List.mem_cons_self ..)
    rcases exists_of_cut_eq_cons hps with ⟨rfl, rfl⟩ | ⟨r, rfl, hlast, rfl⟩
    · rw [hpiece cs hp]
      rfl
    · rw [unescape_append hlast, Text.splitOn_append, hpiece p hp, ih r rfl]
      rfl

/-! ## Lines -/

theorem unescape_eq_nil_iff {p : List Char} : unescape p = [] ↔ p = [] := by
  fun_induction unescape p <;> simp

theorem fields_unescape (cs : List Char) :
    fields (unescape cs) = ((cut cs).filter (!·.isEmpty)).map fun p => reveal (unescape p) := by
  have hempty : ((fun p : List Char => !p.isEmpty) ∘ unescape) = fun p => !p.isEmpty := by
    funext p
    rw [Bool.eq_iff_iff]
    simp [unescape_eq_nil_iff]
  rw [fields, splitOn_unescape, List.filter_map, hempty, List.map_map]
  rfl

/-- The arguments of a line, by the words that stand separated in it once its quotes are gone. The
placeholders of a word are the spaces that were quoted. -/
theorem mem_arguments_iff {line : List Char} {as : List (List Char)}
    (h : tokenizeChars line = .ok as) {a : List Char} :
    a ∈ as ↔ a ≠ [] ∧
      ∃ b, reveal b = a ∧ Separated (escapeSpaces b) (trimSpaces (protect false line)) := by
  have has : as = fields (unescape (trimSpaces (protect false line))) := by
    unfold tokenizeChars at h
    split at h
    · cases h
    · cases h; rfl
  have hreveal : ∀ b : List Char, reveal b = [] ↔ b = [] := by
    intro b
    simp [reveal]
  rw [has, fields_unescape, List.mem_map]
  constructor
  · rintro ⟨p, hp, rfl⟩
    obtain ⟨hp, hne⟩ := List.mem_filter.1 hp
    have hpiece := cut_of_mem hp
    obtain ⟨b, rfl⟩ := exists_eq_escapeSpaces hpiece
    rw [reveal_unescape_escapeSpaces]
    refine ⟨?_, b, rfl, (mem_cut_iff hpiece).1 hp⟩
    rw [ne_eq, hreveal]
    rintro rfl
    simp at hne
  · rintro ⟨hne, b, rfl, hb⟩
    have hp := (mem_cut_iff (cut_escapeSpaces b)).2 hb
    refine ⟨escapeSpaces b, List.mem_filter.2 ⟨hp, ?_⟩, reveal_unescape_escapeSpaces b⟩
    rw [ne_eq, hreveal] at hne
    simpa [escapeSpaces_eq_nil_iff] using hne

/-! ## Lines without quotes -/

theorem protect_eq_self {cs : List Char} (h : '"' ∉ cs) : protect false cs = cs := by
  induction cs with
  | nil => rfl
  | cons c cs ih =>
    rw [List.mem_cons, not_or] at h
    simp [protect, Ne.symm h.1, ih h.2]

theorem endsQuoted_eq_false {cs : List Char} (h : '"' ∉ cs) : endsQuoted false cs = false := by
  induction cs with
  | nil => rfl
  | cons c cs ih =>
    rw [List.mem_cons, not_or] at h
    simp [endsQuoted, Ne.symm h.1, ih h.2]

theorem mem_of_mem_trimSpaces {c : Char} {cs : List Char} (h : c ∈ trimSpaces cs) : c ∈ cs := by
  unfold trimSpaces dropSpaces at h
  have hback := (List.dropWhile_suffix _).mem (List.mem_reverse.1 h)
  exact (List.dropWhile_suffix _).mem (List.mem_reverse.1 hback)

/-- The arguments of a line without quotes and placeholders are those whose written forms stand
separated in it. -/
theorem mem_arguments_iff_of_unquoted {line : List Char} (hquote : '"' ∉ line)
    (hplace : placeholder ∉ line) {as : List (List Char)} (h : tokenizeChars line = .ok as)
    {a : List Char} :
    a ∈ as ↔ a ≠ [] ∧ Separated (escapeSpaces a) (trimSpaces line) := by
  have hclean : ∀ b, Separated (escapeSpaces b) (trimSpaces line) → reveal b = b := by
    rintro b ⟨l, r, htext, _⟩
    refine reveal_eq_self fun hmem => hplace (mem_of_mem_trimSpaces ?_)
    rw [htext]
    simp [mem_escapeSpaces_of_mem hmem]
  rw [mem_arguments_iff h, protect_eq_self hquote]
  refine and_congr_right fun _ => ?_
  constructor
  · rintro ⟨b, rfl, hb⟩
    rwa [hclean b hb]
  · intro ha
    exact ⟨a, hclean a ha, ha⟩

/-! ## Joined arguments -/

/-- Arguments in written form, joined by single spaces. -/
def joined (as : List (List Char)) : List Char :=
  Text.joinWith ' ' (as.map escapeSpaces)

theorem joined_cons {as : List (List Char)} (a : List Char) (h : as ≠ []) :
    joined (a :: as) = escapeSpaces a ++ ' ' :: joined as := by
  rw [joined, List.map_cons, Text.joinWith_cons _ _ (by simpa using h), joined]

end ExplicitSelf.Arguments
