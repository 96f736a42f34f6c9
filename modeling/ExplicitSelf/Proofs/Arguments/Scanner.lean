import ExplicitSelf.Proofs.Arguments.Conservation
import ExplicitSelf.Proofs.Arguments.Spelling
import Mathlib.Data.List.DropRight

/-!
# Reading a line in one pass

The rules for a line can be followed from left to right, one character at a time (`scan`).
`tokenize` follows them in stages: it drops the quotes, then the spaces at the ends, and looks for
backslashes in what is left. So it takes a backslash for an escape by what comes after it once the
quotes are gone, and not where only spaces are left. For the scanner a space must follow at once.

The two readings of a line are the same exactly if they agree about each of its backslashes
(`Agrees`). Where they first differ, one has a space in an argument and the other a backslash.

Results:
* `scanFrom_eq_fields`: the scanner, as a way to protect the spaces of a line.
* `agrees_iff`: when both readings treat a backslash alike.
* `reading_eq_of_settled`, `settled_of_shown_eq`: what follows for a line, and back.
* `tokenize_eq_scan_iff`: the lines that both read alike.
-/
namespace ExplicitSelf.Arguments

/-! ## The scanner -/

/-- An argument in front of others, unless it is empty. -/
def close (argument : List Char) (as : List (List Char)) : List (List Char) :=
  if argument = [] then as else argument :: as

/-- The arguments of a text, read from left to right. `quoted` tells whether the text starts between
quotes, and `argument` is what has been read of the first argument. -/
def scanFrom : (quoted : Bool) → (argument : List Char) → List Char → List (List Char)
  | _, argument, [] => close argument []
  | quoted, argument, '"' :: cs => scanFrom (!quoted) argument cs
  | true, argument, c :: cs => scanFrom true (argument ++ [c]) cs
  | false, argument, '\\' :: ' ' :: cs => scanFrom false (argument ++ [' ']) cs
  | false, argument, ' ' :: cs => close argument (scanFrom false [] cs)
  | false, argument, c :: cs => scanFrom false (argument ++ [c]) cs

/-- The arguments of a line, by its characters. -/
def scanChars (line : List Char) : List (List Char) :=
  scanFrom false [] line

/-- The arguments of a line, read in one pass. -/
def scan (line : String) : List String :=
  (scanChars line.toList).map String.ofList

/-- What stands for a character once the quotes are gone. -/
def shield (quoted : Bool) (c : Char) : Char :=
  if quoted ∧ c = ' ' then placeholder else c

@[simp] theorem shield_false (c : Char) : shield false c = c := by
  simp [shield]

theorem shield_eq_space_iff {q : Bool} {c : Char} : shield q c = ' ' ↔ q = false ∧ c = ' ' := by
  cases q with
  | false => simp
  | true =>
    by_cases hc : c = ' '
    · simp [shield, hc, placeholder]
    · simp [shield, hc]

theorem shield_eq_backslash_iff {q : Bool} {c : Char} : shield q c = '\\' ↔ c = '\\' := by
  unfold shield
  split
  · rename_i h
    simp [h.2, placeholder]
  · rfl

theorem veil_singleton (c : Char) : veil [c] = [shield true c] := by
  simp [veil, shield]

theorem protect_quote (q : Bool) (cs : List Char) : protect q ('"' :: cs) = protect (!q) cs := by
  rw [protect, if_pos rfl]

theorem protect_cons {c : Char} (h : c ≠ '"') (q : Bool) (cs : List Char) :
    protect q (c :: cs) = shield q c :: protect q cs := by
  rw [protect, if_neg h, shield]
  split
  · rfl
  · rfl

theorem protect_space (cs : List Char) : protect false (' ' :: cs) = ' ' :: protect false cs := by
  rw [protect_cons (by decide), shield_false]

/-- Nothing is read where there are only quotes, and spaces outside them. -/
theorem scanFrom_eq_nil_iff (q : Bool) (argument cs : List Char) :
    scanFrom q argument cs = [] ↔ argument = [] ∧ ∀ c ∈ protect q cs, c = ' ' := by
  fun_induction scanFrom q argument cs with
  | case1 q argument => simp [close, protect]
  | case2 q argument cs ih => rw [ih, protect_quote]
  | case3 argument c cs hc ih => simp [ih, protect_cons hc, shield_eq_space_iff]
  | case4 argument cs ih => simp [ih, protect_cons]
  | case5 argument cs ih =>
    rw [protect_space, List.forall_mem_cons, and_iff_right rfl, close]
    split
    · rename_i hnil
      rw [ih, and_iff_right rfl, and_iff_right hnil]
    · rename_i hne
      simp [hne]
  | case6 argument c cs hquote _ hspace ih =>
    have hc : c ≠ ' ' := hspace
    simp [ih, protect_cons hquote, hc]

/-! ## The scanner as a stage -/

/-- The text as the scanner protects it: no quotes, and a placeholder for each space of an
argument. -/
def mark : (quoted : Bool) → List Char → List Char
  | _, [] => []
  | quoted, '"' :: cs => mark (!quoted) cs
  | false, '\\' :: ' ' :: cs => placeholder :: mark false cs
  | quoted, c :: cs => shield quoted c :: mark quoted cs

theorem mark_quote (q : Bool) (cs : List Char) : mark q ('"' :: cs) = mark (!q) cs := by
  cases q <;> rfl

/-- A backslash that no space follows at once is kept, as any other character is. -/
theorem mark_cons {q : Bool} {c : Char} {cs : List Char} (h : c ≠ '"')
    (hnext : q = false → c = '\\' → cs.head? ≠ some ' ') :
    mark q (c :: cs) = shield q c :: mark q cs := by
  rw [mark]
  · exact h
  · rintro cs' hq rfl rfl
    exact hnext hq rfl rfl

theorem head?_ne_space {cs : List Char} (h : ∀ r, cs = ' ' :: r → False) : cs.head? ≠ some ' ' := by
  intro hhead
  obtain ⟨r, hr⟩ := List.head?_eq_some_iff.1 hhead
  exact h r hr

theorem fields_append (l r : List Char) : fields (l ++ ' ' :: r) = fields l ++ fields r := by
  rw [fields, Text.splitOn_append, List.filter_append, List.map_append, fields, fields]

theorem fields_veil {argument : List Char} (h : placeholder ∉ argument) :
    fields (veil argument) = close argument [] := by
  rw [fields, Text.splitOn_eq_singleton (space_notMem_veil argument), close]
  split
  · rename_i hnil
    rw [hnil]
    rfl
  · rename_i hne
    have hveil : veil argument ≠ [] := by simpa [veil] using hne
    simp [hveil, reveal_veil, reveal_eq_self h]

theorem veil_concat (argument : List Char) (c : Char) (cs : List Char) :
    veil (argument ++ [c]) ++ cs = veil argument ++ shield true c :: cs := by
  have hveil : veil (argument ++ [c]) = veil argument ++ veil [c] := List.map_append
  rw [hveil, veil_singleton, List.append_assoc, List.singleton_append]

/-- The scanner cuts its protected text at the spaces. -/
theorem scanFrom_eq_fields {q : Bool} {argument cs : List Char} (hargument : placeholder ∉ argument)
    (hcs : placeholder ∉ cs) : scanFrom q argument cs = fields (veil argument ++ mark q cs) := by
  fun_induction scanFrom q argument cs with
  | case1 q argument => rw [mark, List.append_nil, fields_veil hargument]
  | case2 q argument cs ih =>
    rw [mark_quote]
    exact ih hargument fun h => hcs (.tail _ h)
  | case3 argument c cs hc ih =>
    rw [List.mem_cons, not_or] at hcs
    rw [ih (by simp [hargument, hcs.1]) hcs.2, mark_cons hc (by simp), veil_concat]
  | case4 argument cs ih =>
    have hspace : placeholder ≠ ' ' := by decide
    have hrest : placeholder ∉ cs := fun h => hcs (.tail _ (.tail _ h))
    rw [ih (by simp [hargument, hspace]) hrest, veil_concat]
    rfl
  | case5 argument cs ih =>
    have hrest : placeholder ∉ cs := fun h => hcs (.tail _ h)
    rw [mark_cons (by decide) (by simp), shield_false, fields_append, fields_veil hargument,
      ih List.not_mem_nil hrest, close, close]
    split
    · rfl
    · rfl
  | case6 argument c cs hquote hescape hspace ih =>
    have hnext : c = '\\' → cs.head? ≠ some ' ' := fun hc => head?_ne_space fun r => hescape r hc
    have hshield : shield true c = shield false c := by
      simp only [shield, if_neg fun h : _ ∧ _ => hspace h.2]
    rw [List.mem_cons, not_or] at hcs
    rw [ih (by simp [hargument, hcs.1]) hcs.2, mark_cons hquote fun _ => hnext, veil_concat,
      hshield]

/-! ## Spaces at the end -/

/-- Drops the spaces at the end. -/
def dropEndSpaces (cs : List Char) : List Char :=
  cs.rdropWhile (· = ' ')

theorem dropEndSpaces_eq_nil_iff {cs : List Char} : dropEndSpaces cs = [] ↔ ∀ c ∈ cs, c = ' ' := by
  simp [dropEndSpaces, List.rdropWhile_eq_nil_iff]

theorem dropEndSpaces_cons (c : Char) (cs : List Char) :
    dropEndSpaces (c :: cs) =
      if c = ' ' ∧ dropEndSpaces cs = [] then [] else c :: dropEndSpaces cs := by
  simp only [dropEndSpaces, List.rdropWhile, List.reverse_cons, List.dropWhile_append,
    List.reverse_eq_nil_iff]
  by_cases hcs : cs.reverse.dropWhile (· = ' ') = []
  · by_cases hc : c = ' '
    · simp [hcs, hc]
    · simp [hcs, hc]
  · simp [hcs]

theorem dropEndSpaces_of_ne {c : Char} (h : c ≠ ' ') (cs : List Char) :
    dropEndSpaces (c :: cs) = c :: dropEndSpaces cs := by
  rw [dropEndSpaces_cons, if_neg fun hc => h hc.1]

theorem fields_dropEndSpaces (cs : List Char) : fields (dropEndSpaces cs) = fields cs := by
  induction cs using List.reverseRecOn with
  | nil => rfl
  | append_singleton cs c ih =>
    rw [dropEndSpaces, List.rdropWhile_concat]
    split
    · rename_i hc
      rw [of_decide_eq_true hc, fields_append, ← dropEndSpaces, ih]
      simp [fields, Text.splitOn, Text.splitWhere]
    · rfl

/-! ## The stages -/

/-- What the stages make of a text before it is cut, but for the spaces in front. -/
def reading (quoted : Bool) (cs : List Char) : List Char :=
  unescape (dropEndSpaces (protect quoted cs))

/-- Whether the stages take a backslash in front of the text for an escape. -/
def Escapes (quoted : Bool) (cs : List Char) : Prop :=
  (dropEndSpaces (protect quoted cs)).head? = some ' '

theorem unescape_space (cs : List Char) : unescape (' ' :: cs) = ' ' :: unescape cs :=
  unescape_cons (by simp)

theorem fields_unescape_dropSpaces (cs : List Char) :
    fields (unescape (dropEndSpaces (dropSpaces cs))) = fields (unescape (dropEndSpaces cs)) := by
  induction cs with
  | nil => rfl
  | cons c cs ih =>
    rw [dropSpaces, List.dropWhile_cons]
    split
    · rename_i hc
      rw [← dropSpaces, ih, of_decide_eq_true hc, dropEndSpaces_cons]
      split
      · rename_i hnil
        rw [hnil.2]
      · rw [unescape_space]
        exact (fields_append [] _).symm
    · rfl

theorem stages_eq (line : List Char) : stages line = fields (reading false line) :=
  fields_unescape_dropSpaces (protect false line)

theorem reading_quote (q : Bool) (cs : List Char) : reading q ('"' :: cs) = reading (!q) cs := by
  rw [reading, protect_quote, reading]

theorem reading_space (cs : List Char) :
    reading false (' ' :: cs) = if reading false cs = [] then [] else ' ' :: reading false cs := by
  rw [reading, protect_space, dropEndSpaces_cons, reading]
  by_cases hnil : dropEndSpaces (protect false cs) = []
  · rw [if_pos ⟨rfl, hnil⟩, if_pos (unescape_eq_nil_iff.2 hnil)]
    rfl
  · rw [if_neg fun h => hnil h.2, if_neg fun h => hnil (unescape_eq_nil_iff.1 h), unescape_space]

theorem reading_cons {q : Bool} {c : Char} {cs : List Char} (hquote : c ≠ '"')
    (hspace : shield q c ≠ ' ') (h : c = '\\' → ¬Escapes q cs) :
    reading q (c :: cs) = shield q c :: reading q cs := by
  have hnext : shield q c = '\\' → (dropEndSpaces (protect q cs)).head? ≠ some ' ' := by
    intro hc
    exact h (shield_eq_backslash_iff.1 hc)
  rw [reading, protect_cons hquote, dropEndSpaces_of_ne hspace, unescape_cons hnext, reading]

theorem reading_backslash (q : Bool) (cs : List Char) :
    reading q ('\\' :: cs) = unescape ('\\' :: dropEndSpaces (protect q cs)) := by
  rw [reading, protect_cons (by decide), shield_eq_backslash_iff.2 rfl,
    dropEndSpaces_of_ne (by decide)]

theorem exists_reading_escape {q : Bool} {cs : List Char} (h : Escapes q cs) :
    ∃ r, reading q ('\\' :: cs) = placeholder :: r := by
  obtain ⟨r, hr⟩ := List.head?_eq_some_iff.1 h
  exact ⟨unescape r, by rw [reading_backslash, hr, unescape]⟩

theorem reading_escape {cs : List Char} (h : Escapes false (' ' :: cs)) :
    reading false ('\\' :: ' ' :: cs) = placeholder :: reading false cs := by
  rw [Escapes, protect_space, dropEndSpaces_cons] at h
  split at h
  · cases h
  · rename_i hne
    rw [reading_backslash, protect_space, dropEndSpaces_cons, if_neg hne, unescape, reading]

/-! ## Backslashes -/

/-- Both readings treat a backslash in front of the text alike. If only quotes, or nothing, separate
it from a space outside quotes, then nothing does and some argument goes on behind the space, or
quotes do and nothing is left to be read. -/
def Agrees (quoted : Bool) (cs : List Char) : Prop :=
  ∀ quotes r, cs = quotes ++ ' ' :: r → (∀ c ∈ quotes, c = '"') → endsQuoted quoted quotes = false →
    (quotes = [] ↔ scanChars r ≠ [])

theorem protect_eq_space_iff {q : Bool} {cs rest : List Char} :
    protect q cs = ' ' :: rest ↔ ∃ quotes r, cs = quotes ++ ' ' :: r ∧ (∀ c ∈ quotes, c = '"') ∧
      endsQuoted q quotes = false ∧ protect false r = rest := by
  induction cs generalizing q with
  | nil => simp [protect]
  | cons c cs ih =>
    by_cases hc : c = '"'
    · rw [hc, protect_quote, ih]
      constructor
      · rintro ⟨quotes, r, rfl, hquotes, hends, hrest⟩
        exact ⟨'"' :: quotes, r, rfl, List.forall_mem_cons.2 ⟨rfl, hquotes⟩, hends, hrest⟩
      · rintro ⟨quotes, r, hline, hquotes, hends, hrest⟩
        cases quotes with
        | nil => simp at hline
        | cons d quotes =>
          rw [List.cons_append, List.cons.injEq] at hline
          rw [List.forall_mem_cons] at hquotes
          rw [hquotes.1] at hends
          exact ⟨quotes, r, hline.2, hquotes.2, hends, hrest⟩
    · rw [protect_cons hc, List.cons.injEq, shield_eq_space_iff]
      constructor
      · rintro ⟨⟨rfl, rfl⟩, hrest⟩
        exact ⟨[], cs, rfl, by simp, rfl, hrest⟩
      · rintro ⟨quotes, r, hline, hquotes, hends, hrest⟩
        cases quotes with
        | nil =>
          cases hline
          have hq : q = false := hends
          exact ⟨⟨hq, rfl⟩, by rw [hq, hrest]⟩
        | cons d quotes =>
          rw [List.cons_append, List.cons.injEq] at hline
          exact absurd (hline.1.trans (hquotes d (.head _))) hc

theorem scanChars_eq_nil_iff {cs : List Char} :
    scanChars cs = [] ↔ dropEndSpaces (protect false cs) = [] := by
  rw [scanChars, scanFrom_eq_nil_iff, and_iff_right rfl, dropEndSpaces_eq_nil_iff]

/-- A backslash is an escape for the stages if only quotes stand before a space outside quotes, and
not all of the rest is spaces. -/
theorem escapes_iff {q : Bool} {cs : List Char} :
    Escapes q cs ↔ ∃ quotes r, cs = quotes ++ ' ' :: r ∧ (∀ c ∈ quotes, c = '"') ∧
      endsQuoted q quotes = false ∧ scanChars r ≠ [] := by
  constructor
  · intro h
    cases hprotect : protect q cs with
    | nil =>
      rw [Escapes, hprotect] at h
      cases h
    | cons c rest =>
      rw [Escapes, hprotect, dropEndSpaces_cons] at h
      split at h
      · cases h
      · rename_i hne
        cases h
        obtain ⟨quotes, r, hcs, hquotes, hends, rfl⟩ := protect_eq_space_iff.1 hprotect
        refine ⟨quotes, r, hcs, hquotes, hends, ?_⟩
        rw [ne_eq, scanChars_eq_nil_iff]
        exact fun hnil => hne ⟨rfl, hnil⟩
  · rintro ⟨quotes, r, hcs, hquotes, hends, hr⟩
    rw [ne_eq, scanChars_eq_nil_iff] at hr
    rw [Escapes, protect_eq_space_iff.2 ⟨quotes, r, hcs, hquotes, hends, rfl⟩, dropEndSpaces_cons,
      if_neg fun h => hr h.2]
    rfl

/-- For the scanner a space must come at once, for the stages after quotes and not at the end of the
line. -/
theorem agrees_iff {q : Bool} {cs : List Char} :
    Agrees q cs ↔ (Escapes q cs ↔ q = false ∧ cs.head? = some ' ') := by
  -- quotes in front of a space are none if the text starts with a space
  have hnone : ∀ {quotes r : List Char}, (∀ c ∈ quotes, c = '"') →
      (quotes ++ ' ' :: r).head? = some ' ' → quotes = [] := by
    intro quotes r hquotes hhead
    cases quotes with
    | nil => rfl
    | cons d quotes =>
      rw [hquotes d (.head _)] at hhead
      simp at hhead
  constructor
  · intro h
    constructor
    · intro hesc
      obtain ⟨quotes, r, rfl, hquotes, hends, hr⟩ := escapes_iff.1 hesc
      have hnil := (h quotes r rfl hquotes hends).2 hr
      subst hnil
      exact ⟨hends, rfl⟩
    · rintro ⟨rfl, hhead⟩
      obtain ⟨r, rfl⟩ := List.head?_eq_some_iff.1 hhead
      exact escapes_iff.2 ⟨[], r, rfl, by simp, rfl, (h [] r rfl (by simp) rfl).1 rfl⟩
  · rintro h quotes r rfl hquotes hends
    constructor
    · rintro rfl
      obtain ⟨quotes', r', hline, hquotes', _, hr'⟩ := escapes_iff.1 (h.2 ⟨hends, rfl⟩)
      have hnil := hnone hquotes' (by rw [← hline]; rfl)
      subst hnil
      cases hline
      exact hr'
    · intro hr
      exact hnone hquotes (h.1 (escapes_iff.2 ⟨quotes, r, rfl, hquotes, hends, hr⟩)).2

/-- Both readings agree about each backslash of a text. -/
def Settled (quoted : Bool) (cs : List Char) : Prop :=
  ∀ l r, cs = l ++ '\\' :: r → Agrees (endsQuoted quoted l) r

theorem settled_nil (q : Bool) : Settled q [] := by
  intro l r h
  simp at h

theorem settled_cons {q : Bool} {c : Char} {cs : List Char} :
    Settled q (c :: cs) ↔ (c = '\\' → Agrees q cs) ∧ Settled (endsQuoted q [c]) cs := by
  constructor
  · intro h
    refine ⟨fun hc => h [] cs (by rw [hc]; rfl), fun l r hl => ?_⟩
    rw [← endsQuoted_append]
    exact h (c :: l) r (by rw [hl]; rfl)
  · rintro ⟨hfirst, hrest⟩ l r hl
    cases l with
    | nil =>
      cases hl
      exact hfirst rfl
    | cons d l =>
      cases hl
      have hlater := hrest l r rfl
      rwa [← endsQuoted_append] at hlater

theorem settled_quote {q : Bool} {cs : List Char} : Settled q ('"' :: cs) ↔ Settled (!q) cs := by
  rw [settled_cons]
  exact and_iff_right (by simp)

theorem settled_cons_of_ne {q : Bool} {c : Char} {cs : List Char} (h : c ≠ '"') :
    Settled q (c :: cs) ↔ (c = '\\' → Agrees q cs) ∧ Settled q cs := by
  rw [settled_cons, endsQuoted, if_neg h, endsQuoted]

/-! ## Both readings -/

/-- The characters of the arguments of a protected text. -/
def shown (cs : List Char) : List Char :=
  (fields cs).flatten

theorem shown_space (cs : List Char) : shown (' ' :: cs) = shown cs := by
  rw [shown, flatten_fields, shown, flatten_fields]
  rfl

theorem shown_cons {c : Char} (h : c ≠ ' ') (cs : List Char) :
    shown (c :: cs) = (if c = placeholder then ' ' else c) :: shown cs := by
  rw [shown, flatten_fields, shown, flatten_fields, List.filter_cons, if_pos (by simpa using h)]
  rfl

theorem shown_placeholder_ne (l r : List Char) : shown (placeholder :: l) ≠ shown ('\\' :: r) := by
  rw [shown_cons (by decide), shown_cons (by decide)]
  simp [placeholder]

/-- Where the readings agree about the backslashes, they leave the same text. -/
theorem reading_eq_of_settled {q : Bool} {cs : List Char} (h : Settled q cs) :
    reading q cs = dropEndSpaces (mark q cs) := by
  fun_induction mark q cs with
  | case1 q => rfl
  | case2 q cs ih =>
    rw [reading_quote]
    exact ih (settled_quote.1 h)
  | case3 cs ih =>
    obtain ⟨hagrees, hrest⟩ := (settled_cons_of_ne (by decide)).1 h
    have hesc : Escapes false (' ' :: cs) := (agrees_iff.1 (hagrees rfl)).2 ⟨rfl, rfl⟩
    rw [reading_escape hesc, dropEndSpaces_of_ne (by decide),
      ih ((settled_cons_of_ne (by decide)).1 hrest).2]
  | case4 q c cs hquote hescape ih =>
    obtain ⟨hagrees, hrest⟩ := (settled_cons_of_ne hquote).1 h
    by_cases hspace : shield q c = ' '
    · obtain ⟨rfl, rfl⟩ := shield_eq_space_iff.1 hspace
      rw [reading_space, ih hrest, hspace, dropEndSpaces_cons]
      simp
    · have hkeep : c = '\\' → ¬Escapes q cs := by
        rintro rfl hesc
        obtain ⟨hq, hhead⟩ := (agrees_iff.1 (hagrees rfl)).1 hesc
        exact head?_ne_space (fun r => hescape r hq rfl) hhead
      rw [reading_cons hquote hspace hkeep, dropEndSpaces_of_ne hspace, ih hrest]

/-- If the readings show the same characters, they agree about the backslashes: at the first on
which they do not, one shows a space and the other a backslash. -/
theorem settled_of_shown_eq {q : Bool} {cs : List Char}
    (h : shown (reading q cs) = shown (mark q cs)) :
    Settled q cs := by
  fun_induction mark q cs with
  | case1 q => exact settled_nil q
  | case2 q cs ih =>
    rw [reading_quote] at h
    exact settled_quote.2 (ih h)
  | case3 cs ih =>
    by_cases hesc : Escapes false (' ' :: cs)
    · rw [reading_escape hesc, shown_cons (by decide), shown_cons (by decide)] at h
      have hagrees : Agrees false (' ' :: cs) := agrees_iff.2 (iff_of_true hesc ⟨rfl, rfl⟩)
      have hrest : Settled false (' ' :: cs) :=
        (settled_cons_of_ne (by decide)).2 ⟨by simp, ih (List.cons.inj h).2⟩
      exact (settled_cons_of_ne (by decide)).2 ⟨fun _ => hagrees, hrest⟩
    · rw [reading_cons (by decide) (by simp) fun _ => hesc] at h
      exact absurd h.symm (shown_placeholder_ne _ _)
  | case4 q c cs hquote hescape ih =>
    by_cases hspace : shield q c = ' '
    · obtain ⟨rfl, rfl⟩ := shield_eq_space_iff.1 hspace
      have hshown : shown (reading false (' ' :: cs)) = shown (reading false cs) := by
        rw [reading_space]
        split
        · rename_i hnil
          rw [hnil]
        · exact shown_space _
      rw [hshown, hspace, shown_space] at h
      exact (settled_cons_of_ne hquote).2 ⟨by simp, ih h⟩
    · by_cases hesc : c = '\\' ∧ Escapes q cs
      · obtain ⟨rfl, hesc⟩ := hesc
        obtain ⟨r, hr⟩ := exists_reading_escape hesc
        rw [hr, shield_eq_backslash_iff.2 rfl] at h
        exact absurd h (shown_placeholder_ne _ _)
      · have hkeep : c = '\\' → ¬Escapes q cs := fun hc he => hesc ⟨hc, he⟩
        rw [reading_cons hquote hspace hkeep, shown_cons hspace, shown_cons hspace] at h
        refine (settled_cons_of_ne hquote).2 ⟨fun hc => ?_, ih (List.cons.inj h).2⟩
        refine agrees_iff.2 (iff_of_false (hkeep hc) ?_)
        intro ⟨hq, hhead⟩
        exact head?_ne_space (fun r => hescape r hq hc) hhead

/-! ## Lines -/

theorem tokenizeChars_eq_scan_iff {line : List Char} (hvisible : placeholder ∉ line)
    (hquotes : Even (line.count '"')) :
    tokenizeChars line = .ok (scanChars line) ↔ Settled false line := by
  have hscan : scanChars line = fields (mark false line) :=
    scanFrom_eq_fields List.not_mem_nil hvisible
  rw [tokenizeChars_of_even hquotes, stages_eq, hscan, Except.ok.injEq]
  constructor
  · intro h
    exact settled_of_shown_eq (congrArg List.flatten h)
  · intro h
    rw [reading_eq_of_settled h, fields_dropEndSpaces]

/-- A line without placeholders whose quotes pair up is read as the scanner reads it exactly if this
holds for each backslash that only quotes, or nothing, separate from a space outside quotes: nothing
separates them and some argument goes on behind the space, or quotes do and nothing is left to be
read. -/
theorem tokenize_eq_scan_iff (line : String) (hvisible : placeholder ∉ line.toList)
    (hquotes : Even (line.toList.count '"')) :
    tokenize line = .ok (scan line) ↔
      ∀ l quotes r, line.toList = l ++ '\\' :: (quotes ++ ' ' :: r) → (∀ c ∈ quotes, c = '"') →
        Even ((l ++ quotes).count '"') → (quotes = [] ↔ scanChars r ≠ []) := by
  have hchars : tokenize line = .ok (scan line) ↔
      tokenizeChars line.toList = .ok (scanChars line.toList) := by
    rw [tokenize_of_even hquotes, tokenizeChars_of_even hquotes, scan, Except.ok.injEq,
      Except.ok.injEq]
    exact (List.map_injective_iff.2 fun _ _ h => String.ofList_injective h).eq_iff
  rw [hchars, tokenizeChars_eq_scan_iff hvisible hquotes]
  constructor
  · intro h l quotes r hline hall heven
    refine h l _ hline quotes r rfl hall ?_
    rwa [← endsQuoted_append, endsQuoted_eq_false_iff]
  · intro h l rest hline quotes r hrest hall hends
    rw [← endsQuoted_append, endsQuoted_eq_false_iff] at hends
    rw [hrest] at hline
    exact h l quotes r hline hall hends

/-- An escaped space, a backslash and a space between quotes, and a backslash that quotes separate
from the space at the end. -/
theorem tokenize_eq_scan_mixed :
    tokenize "a\\ b \"c\\ d\"\\\"\" " = .ok ["a b", "c\\ d\\"] ∧
      ∀ l quotes r, "a\\ b \"c\\ d\"\\\"\" ".toList = l ++ '\\' :: (quotes ++ ' ' :: r) →
        (∀ c ∈ quotes, c = '"') → Even ((l ++ quotes).count '"') →
          (quotes = [] ↔ scanChars r ≠ []) := by
  have hread : tokenize "a\\ b \"c\\ d\"\\\"\" " = .ok ["a b", "c\\ d\\"] := by decide
  have hscan : scan "a\\ b \"c\\ d\"\\\"\" " = ["a b", "c\\ d\\"] := by decide
  exact ⟨hread, (tokenize_eq_scan_iff _ (by decide) (by decide)).1 (by rw [hread, hscan])⟩

/-- The backslash stands between quotes, the space after them. The stages take them for an escaped
space. -/
theorem tokenize_ne_scan :
    placeholder ∉ "\"a\\\" b".toList ∧ Even ("\"a\\\" b".toList.count '"') ∧
      tokenize "\"a\\\" b" = .ok ["a b"] ∧ scan "\"a\\\" b" = ["a\\", "b"] := by
  decide

end ExplicitSelf.Arguments
