import ExplicitSelf.Proofs.Arguments.Escape

/-!
# Written arguments are read back

A line holds arguments in three spellings: as they are, between quotes, or with a backslash before
each space. Any number of spaces may stand around them. A `Word` is an argument with its spelling,
and `line` writes words down. Reading gives the arguments again, whatever their spellings and the
spaces around them.

Once the quotes are gone, each word is the escaped form of some text (`Word.inner`): of the
argument, or of the argument with its spaces replaced by placeholders. So a line of words becomes a
line of escaped texts, and `cut` takes it apart.

Results:
* `protect_joinWith`: the quotes of a word do not reach into the next one.
* `pieces_joinWith`: spaces separate, however many.
* `trimSpaces_spaces`: what trimming leaves of a text between spaces.
* `tokenizeChars_line`, `tokenize_line`: a line of words is read back.
-/
namespace ExplicitSelf.Arguments

open BuildLog (escapeSpaces)
open Text (joinWith joinWith_cons)

/-- How an argument is written on a line. -/
inductive Style where
  | bare
  | quoted
  | escaped
  deriving DecidableEq, Repr

/-- An argument that a line can hold, and how it is written there. -/
structure Word where
  argument : String
  style : Style
  nonempty : argument.toList ≠ []
  unquoted : '"' ∉ argument.toList
  visible : placeholder ∉ argument.toList
  closed : argument.toList.getLast? ≠ some '\\'
  unspaced : style = .bare → ' ' ∉ argument.toList

/-- The word as it is written. -/
def Word.text (w : Word) : List Char :=
  match w.style with
  | .bare => w.argument.toList
  | .quoted => '"' :: (w.argument.toList ++ ['"'])
  | .escaped => escapeSpaces w.argument.toList

/-- That many spaces. -/
def spaces (n : Nat) : List Char :=
  List.replicate n ' '

/-- Words on a line. In front of each stand as many spaces as it says, besides the one that
separates it from the word before; at the end stand `trailing` spaces. -/
def line (ws : List (Nat × Word)) (trailing : Nat) : List Char :=
  joinWith ' ' (ws.map fun (n, w) => spaces n ++ w.text) ++ spaces trailing

/-! ## Quotes -/

theorem protect_append (q : Bool) (l r : List Char) :
    protect q (l ++ r) = protect q l ++ protect (endsQuoted q l) r := by
  induction l generalizing q with
  | nil => rfl
  | cons c l ih =>
    rw [List.cons_append, protect, protect, endsQuoted]
    split
    · exact ih (!q)
    · split <;> rw [ih, List.cons_append]

theorem endsQuoted_append (q : Bool) (l r : List Char) :
    endsQuoted q (l ++ r) = endsQuoted (endsQuoted q l) r := by
  induction l generalizing q with
  | nil => rfl
  | cons c l ih =>
    rw [List.cons_append, endsQuoted, endsQuoted]
    split <;> exact ih _

/-- The quotes of a word do not reach into the next one. -/
theorem protect_joinWith {ps : List (List Char)} (h : ∀ p ∈ ps, endsQuoted false p = false) :
    endsQuoted false (joinWith ' ' ps) = false ∧
      protect false (joinWith ' ' ps) = joinWith ' ' (ps.map (protect false)) := by
  induction ps with
  | nil => exact ⟨rfl, rfl⟩
  | cons p ps ih =>
    have hp := h p (.head _)
    by_cases hps : ps = []
    · subst hps
      exact ⟨hp, rfl⟩
    · obtain ⟨hends, hrest⟩ := ih fun q hq => h q (.tail _ hq)
      rw [joinWith_cons ' ' p hps, List.map_cons, joinWith_cons ' ' _ (by simpa using hps),
        endsQuoted_append, protect_append, hp]
      exact ⟨hends, by rw [← hrest]; rfl⟩

theorem protect_quoted {cs : List Char} (h : '"' ∉ cs) :
    protect true cs = veil cs ∧ endsQuoted true cs = true := by
  induction cs with
  | nil => exact ⟨rfl, rfl⟩
  | cons c cs ih =>
    rw [List.mem_cons, not_or] at h
    obtain ⟨hprotect, hends⟩ := ih h.2
    rw [protect, endsQuoted, if_neg (Ne.symm h.1), if_neg (Ne.symm h.1), hprotect, hends]
    by_cases hc : c = ' '
    · simp [hc, veil]
    · simp [hc, veil]

theorem escapeSpaces_eq_self {cs : List Char} (h : ' ' ∉ cs) : escapeSpaces cs = cs := by
  induction cs with
  | nil => rfl
  | cons c cs ih =>
    rw [List.mem_cons, not_or] at h
    rw [escapeSpaces_cons, if_neg (Ne.symm h.1), ih h.2]
    rfl

/-! ## Words -/

namespace Word

/-- The argument with its quoted spaces replaced. -/
def kept (w : Word) : List Char :=
  match w.style with
  | .quoted => veil w.argument.toList
  | _ => w.argument.toList

/-- What is left of the word once its quotes are gone. -/
def inner (w : Word) : List Char :=
  escapeSpaces w.kept

variable (w : Word)

theorem protect_text : protect false w.text = w.inner ∧ endsQuoted false w.text = false := by
  unfold text inner kept
  cases hstyle : w.style with
  | bare =>
    simp only [escapeSpaces_eq_self (w.unspaced hstyle)]
    exact ⟨protect_eq_self w.unquoted, endsQuoted_eq_false w.unquoted⟩
  | quoted =>
    obtain ⟨hprotect, hends⟩ := protect_quoted w.unquoted
    simp only [escapeSpaces_eq_self (space_notMem_veil _)]
    constructor
    · rw [protect, if_pos rfl, Bool.not_false, protect_append, hprotect, hends]
      simp [protect]
    · rw [endsQuoted, if_pos rfl, Bool.not_false, endsQuoted_append, hends]
      rfl
  | escaped =>
    have hquote : '"' ∉ escapeSpaces w.argument.toList := by
      intro hmem
      rcases mem_escapeSpaces hmem with hmem | hback
      · exact w.unquoted hmem
      · simp at hback
    exact ⟨protect_eq_self hquote, endsQuoted_eq_false hquote⟩

theorem reveal_inner : reveal (unescape w.inner) = w.argument.toList := by
  have hreveal : reveal w.kept = reveal w.argument.toList := by
    unfold kept
    split
    · exact reveal_veil _
    · rfl
  rw [inner, reveal_unescape_escapeSpaces, hreveal, reveal_eq_self w.visible]

theorem inner_ne_nil : w.inner ≠ [] := by
  have hkept : w.kept ≠ [] := by
    unfold kept
    split
    · simpa [veil] using w.nonempty
    · exact w.nonempty
  simpa [inner, escapeSpaces_eq_nil_iff] using hkept

theorem head?_inner : w.inner.head? ≠ some ' ' :=
  head?_escapeSpaces w.kept

theorem getLast?_inner : w.inner.getLast? ≠ some '\\' := by
  rw [inner, getLast?_escapeSpaces, kept]
  split
  · intro hlast
    rw [veil, List.getLast?_map, Option.map_eq_some_iff] at hlast
    obtain ⟨c, hc, hback⟩ := hlast
    split at hback
    · simp [placeholder] at hback
    · exact w.closed (hback ▸ hc)
  · exact w.closed

/-- A word ends in a space only if its argument does and is escaped. -/
theorem getLast?_inner_space (h : w.style = .escaped → w.argument.toList.getLast? ≠ some ' ') :
    w.inner.getLast? ≠ some ' ' := by
  rw [inner, getLast?_escapeSpaces, kept]
  cases hstyle : w.style with
  | bare => exact fun hlast => w.unspaced hstyle (List.mem_of_getLast? hlast)
  | quoted => exact fun hlast => space_notMem_veil _ (List.mem_of_getLast? hlast)
  | escaped => exact h hstyle

end Word

/-! ## Spaces -/

/-- The pieces of a text that are not empty. -/
def pieces (cs : List Char) : List (List Char) :=
  (cut cs).filter (!·.isEmpty)

theorem pieces_append {l : List Char} (h : l.getLast? ≠ some '\\') (r : List Char) :
    pieces (l ++ ' ' :: r) = pieces l ++ pieces r := by
  rw [pieces, cut_append h, List.filter_append, pieces, pieces]

theorem pieces_spaces (n : Nat) (cs : List Char) : pieces (spaces n ++ cs) = pieces cs := by
  induction n with
  | zero => rfl
  | succ n ih =>
    rw [← ih, pieces, spaces, List.replicate_succ, List.cons_append, cut_space]
    rfl

theorem pieces_inner (w : Word) : pieces w.inner = [w.inner] := by
  have hne := w.inner_ne_nil
  rw [pieces, Word.inner, cut_escapeSpaces, ← Word.inner]
  simpa using hne

/-- Spaces separate, however many. -/
theorem pieces_joinWith (ws : List (Nat × Word)) :
    pieces (joinWith ' ' (ws.map fun (n, w) => spaces n ++ w.inner)) = ws.map (·.2.inner) := by
  induction ws with
  | nil => rfl
  | cons nw ws ih =>
    obtain ⟨n, w⟩ := nw
    have hword : pieces (spaces n ++ w.inner) = [w.inner] := by rw [pieces_spaces, pieces_inner]
    rw [List.map_cons, List.map_cons]
    by_cases hws : ws = []
    · subst hws
      exact hword
    · have hback : (spaces n ++ w.inner).getLast? ≠ some '\\' := by
        rw [List.getLast?_append_of_ne_nil _ w.inner_ne_nil]
        exact w.getLast?_inner
      rw [joinWith_cons ' ' _ (by simpa using hws), pieces_append hback, hword, ih]
      rfl

theorem dropSpaces_spaces (n : Nat) (cs : List Char) :
    dropSpaces (spaces n ++ cs) = dropSpaces cs := by
  induction n with
  | zero => rfl
  | succ n ih =>
    rw [← ih, spaces, List.replicate_succ, List.cons_append]
    simp [dropSpaces, spaces]

/-- Trimming leaves what stands between the spaces. -/
theorem trimSpaces_spaces (m n : Nat) (cs : List Char) (hfront : cs.head? ≠ some ' ')
    (hback : cs.getLast? ≠ some ' ') : trimSpaces (spaces m ++ cs ++ spaces n) = cs := by
  have hkeep : ∀ l : List Char, l.head? ≠ some ' ' → dropSpaces l = l := by
    intro l hl
    cases l with
    | nil => rfl
    | cons c l =>
      have hc : c ≠ ' ' := by simpa using hl
      simp [dropSpaces, hc]
  have hreverse : (spaces n).reverse = spaces n := List.reverse_replicate ..
  rw [trimSpaces, List.append_assoc, dropSpaces_spaces]
  by_cases hcs : cs = []
  · have hnone := dropSpaces_spaces n []
    rw [List.append_nil] at hnone
    rw [hcs, List.nil_append, hnone]
    rfl
  · rw [hkeep (cs ++ spaces n) (by rwa [List.head?_append_of_ne_nil _ hcs]), List.reverse_append,
      hreverse, dropSpaces_spaces, hkeep _ (by rwa [List.head?_reverse]), List.reverse_reverse]

/-! ## Lines -/

/-- The quotes of a line of words are gone. -/
theorem protect_line (ws : List (Nat × Word)) (trailing : Nat) :
    endsQuoted false (line ws trailing) = false ∧
      protect false (line ws trailing) =
        joinWith ' ' (ws.map fun (n, w) => spaces n ++ w.inner) ++ spaces trailing := by
  have hspaces : ∀ n, '"' ∉ spaces n := by
    intro n h
    simpa using List.eq_of_mem_replicate h
  have hword : ∀ (n : Nat) (w : Word), endsQuoted false (spaces n ++ w.text) = false ∧
      protect false (spaces n ++ w.text) = spaces n ++ w.inner := by
    intro n w
    obtain ⟨hprotect, hends⟩ := w.protect_text
    rw [endsQuoted_append, protect_append, endsQuoted_eq_false (hspaces n),
      protect_eq_self (hspaces n), hprotect]
    exact ⟨hends, rfl⟩
  have hwords : ∀ p ∈ ws.map fun (n, w) => spaces n ++ w.text, endsQuoted false p = false := by
    intro p hp
    obtain ⟨⟨n, w⟩, _, rfl⟩ := List.mem_map.1 hp
    exact (hword n w).1
  obtain ⟨hends, hprotect⟩ := protect_joinWith hwords
  rw [line, endsQuoted_append, protect_append, hends, hprotect,
    endsQuoted_eq_false (hspaces trailing), protect_eq_self (hspaces trailing), List.map_map]
  refine ⟨rfl, ?_⟩
  congr 2
  exact List.map_congr_left fun (n, w) _ => (hword n w).2

/-- Trimming takes nothing from the words of a line, if the last of them does not end in a space. -/
theorem pieces_trimSpaces {ws : List (Nat × Word)} (trailing : Nat)
    (hlast : ∀ n w, ws.getLast? = some (n, w) → w.inner.getLast? ≠ some ' ') :
    pieces (trimSpaces (joinWith ' ' (ws.map fun (n, w) => spaces n ++ w.inner) ++
      spaces trailing)) =
      ws.map (·.2.inner) := by
  have hback : (joinWith ' ' (ws.map fun (n, w) => spaces n ++ w.inner)).getLast? ≠ some ' ' := by
    rcases List.eq_nil_or_concat ws with rfl | ⟨init, ⟨n, w⟩, rfl⟩
    · simp [joinWith]
    · rw [List.concat_eq_append] at hlast ⊢
      have hne : spaces n ++ w.inner ≠ [] := by simp [w.inner_ne_nil]
      rw [List.map_append, List.map_singleton, Text.getLast?_joinWith ' ' hne,
        List.getLast?_append_of_ne_nil _ w.inner_ne_nil]
      exact hlast n w List.getLast?_concat
  rw [← pieces_joinWith ws]
  cases ws with
  | nil => exact congrArg pieces (trimSpaces_spaces 0 trailing [] (by simp) (by simp))
  | cons nw ws =>
    obtain ⟨n, w⟩ := nw
    -- the spaces in front of the first word stand in front of the line
    rw [List.map_cons, Text.joinWith_append] at hback ⊢
    have hhead := Text.head?_joinWith ' ' w.inner_ne_nil (ws.map fun (n, w) => spaces n ++ w.inner)
    have hne : joinWith ' ' (w.inner :: ws.map fun (n, w) => spaces n ++ w.inner) ≠ [] := by
      intro hnil
      rw [hnil, List.head?_nil, eq_comm, List.head?_eq_none_iff] at hhead
      exact w.inner_ne_nil hhead
    rw [List.getLast?_append_of_ne_nil _ hne] at hback
    rw [trimSpaces_spaces n trailing _ (by rw [hhead]; exact w.head?_inner) hback, pieces_spaces]

/-- The characters of words on a line are read back. -/
theorem tokenizeChars_line {ws : List (Nat × Word)} (trailing : Nat)
    (hlast : ∀ n w, ws.getLast? = some (n, w) → w.style = .escaped →
      w.argument.toList.getLast? ≠ some ' ') :
    tokenizeChars (line ws trailing) = .ok ((ws.map (·.2.argument)).map String.toList) := by
  obtain ⟨hends, hprotect⟩ := protect_line ws trailing
  have hpieces := pieces_trimSpaces trailing fun n w hw => w.getLast?_inner_space (hlast n w hw)
  rw [tokenizeChars, hends, if_neg Bool.false_ne_true, hprotect, fields_unescape, ← pieces, hpieces,
    List.map_map, List.map_map]
  exact congrArg Except.ok (List.map_congr_left fun (n, w) _ => w.reveal_inner)

theorem tokenize_eq_ok {line : List Char} {as : List String}
    (h : tokenizeChars line = .ok (as.map String.toList)) : tokenize (.ofList line) = .ok as := by
  rw [tokenize, String.toList_ofList, h]
  simp [Except.map]

/-- A line of words is read back, however each word is written and whatever spaces stand around it.
Only a last word that is escaped may not end in a space, which would be trimmed. -/
theorem tokenize_line (ws : List (Nat × Word)) (trailing : Nat)
    (hlast : ∀ n w, ws.getLast? = some (n, w) → w.style = .escaped →
      w.argument.toList.getLast? ≠ some ' ') :
    tokenize (.ofList (line ws trailing)) = .ok (ws.map (·.2.argument)) :=
  tokenize_eq_ok (tokenizeChars_line trailing hlast)

/-- A bare word, an escaped one that ends in a space, and a quoted one with a backslash before a
space. -/
def mixedWords : List (Nat × Word) :=
  [(1, ⟨"-c", .bare, by decide +kernel, by decide +kernel, by decide +kernel, by decide +kernel,
      by decide +kernel⟩),
    (0, ⟨"a \\ b ", .escaped, by decide +kernel, by decide +kernel, by decide +kernel,
      by decide +kernel, by decide +kernel⟩),
    (2, ⟨" \\ c ", .quoted, by decide +kernel, by decide +kernel, by decide +kernel,
      by decide +kernel, by decide +kernel⟩)]

theorem tokenize_line_mixed :
    tokenize " -c a\\ \\\\ b\\    \" \\ c \"  " = .ok ["-c", "a \\ b ", " \\ c "] := by
  have hline : line mixedWords 2 = " -c a\\ \\\\ b\\    \" \\ c \"  ".toList := by decide +kernel
  have hread := tokenize_line mixedWords 2 (by
    intro n w hw hstyle
    cases hw
    cases hstyle)
  rw [hline, String.ofList_toList] at hread
  exact hread

end ExplicitSelf.Arguments
