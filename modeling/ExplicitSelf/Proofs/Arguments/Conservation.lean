import ExplicitSelf.Proofs.Arguments.Escape
import ExplicitSelf.Proofs.Text.Boundary
import Mathlib.Algebra.Ring.Parity

/-!
# What reading a line keeps

A line whose quotes do not pair up is refused, at the quote that opens what is never closed. Any
other line is read, and its arguments hold its text: only quotes, spaces, backslashes and
placeholders can get lost or stand for one another. The other characters are plain (`isPlain`), and
each stage of reading keeps them as they are, in their order.

Results:
* `endsQuoted_iff`, `tokenize_of_odd`: when a line is refused, and where.
* `flatten_fields`: the arguments of a protected text, put together.
* `filter_stages`: the stages of reading keep the plain characters.
* `tokenize_conserves`: all of this for a line.
-/
namespace ExplicitSelf.Arguments

/-! ## Quotes -/

/-- A text ends between quotes if it has an odd number of them, counting one that was open
before. -/
theorem endsQuoted_iff (q : Bool) (cs : List Char) :
    endsQuoted q cs = true ↔ Odd (q.toNat + cs.count '"') := by
  induction cs generalizing q with
  | nil => cases q <;> simp [endsQuoted]
  | cons c cs ih =>
    rw [endsQuoted]
    split
    · rename_i hc
      rw [ih, hc, List.count_cons_self, Nat.odd_iff, Nat.odd_iff]
      cases q <;> simp <;> omega
    · rename_i hc
      rw [ih, List.count_cons_of_ne hc]

theorem endsQuoted_eq_false_iff {cs : List Char} :
    endsQuoted false cs = false ↔ Even (cs.count '"') := by
  rw [← Bool.not_eq_true, endsQuoted_iff]
  simp

theorem lastQuote?_eq_none {cs : List Char} (h : '"' ∉ cs) (i : Nat) : lastQuote? i cs = none := by
  induction cs generalizing i with
  | nil => rfl
  | cons c cs ih =>
    rw [List.mem_cons, not_or] at h
    rw [lastQuote?, ih h.2, if_neg (Ne.symm h.1)]
    rfl

/-- The last quote is the one that no other follows. -/
theorem lastQuote?_append {r : List Char} (h : '"' ∉ r) (i : Nat) (l : List Char) :
    lastQuote? i (l ++ '"' :: r) = some (i + Text.size l) := by
  induction l generalizing i with
  | nil =>
    rw [List.nil_append, lastQuote?, lastQuote?_eq_none h, if_pos rfl]
    rfl
  | cons c l ih =>
    rw [List.cons_append, lastQuote?, ih, Option.some_or, Text.size_cons, Nat.add_assoc]

/-! ## Arguments of a protected text -/

/-- The arguments put together: all but the separating spaces. -/
theorem flatten_fields (cs : List Char) : (fields cs).flatten = reveal (cs.filter (· ≠ ' ')) := by
  have hsplit : (Text.splitOn ' ' cs).flatten = cs.filter (· ≠ ' ') := by
    simpa [Text.splitOn] using Text.flatten_splitWhere (· = ' ') cs
  have hmap : fields cs =
      ((Text.splitOn ' ' cs).filter (!·.isEmpty)).map
        (List.map fun c => if c = placeholder then ' ' else c) := rfl
  rw [hmap, ← List.map_flatten, List.flatten_filter_not_isEmpty, hsplit, reveal]

theorem of_mem_fields {cs a : List Char} (h : a ∈ fields cs) :
    a ≠ [] ∧ placeholder ∉ a ∧ ∀ c ∈ a, c ∈ cs ∨ c = ' ' := by
  obtain ⟨p, hp, rfl⟩ := List.mem_map.1 h
  obtain ⟨hp, hne⟩ := List.mem_filter.1 hp
  have hin := (Text.infix_of_mem_splitWhere hp).subset
  refine ⟨by simpa [reveal] using hne, ?_, ?_⟩
  · intro hmem
    obtain ⟨d, _, hd⟩ := List.mem_map.1 hmem
    split at hd
    · simp [placeholder] at hd
    · exact absurd hd ‹_›
  · intro c hc
    obtain ⟨d, hd, rfl⟩ := List.mem_map.1 hc
    split
    · exact .inr rfl
    · exact .inl (hin hd)

/-! ## Plain characters -/

/-- A character that has no part in how arguments are separated. -/
def isPlain (c : Char) : Bool :=
  c ∉ ['"', ' ', '\\', placeholder]

theorem filter_protect (q : Bool) (cs : List Char) :
    (protect q cs).filter isPlain = cs.filter isPlain := by
  fun_induction protect q cs with
  | case1 => rfl
  | case2 q cs ih => rw [ih]; rfl
  | case3 q c cs _ hc ih =>
    rw [hc.2]
    exact ih
  | case4 q c cs _ _ ih => rw [List.filter_cons, List.filter_cons, ih]

theorem filter_dropSpaces (cs : List Char) :
    (dropSpaces cs).filter isPlain = cs.filter isPlain := by
  induction cs with
  | nil => rfl
  | cons c cs ih =>
    rw [dropSpaces, List.dropWhile_cons]
    split
    · rename_i hc
      rw [of_decide_eq_true hc]
      exact ih
    · rfl

theorem filter_trimSpaces (cs : List Char) :
    (trimSpaces cs).filter isPlain = cs.filter isPlain := by
  rw [trimSpaces, List.filter_reverse, filter_dropSpaces, List.filter_reverse, List.reverse_reverse,
    filter_dropSpaces]

theorem filter_unescape (cs : List Char) : (unescape cs).filter isPlain = cs.filter isPlain := by
  fun_induction unescape cs with
  | case1 => rfl
  | case2 cs ih => exact ih
  | case3 c cs _ ih => rw [List.filter_cons, List.filter_cons, ih]

theorem filter_reveal (cs : List Char) : (reveal cs).filter isPlain = cs.filter isPlain := by
  induction cs with
  | nil => rfl
  | cons c cs ih =>
    rw [reveal, List.map_cons]
    split
    · rename_i hc
      rw [hc]
      exact ih
    · rw [List.filter_cons, List.filter_cons, ← ih, reveal]

/-- The arguments of a protected text have its plain characters. -/
theorem filter_fields (cs : List Char) :
    (fields cs).flatten.filter isPlain = cs.filter isPlain := by
  rw [flatten_fields, filter_reveal, List.filter_filter]
  refine List.filter_congr fun c _ => ?_
  by_cases hc : c = ' '
  · rw [hc]
    rfl
  · simp [hc]

/-! ## Lines -/

theorem quote_notMem_protect (q : Bool) (cs : List Char) : '"' ∉ protect q cs := by
  fun_induction protect q cs with
  | case1 => exact List.not_mem_nil
  | case2 q cs ih => exact ih
  | case3 q c cs _ _ ih => simp [placeholder, ih]
  | case4 q c cs hc _ ih => simp [Ne.symm hc, ih]

theorem mem_of_mem_unescape {c : Char} {cs : List Char} (h : c ∈ unescape cs) :
    c ∈ cs ∨ c = placeholder := by
  fun_induction unescape cs with
  | case1 => cases h
  | case2 cs ih =>
    rcases List.mem_cons.1 h with rfl | h
    · exact .inr rfl
    · exact (ih h).imp_left fun h => .tail _ (.tail _ h)
  | case3 d cs _ ih =>
    rcases List.mem_cons.1 h with rfl | h
    · exact .inl (.head _)
    · exact (ih h).imp_left (.tail _)

/-- A line with a quote in it has a last one. -/
theorem exists_last_quote {cs : List Char} (h : '"' ∈ cs) :
    ∃ l r, cs = l ++ '"' :: r ∧ '"' ∉ r := by
  obtain ⟨r, l, hrev, hr⟩ := List.eq_append_cons_of_mem (List.mem_reverse.2 h)
  refine ⟨l.reverse, r.reverse, ?_, by simpa using hr⟩
  rw [← List.reverse_reverse cs, hrev]
  simp

/-- What the stages read from a line. -/
def stages (line : List Char) : List (List Char) :=
  fields (unescape (trimSpaces (protect false line)))

theorem tokenizeChars_of_even {line : List Char} (h : Even (line.count '"')) :
    tokenizeChars line = .ok (stages line) := by
  rw [tokenizeChars, endsQuoted_eq_false_iff.2 h, if_neg Bool.false_ne_true, stages]

/-- A line whose quotes pair up is read. -/
theorem tokenize_of_even {line : String} (h : Even (line.toList.count '"')) :
    tokenize line = .ok ((stages line.toList).map String.ofList) := by
  rw [tokenize, tokenizeChars_of_even h]
  rfl

theorem tokenizeChars_of_odd {line : List Char} (h : Odd (line.count '"')) :
    ∃ l r, line = l ++ '"' :: r ∧ Even (l.count '"') ∧ '"' ∉ r ∧
      tokenizeChars line = .error ⟨Text.size l⟩ := by
  have hmem : '"' ∈ line := by
    obtain ⟨k, hk⟩ := h
    exact List.count_pos_iff.1 (by omega)
  have hends : endsQuoted false line = true := by simpa [endsQuoted_iff] using h
  obtain ⟨l, r, rfl, hr⟩ := exists_last_quote hmem
  refine ⟨l, r, rfl, ?_, hr, ?_⟩
  · rw [List.count_append, List.count_cons_self, List.count_eq_zero_of_not_mem hr] at h
    exact Nat.not_odd_iff_even.1 fun hl => Nat.not_odd_iff_even.2 (hl.add_odd odd_one) h
  · rw [tokenizeChars, if_pos hends, lastQuote?_append hr, Nat.zero_add, Option.getD_some]

/-- Any other line is refused at the quote that opens what is never closed. -/
theorem tokenize_of_odd {line : String} (h : Odd (line.toList.count '"')) :
    ∃ l r : String, line = l ++ "\"" ++ r ∧ Even (l.toList.count '"') ∧ '"' ∉ r.toList ∧
      tokenize line = .error ⟨l.utf8ByteSize⟩ := by
  obtain ⟨l, r, hline, hl, hr, herror⟩ := tokenizeChars_of_odd h
  refine ⟨.ofList l, .ofList r, ?_, by simpa using hl, by simpa using hr, ?_⟩
  · apply String.toList_injective
    simpa using hline
  · rw [tokenize, herror, Text.size_eq_utf8ByteSize]
    rfl

/-- An argument of a line is not empty, and has no quotes and no placeholders. -/
theorem of_mem_stages {line a : List Char} (h : a ∈ stages line) :
    a ≠ [] ∧ '"' ∉ a ∧ placeholder ∉ a := by
  obtain ⟨hne, hplace, hfrom⟩ := of_mem_fields h
  refine ⟨hne, fun hquote => ?_, hplace⟩
  rcases hfrom _ hquote with hmem | hspace
  · rcases mem_of_mem_unescape hmem with hmem | hplace
    · exact quote_notMem_protect _ _ (mem_of_mem_trimSpaces hmem)
    · simp [placeholder] at hplace
  · simp at hspace

/-- The arguments of a line have its plain characters, and spaces and backslashes besides. -/
theorem filter_stages (line : List Char) :
    (stages line).flatten.filter (· ∉ [' ', '\\']) = line.filter isPlain := by
  have hplain : (stages line).flatten.filter isPlain = line.filter isPlain := by
    rw [stages, filter_fields, filter_unescape, filter_trimSpaces, filter_protect]
  rw [← hplain]
  refine List.filter_congr fun c hc => ?_
  obtain ⟨a, ha, hca⟩ := List.mem_flatten.1 hc
  obtain ⟨_, hquote, hplace⟩ := of_mem_stages ha
  have hnoquote : c ≠ '"' := fun he => hquote (he ▸ hca)
  have hnoplace : c ≠ placeholder := fun he => hplace (he ▸ hca)
  simp [isPlain, hnoquote, hnoplace]

/-- A line is refused exactly if its number of quotes is odd. The error then names the quote that
opens what is never closed: the ones before it pair up and none follows. Otherwise the arguments
have no empty texts, quotes and placeholders among them, and put together they have the plain
characters of the line. -/
theorem tokenize_conserves (line : String) :
    ((∃ e, tokenize line = .error e) ↔ Odd (line.toList.count '"')) ∧
    (∀ e, tokenize line = .error e → ∃ l r : String, line = l ++ "\"" ++ r ∧
      Even (l.toList.count '"') ∧ '"' ∉ r.toList ∧ e.position = l.utf8ByteSize) ∧
    (∀ as, tokenize line = .ok as →
      (∀ a ∈ as, a ≠ "" ∧ '"' ∉ a.toList ∧ '\x00' ∉ a.toList) ∧
      (as.flatMap String.toList).filter (· ∉ [' ', '\\']) =
        line.toList.filter (· ∉ ['"', ' ', '\\', '\x00'])) := by
  rcases Nat.even_or_odd (line.toList.count '"') with heven | hodd
  · rw [tokenize_of_even heven]
    refine ⟨⟨?_, ?_⟩, ?_, ?_⟩
    · intro ⟨e, he⟩
      cases he
    · intro hodd
      exact absurd hodd (Nat.not_odd_iff_even.2 heven)
    · intro e he
      cases he
    · intro as has
      obtain rfl := Except.ok.inj has
      constructor
      · intro a ha
        obtain ⟨b, hb, rfl⟩ := List.mem_map.1 ha
        simpa [placeholder] using of_mem_stages hb
      · have hjoin : ∀ bs : List (List Char), (bs.map String.ofList).flatMap String.toList =
            bs.flatten := by
          simp [List.flatMap_map]
        rw [hjoin]
        exact filter_stages line.toList
  · obtain ⟨l, r, hline, hl, hr, herror⟩ := tokenize_of_odd hodd
    rw [herror]
    refine ⟨⟨fun _ => hodd, fun _ => ⟨_, rfl⟩⟩, ?_, ?_⟩
    · intro e he
      cases he
      exact ⟨l, r, hline, hl, hr, rfl⟩
    · intro as has
      cases has

/-- The position counts octets. -/
example : tokenize "é\"a b\" \"c" = .error ⟨8⟩ := by decide

end ExplicitSelf.Arguments
