import ExplicitSelf.Proofs.Plan.Steps
import ExplicitSelf.Proofs.Text.Split
import Mathlib.Data.List.Nodup
import Mathlib.Data.Set.Card
import Mathlib.Data.String.Basic

/-!
# What a plan holds

A document names each command by a key of its own. The commands are taken in the order of their
keys, which is strict, so it does not matter where a command is written. A plan is the outcome of
two searches through them: forwards for the first step that cannot be used, which is the error, and
backwards for the last step that compiles a file, which gives its arguments. In a strictly ordered
list the first hit is the least one (`findSome?_eq_some_iff_first`).

Results:
* `compilerArguments_eq_ok_iff`, `compilerArguments_eq_error_iff`: the arguments of a step, and why
  it has none.
* `ofCommands_eq_error_iff`, `arguments?_eq_some_iff`: the two searches.
* `nodup_keys_of_commands?`: the keys of a document are distinct.
* `parse_decoded`: what a plan says for the commands of a document.
-/
namespace ExplicitSelf

/-! ## Keys -/

namespace Keyed

variable {α β γ : Type} {same : α → α → Bool} (meaning : α → γ)

/-- What the keys of a list mean. -/
def keys (l : List (α × β)) : List γ :=
  l.map fun e => meaning e.1

theorem mem_keys_put (hsame : ∀ a b, same a b = true ↔ meaning a = meaning b) {k : α} {v : β}
    {l : List (α × β)}
    {m : γ} : m ∈ keys meaning (put same k v l) ↔ m = meaning k ∨ m ∈ keys meaning l := by
  induction l with
  | nil => simp [put, keys]
  | cons e l ih =>
    unfold keys at ih ⊢
    rw [put]
    split
    · rename_i hput
      have hkey := (hsame _ _).1 hput
      simp only [List.map_cons, List.mem_cons, hkey]
      tauto
    · simp only [List.map_cons, List.mem_cons, ih]
      tauto

/-- A key is added only if no key means the same. -/
theorem nodup_keys_put (hsame : ∀ a b, same a b = true ↔ meaning a = meaning b) {k : α} {v : β}
    {l : List (α × β)} (h : (keys meaning l).Nodup) : (keys meaning (put same k v l)).Nodup := by
  induction l with
  | nil => simp [put, keys]
  | cons e l ih =>
    obtain ⟨hnew, hrest⟩ := List.nodup_cons.1 h
    rw [put]
    split
    · exact h
    · rename_i hput
      refine List.nodup_cons.2 ⟨fun hmem => ?_, ih hrest⟩
      rcases (mem_keys_put meaning hsame).1 hmem with hkey | hmem
      · exact hput ((hsame _ _).2 hkey)
      · exact hnew hmem

theorem nodup_keys_foldl_put (hsame : ∀ a b, same a b = true ↔ meaning a = meaning b) {δ : Type}
    (key : δ → α) (value : δ → β) (ds : List δ) {l : List (α × β)} (h : (keys meaning l).Nodup) :
    (keys meaning (ds.foldl (fun l d => put same (key d) (value d) l) l)).Nodup := by
  induction ds generalizing l with
  | nil => exact h
  | cons d ds ih => exact ih (nodup_keys_put meaning hsame h)

theorem get?_eq_none_iff (hsame : ∀ a b, same a b = true ↔ meaning a = meaning b) {k : α}
    {l : List (α × β)} :
    get? same k l = none ↔ meaning k ∉ keys meaning l := by
  induction l with
  | nil => simp [get?, keys]
  | cons e l ih =>
    unfold keys at ih ⊢
    rw [get?, List.map_cons, List.mem_cons, not_or]
    split
    · rename_i hkey
      simp [(hsame _ _).1 hkey]
    · rename_i hkey
      have hne : meaning k ≠ meaning e.1 := fun h => hkey ((hsame _ _).2 h.symm)
      rw [ih, and_iff_right hne]

end Keyed

namespace Plan

/-! ## What a step says -/

/-- A command compiles if its key or its tool names the compiler. -/
def Compiling (key : String) (c : Command) : Prop :=
  ∃ n ∈ ["swift-compiler", "swiftc"],
    n.toList <:+: key.toList ∨ ∃ tool, c.tool = some tool ∧ n.toList <:+: tool.toList

/-- The arguments of a command as it has them: none, a list, or the arguments of a line. -/
inductive Gives (c : Command) : List String → Prop where
  | absent (h : c.arguments = none) : Gives c []
  | list {as : List String} (h : c.arguments = some (.list as)) : Gives c as
  | line {text : String} {as : List String} (h : c.arguments = some (.line text))
    (htext : Arguments.tokenize text = .ok as) : Gives c as

/-- What leads up to the arguments of the compiler is left out: all up to the first delimiter, or
without a delimiter the compiler itself, if it is in front. -/
inductive Stripped : (delimiter : Option String) → (raw stripped : List String) → Prop where
  | delimited {d : String} {before after : List String} (h : d ∉ before) :
    Stripped (some d) (before ++ d :: after) after
  | compiler {a : String} {as : List String} (h : (Path.ofText a).fileName? =
    some ("swiftc" : Name)) :
    Stripped none (a :: as) as
  | plain {as : List String} (h : ∀ a, as.head? = some a →
    (Path.ofText a).fileName? ≠ some ("swiftc" : Name)) :
    Stripped none as as

/-- Why a command cannot be used: its line has a quote that is not closed, or the delimiter is
missing. -/
inductive Unusable (delimiter : Option String) (c : Command) : Malformed → Prop where
  | quote {text : String} {e : Arguments.UnterminatedQuote} (h : c.arguments = some (.line text))
    (htext : Arguments.tokenize text = .error e) : Unusable delimiter c (.quote e)
  | noDelimiter {d : String} {raw : List String} (hd : delimiter = some d) (hraw : Gives c raw)
    (h : d ∉ raw) :
    Unusable delimiter c (.noDelimiter d)

/-- A source among the inputs of a command, by the components of its normal form. -/
def Lists (c : Command) (source : List Component) : Prop :=
  ∃ i ∈ c.inputs, ".swift".toList <:+ i.toList ∧ (Path.ofText i).normalize.components = source

theorem isCompileStep_iff {key : String} {c : Command} :
    isCompileStep key c = true ↔ Compiling key c := by
  have hnames : ∀ s : String, namesCompiler s = true ↔
      ∃ n ∈ ["swift-compiler", "swiftc"], n.toList <:+: s.toList := by
    intro s
    simp only [namesCompiler, compilerNames, List.any_eq_true, Text.occursIn_iff]
  unfold isCompileStep Compiling
  rw [Bool.or_eq_true, hnames, Option.any_eq_true]
  simp only [hnames]
  constructor
  · rintro (⟨n, hn, h⟩ | ⟨tool, htool, n, hn, h⟩)
    · exact ⟨n, hn, .inl h⟩
    · exact ⟨n, hn, .inr ⟨tool, htool, h⟩⟩
  · rintro ⟨n, hn, h | ⟨tool, htool, h⟩⟩
    · exact .inl ⟨n, hn, h⟩
    · exact .inr ⟨tool, htool, n, hn, h⟩

theorem compiles_iff {file : Path} {s : String × Command} :
    compiles file s = true ↔ Compiling s.1 s.2 ∧ Lists s.2 file.components := by
  unfold compiles sources Lists
  rw [Bool.and_eq_true, isCompileStep_iff, List.any_map, List.any_filter, List.any_eq_true]
  simp [Text.endsWith_iff, Path.same]

theorem rawArguments_eq_ok_iff {c : Command} {raw : List String} :
    rawArguments c = .ok raw ↔ Gives c raw := by
  unfold rawArguments
  constructor
  · intro h
    split at h
    · cases h; exact .absent ‹_›
    · cases h; exact .list ‹_›
    · split at h
      · cases h; exact .line ‹_› ‹_›
      · cases h
  · intro h
    cases h with
    | absent h => rw [h]
    | list h => rw [h]
    | line h htext => simp only [h, htext]

theorem rawArguments_eq_error_iff {c : Command} {e : Malformed} : rawArguments c = .error e ↔
    ∃ text e', c.arguments = some (.line text) ∧ Arguments.tokenize text = .error e' ∧
      e = .quote e' := by
  unfold rawArguments
  constructor
  · intro h
    split at h
    · cases h
    · cases h
    · split at h
      · cases h
      · cases h; exact ⟨_, _, ‹_›, ‹_›, rfl⟩
  · rintro ⟨text, e', h, htext, rfl⟩
    simp only [h, htext]

theorem afterDelimiter?_eq_some_iff {d : String} {raw rest : List String} :
    afterDelimiter? d raw = some rest ↔ ∃ before, raw = before ++ d :: rest ∧ d ∉ before := by
  induction raw with
  | nil => simp [afterDelimiter?]
  | cons a raw ih =>
    rw [afterDelimiter?]
    split
    · rename_i ha
      subst ha
      constructor
      · intro h
        cases h
        exact ⟨[], rfl, List.not_mem_nil⟩
      · rintro ⟨before, hraw, hbefore⟩
        cases before with
        | nil => cases hraw; rfl
        | cons b before =>
          cases hraw
          exact absurd (List.mem_cons_self ..) hbefore
    · rename_i ha
      rw [ih]
      constructor
      · rintro ⟨before, rfl, hbefore⟩
        exact ⟨a :: before, rfl, by simp [hbefore, Ne.symm ha]⟩
      · rintro ⟨before, hraw, hbefore⟩
        cases before with
        | nil => cases hraw; exact absurd rfl ha
        | cons b before =>
          cases hraw
          exact ⟨before, rfl, fun h => hbefore (List.mem_cons_of_mem _ h)⟩

theorem afterDelimiter?_eq_none_iff {d : String} {raw : List String} :
    afterDelimiter? d raw = none ↔ d ∉ raw := by
  rw [Option.eq_none_iff_forall_ne_some]
  constructor
  · intro h hmem
    obtain ⟨before, after, hraw, hbefore⟩ := List.eq_append_cons_of_mem hmem
    exact h after (afterDelimiter?_eq_some_iff.2 ⟨before, hraw, hbefore⟩)
  · intro h rest hrest
    obtain ⟨before, rfl, _⟩ := afterDelimiter?_eq_some_iff.1 hrest
    exact h (by simp)

theorem stripped_none_iff {raw stripped : List String} :
    Stripped none raw stripped ↔ stripped = dropCompiler raw := by
  constructor
  · intro h
    cases h with
    | compiler h => rw [dropCompiler, if_pos h]
    | plain h =>
      cases raw with
      | nil => rfl
      | cons a as => rw [dropCompiler, if_neg (h a rfl)]
  · rintro rfl
    cases raw with
    | nil => exact .plain (by simp)
    | cons a as =>
      rw [dropCompiler]
      split
      · exact .compiler ‹_›
      · rename_i ha
        exact .plain fun b hb => by cases hb; exact ha

/-- The arguments of a step are what it has, stripped and in normal form. -/
theorem compilerArguments_eq_ok_iff {delimiter : Option String} {c : Command} {as : List String} :
    compilerArguments delimiter c = .ok as ↔
      ∃ raw stripped, Gives c raw ∧ Stripped delimiter raw stripped ∧
        as = Arguments.normalize stripped := by
  unfold compilerArguments
  cases hraw : rawArguments c with
  | error e =>
    refine iff_of_false (by simp) ?_
    rintro ⟨raw, stripped, hgives, _⟩
    rw [rawArguments_eq_ok_iff.2 hgives] at hraw
    cases hraw
  | ok raw =>
    have hgives : ∀ raw', Gives c raw' ↔ raw' = raw := by
      intro raw'
      rw [← rawArguments_eq_ok_iff, hraw, Except.ok.injEq, eq_comm]
    simp only [hgives, exists_and_left, exists_eq_left]
    cases delimiter with
    | none => simp only [stripped_none_iff, exists_eq_left, Except.ok.injEq, eq_comm]
    | some d =>
      have hstripped : ∀ stripped, Stripped (some d) raw stripped ↔
          afterDelimiter? d raw = some stripped := by
        intro stripped
        rw [afterDelimiter?_eq_some_iff]
        constructor
        · rintro ⟨h⟩
          exact ⟨_, rfl, h⟩
        · rintro ⟨before, rfl, h⟩
          exact .delimited h
      simp only [hstripped]
      cases afterDelimiter? d raw with
      | none => simp
      | some rest => simp [eq_comm]

theorem compilerArguments_eq_error_iff {delimiter : Option String} {c : Command} {e : Malformed} :
    compilerArguments delimiter c = .error e ↔ Unusable delimiter c e := by
  unfold compilerArguments
  cases hraw : rawArguments c with
  | error e' =>
    obtain ⟨text, e'', hline, htext, rfl⟩ := rawArguments_eq_error_iff.1 hraw
    simp only [Except.error.injEq]
    constructor
    · rintro rfl
      exact .quote hline htext
    · intro h
      cases h with
      | quote hline' htext' =>
        rw [hline] at hline'
        cases hline'
        rw [htext] at htext'
        cases htext'
        rfl
      | noDelimiter _ hgives _ =>
        rw [rawArguments_eq_ok_iff.2 hgives] at hraw
        cases hraw
  | ok raw =>
    -- The line of the step can be read, so only the delimiter can be missing.
    have hunusable : Unusable delimiter c e ↔ ∃ d, delimiter = some d ∧ d ∉ raw ∧
        e = .noDelimiter d := by
      constructor
      · intro h
        cases h with
        | quote hline htext =>
          rw [rawArguments_eq_error_iff.2 ⟨_, _, hline, htext, rfl⟩] at hraw
          cases hraw
        | noDelimiter hd hgives h =>
          rw [rawArguments_eq_ok_iff.2 hgives] at hraw
          cases hraw
          exact ⟨_, hd, h, rfl⟩
      · rintro ⟨d, hd, h, rfl⟩
        exact .noDelimiter hd (rawArguments_eq_ok_iff.1 hraw) h
    rw [hunusable]
    cases delimiter with
    | none => simp
    | some d =>
      simp only [Option.some.injEq, exists_eq_left', ← afterDelimiter?_eq_none_iff]
      cases afterDelimiter? d raw with
      | none => simp [eq_comm]
      | some rest => simp

/-! ## Searching through the steps -/

/-- In a list that is strictly ordered, the first hit comes before all other hits. -/
theorem findSome?_eq_some_iff_first {α β : Type} {r : α → α → Prop} (hasymm : ∀ a b, r a b → ¬r b a)
    {f : α → Option β} {l : List α} (hl : l.Pairwise r) {v : β} :
    l.findSome? f = some v ↔ ∃ x ∈ l, f x = some v ∧ ∀ y ∈ l, f y ≠ none → y = x ∨ r x y := by
  constructor
  · intro h
    obtain ⟨before, x, after, rfl, hx, hbefore⟩ := List.findSome?_eq_some_iff.1 h
    refine ⟨x, by simp, hx, fun y hy hhit => ?_⟩
    rcases List.mem_append.1 hy with hy | hy
    · exact absurd (hbefore y hy) hhit
    · rcases List.mem_cons.1 hy with rfl | hy
      · exact .inl rfl
      · exact .inr ((List.pairwise_cons.1 (List.pairwise_append.1 hl).2.1).1 y hy)
  · rintro ⟨x, hx, hv, hfirst⟩
    obtain ⟨before, after, rfl⟩ := List.append_of_mem hx
    refine List.findSome?_eq_some_iff.2 ⟨before, x, after, rfl, hv, fun y hy => ?_⟩
    have hyx : r y x := (List.pairwise_append.1 hl).2.2 y hy x (List.mem_cons_self ..)
    by_contra hhit
    rcases hfirst y (List.mem_append_left _ hy) hhit with rfl | hxy
    · exact hasymm y y hyx hyx
    · exact hasymm y x hyx hxy

/-- The commands in the order of their keys. -/
def ordered (commands : List (String × Command)) : List (String × Command) :=
  commands.mergeSort fun a b => a.1 ≤ b.1

section
variable {commands : List (String × Command)}

theorem mem_ordered {s : String × Command} : s ∈ ordered commands ↔ s ∈ commands :=
  List.mem_mergeSort

theorem pairwise_ordered (h : (commands.map (·.1)).Nodup) :
    (ordered commands).Pairwise fun a b => a.1 < b.1 := by
  have hsorted : (ordered commands).Pairwise fun a b => decide (a.1 ≤ b.1) = true :=
    List.pairwise_mergeSort
      (fun a b c hab hbc => by
        simpa using le_trans (of_decide_eq_true hab) (of_decide_eq_true hbc))
      (fun a b => by simpa using le_total a.1 b.1) commands
  have hdiffer : (ordered commands).Pairwise fun a b => a.1 ≠ b.1 :=
    List.pairwise_map.1 (((List.mergeSort_perm commands _).map _).nodup_iff.2 h)
  refine (hsorted.and hdiffer).imp fun {a b} hab => ?_
  exact lt_of_le_of_ne (by simpa using hab.1) hab.2

/-- The order of the commands in the document does not matter. -/
theorem ordered_eq_of_mem_iff {commands' : List (String × Command)} (h : (commands.map (·.1)).Nodup)
    (h' : (commands'.map (·.1)).Nodup) (hmem : ∀ s, s ∈ commands' ↔ s ∈ commands) :
    ordered commands' = ordered commands := by
  have hperm : (ordered commands').Perm (ordered commands) :=
    (List.mergeSort_perm ..).trans
      (((List.perm_ext_iff_of_nodup h'.of_map h.of_map).2 hmem).trans (List.mergeSort_perm ..).symm)
  exact hperm.eq_of_pairwise (fun a b _ _ hab hba => absurd hba (lt_asymm hab))
    (pairwise_ordered h')
    (pairwise_ordered h)

theorem eq_or_lt_iff (h : (commands.map (·.1)).Nodup) {s s' : String × Command} (hs : s ∈ commands)
    (hs' : s' ∈ commands) : (s' = s ∨ s.1 < s'.1) ↔ s.1 ≤ s'.1 := by
  rw [le_iff_eq_or_lt]
  refine or_congr_left ⟨fun heq => by rw [heq], fun hkey => ?_⟩
  exact (List.inj_on_of_nodup_map h hs hs' hkey).symm

end

/-- The fault of a step. -/
def fault? (delimiter : Option String) (s : String × Command) : Option Fault :=
  if isCompileStep s.1 s.2 then
    match compilerArguments delimiter s.2 with
    | .error e => some (.malformed s.1 e)
    | .ok _ => none
  else none

section
variable {delimiter : Option String}

theorem fault?_eq_some_iff {s : String × Command} {f : Fault} : fault? delimiter s = some f ↔
    ∃ e, f = .malformed s.1 e ∧ Compiling s.1 s.2 ∧ Unusable delimiter s.2 e := by
  unfold fault?
  simp only [← isCompileStep_iff, ← compilerArguments_eq_error_iff]
  split
  · rename_i hstep
    cases compilerArguments delimiter s.2 with
    | error e => simp [hstep, eq_comm]
    | ok as => simp
  · rename_i hstep
    simp [hstep]

/-- Steps are added up to the first that has a fault. -/
theorem addSteps_eq_error_iff {steps : List (String × Command)} {plan : Plan} {f : Fault} :
    addSteps delimiter steps plan = .error f ↔ steps.findSome? (fault? delimiter) = some f := by
  induction steps generalizing plan with
  | nil => simp [addSteps]
  | cons s steps ih =>
    rw [addSteps, List.findSome?_cons, fault?]
    split
    · cases hargs : compilerArguments delimiter s.2 with
      | error e => simp
      | ok as => simpa using ih
    · exact ih

variable {commands : List (String × Command)}

/-- The fault of the least key decides. -/
theorem ofCommands_eq_error_iff (h : (commands.map (·.1)).Nodup) {f : Fault} :
    ofCommands delimiter commands = .error f ↔
      ∃ s ∈ commands, fault? delimiter s = some f ∧
        ∀ s' ∈ commands, fault? delimiter s' ≠ none → s.1 ≤ s'.1 := by
  have hfirst := findSome?_eq_some_iff_first (fun a b hab => lt_asymm hab) (f := fault? delimiter)
    (pairwise_ordered h) (v := f)
  simp only [mem_ordered] at hfirst
  rw [ofCommands, addSteps_eq_error_iff]
  refine hfirst.trans (exists_congr fun s => and_congr_right fun hs => and_congr_right fun _ => ?_)
  exact forall₂_congr fun s' hs' => imp_congr_right fun _ => eq_or_lt_iff h hs hs'

theorem exists_error_iff :
    (∃ f, ofCommands delimiter commands = .error f) ↔ ∃ s ∈ commands,
      fault? delimiter s ≠ none := by
  simp only [ofCommands, addSteps_eq_error_iff, ← Option.isSome_iff_exists,
    List.findSome?_isSome_iff]
  exact exists_congr fun s => and_congr mem_ordered Option.isSome_iff_ne_none

variable {file : Path} {plan : Plan}

/-- The step with the greatest key that compiles a file decides. -/
theorem arguments?_eq_some_iff (h : (commands.map (·.1)).Nodup)
    (hplan : ofCommands delimiter commands = .ok plan) {as : List String} :
    plan.arguments? file = some as ↔
      ∃ s ∈ commands, stepArguments? delimiter file s = some as ∧
        ∀ s' ∈ commands, stepArguments? delimiter file s' ≠ none → s'.1 ≤ s.1 := by
  have hlast :=
    findSome?_eq_some_iff_first (r := fun a b => b.1 < a.1) (fun a b hab => lt_asymm hab)
    (f := stepArguments? delimiter file) (List.pairwise_reverse.2 (pairwise_ordered h)) (v := as)
  simp only [List.mem_reverse, mem_ordered] at hlast
  rw [arguments?_ofCommands hplan, ← ordered]
  refine hlast.trans (exists_congr fun s => and_congr_right fun hs => and_congr_right fun _ => ?_)
  refine forall₂_congr fun s' hs' => imp_congr_right fun _ => ?_
  rw [← eq_or_lt_iff h hs' hs, eq_comm]

/-- In a plan that can be built, each step that compiles a file has arguments for it. -/
theorem stepArguments?_ne_none_iff (hplan : ofCommands delimiter commands = .ok plan)
    {s : String × Command}
    (hs : s ∈ commands) : stepArguments? delimiter file s ≠ none ↔ compiles file s = true := by
  unfold stepArguments?
  split
  · rename_i hcompiles
    cases hargs : compilerArguments delimiter s.2 with
    | ok as => simp [hcompiles, Except.toOption]
    | error e =>
      have hstep := (Bool.and_eq_true_iff.1 hcompiles).1
      have hfault : fault? delimiter s ≠ none := by simp [fault?, hstep, hargs]
      obtain ⟨f, hf⟩ := exists_error_iff.2 ⟨s, hs, hfault⟩
      rw [hplan] at hf
      cases hf
  · simp_all

theorem arguments?_ne_none_iff (hplan : ofCommands delimiter commands = .ok plan) :
    plan.arguments? file ≠ none ↔ ∃ s ∈ commands, compiles file s = true := by
  rw [arguments?_ofCommands hplan, ← ordered, ← Option.isSome_iff_ne_none,
    List.findSome?_isSome_iff]
  simp only [List.mem_reverse, mem_ordered, Option.isSome_iff_ne_none]
  exact exists_congr fun s => and_congr_right fun hs => stepArguments?_ne_none_iff hplan hs

theorem stepArguments?_eq_some_iff {s : String × Command} {as : List String} :
    stepArguments? delimiter file s = some as ↔ Compiling s.1 s.2 ∧ Lists s.2 file.components ∧
      ∃ raw stripped, Gives s.2 raw ∧ Stripped delimiter raw stripped ∧
        as = Arguments.normalize stripped := by
  rw [← compilerArguments_eq_ok_iff, ← and_assoc, ← compiles_iff, stepArguments?]
  split
  · rename_i hcompiles
    cases compilerArguments delimiter s.2 <;> simp [hcompiles, Except.toOption]
  · rename_i hcompiles
    simp [hcompiles]

/-! ## The number of files -/

theorem nodup_files_addSteps {steps : List (String × Command)} {plan' : Plan}
    (h : addSteps delimiter steps plan = .ok plan')
    (hplan : (Keyed.keys Path.components plan.files).Nodup) :
    (Keyed.keys Path.components plan'.files).Nodup := by
  induction steps generalizing plan with
  | nil =>
    cases h
    exact hplan
  | cons s steps ih =>
    rw [addSteps] at h
    split at h
    · cases hargs : compilerArguments delimiter s.2 with
      | error e => simp [hargs] at h
      | ok as =>
        simp only [hargs] at h
        exact ih h (Keyed.nodup_keys_foldl_put Path.components (by simp [Path.same]) id
          (fun _ => as) _ hplan)
    · exact ih h hplan

/-- A plan has one entry for each source that a step lists. -/
theorem size_eq_ncard (hplan : ofCommands delimiter commands = .ok plan) :
    plan.size = Set.ncard {source | ∃ s ∈ commands, Compiling s.1 s.2 ∧ Lists s.2 source} := by
  have hkeys : ∀ source, source ∈ Keyed.keys Path.components plan.files ↔
      ∃ s ∈ commands, Compiling s.1 s.2 ∧ Lists s.2 source := by
    intro source
    have hfile : ∀ file : Path, file.components ∈ Keyed.keys Path.components plan.files ↔
        ∃ s ∈ commands, Compiling s.1 s.2 ∧ Lists s.2 file.components := by
      intro file
      have hsome : plan.arguments? file ≠ none ↔ _ := arguments?_ne_none_iff hplan
      simp only [compiles_iff] at hsome
      rw [← hsome, arguments?, ne_eq, Keyed.get?_eq_none_iff Path.components (by simp [Path.same]),
        not_not]
    constructor
    · intro hmem
      obtain ⟨e, _, rfl⟩ := List.mem_map.1 hmem
      exact (hfile e.1).1 hmem
    · rintro ⟨s, hs, hstep, i, hi, hsuffix, rfl⟩
      exact (hfile _).2 ⟨s, hs, hstep, i, hi, hsuffix, rfl⟩
  have hset : {source | ∃ s ∈ commands, Compiling s.1 s.2 ∧ Lists s.2 source} =
      ((Keyed.keys Path.components plan.files).toFinset : Set (List Component)) := by
    ext source
    simp [hkeys]
  have hnodup := nodup_files_addSteps hplan List.nodup_nil
  rw [hset, Set.ncard_coe_finset, List.toFinset_card_of_nodup hnodup, Keyed.keys, List.length_map,
    size]

end

/-! ## Documents -/

theorem exists_of_optional? {α : Type} {d : Yaml.Document} {read : Yaml.Node → Option α}
    {n : Option Yaml.Node}
    {a : α} (h : d.optional? read n = some (some a)) : ∃ m, read m = some a := by
  have hread : ∀ m, (read m).map some = some (some a) → ∃ m, read m = some a :=
    fun m hm => ⟨m, by simpa using hm⟩
  unfold Yaml.Document.optional? at h
  split at h
  · cases h
  · split at h
    · cases h
    · split at h
      · split at h <;> cases h
      · exact hread _ h
    · split at h
      · cases h
      · exact hread _ h
    · exact hread _ h

/-- The commands of a document have keys of their own. -/
theorem nodup_keys_of_commands? {text : String} {commands : List (String × Command)}
    (h : commands? text = some (some commands)) : (commands.map (·.1)).Nodup := by
  unfold commands? at h
  obtain ⟨d, _, h⟩ := Option.bind_eq_some_iff.1 h
  split at h
  · cases h
  · obtain ⟨entries, _, h⟩ := Option.bind_eq_some_iff.1 h
    obtain ⟨field, _, h⟩ := Option.bind_eq_some_iff.1 h
    obtain ⟨m, hm⟩ := exists_of_optional? h
    obtain ⟨pairs, _, hm⟩ := Option.bind_eq_some_iff.1 hm
    obtain ⟨cs, _, hm⟩ := Option.bind_eq_some_iff.1 hm
    cases hm
    exact Keyed.nodup_keys_foldl_put id (by simp) Prod.fst Prod.snd cs List.nodup_nil

/-- For the commands of a document: there is no plan exactly if a compile step cannot be used, and
the error is that of the least key with such a step. A plan has arguments for a file exactly if a
compile step lists it as a source, and they are those of the step with the greatest key. It has one
entry for each source that is listed. Another document with the same commands, wherever they are
written, has the same plan. -/
theorem parse_decoded (text : String) (commands : List (String × Command))
    (h : commands? text = some (some commands)) (delimiter : Option String) :
    ((∃ f, parse delimiter text = .error f) ↔
      ∃ s ∈ commands, Compiling s.1 s.2 ∧ ∃ e, Unusable delimiter s.2 e) ∧
    (∀ f, parse delimiter text = .error f ↔
      ∃ s ∈ commands, ∃ e, f = .malformed s.1 e ∧ Compiling s.1 s.2 ∧ Unusable delimiter s.2 e ∧
        ∀ s' ∈ commands, Compiling s'.1 s'.2 → (∃ e', Unusable delimiter s'.2 e') → s.1 ≤ s'.1) ∧
    (∀ plan, parse delimiter text = .ok plan →
      (∀ file, (∃ as, plan.arguments? file = some as) ↔
        ∃ s ∈ commands, Compiling s.1 s.2 ∧ Lists s.2 file.components) ∧
      (∀ file as, plan.arguments? file = some as ↔
        ∃ s ∈ commands, Compiling s.1 s.2 ∧ Lists s.2 file.components ∧
          (∀ s' ∈ commands, Compiling s'.1 s'.2 → Lists s'.2 file.components → s'.1 ≤ s.1) ∧
          ∃ raw stripped, Gives s.2 raw ∧ Stripped delimiter raw stripped ∧
            as = Arguments.normalize stripped) ∧
      plan.size = Set.ncard {source | ∃ s ∈ commands, Compiling s.1 s.2 ∧ Lists s.2 source}) ∧
    ∀ text' commands', commands? text' = some (some commands') →
      (∀ s, s ∈ commands' ↔ s ∈ commands) →
      parse delimiter text' = parse delimiter text := by
  have hkeys := nodup_keys_of_commands? h
  have hparse : parse delimiter text = ofCommands delimiter commands := by simp only [parse, h]
  have hfault : ∀ s, fault? delimiter s ≠ none ↔ Compiling s.1 s.2 ∧ ∃ e,
      Unusable delimiter s.2 e := by
    intro s
    simp only [Option.ne_none_iff_exists', fault?_eq_some_iff]
    simp
  rw [hparse]
  refine ⟨?_, fun f => ?_, fun plan hplan =>
    ⟨fun file => ?_, fun file as => ?_, size_eq_ncard hplan⟩, fun text' commands' h' hmem => ?_⟩
  · simp only [exists_error_iff, hfault]
  · simp only [ofCommands_eq_error_iff hkeys, hfault, fault?_eq_some_iff, and_imp]
    constructor
    · rintro ⟨s, hs, ⟨e, hf, hstep, hunusable⟩, hleast⟩
      exact ⟨s, hs, e, hf, hstep, hunusable, hleast⟩
    · rintro ⟨s, hs, e, hf, hstep, hunusable, hleast⟩
      exact ⟨s, hs, ⟨e, hf, hstep, hunusable⟩, hleast⟩
  · rw [← Option.ne_none_iff_exists', arguments?_ne_none_iff hplan]
    simp only [compiles_iff]
  · have hcompiles : ∀ s ∈ commands, stepArguments? delimiter file s ≠ none ↔
        Compiling s.1 s.2 ∧ Lists s.2 file.components := by
      intro s hs
      rw [stepArguments?_ne_none_iff hplan hs, compiles_iff]
    rw [arguments?_eq_some_iff hkeys hplan]
    refine exists_congr fun s => and_congr_right fun _ => ?_
    rw [stepArguments?_eq_some_iff, and_assoc, and_assoc, and_comm (a := ∃ raw stripped, _)]
    refine and_congr_right fun _ => and_congr_right fun _ => and_congr_left fun _ => ?_
    refine forall₂_congr fun s' hs' => ?_
    rw [hcompiles s' hs', and_imp]
  · have hparse' : parse delimiter text' = ofCommands delimiter commands' := by
      simp only [parse, h']
    rw [hparse', ofCommands, ofCommands, ← ordered, ← ordered,
      ordered_eq_of_mem_iff hkeys (nodup_keys_of_commands? h') hmem]

/-! A document with its keys in falling order. The steps list one file under different spellings. -/

def crossedFirst : String × Command :=
  ("swiftc A", ⟨none, ["/a.swift", "/b.swift"], some (.line "swiftc -first")⟩)

def crossedSecond : String × Command :=
  ("swiftc B", ⟨none, ["/x/../a.swift"], some (.list ["/bin/swiftc", "-second"])⟩)

def crossedText : String :=
  "commands:\n  swiftc B:\n    inputs: [/x/../a.swift]\n    args: [/bin/swiftc, -second]\n" ++
    "  swiftc A:\n    inputs: [/a.swift, /b.swift]\n    args: swiftc -first\n"

def straightText : String :=
  "commands:\n  swiftc A:\n    inputs: [/a.swift, /b.swift]\n    args: swiftc -first\n" ++
    "  swiftc B:\n    inputs: [/x/../a.swift]\n    args: [/bin/swiftc, -second]\n"

theorem crossed_usable :
    ∀ s ∈ [crossedSecond, crossedFirst], Compiling s.1 s.2 ∧ ∀ e, ¬Unusable none s.2 e := by
  have hread : ∀ s ∈ [crossedSecond, crossedFirst],
      isCompileStep s.1 s.2 = true ∧ (compilerArguments none s.2).toBool = true := by decide +kernel
  intro s hs
  obtain ⟨hstep, hok⟩ := hread s hs
  refine ⟨isCompileStep_iff.1 hstep, fun e he => ?_⟩
  rw [compilerArguments_eq_error_iff.2 he] at hok
  cases hok

/-- The file has the arguments of the greater key, which is written first. With a delimiter, the
error is that of the lesser key, which is written last. -/
theorem parse_decoded_crossed :
    commands? crossedText = some (some [crossedSecond, crossedFirst]) ∧
      commands? straightText = some (some [crossedFirst, crossedSecond]) ∧
      parse none straightText = parse none crossedText ∧
      parse (some "--") crossedText = .error (.malformed "swiftc A" (.noDelimiter "--")) ∧
      ∃ plan, parse none crossedText = .ok plan ∧
        plan.arguments? "/a.swift" = some ["-second", "-D", "DEBUG"] := by
  have hcrossed : commands? crossedText = some (some [crossedSecond, crossedFirst]) := by
    decide +kernel
  have hstraight : commands? straightText = some (some [crossedFirst, crossedSecond]) := by
    decide +kernel
  have hkeys : crossedFirst.1 ≤ crossedSecond.1 := by decide +kernel
  obtain ⟨herror, _, hplan, horder⟩ := parse_decoded crossedText _ hcrossed none
  obtain ⟨_, hdelimiter, _, _⟩ := parse_decoded crossedText _ hcrossed (some "--")
  refine ⟨hcrossed, hstraight, horder _ _ hstraight fun s => by simp [or_comm], ?_, ?_⟩
  · refine (hdelimiter _).2 ⟨crossedFirst, by simp, .noDelimiter "--", rfl,
      (crossed_usable _ (by simp)).1, ?_, ?_⟩
    · exact compilerArguments_eq_error_iff.1 (by decide +kernel)
    · intro s hs _ _
      rcases List.mem_pair.1 hs with rfl | rfl
      · exact hkeys
      · exact le_refl _
  · cases hparse : parse none crossedText with
    | error f =>
      obtain ⟨s, hs, _, e, he⟩ := herror.1 ⟨f, hparse⟩
      exact absurd he ((crossed_usable s hs).2 e)
    | ok plan =>
      refine ⟨plan, rfl, ((hplan plan hparse).2.1 _ _).2
        ⟨crossedSecond, by simp, (crossed_usable _ (by simp)).1,
        ⟨"/x/../a.swift", by simp [crossedSecond], by decide +kernel, by decide +kernel⟩, ?_,
        ["/bin/swiftc", "-second"], ["-second"], .list rfl,
          .compiler (by decide +kernel), by decide +kernel⟩⟩
      intro s hs _ _
      rcases List.mem_pair.1 hs with rfl | rfl
      · exact le_refl _
      · exact hkeys

end Plan

end ExplicitSelf
