import ExplicitSelf.Plan.Basic

/-!
# What a plan says about a file

A plan is built step by step, and a step that compiles a file replaces what earlier steps said about
it. So the last step that compiles the file decides (`stepArguments?`).

Results:
* `Keyed.get?_put`: a value that is put is found under every key that means the same, and nowhere
  else.
* `ofCommands_eq_ok`: a plan can be built if each compile step can be read.
* `arguments?_ofCommands`, `arguments?_of_only_step`: what it says about a file.
* `exists_of_arguments?`: what it says is a normal form.
-/
namespace ExplicitSelf

namespace Keyed

variable {α β γ : Type} {same : α → α → Bool} (meaning : α → γ)

theorem get?_put (hsame : ∀ a b, same a b = true ↔ meaning a = meaning b) (k k' : α) (v : β)
    (l : List (α × β)) :
    get? same k (put same k' v l) = if same k' k then some v else get? same k l := by
  induction l with
  | nil => simp only [put, get?]
  | cons e l ih =>
    obtain ⟨k₀, v₀⟩ := e
    rw [put]
    split
    · -- The key that is replaced has the meaning of `k'`.
      rename_i hput
      have hmeans : same k₀ k = same k' k := by
        rw [Bool.eq_iff_iff, hsame, hsame, (hsame _ _).1 hput]
      simp only [get?, hmeans]
      split <;> rfl
    · rename_i hput
      simp only [get?, ih]
      by_cases hk₀ : same k₀ k = true
      · -- Otherwise `k₀` would mean the same as `k'`, through `k`.
        have hk' : same k' k = false := by
          rw [Bool.eq_false_iff]
          intro hk'
          exact hput ((hsame _ _).2 (((hsame _ _).1 hk₀).trans ((hsame _ _).1 hk').symm))
        simp [hk₀, hk']
      · simp [hk₀]

theorem get?_foldl_put (hsame : ∀ a b, same a b = true ↔ meaning a = meaning b) (k : α) (v : β)
    (ks : List α) (l : List (α × β)) :
    get? same k (ks.foldl (fun l k' => put same k' v l) l) =
      if ks.any (same · k) then some v else get? same k l := by
  induction ks generalizing l with
  | nil => rfl
  | cons k' ks ih =>
    rw [List.foldl_cons, ih, get?_put meaning hsame, List.any_cons]
    by_cases hk' : same k' k = true <;> simp [hk']

end Keyed

namespace Plan

variable {delimiter : Option String} {file : Path}

/-- Whether a step compiles a file. -/
def compiles (file : Path) (step : String × Command) : Bool :=
  isCompileStep step.1 step.2 && (sources step.2).any (·.same file)

/-- A source that is written in its normal form is compiled by the steps that list it. -/
theorem compiles_of_mem_inputs {step : String × Command} {source : String}
    (hstep : isCompileStep step.1 step.2 = true)
    (hnormal : (Path.ofText source).normalize = Path.ofText source)
    (hsuffix : Text.endsWith source.toList ".swift".toList = true)
    (hinput : source ∈ step.2.inputs) : compiles source step = true := by
  have hsource : Path.ofText source ∈ sources step.2 :=
    List.mem_map.2 ⟨source, List.mem_filter.2 ⟨hinput, hsuffix⟩, hnormal⟩
  rw [compiles, hstep, Bool.true_and, List.any_eq_true]
  exact ⟨Path.ofText source, hsource, by simp [Path.same]⟩

/-- What a step says about a file. -/
def stepArguments? (delimiter : Option String) (file : Path) (step : String × Command) :
    Option (List String) :=
  if compiles file step then (compilerArguments delimiter step.2).toOption else none

theorem arguments?_foldl_put (plan : Plan) (as : List String) (ps : List Path) :
    Plan.arguments? ⟨ps.foldl (fun fs p => Keyed.put Path.same p as fs) plan.files⟩ file =
      if ps.any (·.same file) then some as else plan.arguments? file :=
  Keyed.get?_foldl_put Path.components (by simp [Path.same]) file as ps plan.files

/-- The last step that compiles the file decides. -/
theorem arguments?_addSteps {steps : List (String × Command)} {plan plan' : Plan}
    (h : addSteps delimiter steps plan = .ok plan') :
    plan'.arguments? file =
      (steps.reverse.findSome? (stepArguments? delimiter file)).or (plan.arguments? file) := by
  induction steps generalizing plan with
  | nil =>
    cases h
    rfl
  | cons step rest ih =>
    obtain ⟨key, c⟩ := step
    -- the first step is the last that is looked at, right before the plan that it was added to
    rw [List.reverse_cons, List.findSome?_append, List.findSome?_singleton, Option.or_assoc]
    rw [addSteps] at h
    split at h
    · rename_i hstep
      cases has : compilerArguments delimiter c with
      | error e => simp [has] at h
      | ok as =>
        simp only [has] at h
        rw [ih h, arguments?_foldl_put, stepArguments?, compiles, hstep, Bool.true_and]
        split <;> simp [has, Except.toOption]
    · rename_i hstep
      rw [ih h, stepArguments?, compiles]
      simp [hstep]

theorem addSteps_eq_ok {steps : List (String × Command)}
    (h : ∀ step ∈ steps, isCompileStep step.1 step.2 = true →
      ∃ as, compilerArguments delimiter step.2 = .ok as) (plan : Plan) :
    ∃ plan', addSteps delimiter steps plan = .ok plan' := by
  induction steps generalizing plan with
  | nil => exact ⟨plan, rfl⟩
  | cons step rest ih =>
    obtain ⟨key, c⟩ := step
    have hrest := ih fun s hs => h s (List.mem_cons_of_mem _ hs)
    rw [addSteps]
    split
    · rename_i hstep
      obtain ⟨as, has⟩ := h (key, c) (List.mem_cons_self ..) hstep
      simp only at has
      simp only [has]
      exact hrest _
    · exact hrest _

theorem ofCommands_eq_ok {commands : List (String × Command)}
    (h : ∀ step ∈ commands, isCompileStep step.1 step.2 = true →
      ∃ as, compilerArguments delimiter step.2 = .ok as) :
    ∃ plan, ofCommands delimiter commands = .ok plan :=
  addSteps_eq_ok (fun step hs => h step (List.mem_mergeSort.1 hs)) _

/-- The last step in the order of keys decides. -/
theorem arguments?_ofCommands {commands : List (String × Command)} {plan : Plan}
    (h : ofCommands delimiter commands = .ok plan) :
    plan.arguments? file =
      (commands.mergeSort fun a b => a.1 ≤ b.1).reverse.findSome?
        (stepArguments? delimiter file) := by
  rw [arguments?_addSteps h]
  exact Option.or_none

theorem stepArguments?_of_compiles {step : String × Command} {as : List String}
    (hstep : compiles file step = true) (has : compilerArguments delimiter step.2 = .ok as) :
    stepArguments? delimiter file step = some as := by
  rw [stepArguments?, if_pos hstep, has]
  rfl

theorem findSome?_of_only {α β : Type} {f : α → Option β} {l : List α} {x : α} {v : β} (hx : x ∈ l)
    (hv : f x = some v) (honly : ∀ y ∈ l, y = x ∨ f y = none) : l.findSome? f = some v := by
  cases h : l.findSome? f with
  | none =>
    rw [List.findSome?_eq_none_iff.1 h x hx] at hv
    cases hv
  | some w =>
    obtain ⟨y, hy, hw⟩ := List.exists_of_findSome?_eq_some h
    rcases honly y hy with rfl | hnone
    · rw [← hw, hv]
    · rw [hnone] at hw
      cases hw

/-- A file that one step compiles has the arguments of this step, if the plan can be built. -/
theorem arguments?_of_only_step {text : String} {before after : List (String × Command)}
    {step : String × Command} {as : List String}
    (htext : commands? text = some (some (before ++ step :: after)))
    (hstep : compiles file step = true) (has : compilerArguments delimiter step.2 = .ok as)
    (hothers : ∀ s ∈ before ++ after, compiles file s = false ∧
      (isCompileStep s.1 s.2 = true → ∃ bs, compilerArguments delimiter s.2 = .ok bs)) :
    ∃ plan, parse delimiter text = .ok plan ∧ plan.arguments? file = some as := by
  have hmem : ∀ s, s ∈ before ++ step :: after ↔ s = step ∨ s ∈ before ++ after := by
    intro s
    simp only [List.mem_append, List.mem_cons]
    exact or_left_comm
  have hread : ∀ s ∈ before ++ step :: after, isCompileStep s.1 s.2 = true →
      ∃ bs, compilerArguments delimiter s.2 = .ok bs := by
    intro s hs hcompile
    rcases (hmem s).1 hs with rfl | hs
    · exact ⟨as, has⟩
    · exact (hothers s hs).2 hcompile
  obtain ⟨plan, hplan⟩ := ofCommands_eq_ok hread
  refine ⟨plan, by simp only [parse, htext, hplan], ?_⟩
  rw [arguments?_ofCommands hplan]
  have hin : ∀ s, s ∈ (List.mergeSort (before ++ step :: after) fun a b => a.1 ≤ b.1).reverse ↔
      s = step ∨ s ∈ before ++ after := by
    intro s
    rw [List.mem_reverse, List.mem_mergeSort, hmem]
  refine findSome?_of_only ((hin step).2 (.inl rfl)) (stepArguments?_of_compiles hstep has) ?_
  intro s hs
  rcases (hin s).1 hs with rfl | hs
  · exact .inl rfl
  · exact .inr (by simp [stepArguments?, (hothers s hs).1])

/-! ## Normal forms -/

theorem exists_of_compilerArguments {c : Command} {as : List String}
    (h : compilerArguments delimiter c = .ok as) : ∃ raw, as = Arguments.normalize raw := by
  unfold compilerArguments at h
  split at h
  · cases h
  · split at h
    · cases h
      exact ⟨_, rfl⟩
    · split at h
      · cases h
        exact ⟨_, rfl⟩
      · cases h

theorem exists_of_stepArguments? {step : String × Command} {as : List String}
    (h : stepArguments? delimiter file step = some as) : ∃ raw, as = Arguments.normalize raw := by
  unfold stepArguments? at h
  split at h
  · cases has : compilerArguments delimiter step.2 with
    | error e => simp [has, Except.toOption] at h
    | ok bs =>
      simp only [has, Except.toOption, Option.some.injEq] at h
      exact h ▸ exists_of_compilerArguments has
  · cases h

/-- Whatever a plan says about a file is the normal form of some arguments. -/
theorem exists_of_arguments? {text : String} {plan : Plan} {as : List String}
    (hplan : parse delimiter text = .ok plan) (h : plan.arguments? file = some as) :
    ∃ raw, as = Arguments.normalize raw := by
  unfold parse at hplan
  split at hplan
  · cases hplan
  · cases hplan
  · rw [arguments?_ofCommands hplan] at h
    obtain ⟨step, _, hstep⟩ := List.exists_of_findSome?_eq_some h
    exact exists_of_stepArguments? hstep

end Plan

end ExplicitSelf
