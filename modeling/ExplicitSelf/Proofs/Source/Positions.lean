import ExplicitSelf.Proofs.Text.Boundary
import ExplicitSelf.Source.LineTable

/-!
# Positions stay inside the text

Results:
* `starts_le_size`: no line starts past the end of the text.
* `le_size_of_offsetAt?`: a line and column that stand for an offset stand for one inside the text
  or at its end.
* `exists_lineColumn?`: every such offset has a line and column.
-/
namespace ExplicitSelf.Source

open Text (width size size_cons)

theorem tabulate_starts_le (cs : List Char) (i u : Nat) (flag : Bool) :
    ∀ s ∈ (tabulate i u flag cs).1, s ≤ i + size cs := by
  induction cs generalizing i u flag with
  | nil => intro s hs; cases hs
  | cons c cs ih =>
    intro s hs
    rw [tabulate] at hs
    rw [size_cons]
    split at hs
    · rcases List.mem_cons.1 hs with rfl | hs
      · omega
      · have := ih _ _ _ s hs
        omega
    · have := ih _ _ _ s hs
      omega

namespace LineTable

@[simp] theorem ofText_text (text : List Char) : (ofText text).text = text := rfl

/-- No line starts past the end of the text. -/
theorem starts_le_size (text : List Char) {s : Nat} (hs : s ∈ (ofText text).starts) :
    s ≤ size text := by
  rcases List.mem_cons.1 hs with rfl | hs
  · exact Nat.zero_le _
  · have := tabulate_starts_le text 0 0 true s hs
    omega

/-- A position stands for an offset inside the text or at its end. -/
theorem le_size_of_offsetAt? (text : List Char) {line column : UInt32} {o : Nat}
    (h : (ofText text).offsetAt? line column = some o) : o ≤ size text := by
  unfold offsetAt? lineLength? at h
  split at h
  · cases h
  · split at h
    · rename_i start n hstart hlen
      split at hlen
      · cases hlen
      · simp only [hstart, Option.map_some, Option.some.injEq, ofText_text] at hlen h
        split at h
        · cases h
        · rename_i hin
          cases h
          have hs := starts_le_size text (List.mem_of_getElem? hstart)
          have hnext : (ofText text).starts.getD (line.toNat - 1 + 1) (size text) ≤ size text := by
            rw [List.getD_eq_getElem?_getD]
            cases hg : (ofText text).starts[line.toNat - 1 + 1]? with
            | none => exact Nat.le_refl _
            | some s => exact starts_le_size text (List.mem_of_getElem? hg)
          omega
    · cases h

/-- Every offset inside the text or at its end has a line and column. -/
theorem exists_lineColumn? (t : LineTable) {o : Nat} (h : o ≤ size t.text) :
    ∃ p, t.lineColumn? o = some p := by
  unfold lineColumn?
  rw [if_neg (by omega)]
  exact ⟨_, rfl⟩

theorem lineColumn?_eq_none (t : LineTable) {o : Nat} (h : size t.text < o) :
    t.lineColumn? o = none := by
  unfold lineColumn?
  rw [if_pos h]

end LineTable

end ExplicitSelf.Source
