import ExplicitSelf.Path.Basic
import ExplicitSelf.Proofs.Text.Decode

/-!
# Names and paths that are texts

A name or a path that is made from a text is shown as this text, and texts make different names.
Names that are made from no text exist too: they have no text (`Name.text?`).

Results:
* `Name.text?_eq_some_iff`: the names that have a text.
* `Name.text_ofText`, `Path.text_ofText`, `Name.text_eq_iff`: a text is shown as it is.
* `Name.ofText_injective`, `Path.ofText_injective`: different texts, different names.
* `Name.slash_notMem_ofText`, `Name.slash_notMem_text`: a slash is a slash in both.
-/
namespace ExplicitSelf

open Text (encode decode decodeLossy)

theorem ofList_decodeLossy_encode (s : String) :
    String.ofList (decodeLossy (encode s.toList)) = s := by
  rw [Text.decodeLossy_of_decode (Text.decode_encode _), String.ofList_toList]

namespace Name

/-- A name has a text if it is made from it. -/
theorem text?_eq_some_iff {n : Name} {s : String} : n.text? = some s ↔ n = ofText s := by
  unfold text? ofText
  obtain ⟨octets⟩ := n
  constructor
  · intro h
    obtain ⟨cs, hcs, rfl⟩ := Option.map_eq_some_iff.1 h
    cases hdecode : decode octets with
    | error fault => rw [hdecode] at hcs; cases hcs
    | ok cs' =>
      rw [hdecode] at hcs
      cases hcs
      rw [String.toList_ofList, Text.encode_of_decode hdecode]
  · intro h
    cases h
    rw [Text.decode_encode]
    exact congrArg some String.ofList_toList

@[simp] theorem text_ofText (s : String) : (ofText s).text = s :=
  ofList_decodeLossy_encode s

theorem ofText_injective : Function.Injective ofText :=
  fun a b h => by rw [← text_ofText a, h, text_ofText]

/-- A name that is shown without replacements is the one that it is shown as. -/
theorem text_eq_iff {n : Name} {s : String} (h : Text.replacement ∉ s.toList) :
    n.text = s ↔ n = s := by
  constructor
  · rintro rfl
    rw [text, String.toList_ofList] at h
    rw [← text?_eq_some_iff, text?, Text.decode_of_decodeLossy h]
    rfl
  · rintro rfl
    exact text_ofText s

theorem slash_notMem_ofText {s : String} (h : '/' ∉ s.toList) : Path.slash ∉ (ofText s).octets :=
  fun hslash => h (Text.mem_of_mem_encode (c := '/') (by decide) hslash)

theorem slash_notMem_text {n : Name} (h : Path.slash ∉ n.octets) : '/' ∉ n.text.toList := by
  rw [text, String.toList_ofList]
  exact fun hslash => h (Text.mem_of_mem_decodeLossy (c := '/') (by decide) hslash)

end Name

namespace Path

@[simp] theorem text_ofText (s : String) : (ofText s).text = s :=
  ofList_decodeLossy_encode s

theorem ofText_injective : Function.Injective ofText :=
  fun a b h => by rw [← text_ofText a, h, text_ofText]

/-- A path that is not empty is not shown as an empty text. -/
theorem text_ne_nil {p : Path} (h : p.octets ≠ []) : p.text.toList ≠ [] := by
  obtain ⟨a, r, ha⟩ := List.exists_cons_of_ne_nil h
  rw [text, String.toList_ofList, Text.decodeLossy, ha, Text.decodeLossyFrom]
  split <;> simp

end Path

end ExplicitSelf
