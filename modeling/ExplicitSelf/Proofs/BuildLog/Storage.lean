import ExplicitSelf.BuildLog.Decode
import ExplicitSelf.Proofs.Gzip.Members
import ExplicitSelf.Proofs.Text.Decode

/-!
# The two forms of a stored log

A log is stored as its text or as a gzip stream of it, and only the first two octets tell which. No
text starts with these two: the second of them continues a character, and the first is one by
itself. So a text is never taken for a stream, and both forms are read back.

Results:
* `decodeText_eq_ok_iff`: octets read as a text are the octets of this text.
* `decode_magic`: the first two octets of a stream are no text.
* `decode_eq_ok_iff`: a log reads as a text if and only if it is one of the two forms of it.
* `decode_undoes_storage`: both forms are read back, and nothing else is read.
-/
namespace ExplicitSelf.BuildLog

open Text (Octets encode)

theorem decodeText_eq_ok_iff {bs : Octets} {t : String} :
    decodeText bs = .ok t ↔ bs = encode t.toList := by
  refine ⟨fun h => ?_, fun h => ?_⟩
  · unfold decodeText at h
    split at h
    · rename_i cs hcs
      cases h
      rw [String.toList_ofList, Text.encode_of_decode hcs]
    · cases h
  · unfold decodeText
    rw [h, Text.decode_encode]
    simp

/-- The second octet of a stream is no first octet of a character. -/
theorem decode_magic (r : Octets) : Text.decode (Gzip.magic ++ r) = .error ⟨1, some 1⟩ := by
  have hfirst : Text.front 0x1F (0x8B :: r) = .char '\x1f' := rfl
  have hsecond : Text.front 0x8B r = .damaged 1 := rfl
  have hwidth : Text.width '\x1f' - 1 = 0 := rfl
  rw [Gzip.magic, List.cons_append, List.cons_append, List.nil_append, Text.decode, Text.decodeFrom,
    hfirst]
  simp only [hwidth]
  rw [Text.decodeFrom, hsecond]
  rfl

/-- No text starts as a stream does. -/
theorem not_magic_isPrefix_encode (cs : List Char) : ¬Gzip.magic <+: encode cs := by
  intro h
  obtain ⟨r, hr⟩ := h
  have hread := Text.decode_encode cs
  rw [← hr, decode_magic] at hread
  cases hread

/-- A log reads as a text if and only if it is the octets of the text, or a stream that holds
them. -/
theorem decode_eq_ok_iff {bs : Octets} {t : String} :
    decode bs = .ok t ↔
      bs = encode t.toList ∨ Gzip.magic <+: bs ∧ Gzip.Stream bs (encode t.toList) := by
  unfold decode
  split
  · rename_i hmagic
    rw [List.isPrefixOf_iff_prefix] at hmagic
    have hne : bs ≠ [] := by
      intro hnil
      rw [hnil] at hmagic
      cases hmagic.length_le
    have hplain : bs ≠ encode t.toList := by
      intro htext
      rw [htext] at hmagic
      exact not_magic_isPrefix_encode _ hmagic
    simp only [hplain, false_or, hmagic, true_and]
    refine ⟨fun h => ?_, fun h => ?_⟩
    · split at h
      · rename_i content hcontent
        rw [← decodeText_eq_ok_iff.1 h]
        exact (Gzip.gunzip_eq_some_iff.1 hcontent).2
      · cases h
    · rw [Gzip.gunzip_eq_some_iff.2 ⟨hne, h⟩]
      exact decodeText_eq_ok_iff.2 rfl
  · rename_i hmagic
    rw [List.isPrefixOf_iff_prefix] at hmagic
    simp only [decodeText_eq_ok_iff, hmagic, false_and, or_false]

/-- Both forms of a log are read back: a text is never taken for a stream, and a stream is read
whatever its members are. What is read is one of the two forms. -/
theorem decode_undoes_storage (t : String) :
    ¬Gzip.magic <+: encode t.toList ∧ decode (encode t.toList) = .ok t ∧
      (∀ bs, Gzip.Stream bs (encode t.toList) → decode bs = .ok t) ∧
      ∀ bs, decode bs = .ok t →
        bs = encode t.toList ∨
          Gzip.magic <+: bs ∧ Gzip.Stream bs (encode t.toList) ∧
            Gzip.gunzip bs = some (encode t.toList) := by
  refine ⟨not_magic_isPrefix_encode _, decode_eq_ok_iff.2 (.inl rfl), fun bs h => ?_,
    fun bs h => ?_⟩
  · by_cases hne : bs = []
    · subst hne
      exact decode_eq_ok_iff.2 (.inl h.eq_nil.symm)
    · exact decode_eq_ok_iff.2 (.inr ⟨h.isPrefix hne, h⟩)
  · rcases decode_eq_ok_iff.1 h with hplain | ⟨hmagic, hstream⟩
    · exact .inl hplain
    · have hne : bs ≠ [] := by
        intro hnil
        rw [hnil] at hmagic
        cases hmagic.length_le
      exact .inr ⟨hmagic, hstream, Gzip.gunzip_eq_some_iff.2 ⟨hne, hstream⟩⟩

/-- A member with one block under the fixed codes: an octet, a repetition of it and another
character. -/
def repeatedMember : Octets :=
  [0x1F, 0x8B, 8, 0, 0, 0, 0, 0, 0, 255, 0x4B, 0x4C, 0x04, 0x83, 0xC3, 0x2B, 0x01, 0x8F, 0x4A, 0x39,
    0x7E, 9, 0, 0, 0]

/-- A stored member and a compressed one, one after the other. -/
theorem decode_undoes_storage_members :
    Gzip.Stream (Gzip.store (encode "é\n".toList) ++ repeatedMember) (encode "é\naaaaaaaé".toList) ∧
      decode (Gzip.store (encode "é\n".toList) ++ repeatedMember) = .ok "é\naaaaaaaé" ∧
      decode (encode "é\n".toList) = .ok "é\n" := by
  have hcontent : Gzip.gunzip repeatedMember = some (encode "aaaaaaaé".toList) := by decide +kernel
  have hjoined : encode "é\naaaaaaaé".toList = encode "é\n".toList ++ encode "aaaaaaaé".toList := by
    decide
  have hstream : Gzip.Stream (Gzip.store (encode "é\n".toList) ++ repeatedMember)
      (encode "é\naaaaaaaé".toList) := by
    rw [hjoined]
    exact .cons (Gzip.member_store _) (Gzip.gunzip_eq_some_iff.1 hcontent).2
  exact ⟨hstream, (decode_undoes_storage _).2.2.1 _ hstream, (decode_undoes_storage _).2.1⟩

end ExplicitSelf.BuildLog
