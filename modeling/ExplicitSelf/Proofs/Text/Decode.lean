import ExplicitSelf.Proofs.Text.Boundary

/-!
# Reading octets back

Octets that read as a text are the octets of that text: no character has two forms. And every text
is read back from its octets.

Results:
* `encodeChar_of_front`: a character at the front is written as it stands there.
* `encode_of_decode`: what is read is written back as it was.
* `exists_front`: the octets of a character have it at their front.
* `decode_encode`: what is written is read back.
* `decodeLossy_of_decode`, `decode_of_decodeLossy`: nothing is replaced in octets that are a text.
* `mem_of_mem_encode`, `mem_of_mem_decodeLossy`: characters of one octet.
-/
namespace ExplicitSelf.Text

theorem toNat_ofNat {n : Nat} (h : n.isValidChar) : (Char.ofNat n).toNat = n := by
  unfold Char.ofNat
  rw [dif_pos h]
  rfl

theorem ofNat_of_eq {a : UInt8} {n : Nat} (h : n = a.toNat) : UInt8.ofNat n = a := by
  rw [h, UInt8.ofNat_toNat]

section
variable {a b c d : UInt8}

theorem isContinuation_iff : isContinuation b = true ↔ 0x80 ≤ b.toNat ∧ b.toNat < 0xC0 := by
  simp [isContinuation]

/-- A second octet continues a character, and keeps it clear of overlong forms and of surrogates. -/
theorem follows3_iff : follows3 a b = true ↔ (0x80 ≤ b.toNat ∧ b.toNat < 0xC0) ∧
    (a.toNat = 0xE0 → 0xA0 ≤ b.toNat) ∧ (a.toNat = 0xED → b.toNat < 0xA0) := by
  unfold follows3
  split
  · simp only [Bool.and_eq_true, decide_eq_true_eq]
    omega
  · split
    · simp only [Bool.and_eq_true, decide_eq_true_eq]
      omega
    · rw [isContinuation_iff]
      omega

theorem follows4_iff : follows4 a b = true ↔ (0x80 ≤ b.toNat ∧ b.toNat < 0xC0) ∧
    (a.toNat = 0xF0 → 0x90 ≤ b.toNat) ∧ (a.toNat = 0xF4 → b.toNat < 0x90) := by
  unfold follows4
  split
  · simp only [Bool.and_eq_true, decide_eq_true_eq]
    omega
  · split
    · simp only [Bool.and_eq_true, decide_eq_true_eq]
      omega
    · rw [isContinuation_iff]
      omega

theorem encodeChar_char1 (ha : a.toNat < 0x80) : encodeChar (.ofNat a.toNat) = [a] := by
  have hn : (Char.ofNat a.toNat).toNat = a.toNat := toNat_ofNat (.inl (by omega))
  simp only [encodeChar, hn]
  rw [if_pos ha, UInt8.ofNat_toNat]

theorem encodeChar_char2 (ha : 0xC2 ≤ a.toNat ∧ a.toNat < 0xE0) (hb : isContinuation b = true) :
    encodeChar (char2 a b) = [a, b] := by
  rw [isContinuation_iff] at hb
  have hn : (char2 a b).toNat = (a.toNat - 0xC0) * 64 + (b.toNat - 0x80) :=
    toNat_ofNat (.inl (by omega))
  simp only [encodeChar, hn]
  rw [if_neg (by omega), if_pos (by omega)]
  simp only [List.cons.injEq, and_true]
  exact ⟨ofNat_of_eq (by omega), ofNat_of_eq (by omega)⟩

theorem encodeChar_char3 (ha : 0xE0 ≤ a.toNat ∧ a.toNat < 0xF0) (hb : follows3 a b = true)
    (hc : isContinuation c = true) : encodeChar (char3 a b c) = [a, b, c] := by
  rw [follows3_iff] at hb
  rw [isContinuation_iff] at hc
  have hvalid :
      ((a.toNat - 0xE0) * 4096 + (b.toNat - 0x80) * 64 + (c.toNat - 0x80)).isValidChar := by
    unfold Nat.isValidChar
    omega
  have hn : (char3 a b c).toNat = _ := toNat_ofNat hvalid
  simp only [encodeChar, hn]
  rw [if_neg (by omega), if_neg (by omega), if_pos (by omega)]
  simp only [List.cons.injEq, and_true]
  exact ⟨ofNat_of_eq (by omega), ofNat_of_eq (by omega), ofNat_of_eq (by omega)⟩

theorem encodeChar_char4 (ha : 0xF0 ≤ a.toNat ∧ a.toNat < 0xF5) (hb : follows4 a b = true)
    (hc : isContinuation c = true) (hd : isContinuation d = true) :
    encodeChar (char4 a b c d) = [a, b, c, d] := by
  rw [follows4_iff] at hb
  rw [isContinuation_iff] at hc hd
  have hvalid : ((a.toNat - 0xF0) * 262144 + (b.toNat - 0x80) * 4096 + (c.toNat - 0x80) * 64
      + (d.toNat - 0x80)).isValidChar := by
    unfold Nat.isValidChar
    omega
  have hn : (char4 a b c d).toNat = _ := toNat_ofNat hvalid
  simp only [encodeChar, hn]
  rw [if_neg (by omega), if_neg (by omega), if_neg (by omega)]
  simp only [List.cons.injEq, and_true]
  exact ⟨ofNat_of_eq (by omega), ofNat_of_eq (by omega), ofNat_of_eq (by omega),
    ofNat_of_eq (by omega)⟩

end

/-- A character at the front is written as it stands there. -/
theorem encodeChar_of_front {a : UInt8} {r : Octets} {c : Char} (h : front a r = .char c) :
    ∃ rest, a :: r = encodeChar c ++ rest := by
  unfold front at h
  split at h
  · rename_i ha
    exact ⟨r, by rw [← Front.char.inj h, encodeChar_char1 ha]; rfl⟩
  · split at h
    · rename_i ha
      split at h
      · cases h
      · rename_i b rest
        split at h
        · rename_i hb
          exact ⟨rest, by rw [← Front.char.inj h, encodeChar_char2 ha hb]; rfl⟩
        · cases h
    · split at h
      · rename_i ha
        split at h
        · cases h
        · split at h <;> cases h
        · rename_i b c' rest
          split at h
          · rename_i hb
            split at h
            · rename_i hc
              exact ⟨rest, by rw [← Front.char.inj h, encodeChar_char3 ha hb hc]; rfl⟩
            · cases h
          · cases h
      · split at h
        · rename_i ha
          split at h
          · cases h
          · split at h <;> cases h
          · split at h
            · split at h <;> cases h
            · cases h
          · rename_i b c' d rest
            split at h
            · rename_i hb
              split at h
              · rename_i hc
                split at h
                · rename_i hd
                  exact ⟨rest, by rw [← Front.char.inj h, encodeChar_char4 ha hb hc hd]; rfl⟩
                · cases h
              · cases h
            · cases h
        · cases h

theorem encode_of_decodeFrom (bs : Octets) : ∀ (i skip : Nat) {cs : List Char},
    decodeFrom i skip bs = .ok cs → encode cs = bs.drop skip := by
  induction bs with
  | nil =>
    intro i skip cs h
    rw [decodeFrom] at h
    cases h
    simp
  | cons a r ih =>
    intro i skip cs h
    cases skip with
    | succ skip =>
      rw [decodeFrom] at h
      exact ih (i + 1) skip h
    | zero =>
      rw [decodeFrom] at h
      split at h
      · rename_i c hfront
        cases hrest : decodeFrom (i + 1) (width c - 1) r with
        | error e => rw [hrest] at h; cases h
        | ok cs' =>
          rw [hrest] at h
          cases h
          obtain ⟨rest, hsplit⟩ := encodeChar_of_front hfront
          have hwidth := encodeChar_length c
          have hpos := width_pos c
          -- The octets that are skipped are those of the character.
          have hdrop : r.drop (width c - 1) = rest := by
            have hall : (a :: r).drop (width c) = rest := by
              rw [hsplit, ← hwidth, List.drop_left]
            obtain ⟨n, hn⟩ : ∃ n, width c = n + 1 := ⟨width c - 1, by omega⟩
            rw [hn, List.drop_succ_cons] at hall
            rw [hn]
            exact hall
          rw [encode_cons, ih _ _ hrest, hdrop, List.drop_zero, hsplit]
      · cases h
      · cases h

/-- What is read as a text is written back as it was. -/
theorem encode_of_decode {bs : Octets} {cs : List Char} (h : decode bs = .ok cs) : encode cs = bs :=
  encode_of_decodeFrom bs 0 0 h

/-! ## Characters at the front -/

section
variable {c : Char} (r : Octets)

theorem isContinuation_octet {n : Nat} (h : n < 64) :
    isContinuation (.ofNat (0x80 + n)) = true := by
  rw [isContinuation_iff, UInt8.toNat_ofNat_of_lt' (show 0x80 + n < 256 by omega)]
  omega

theorem ofNat_of_eq_toNat {n : Nat} (h : n = c.toNat) : Char.ofNat n = c := by
  rw [h, Char.ofNat_toNat]

theorem front_char1 (h : c.toNat < 0x80) : front (.ofNat c.toNat) r = .char c := by
  unfold front
  rw [UInt8.toNat_ofNat_of_lt' (show c.toNat < 256 by omega), if_pos h, Char.ofNat_toNat]

theorem front_char2 (hlow : 0x80 ≤ c.toNat) (hhigh : c.toNat < 0x800) :
    front (.ofNat (0xC0 + c.toNat / 64)) (.ofNat (0x80 + c.toNat % 64) :: r) = .char c := by
  have ha := UInt8.toNat_ofNat_of_lt' (show 0xC0 + c.toNat / 64 < 256 by omega)
  have hb := UInt8.toNat_ofNat_of_lt' (show 0x80 + c.toNat % 64 < 256 by omega)
  have hchar : char2 (.ofNat (0xC0 + c.toNat / 64)) (.ofNat (0x80 + c.toNat % 64)) = c := by
    rw [char2, ha, hb]
    exact ofNat_of_eq_toNat (by omega)
  simp only [front, ha]
  rw [if_neg (by omega), if_pos (by omega), if_pos (isContinuation_octet (by omega)), hchar]

theorem front_char3 (hlow : 0x800 ≤ c.toNat) (hhigh : c.toNat < 0x10000) :
    front (.ofNat (0xE0 + c.toNat / 4096)) (.ofNat (0x80 + c.toNat / 64 % 64) ::
      .ofNat (0x80 + c.toNat % 64) :: r) = .char c := by
  have hvalid : c.toNat < 0xD800 ∨ 0xDFFF < c.toNat ∧ c.toNat < 0x110000 := c.valid
  have ha := UInt8.toNat_ofNat_of_lt' (show 0xE0 + c.toNat / 4096 < 256 by omega)
  have hb := UInt8.toNat_ofNat_of_lt' (show 0x80 + c.toNat / 64 % 64 < 256 by omega)
  have hc := UInt8.toNat_ofNat_of_lt' (show 0x80 + c.toNat % 64 < 256 by omega)
  have hsecond : follows3 (.ofNat (0xE0 + c.toNat / 4096)) (.ofNat (0x80 + c.toNat / 64 % 64)) =
      true := by
    rw [follows3_iff, ha, hb]
    omega
  have hchar : char3 (.ofNat (0xE0 + c.toNat / 4096)) (.ofNat (0x80 + c.toNat / 64 % 64))
      (.ofNat (0x80 + c.toNat % 64)) = c := by
    rw [char3, ha, hb, hc]
    exact ofNat_of_eq_toNat (by omega)
  simp only [front, ha]
  rw [if_neg (by omega), if_neg (by omega), if_pos (by omega), if_pos hsecond,
    if_pos (isContinuation_octet (by omega)), hchar]

theorem front_char4 (hlow : 0x10000 ≤ c.toNat) :
    front (.ofNat (0xF0 + c.toNat / 262144)) (.ofNat (0x80 + c.toNat / 4096 % 64) ::
      .ofNat (0x80 + c.toNat / 64 % 64) :: .ofNat (0x80 + c.toNat % 64) :: r) = .char c := by
  have hvalid : c.toNat < 0xD800 ∨ 0xDFFF < c.toNat ∧ c.toNat < 0x110000 := c.valid
  have ha := UInt8.toNat_ofNat_of_lt' (show 0xF0 + c.toNat / 262144 < 256 by omega)
  have hb := UInt8.toNat_ofNat_of_lt' (show 0x80 + c.toNat / 4096 % 64 < 256 by omega)
  have hc := UInt8.toNat_ofNat_of_lt' (show 0x80 + c.toNat / 64 % 64 < 256 by omega)
  have hd := UInt8.toNat_ofNat_of_lt' (show 0x80 + c.toNat % 64 < 256 by omega)
  have hsecond : follows4 (.ofNat (0xF0 + c.toNat / 262144)) (.ofNat (0x80 + c.toNat / 4096 % 64)) =
      true := by
    rw [follows4_iff, ha, hb]
    omega
  have hchar : char4 (.ofNat (0xF0 + c.toNat / 262144)) (.ofNat (0x80 + c.toNat / 4096 % 64))
      (.ofNat (0x80 + c.toNat / 64 % 64)) (.ofNat (0x80 + c.toNat % 64)) = c := by
    rw [char4, ha, hb, hc, hd]
    exact ofNat_of_eq_toNat (by omega)
  simp only [front, ha]
  rw [if_neg (by omega), if_neg (by omega), if_neg (by omega), if_pos (by omega), if_pos hsecond,
    if_pos (isContinuation_octet (by omega)), if_pos (isContinuation_octet (by omega)), hchar]

end

/-- The octets of a character have it at their front, whatever follows. -/
theorem exists_front (c : Char) :
    ∃ a r, encodeChar c = a :: r ∧ ∀ rest, front a (r ++ rest) = .char c := by
  unfold encodeChar
  simp only
  split
  · rename_i h
    exact ⟨_, _, rfl, fun rest => front_char1 rest h⟩
  · split
    · rename_i hlow hhigh
      exact ⟨_, _, rfl, fun rest => front_char2 rest (by omega) hhigh⟩
    · split
      · rename_i hlow hhigh
        exact ⟨_, _, rfl, fun rest => front_char3 rest (by omega) hhigh⟩
      · exact ⟨_, _, rfl, fun rest => front_char4 rest (by omega)⟩

/-- What belongs to the character before is skipped. -/
theorem decodeFrom_skip (i : Nat) (w r : Octets) :
    decodeFrom i w.length (w ++ r) = decodeFrom (i + w.length) 0 r := by
  induction w generalizing i with
  | nil => rfl
  | cons a w ih =>
    rw [List.cons_append, List.length_cons, decodeFrom, ih, Nat.add_assoc, Nat.add_comm 1]

theorem decodeFrom_encode (i : Nat) (cs : List Char) : decodeFrom i 0 (encode cs) = .ok cs := by
  induction cs generalizing i with
  | nil => rfl
  | cons c cs ih =>
    obtain ⟨a, r, hc, hfront⟩ := exists_front c
    have hwidth : width c - 1 = r.length := by
      rw [← encodeChar_length, hc, List.length_cons, Nat.add_sub_cancel]
    rw [encode_cons, hc, List.cons_append, decodeFrom, hfront]
    simp only [hwidth, decodeFrom_skip, ih]
    rfl

/-- A text is read back from its octets. -/
theorem decode_encode (cs : List Char) : decode (encode cs) = .ok cs :=
  decodeFrom_encode 0 cs

theorem decodeLossyFrom_of_decodeFrom (bs : Octets) : ∀ (i skip : Nat) {cs : List Char},
    decodeFrom i skip bs = .ok cs → decodeLossyFrom skip bs = cs := by
  induction bs with
  | nil =>
    intro i skip cs h
    rw [decodeFrom] at h
    cases h
    rw [decodeLossyFrom]
  | cons a r ih =>
    intro i skip cs h
    cases skip with
    | succ skip => exact ih (i + 1) skip h
    | zero =>
      rw [decodeFrom] at h
      rw [decodeLossyFrom]
      cases hfront : front a r with
      | char c =>
        simp only [hfront] at h ⊢
        cases hrest : decodeFrom (i + 1) (width c - 1) r with
        | error e => rw [hrest] at h; cases h
        | ok cs' =>
          rw [hrest] at h
          cases h
          rw [ih _ _ hrest]
      | damaged n => simp only [hfront] at h; cases h
      | cut => simp only [hfront] at h; cases h

/-- Nothing is replaced in octets that are a text. -/
theorem decodeLossy_of_decode {bs : Octets} {cs : List Char} (h : decode bs = .ok cs) :
    decodeLossy bs = cs :=
  decodeLossyFrom_of_decodeFrom bs 0 0 h

theorem decodeFrom_of_decodeLossyFrom (bs : Octets) : ∀ (i skip : Nat),
    replacement ∉ decodeLossyFrom skip bs → decodeFrom i skip bs =
      .ok (decodeLossyFrom skip bs) := by
  induction bs with
  | nil =>
    intro i skip _
    rw [decodeFrom, decodeLossyFrom]
  | cons a r ih =>
    intro i skip h
    cases skip with
    | succ skip => exact ih (i + 1) skip h
    | zero =>
      rw [decodeLossyFrom] at h
      rw [decodeFrom, decodeLossyFrom]
      cases hfront : front a r with
      | char c =>
        simp only [hfront] at h ⊢
        rw [ih (i + 1) _ fun hmem => h (List.mem_cons_of_mem c hmem)]
        rfl
      | damaged n => simp [hfront] at h
      | cut => simp [hfront] at h

/-- Octets in which nothing is replaced are a text. -/
theorem decode_of_decodeLossy {bs : Octets} (h : replacement ∉ decodeLossy bs) :
    decode bs = .ok (decodeLossy bs) :=
  decodeFrom_of_decodeLossyFrom bs 0 0 h

/-! ## Characters of one octet -/

section
variable {c : Char} (hc : c.toNat < 0x80)
include hc

theorem encodeChar_ascii : encodeChar c = [.ofNat c.toNat] := by
  simp only [encodeChar, if_pos hc]

/-- The octet of such a character is part of no other. -/
theorem eq_of_mem_encodeChar {d : Char} (h : UInt8.ofNat c.toNat ∈ encodeChar d) : d = c := by
  have hmem : ∀ {n : Nat}, n < 256 → UInt8.ofNat c.toNat = .ofNat n → c.toNat = n := by
    intro n hn heq
    have hsame := congrArg UInt8.toNat heq
    rwa [UInt8.toNat_ofNat_of_lt' (show c.toNat < 256 by omega),
      UInt8.toNat_ofNat_of_lt' hn] at hsame
  have hvalid : d.toNat < 0xD800 ∨ 0xDFFF < d.toNat ∧ d.toNat < 0x110000 := d.valid
  unfold encodeChar at h
  simp only at h
  split at h
  · rename_i hone
    have hsame := hmem (by omega) (List.mem_singleton.1 h)
    exact (Char.toNat_inj.1 hsame).symm
  · split at h
    · simp only [List.mem_cons, List.not_mem_nil, or_false] at h
      rcases h with h | h <;> have := hmem (by omega) h <;> omega
    · split at h
      · simp only [List.mem_cons, List.not_mem_nil, or_false] at h
        rcases h with h | h | h <;> have := hmem (by omega) h <;> omega
      · simp only [List.mem_cons, List.not_mem_nil, or_false] at h
        rcases h with h | h | h | h <;> have := hmem (by omega) h <;> omega

theorem mem_of_mem_encode {cs : List Char} (h : UInt8.ofNat c.toNat ∈ encode cs) : c ∈ cs := by
  obtain ⟨d, hd, hmem⟩ := List.mem_flatMap.1 h
  exact eq_of_mem_encodeChar hc hmem ▸ hd

theorem mem_of_mem_decodeLossyFrom (bs : Octets) :
    ∀ skip, c ∈ decodeLossyFrom skip bs → UInt8.ofNat c.toNat ∈ bs := by
  have hne : c ≠ replacement := by
    rintro rfl
    exact absurd hc (by decide)
  induction bs with
  | nil => intro skip h; simp [decodeLossyFrom] at h
  | cons a r ih =>
    intro skip h
    cases skip with
    | succ skip => exact List.mem_cons_of_mem a (ih skip h)
    | zero =>
      rw [decodeLossyFrom] at h
      cases hfront : front a r with
      | char d =>
        simp only [hfront] at h
        rcases List.mem_cons.1 h with rfl | h
        · obtain ⟨rest, hrest⟩ := encodeChar_of_front hfront
          rw [hrest, encodeChar_ascii hc]
          exact List.mem_cons_self ..
        · exact List.mem_cons_of_mem a (ih _ h)
      | damaged n =>
        simp only [hfront] at h
        rcases List.mem_cons.1 h with rfl | h
        · exact absurd rfl hne
        · exact List.mem_cons_of_mem a (ih _ h)
      | cut =>
        simp only [hfront] at h
        exact absurd (List.mem_singleton.1 h) hne

/-- Such a character is shown only where its octet stands. -/
theorem mem_of_mem_decodeLossy {bs : Octets} (h : c ∈ decodeLossy bs) : UInt8.ofNat c.toNat ∈ bs :=
  mem_of_mem_decodeLossyFrom hc bs 0 h

end

end ExplicitSelf.Text
