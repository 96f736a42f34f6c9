import ExplicitSelf.Gzip.Member
import ExplicitSelf.Proofs.Gzip.Blocks

/-!
# The members of a gzip stream

A member is a header, compressed data up to the next octet, and the check and the size of its
content. A stream is any number of members, one directly after the other. `gunzip` accepts exactly
the streams with at least one member, and answers the contents of the members in this order: a
member is read the same way whatever stands behind it.

Results:
* `afterHeader_eq_some_iff`, `member_eq_some_iff`: headers and members.
* `gunzip_eq_some_iff`: streams.
* `member_store`: what `store` writes is a member.
-/
namespace ExplicitSelf.Gzip

open Text (Octets)
open Digest (littleEndian ofLittleEndian)

theorem takeOctets?_eq_some_iff {n : Nat} {bs w r : Octets} :
    takeOctets? n bs = some (w, r) ↔ w.length = n ∧ bs = w ++ r := by
  unfold takeOctets?
  split
  · rename_i hle
    simp only [Option.some.injEq, Prod.mk.injEq]
    refine ⟨fun h => ?_, fun h => ?_⟩
    · rw [← h.1, ← h.2, List.length_take, List.take_append_drop]
      exact ⟨by omega, rfl⟩
    · rw [h.2, ← h.1]
      simp
  · rename_i hle
    refine ⟨fun h => (by cases h), fun h => absurd ?_ hle⟩
    rw [h.2, List.length_append]
    omega

/-! ## Headers -/

/-- An extra field starts with its length. -/
def Extra (w : Octets) : Prop :=
  ∃ n field : Octets, n.length = 2 ∧ field.length = ofLittleEndian n ∧ w = n ++ field

/-- A name or comment ends with a zero. -/
def Field (w : Octets) : Prop :=
  ∃ field : Octets, 0 ∉ field ∧ field.length ≤ maxField ∧ w = field ++ [0]

/-- The check of the part of a header that stands before it. -/
def HeaderCheck (part w : Octets) : Prop :=
  w.length = 2 ∧ ofLittleEndian w = (crc32 part).toNat % 65536

/-- A part that is there if its flag is set. -/
def Announced (set : Bool) (Part : Octets → Prop) (w : Octets) : Prop :=
  if set then Part w else w = []

/-- A header: the octets of every member, the method, the flags, six octets that mean nothing here,
and the parts that the flags announce. -/
inductive Header : Octets → Prop
  | mk {flags : UInt8} {other extra name comment check : Octets} :
    flags.toNat < 32 → other.length = 6 →
    Announced (flags.toNat.testBit flagExtra) Extra extra →
    Announced (flags.toNat.testBit flagName) Field name →
    Announced (flags.toNat.testBit flagComment) Field comment →
    Announced (flags.toNat.testBit flagCheck)
      (HeaderCheck (magic ++ 8 :: flags :: other ++ (extra ++ (name ++ comment)))) check →
    Header (magic ++ 8 :: flags :: other ++ (extra ++ (name ++ comment)) ++ check)

theorem afterExtra_eq_some_iff {bs r : Octets} :
    afterExtra bs = some r ↔ ∃ w, Extra w ∧ bs = w ++ r := by
  simp only [afterExtra, Option.bind_eq_bind, Option.bind_eq_some_iff, Prod.exists, Option.pure_def,
    Option.some.injEq, takeOctets?_eq_some_iff]
  refine ⟨fun h => ?_, fun h => ?_⟩
  · obtain ⟨n, _, ⟨hn, rfl⟩, field, _, ⟨hfield, rfl⟩, rfl⟩ := h
    exact ⟨n ++ field, ⟨n, field, hn, hfield, rfl⟩, by simp⟩
  · obtain ⟨_, ⟨n, field, hn, hfield, rfl⟩, rfl⟩ := h
    exact ⟨n, field ++ r, ⟨hn, by simp⟩, field, r, ⟨hfield, rfl⟩, rfl⟩

theorem afterField_eq_some_iff {bs r : Octets} :
    afterField bs = some r ↔ ∃ w, Field w ∧ bs = w ++ r := by
  unfold afterField
  refine ⟨fun h => ?_, fun h => ?_⟩
  · split at h
    · rename_i hlength
      have hfield : ∀ b ∈ bs.takeWhile (· ≠ 0), b ≠ 0 := by
        intro b hb
        simpa using List.all_eq_true.1 List.all_takeWhile b hb
      split at h
      · cases h
      · rename_i b rest hrest
        cases h
        have hb : b = 0 := by
          have hhead := List.head?_dropWhile_not (fun b : UInt8 => decide (b ≠ 0)) bs
          rw [hrest] at hhead
          simpa using hhead
        subst hb
        refine ⟨_, ⟨bs.takeWhile (· ≠ 0), fun h0 => hfield 0 h0 rfl, hlength, rfl⟩, ?_⟩
        rw [List.append_assoc, List.singleton_append, ← hrest, List.takeWhile_append_dropWhile]
    · cases h
  · obtain ⟨_, ⟨field, h0, hlength, rfl⟩, rfl⟩ := h
    have hall : ∀ b ∈ field, decide (b ≠ 0) = true := by
      intro b hb
      rw [decide_eq_true_eq]
      intro hb0
      exact h0 (hb0 ▸ hb)
    rw [List.append_assoc, List.takeWhile_append_of_pos hall, List.dropWhile_append_of_pos hall]
    simp [hlength]

/-- A part that is read if its flag is set. -/
theorem announced_iff {skip : Octets → Option Octets} {Part : Octets → Prop}
    (hskip : ∀ {bs r}, skip bs = some r ↔ ∃ w, Part w ∧ bs = w ++ r) (set : Bool) {bs r : Octets} :
    (if set then skip bs else some bs) = some r ↔ ∃ w, Announced set Part w ∧ bs = w ++ r := by
  cases set with
  | false => simp [Announced]
  | true => simpa [Announced] using hskip

/-- The check of a header is read if its flag is set. -/
theorem headerCheck_iff (set : Bool) {part rest r : Octets} :
    (if set then
      (takeOctets? 2 rest).bind fun (check, after) =>
        if ofLittleEndian check = (crc32 part).toNat % 65536 then some after else none
    else some rest) = some r ↔ ∃ w, Announced set (HeaderCheck part) w ∧ rest = w ++ r := by
  cases set with
  | false => simp [Announced]
  | true =>
    simp only [if_true, Announced, Option.bind_eq_some_iff, Prod.exists, takeOctets?_eq_some_iff]
    refine ⟨fun h => ?_, fun h => ?_⟩
    · obtain ⟨check, after, ⟨hlength, rfl⟩, hcheck⟩ := h
      split at hcheck
      · rename_i heq
        cases hcheck
        exact ⟨check, ⟨hlength, heq⟩, rfl⟩
      · cases hcheck
    · obtain ⟨check, ⟨hlength, heq⟩, rfl⟩ := h
      exact ⟨check, r, ⟨hlength, rfl⟩, if_pos heq⟩

/-- The ten octets with which a header starts. -/
theorem fixed_iff {fixed : Octets} (hlength : fixed.length = 10) :
    ¬(fixed.take 2 ≠ magic ∨ fixed.getD 2 0 ≠ 8 ∨ 32 ≤ (fixed.getD 3 0).toNat) ↔
      ∃ (flags : UInt8) (other : Octets), flags.toNat < 32 ∧ other.length = 6 ∧
        fixed = magic ++ 8 :: flags :: other := by
  match fixed with
  | a :: b :: method :: flags :: other =>
    simp [magic] at hlength ⊢
    grind

theorem optional_bind {α β : Type} (set : Bool) (x : Option α) (a : α) (f : α → Option β) :
    (if set then x else some a).bind f = if set then x.bind f else f a := by
  cases set <;> rfl

/-- A header is read part by part. -/
theorem afterHeader_start {flags : UInt8} {other : Octets} (hflags : flags.toNat < 32)
    (hother : other.length = 6) (bs : Octets) :
    afterHeader (magic ++ 8 :: flags :: other ++ bs) =
      (if flags.toNat.testBit flagExtra then afterExtra bs else some bs).bind fun bs₁ =>
      (if flags.toNat.testBit flagName then afterField bs₁ else some bs₁).bind fun bs₂ =>
      (if flags.toNat.testBit flagComment then afterField bs₂ else some bs₂).bind fun rest =>
        if flags.toNat.testBit flagCheck then
          (takeOctets? 2 rest).bind fun (check, after) =>
            if ofLittleEndian check = (crc32 ((magic ++ 8 :: flags :: other ++ bs).take
                ((magic ++ 8 :: flags :: other ++ bs).length - rest.length))).toNat % 65536 then
              some after
            else none
        else some rest := by
  have hlength : (magic ++ 8 :: flags :: other).length = 10 := by simp [magic, hother]
  have hstart := (fixed_iff hlength).2 ⟨flags, other, hflags, hother, rfl⟩
  have hget : (magic ++ 8 :: flags :: other).getD 3 0 = flags := rfl
  unfold afterHeader
  rw [takeOctets?_eq_some_iff.2 ⟨hlength, rfl⟩]
  simp only [Option.bind_eq_bind, Option.bind_some]
  rw [if_neg hstart]
  simp only [hget, optional_bind]

/-- The part of a header in front of its check is what is not left. -/
theorem header_part (start extra name comment rest : Octets) :
    (start ++ (extra ++ (name ++ (comment ++ rest)))).take
        ((start ++ (extra ++ (name ++ (comment ++ rest)))).length - rest.length) =
      start ++ (extra ++ (name ++ comment)) := by
  have hsplit : start ++ (extra ++ (name ++ (comment ++ rest))) =
      start ++ (extra ++ (name ++ comment)) ++ rest := by simp
  rw [hsplit, List.length_append, Nat.add_sub_cancel, List.take_left]

/-- What stands behind a header. -/
theorem afterHeader_eq_some_iff {bs r : Octets} :
    afterHeader bs = some r ↔ ∃ w, Header w ∧ bs = w ++ r := by
  refine ⟨fun h => ?_, fun h => ?_⟩
  · obtain ⟨flags, other, rest, hflags, hother, rfl⟩ : ∃ (flags : UInt8) (other rest : Octets),
        flags.toNat < 32 ∧ other.length = 6 ∧ bs = magic ++ 8 :: flags :: other ++ rest := by
      obtain ⟨⟨fixed, rest⟩, hfixed, hnext⟩ := Option.bind_eq_some_iff.1 h
      obtain ⟨hlength, rfl⟩ := takeOctets?_eq_some_iff.1 hfixed
      simp only at hnext
      split at hnext
      · cases hnext
      · rename_i hstart
        obtain ⟨flags, other, hflags, hother, rfl⟩ := (fixed_iff hlength).1 hstart
        exact ⟨flags, other, rest, hflags, hother, rfl⟩
    rw [afterHeader_start hflags hother] at h
    obtain ⟨bs₁, h₁, hnext₁⟩ := Option.bind_eq_some_iff.1 h
    obtain ⟨bs₂, h₂, hnext₂⟩ := Option.bind_eq_some_iff.1 hnext₁
    obtain ⟨bs₃, h₃, hnext₃⟩ := Option.bind_eq_some_iff.1 hnext₂
    obtain ⟨extra, hextra, rfl⟩ := (announced_iff afterExtra_eq_some_iff _).1 h₁
    obtain ⟨name, hname, rfl⟩ := (announced_iff afterField_eq_some_iff _).1 h₂
    obtain ⟨comment, hcomment, rfl⟩ := (announced_iff afterField_eq_some_iff _).1 h₃
    have hpart := header_part (magic ++ 8 :: flags :: other) extra name comment bs₃
    rw [hpart] at hnext₃
    obtain ⟨check, hcheck, rfl⟩ := (headerCheck_iff _).1 hnext₃
    exact ⟨_, .mk hflags hother hextra hname hcomment hcheck, by simp⟩
  · obtain ⟨_, ⟨hflags, hother, hextra, hname, hcomment, hcheck⟩, rfl⟩ := h
    rename_i flags other extra name comment check
    have hsplit : magic ++ 8 :: flags :: other ++ (extra ++ (name ++ comment)) ++ check ++ r =
        magic ++ 8 :: flags :: other ++ (extra ++ (name ++ (comment ++ (check ++ r)))) := by simp
    rw [hsplit, afterHeader_start hflags hother,
      (announced_iff afterExtra_eq_some_iff _).2 ⟨extra, hextra, rfl⟩, Option.bind_some,
      (announced_iff afterField_eq_some_iff _).2 ⟨name, hname, rfl⟩, Option.bind_some,
      (announced_iff afterField_eq_some_iff _).2 ⟨comment, hcomment, rfl⟩, Option.bind_some,
        header_part]
    exact (headerCheck_iff _).2 ⟨check, hcheck, rfl⟩

/-! ## Members -/

/-- A member: a header, compressed data with a gap up to the next octet, and the check and the size
of the content. -/
inductive Member : Octets → Octets → Prop
  | mk {header data check size content : Octets} {w gap : List Bool} :
    Header header → Blocks 0 #[] w content.toArray → bitsOf data = w ++ gap → gap.length < 8 →
    check.length = 4 ∧ ofLittleEndian check = (crc32 content).toNat →
    size.length = 4 ∧ ofLittleEndian size = content.length % UInt32.size →
    Member (header ++ (data ++ (check ++ size))) content

/-- The octets behind compressed data start at the next octet. -/
theorem data_iff {data rest : Octets} {out : Array UInt8} :
    (∃ bits, inflate (bitsOf data) = some (out, bits) ∧
      data.drop (data.length - bits.length / 8) = rest) ↔
      ∃ (front : Octets) (w gap : List Bool), Blocks 0 #[] w out ∧ bitsOf front = w ++ gap ∧
        gap.length < 8 ∧ data = front ++ rest := by
  have haligned : (bitsOf data).length % 8 = 0 := by simp
  simp only [inflate_eq_some_iff haligned]
  refine ⟨fun h => ?_, fun h => ?_⟩
  · obtain ⟨bits, ⟨w, hw, hdata⟩, rfl⟩ := h
    have hlength := congrArg List.length hdata
    rw [length_bitsOf, List.length_append] at hlength
    have hsplit := (List.take_append_drop (data.length - bits.length / 8) data).symm
    have hfront : (bitsOf (data.take (data.length - bits.length / 8))).length =
        w.length + bits.length % 8 := by
      rw [length_bitsOf, List.length_take]
      omega
    have hbits := congrArg bitsOf hsplit
    rw [bitsOf_append] at hbits
    obtain ⟨gap, hgap⟩ := List.prefix_of_prefix_length_le ⟨bits, hdata.symm⟩ ⟨_, hbits.symm⟩
      (by omega : w.length ≤ _)
    rw [← hgap, List.length_append] at hfront
    exact ⟨_, w, gap, hw, hgap.symm, by omega, hsplit⟩
  · obtain ⟨front, w, gap, hw, hfront, hgap, rfl⟩ := h
    refine ⟨gap ++ bitsOf rest, ⟨w, hw, by rw [bitsOf_append, hfront, List.append_assoc]⟩, ?_⟩
    have hcount : (front ++ rest).length - (gap ++ bitsOf rest).length / 8 = front.length := by
      simp only [List.length_append, length_bitsOf]
      omega
    rw [hcount, List.drop_left]

/-- The member in front, whatever stands behind it. -/
theorem member_eq_some_iff {bs content r : Octets} :
    member bs = some (content, r) ↔ ∃ m, Member m content ∧ bs = m ++ r := by
  simp only [member, Option.bind_eq_bind, Option.bind_eq_some_iff, Prod.exists,
    afterHeader_eq_some_iff, takeOctets?_eq_some_iff]
  refine ⟨fun h => ?_, fun h => ?_⟩
  · obtain ⟨data, ⟨header, hheader, rfl⟩, out, bits, hout, check, r₁, ⟨hcheck, hrest⟩, size, r₂,
      ⟨hsize, rfl⟩, hsound⟩ := h
    split at hsound
    · rename_i hvalues
      cases hsound
      obtain ⟨front, w, gap, hw, hfront, hgap, rfl⟩ := data_iff.1 ⟨bits, hout, hrest⟩
      exact ⟨_, .mk hheader hw hfront hgap ⟨hcheck, hvalues.1⟩ ⟨hsize, hvalues.2⟩, by simp⟩
    · cases hsound
  · obtain ⟨_, ⟨hheader, hw, hfront, hgap, hcheck, hsize⟩, rfl⟩ := h
    rename_i header data check size w gap
    obtain ⟨bits, hout, hrest⟩ := data_iff.2
      ⟨data, w, gap, hw, hfront, hgap, (rfl : data ++ (check ++ (size ++ r)) = _)⟩
    refine ⟨_, ⟨header, hheader, by simp⟩, content.toArray, bits, hout, check, size ++ r,
      ⟨hcheck.1, hrest⟩, size, r, ⟨hsize.1, rfl⟩, ?_⟩
    rw [if_pos ⟨hcheck.2, hsize.2⟩]

theorem Header.isPrefix {w : Octets} (h : Header w) : magic <+: w := by
  obtain ⟨⟩ := h
  simp only [List.append_assoc]
  exact List.prefix_append _ _

theorem Member.isPrefix {m content : Octets} (h : Member m content) : magic <+: m := by
  obtain ⟨hheader⟩ := h
  exact hheader.isPrefix.trans (List.prefix_append _ _)

/-! ## Streams -/

/-- Members, one directly after the other, with their contents. -/
inductive Stream : Octets → Octets → Prop
  | nil : Stream [] []
  | cons {m content bs more : Octets} :
      Member m content → Stream bs more → Stream (m ++ bs) (content ++ more)

theorem Member.stream {m content : Octets} (h : Member m content) : Stream m content := by
  simpa using Stream.cons h .nil

/-- A stream that is not empty starts with a member. -/
theorem Stream.isPrefix {bs content : Octets} (h : Stream bs content) (hne : bs ≠ []) :
    magic <+: bs := by
  cases h with
  | nil => exact absurd rfl hne
  | cons hm _ => exact hm.isPrefix.trans (List.prefix_append _ _)

theorem Stream.eq_nil {content : Octets} (h : Stream [] content) : content = [] := by
  generalize hbs : ([] : Octets) = bs at h
  cases h with
  | nil => rfl
  | cons hm _ =>
    have hmagic := hm.isPrefix.length_le
    rw [List.nil_eq, List.append_eq_nil_iff] at hbs
    rw [hbs.1] at hmagic
    simp [magic] at hmagic

theorem stream_of_members {fuel : Nat} {bs content : Octets} (h : members fuel bs = some content) :
    Stream bs content := by
  induction fuel generalizing bs content with
  | zero => cases h
  | succ fuel ih =>
    obtain ⟨⟨first, r⟩, hmember, hnext⟩ := Option.bind_eq_some_iff.1 h
    obtain ⟨m, hm, rfl⟩ := member_eq_some_iff.1 hmember
    simp only at hnext
    split at hnext
    · rename_i hempty
      cases hnext
      rw [List.isEmpty_iff.1 hempty]
      simpa using hm.stream
    · obtain ⟨more, hmore, hdone⟩ := Option.bind_eq_some_iff.1 hnext
      cases hdone
      exact .cons hm (ih hmore)

/-- A member is not empty, so the bound on their number is never reached. -/
theorem Stream.members_eq {bs content : Octets} (h : Stream bs content) (hne : bs ≠ []) (fuel : Nat)
    (hfuel : bs.length < fuel) : members fuel bs = some content := by
  induction h generalizing fuel with
  | nil => exact absurd rfl hne
  | @cons m first bs more hm hrest ih =>
    have hpos : 0 < m.length := Nat.lt_of_lt_of_le Nat.two_pos hm.isPrefix.length_le
    rw [List.length_append] at hfuel
    obtain ⟨fuel, rfl⟩ : ∃ n, fuel = n + 1 := ⟨fuel - 1, by omega⟩
    simp only [members, member_eq_some_iff.2 ⟨m, hm, rfl⟩, Option.bind_eq_bind, Option.bind_some]
    split
    · rename_i hempty
      rw [List.isEmpty_iff] at hempty
      subst hempty
      simp [hrest.eq_nil]
    · rename_i hmore
      rw [List.isEmpty_iff] at hmore
      simp [ih hmore fuel (by omega)]

/-- A stream is read if it has a member. -/
theorem gunzip_eq_some_iff {bs content : Octets} :
    gunzip bs = some content ↔ bs ≠ [] ∧ Stream bs content := by
  refine ⟨fun h => ⟨?_, stream_of_members h⟩, fun h => h.2.members_eq h.1 _ (Nat.lt_succ_self _)⟩
  intro hbs
  subst hbs
  cases h

/-! ## Writing -/

theorem ofLittleEndian_littleEndian {n v : Nat} (h : v < Nat.pow 256 n) :
    ofLittleEndian (littleEndian n v) = v := by
  induction n generalizing v with
  | zero =>
    have hzero : v < 1 := h
    simp only [littleEndian, ofLittleEndian]
    omega
  | succ n ih =>
    have hpow : v < Nat.pow 256 n * 256 := h
    have hbyte : (UInt8.ofNat (v % 256)).toNat = v % 256 :=
      UInt8.toNat_ofNat_of_lt' (Nat.mod_lt _ (by decide))
    rw [littleEndian, ofLittleEndian, hbyte, ih (Nat.div_lt_of_lt_mul (by omega))]
    omega

theorem ofLittleEndian_word (v : UInt32) : ofLittleEndian (littleEndian 4 v.toNat) = v.toNat :=
  ofLittleEndian_littleEndian v.toNat_lt

theorem number_append (w v : List Bool) :
    number (w ++ v) = number w + Nat.pow 2 w.length * number v := by
  induction w with
  | nil => simp [number]
  | cons b w ih =>
    have hpow : Nat.pow 2 (w.length + 1) = 2 * Nat.pow 2 w.length := Nat.mul_comm _ _
    rw [List.cons_append, number, ih, number, List.length_cons, hpow, Nat.mul_add, Nat.mul_assoc]
    omega

/-- The bits of octets spell the number of the octets. -/
theorem number_bitsOf (bs : Octets) : number (bitsOf bs) = ofLittleEndian bs := by
  induction bs with
  | nil => rfl
  | cons b bs ih =>
    have hpow : Nat.pow 2 ((List.range 8).map b.toNat.testBit).length = 256 := by
      rw [List.length_map, List.length_range]
    rw [bitsOf_cons, number_append, number_octet, ih, hpow, ofLittleEndian]

theorem number_littleEndian {v : Nat} (h : v < 65536) : Number 16 (bitsOf (littleEndian 2 v)) v :=
  ⟨rfl, by rw [number_bitsOf, ofLittleEndian_littleEndian h]⟩

/-- A stored block at the start of an octet. Its first octet holds three bits and a gap of five. -/
theorem block_storedBlock {position : Nat} {out all : Array UInt8} {final : Bool} {content : Octets}
    (haligned : position % 8 = 0) (hlength : content.length ≤ 65535)
    (hall : all.toList = out.toList ++ content) :
    Block position out final (bitsOf (storedBlock final content)) all := by
  have hfirst : (List.range 8).map (if final then 1 else 0 : UInt8).toNat.testBit =
      final :: false :: false :: List.replicate 5 false := by
    cases final <;> decide
  have hbits : bitsOf (storedBlock final content) = final :: false :: false ::
      (List.replicate 5 false ++ (bitsOf (littleEndian 2 content.length) ++
        (bitsOf (littleEndian 2 (0xFFFF - content.length)) ++ bitsOf content))) := by
    simp only [storedBlock, List.append_assoc, List.singleton_append, bitsOf_cons, bitsOf_append,
      hfirst]
    rfl
  rw [hbits]
  exact .stored (by simp) (by simp; omega) (number_littleEndian (by omega))
    (number_littleEndian (by omega)) hall

theorem blocks_storedBlocks (position : Nat) (out : Array UInt8) {parts : List Octets}
    (haligned : position % 8 = 0) (hparts : ∀ part ∈ parts, part.length ≤ 65535) :
    Blocks position out (bitsOf (parts.flatMap (storedBlock false) ++ storedBlock true []))
      (out.toList ++ parts.flatten).toArray := by
  induction parts generalizing position out with
  | nil => exact .last (block_storedBlock haligned (by simp) (by simp))
  | cons part parts ih =>
    have hblock : Block position out false (bitsOf (storedBlock false part))
        (out.toList ++ part).toArray :=
      block_storedBlock haligned (hparts part (.head _)) (by simp)
    have hmore :=
      ih (position + (bitsOf (storedBlock false part)).length) (out.toList ++ part).toArray
      (by simp; omega) (fun x hx => hparts x (.tail _ hx))
    rw [List.flatMap_cons, List.append_assoc, bitsOf_append]
    simpa using Blocks.more hblock hmore

theorem flatten_chunks {α : Type} (k : Nat) (xs : List α) : (Digest.chunks k xs).flatten = xs := by
  fun_induction Digest.chunks k xs with
  | case1 => rfl
  | case2 x r ih => simp [ih]

theorem length_le_of_mem_chunks {α : Type} {k : Nat} {xs part : List α}
    (h : part ∈ Digest.chunks k xs) : part.length ≤ k + 1 := by
  fun_induction Digest.chunks k xs with
  | case1 => cases h
  | case2 x r ih =>
    rcases List.mem_cons.1 h with rfl | h
    · rw [List.length_cons, List.length_take]
      omega
    · exact ih h

/-- What `store` writes is a member that holds the content. -/
theorem member_store (content : Octets) : Member (store content) content := by
  have hheader : Header (magic ++ 8 :: 0 :: [0, 0, 0, 0, 0, 255] ++ ([] ++ ([] ++ [])) ++ []) :=
    .mk (by decide) rfl rfl rfl rfl rfl
  have hblocks : Blocks 0 #[] (bitsOf (storedBlocks content)) content.toArray := by
    have hparts :=
      blocks_storedBlocks 0 #[] rfl fun part (hpart : part ∈ Digest.chunks 65534 content) =>
      length_le_of_mem_chunks hpart
    rwa [flatten_chunks] at hparts
  have hcheck := ofLittleEndian_word (crc32 content)
  have hsize : ofLittleEndian (littleEndian 4 (content.length % UInt32.size)) =
      content.length % UInt32.size :=
    ofLittleEndian_littleEndian (Nat.mod_lt _ (by decide))
  have hmember :=
    Member.mk hheader hblocks (List.append_nil _).symm (by decide) ⟨rfl, hcheck⟩ ⟨rfl, hsize⟩
  simpa only [store, List.append_assoc, List.nil_append] using hmember

end ExplicitSelf.Gzip
