import ExplicitSelf.Proofs.Gzip.Words

/-!
# The blocks of compressed data

What compressed data looks like, piece by piece, and that `inflate` reads data of this form and no
other. A form says which bits stand for what and how the output grows, not how they are found: there
is no bound on the number of steps, and no bits behind the last block.

A stored block starts at an octet. Where that is depends on the bits before it, so the blocks carry
the number of these bits with them.

Results:
* `reads_takeRun`, `reads_takeLengths`, `reads_takeCodes`: code lengths, and the codes of a block
  that brings its own.
* `items_of_symbols`, `Items.symbols_front`: the symbols of a block.
* `reads_takeOctets`: stored octets.
* `inflate_eq_some_iff`: compressed data as a whole.
-/
namespace ExplicitSelf.Gzip

open Text (Octets)

/-! ## Code lengths -/

/-- Numbers of three bits, one after the other. -/
inductive Triples : List Bool → List Nat → Prop
  | nil : Triples [] []
  | cons {v w : List Bool} {n : Nat} {ns : List Nat} :
    Number 3 v n → Triples w ns → Triples (v ++ w) (n :: ns)

theorem reads_takeTriples (n : Nat) :
    Reads (takeTriples n) fun w vs => Triples w vs ∧ vs.length = n where
  form := by
    induction n with
    | zero =>
      intro bits r vs h
      cases h
      exact ⟨[], ⟨.nil, rfl⟩, rfl⟩
    | succ n ih =>
      intro bits r vs h
      obtain ⟨v, x, bits', hx, rfl, hnext⟩ := (reads_takeBits 3).of_bind h
      obtain ⟨⟨us, rest⟩, hus, hdone⟩ := Option.bind_eq_some_iff.1 hnext
      obtain ⟨w, ⟨hw, hlength⟩, rfl⟩ := ih hus
      cases hdone
      exact ⟨x ++ w, ⟨.cons hx hw, by simp [hlength]⟩, by simp⟩
  front := by
    intro w vs h r
    obtain ⟨hw, rfl⟩ := h
    induction hw with
    | nil => rfl
    | cons hv _ ih => simp [takeTriples, (reads_takeBits 3).front hv, ih]

/-- A symbol with its number, and the lengths that it adds. A symbol below 16 is a length; the
symbols from 16 on repeat the last length, or stand for many zeros. -/
inductive Run (c : Code) (ls : List Nat) : List Bool → List Nat → Prop
  | one {v : List Bool} {s : Nat} : c.Word v s → s < 16 → Run c ls v [s]
  | again {v x : List Bool} {last n : Nat} :
    c.Word v 16 → ls.getLast? = some last → Number 2 x n → Run c ls (v ++ x)
    (List.replicate (3 + n) last)
  | zeros {v x : List Bool} {n : Nat} :
    c.Word v 17 → Number 3 x n → Run c ls (v ++ x) (List.replicate (3 + n) 0)
  | manyZeros {v x : List Bool} {s n : Nat} :
    c.Word v s → 17 < s → Number 7 x n → Run c ls (v ++ x) (List.replicate (11 + n) 0)

/-- Bits that carry the lengths found so far on to all lengths. -/
inductive Lengths (c : Code) : List Nat → List Bool → List Nat → Prop
  | done (ls : List Nat) : Lengths c ls [] ls
  | more {ls added all : List Nat} {v w : List Bool} :
    Run c ls v added → Lengths c (ls ++ added) w all → Lengths c ls (v ++ w) all

/-- The lengths that the symbol in front adds. -/
def takeRun (c : Code) (ls : List Nat) (bits : List Bool) : Option (List Nat × List Bool) := do
  let (s, bits) ← c.symbol bits
  if s < 16 then return ([s], bits)
  else if s = 16 then
    let last ← ls.getLast?
    let (n, bits) ← takeBits 2 bits
    return (List.replicate (3 + n) last, bits)
  else if s = 17 then
    let (n, bits) ← takeBits 3 bits
    return (List.replicate (3 + n) 0, bits)
  else
    let (n, bits) ← takeBits 7 bits
    return (List.replicate (11 + n) 0, bits)

theorem reads_takeRun (c : Code) (ls : List Nat) : Reads (takeRun c ls) (Run c ls) where
  form := by
    intro bits r added h
    obtain ⟨s, v, bits₁, hv, rfl, hnext⟩ := (reads_symbol c).of_bind h
    simp only at hnext
    split at hnext
    · rename_i hlt
      cases hnext
      exact ⟨v, .one hv hlt, rfl⟩
    · split at hnext
      · rename_i hsymbol
        subst hsymbol
        obtain ⟨last, hlast, hnumber⟩ := Option.bind_eq_some_iff.1 hnext
        obtain ⟨n, x, bits₂, hx, rfl, hdone⟩ := (reads_takeBits 2).of_bind hnumber
        cases hdone
        exact ⟨v ++ x, .again hv hlast hx, by simp⟩
      · split at hnext
        · rename_i hsymbol
          subst hsymbol
          obtain ⟨n, x, bits₂, hx, rfl, hdone⟩ := (reads_takeBits 3).of_bind hnext
          cases hdone
          exact ⟨v ++ x, .zeros hv hx, by simp⟩
        · obtain ⟨n, x, bits₂, hx, rfl, hdone⟩ := (reads_takeBits 7).of_bind hnext
          cases hdone
          exact ⟨v ++ x, .manyZeros hv (by omega) hx, by simp⟩
  front := by
    intro w added h r
    cases h with
    | one hv hs => simp [takeRun, (reads_symbol c).front hv, hs]
    | again hv hlast hx =>
      simp [takeRun, (reads_symbol c).front hv, hlast, (reads_takeBits 2).front hx]
    | zeros hv hx => simp [takeRun, (reads_symbol c).front hv, (reads_takeBits 3).front hx]
    | @manyZeros v x s n hv hs hx =>
      have h16 : ¬s < 16 := by omega
      have h16' : s ≠ 16 := by omega
      have h17 : s ≠ 17 := by omega
      simp [takeRun, (reads_symbol c).front hv, h16, h16', h17, (reads_takeBits 7).front hx]

/-- Code lengths are read run by run. The reader keeps them in reverse. -/
theorem takeLengths_succ (c : Code) (count fuel : Nat) (ls : List Nat) (bits : List Bool) :
    takeLengths c count (fuel + 1) ls.reverse bits =
      if count < ls.length then none
      else if ls.length = count then some (ls, bits)
      else (takeRun c ls bits).bind fun (added, bits) =>
        takeLengths c count fuel (ls ++ added).reverse bits := by
  rw [takeLengths, takeRun, List.length_reverse, List.reverse_reverse, List.head?_reverse]
  split
  · rfl
  · split
    · rfl
    · cases c.symbol bits with
      | none => rfl
      | some read =>
        obtain ⟨s, rest⟩ := read
        simp only [Option.bind_eq_bind, Option.bind_some]
        split
        · simp
        · split
          · simp [Option.bind_assoc]
          · split <;> simp [Option.bind_assoc]

theorem Run.ne_nil {c : Code} {ls added : List Nat} {v : List Bool} (h : Run c ls v added) :
    added ≠ [] := by
  cases h <;> simp [List.replicate_eq_nil_iff]

theorem Lengths.length_le {c : Code} {ls all : List Nat} {w : List Bool} (h : Lengths c ls w all) :
    ls.length ≤ all.length := by
  induction h with
  | done => exact Nat.le_refl _
  | more _ _ ih =>
    rw [List.length_append] at ih
    omega

theorem lengths_of_takeLengths {c : Code} {count fuel : Nat} (ls : List Nat) {all : List Nat}
    {bits r : List Bool} (h : takeLengths c count fuel ls.reverse bits = some (all, r)) :
    ∃ w, (Lengths c ls w all ∧ all.length = count) ∧ bits = w ++ r := by
  induction fuel generalizing ls bits with
  | zero => cases h
  | succ fuel ih =>
    rw [takeLengths_succ] at h
    split at h
    · cases h
    · split at h
      · rename_i hcount
        cases h
        exact ⟨[], ⟨.done _, hcount⟩, rfl⟩
      · obtain ⟨added, v, bits₁, hrun, rfl, hmore⟩ := (reads_takeRun c ls).of_bind h
        obtain ⟨w, ⟨hw, hall⟩, rfl⟩ := ih _ hmore
        exact ⟨v ++ w, ⟨.more hrun hw, hall⟩, by simp⟩

theorem Lengths.takeLengths_eq {c : Code} {count : Nat} {ls all : List Nat} {w : List Bool}
    (h : Lengths c ls w all) (hcount : all.length = count) (r : List Bool) (fuel : Nat)
    (hfuel : count < ls.length + fuel) :
    takeLengths c count fuel ls.reverse (w ++ r) = some (all, r) := by
  induction h generalizing fuel with
  | done ls =>
    obtain ⟨fuel, rfl⟩ : ∃ n, fuel = n + 1 := ⟨fuel - 1, by omega⟩
    rw [takeLengths_succ, if_neg (by omega), if_pos hcount]
    rfl
  | more hrun hrest ih =>
    have hpos := List.length_pos_iff.2 hrun.ne_nil
    have hle := hrest.length_le
    rw [List.length_append] at hle
    obtain ⟨fuel, rfl⟩ : ∃ n, fuel = n + 1 := ⟨fuel - 1, by omega⟩
    rw [List.append_assoc, takeLengths_succ, if_neg (by omega), if_neg (by omega),
      (reads_takeRun c _).front hrun, Option.bind_some]
    exact ih hcount fuel (by rw [List.length_append]; omega)

/-- A run adds at least one length, so the bound is never reached. -/
theorem reads_takeLengths (c : Code) (count : Nat) :
    Reads (takeLengths c count (count + 1) []) fun w all => Lengths c [] w all ∧
      all.length = count where
  form := lengths_of_takeLengths []
  front := fun h r => h.1.takeLengths_eq h.2 r (count + 1) (by simp)

/-! ## The codes of a block -/

/-- The lengths of the code for code lengths, in the order of its symbols. -/
def orderedLengths (given : List Nat) : List Nat :=
  (List.range 19).map fun s => ((lengthOrder.zip given).lookup s).getD 0

/-- Bits that give the two codes of a block: how many lengths there are of each kind, the code for
code lengths, and the lengths under this code. -/
inductive GivesCodes : List Bool → Codes → Prop
  | mk {u₁ u₂ u₃ u₄ u₅ : List Bool} {hlit hdist hclen : Nat} {given lengths : List Nat}
    {c literals distances : Code} :
    Number 5 u₁ hlit → Number 5 u₂ hdist → Number 4 u₃ hclen →
      ¬(286 < hlit + 257 ∨ 30 < hdist + 1) →
    Triples u₄ given ∧ given.length = hclen + 4 → Code.ofLengths? (orderedLengths given) = some c →
    Lengths c [] u₅ lengths ∧ lengths.length = hlit + 257 + (hdist + 1) →
    Code.ofLengths? (lengths.take (hlit + 257)) = some literals →
    Code.ofLengths? (lengths.drop (hlit + 257)) = some distances →
    GivesCodes (u₁ ++ (u₂ ++ (u₃ ++ (u₄ ++ u₅)))) ⟨literals, distances⟩

theorem reads_takeCodes : Reads takeCodes GivesCodes where
  form := by
    intro bits r codes h
    obtain ⟨hlit, u₁, bits₁, hu₁, rfl, h₁⟩ := (reads_takeBits 5).of_bind h
    obtain ⟨hdist, u₂, bits₂, hu₂, rfl, h₂⟩ := (reads_takeBits 5).of_bind h₁
    obtain ⟨hclen, u₃, bits₃, hu₃, rfl, h₃⟩ := (reads_takeBits 4).of_bind h₂
    simp only at h₃
    split at h₃
    · cases h₃
    · rename_i hcounts
      obtain ⟨given, u₄, bits₄, hu₄, rfl, h₄⟩ := (reads_takeTriples _).of_bind h₃
      obtain ⟨c, hc, h₅⟩ := Option.bind_eq_some_iff.1 h₄
      obtain ⟨lengths, u₅, bits₅, hu₅, rfl, h₆⟩ := (reads_takeLengths c _).of_bind h₅
      obtain ⟨literals, hliterals, h₇⟩ := Option.bind_eq_some_iff.1 h₆
      obtain ⟨distances, hdistances, hdone⟩ := Option.bind_eq_some_iff.1 h₇
      cases hdone
      exact ⟨_, .mk hu₁ hu₂ hu₃ hcounts hu₄ hc hu₅ hliterals hdistances, by simp⟩
  front := by
    intro w codes h r
    obtain ⟨hu₁, hu₂, hu₃, hcounts, hu₄, hc, hu₅, hliterals, hdistances⟩ := h
    unfold orderedLengths at hc
    simp only [takeCodes, List.append_assoc, (reads_takeBits _).front hu₁,
      (reads_takeBits _).front hu₂,
      (reads_takeBits _).front hu₃, Option.bind_eq_bind, Option.bind_some, if_neg hcounts,
      (reads_takeTriples _).front hu₄, hc, (reads_takeLengths _ _).front hu₅, hliterals, hdistances,
      Option.pure_def]

/-! ## Symbols -/

/-- Bits that carry an output on to the end of a block: octets, repetitions of what stands some
distance back, and the end. -/
inductive Items (c : Codes) : Array UInt8 → List Bool → Array UInt8 → Prop
  | stop {out : Array UInt8} {v : List Bool} : c.literals.Word v 256 → Items c out v out
  | literal {out all : Array UInt8} {v w : List Bool} {s : Nat} :
    c.literals.Word v s → s < 256 → Items c (out.push (.ofNat s)) w all → Items c out (v ++ w) all
  | copy {out all : Array UInt8} {v x v' x' w : List Bool} {s d n distance : Nat}
    {lengths distances : Nat × Nat} :
    c.literals.Word v s → 256 < s → lengthRanges[s - 257]? = some lengths → InRange lengths x n →
    c.distances.Word v' d → distanceRanges[d]? = some distances → InRange distances x' distance →
    Items c (repeatFrom distance n out) w all → Items c out (v ++ (x ++ (v' ++ (x' ++ w)))) all

theorem items_of_symbols {c : Codes} {fuel : Nat} {out all : Array UInt8} {bits r : List Bool}
    (h : symbols c fuel out bits = some (all, r)) : ∃ w, Items c out w all ∧ bits = w ++ r := by
  induction fuel generalizing out bits with
  | zero => cases h
  | succ fuel ih =>
    obtain ⟨s, v, bits₁, hv, rfl, hnext⟩ := (reads_symbol _).of_bind h
    simp only at hnext
    split at hnext
    · rename_i hlt
      obtain ⟨w, hw, rfl⟩ := ih hnext
      exact ⟨v ++ w, .literal hv hlt hw, by simp⟩
    · split at hnext
      · rename_i hend
        subst hend
        cases hnext
        exact ⟨v, .stop hv, rfl⟩
      · obtain ⟨lengths, hlengths, h₁⟩ := Option.bind_eq_some_iff.1 hnext
        obtain ⟨n, x, bits₂, hx, rfl, h₂⟩ := (reads_inRange _).of_bind h₁
        obtain ⟨d, v', bits₃, hv', rfl, h₃⟩ := (reads_symbol _).of_bind h₂
        obtain ⟨distances, hdistances, h₄⟩ := Option.bind_eq_some_iff.1 h₃
        obtain ⟨distance, x', bits₄, hx', rfl, h₅⟩ := (reads_inRange _).of_bind h₄
        obtain ⟨w, hw, rfl⟩ := ih h₅
        exact ⟨_, .copy hv (by omega) hlengths hx hv' hdistances hx' hw, by simp⟩

theorem Items.symbols_eq {c : Codes} {out all : Array UInt8} {w : List Bool} (h : Items c out w all)
    (r : List Bool) (fuel : Nat) (hfuel : w.length < fuel) :
    symbols c fuel out (w ++ r) = some (all, r) := by
  induction h generalizing fuel with
  | stop hv =>
    obtain ⟨fuel, rfl⟩ : ∃ n, fuel = n + 1 := ⟨fuel - 1, by omega⟩
    simp [symbols, (reads_symbol _).front hv]
  | literal hv hs _ ih =>
    have hpos := List.length_pos_iff.2 hv.ne_nil
    rw [List.length_append] at hfuel
    obtain ⟨fuel, rfl⟩ : ∃ n, fuel = n + 1 := ⟨fuel - 1, by omega⟩
    simp only [symbols, List.append_assoc, (reads_symbol _).front hv, Option.bind_eq_bind,
      Option.bind_some, if_pos hs]
    exact ih fuel (by omega)
  | copy hv hs hlengths hx hv' hdistances hx' _ ih =>
    have hpos := List.length_pos_iff.2 hv.ne_nil
    simp only [List.length_append] at hfuel
    obtain ⟨fuel, rfl⟩ : ∃ n, fuel = n + 1 := ⟨fuel - 1, by omega⟩
    simp only [symbols, List.append_assoc, (reads_symbol _).front hv, Option.bind_eq_bind,
      Option.bind_some, if_neg (Nat.not_lt.2 (Nat.le_of_lt hs)), if_neg (Nat.ne_of_gt hs), hlengths,
      (reads_inRange _).front hx, (reads_symbol _).front hv', hdistances,
        (reads_inRange _).front hx']
    exact ih fuel (by omega)

/-- A symbol takes at least one bit, so the bound is never reached. -/
theorem Items.symbols_front {c : Codes} {out all : Array UInt8} {w : List Bool}
    (h : Items c out w all)
    (r : List Bool) : symbols c ((w ++ r).length + 1) out (w ++ r) = some (all, r) :=
  h.symbols_eq r _ (by rw [List.length_append]; omega)

/-! ## Stored octets -/

@[simp] theorem bitsOf_nil : bitsOf [] = [] := rfl

@[simp] theorem bitsOf_cons (b : UInt8) (bs : Octets) :
    bitsOf (b :: bs) = (List.range 8).map b.toNat.testBit ++ bitsOf bs := rfl

@[simp] theorem bitsOf_append (bs cs : Octets) : bitsOf (bs ++ cs) = bitsOf bs ++ bitsOf cs := by
  simp [bitsOf]

@[simp] theorem length_bitsOf (bs : Octets) : (bitsOf bs).length = 8 * bs.length := by
  induction bs with
  | nil => rfl
  | cons b bs ih =>
    rw [bitsOf_cons, List.length_append, ih]
    simp
    omega

theorem number_injective {w v : List Bool} (hlength : w.length = v.length)
    (h : number w = number v) :
    w = v := by
  induction w generalizing v with
  | nil => exact (List.eq_nil_of_length_eq_zero hlength.symm).symm
  | cons b w ih =>
    cases v with
    | nil => cases hlength
    | cons d v =>
      rw [number, number] at h
      have hhead : b = d := by cases b <;> cases d <;> simp at h ⊢ <;> omega
      rw [hhead, ih (by simpa using hlength) (by rw [hhead] at h; omega)]

theorem number_lt (w : List Bool) : number w < Nat.pow 2 w.length := by
  induction w with
  | nil => exact Nat.one_pos
  | cons b w ih =>
    have hb := Bool.toNat_le b
    have hpow : Nat.pow 2 (w.length + 1) = Nat.pow 2 w.length * 2 := rfl
    rw [number, List.length_cons, hpow]
    omega

theorem number_octet (b : UInt8) : number ((List.range 8).map b.toNat.testBit) = b.toNat := by
  have hb := b.toNat_lt
  simp only [List.range, List.range.loop, List.map_cons, List.map_nil, number, Nat.toNat_testBit,
    Nat.reducePow] at hb ⊢
  omega

/-- Eight bits are those of one octet. -/
theorem octet_bits {w : List Bool} {v : Nat} (h : Number 8 w v) :
    w = (List.range 8).map (UInt8.ofNat v).toNat.testBit := by
  obtain ⟨hlength, rfl⟩ := h
  have hlt := number_lt w
  rw [hlength] at hlt
  refine number_injective (by simp [hlength]) ?_
  rw [number_octet, UInt8.toNat_ofNat_of_lt' hlt]

theorem reads_takeOctets (n : Nat) (out : Array UInt8) :
    Reads (takeOctets n out) fun w all =>
      ∃ content : Octets, content.length = n ∧ w = bitsOf content ∧ all.toList = out.toList ++
        content where
  form := by
    induction n generalizing out with
    | zero =>
      intro bits r all h
      cases h
      exact ⟨[], ⟨[], rfl, rfl, by simp⟩, rfl⟩
    | succ n ih =>
      intro bits r all h
      obtain ⟨v, x, bits', hx, rfl, hrest⟩ := (reads_takeBits 8).of_bind h
      obtain ⟨w, ⟨content, hlength, rfl, hall⟩, rfl⟩ := ih _ hrest
      refine ⟨x ++ bitsOf content, ⟨.ofNat v :: content, by simp [hlength], ?_, ?_⟩, by simp⟩
      · rw [bitsOf_cons, ← octet_bits hx]
      · rw [hall]
        simp
  front := by
    intro w all h r
    obtain ⟨content, rfl, rfl, hall⟩ := h
    induction content generalizing out with
    | nil =>
      simp only [List.append_nil, Array.toList_inj] at hall
      subst hall
      rfl
    | cons b content ih =>
      have hoctet : takeBits 8 ((List.range 8).map b.toNat.testBit ++ (bitsOf content ++ r)) =
          some (b.toNat, bitsOf content ++ r) :=
        (reads_takeBits 8).front ⟨by simp, number_octet b⟩ _
      rw [bitsOf_cons, List.append_assoc, List.length_cons, takeOctets, hoctet]
      simp only [Option.bind_eq_bind, Option.bind_some, UInt8.ofNat_toNat]
      exact ih (out.push b) (by simp [hall])

/-! ## Blocks -/

/-- A block behind `position` bits: whether it is the last one, its kind in two bits, and what the
kind asks for. A stored block goes on at the next octet, with its length given twice, the second
time inverted. -/
inductive Block (position : Nat) (out : Array UInt8) : Bool → List Bool → Array UInt8 → Prop
  | stored {final : Bool} {gap u v : List Bool} {content : Octets} {all : Array UInt8} :
    gap.length < 8 → (position + 3 + gap.length) % 8 = 0 → Number 16 u content.length →
    Number 16 v (0xFFFF - content.length) → all.toList = out.toList ++ content →
    Block position out final (final :: false :: false :: (gap ++ (u ++ (v ++ bitsOf content)))) all
  | fixed {final : Bool} {c : Codes} {w : List Bool} {all : Array UInt8} :
    fixedCodes? = some c → Items c out w all → Block position out final
      (final :: true :: false :: w) all
  | dynamic {final : Bool} {c : Codes} {u w : List Bool} {all : Array UInt8} :
    GivesCodes u c → Items c out w all →
    Block position out final (final :: false :: true :: (u ++ w)) all

/-- Blocks behind `position` bits, up to the last one. -/
inductive Blocks : Nat → Array UInt8 → List Bool → Array UInt8 → Prop
  | last {position : Nat} {out all : Array UInt8} {w : List Bool} :
    Block position out true w all → Blocks position out w all
  | more {position : Nat} {out next all : Array UInt8} {v w : List Bool} :
    Block position out false v next → Blocks (position + v.length) next w all →
    Blocks position out (v ++ w) all

/-- What follows the three bits in front of a block. -/
def afterKind (kind₀ kind₁ : Bool) (out : Array UInt8) (bits : List Bool) :
    Option (Array UInt8 × List Bool) :=
  match kind₀, kind₁ with
  | false, false => stored out bits
  | true, false => fixedCodes?.bind fun c => symbols c (bits.length + 1) out bits
  | false, true => (takeCodes bits).bind fun (c, bits) => symbols c (bits.length + 1) out bits
  | true, true => none

theorem block_cons (out : Array UInt8) (final kind₀ kind₁ : Bool) (bits : List Bool) :
    block out (final :: kind₀ :: kind₁ :: bits) =
      (afterKind kind₀ kind₁ out bits).bind fun (all, r) => some (final, all, r) := by
  have hfinal : takeBits 1 (final :: kind₀ :: kind₁ :: bits) =
      some (final.toNat, kind₀ :: kind₁ :: bits) :=
    rfl
  have hkind : takeBits 2 (kind₀ :: kind₁ :: bits) = some (kind₀.toNat + 2 * kind₁.toNat, bits) :=
    rfl
  have hflag : decide (final.toNat = 1) = final := by cases final <;> rfl
  rw [block, hfinal]
  simp only [Option.bind_eq_bind, Option.bind_some, hkind, hflag, Option.pure_def]
  cases kind₀ <;> cases kind₁ <;>
    simp [afterKind, Option.bind_assoc]

theorem exists_of_block {out all : Array UInt8} {final : Bool} {bits r : List Bool}
    (h : block out bits = some (final, all, r)) :
    ∃ kind₀ kind₁ rest, bits = final :: kind₀ :: kind₁ :: rest ∧
      afterKind kind₀ kind₁ out rest = some (all, r) := by
  match bits with
  | [] | [_] | [_, _] => simp [block, takeBits] at h
  | b :: kind₀ :: kind₁ :: rest =>
    rw [block_cons] at h
    obtain ⟨⟨all', r'⟩, hrest, h⟩ := Option.bind_eq_some_iff.1 h
    cases h
    exact ⟨kind₀, kind₁, rest, rfl, hrest⟩

section
variable {position : Nat} {out all : Array UInt8} {final : Bool} {bits w r : List Bool}

/-- The bits of octets end at an octet, so the bits that are left tell how far the next octet is. -/
theorem block_of_stored (haligned : (position + 3 + bits.length) % 8 = 0)
    (h : stored out bits = some (all, r)) :
    ∃ w, Block position out final (final :: false :: false :: w) all ∧ bits = w ++ r := by
  obtain ⟨n, u, bits₁, hu, hgap, h₁⟩ := (reads_takeBits 16).of_bind h
  obtain ⟨m, v, bits₂, hv, rfl, h₂⟩ := (reads_takeBits 16).of_bind h₁
  simp only at h₂
  split at h₂
  · rename_i hsum
    obtain ⟨x, ⟨content, rfl, rfl, hall⟩, rfl⟩ := (reads_takeOctets _ _).form h₂
    have hm : m = 0xFFFF - content.length := by omega
    subst hm
    refine ⟨bits.take (bits.length % 8) ++ (u ++ (v ++ bitsOf content)),
      .stored ?_ ?_ hu hv hall, ?_⟩
    · rw [List.length_take]
      omega
    · rw [List.length_take]
      omega
    · rw [List.append_assoc, List.append_assoc, List.append_assoc, ← hgap, List.take_append_drop]
  · cases h₂

theorem block_form (haligned : (position + bits.length) % 8 = 0)
    (h : block out bits = some (final, all, r)) :
    ∃ w, Block position out final w all ∧ bits = w ++ r := by
  obtain ⟨kind₀, kind₁, rest, rfl, hrest⟩ := exists_of_block h
  simp only [List.length_cons] at haligned
  have haligned : (position + 3 + rest.length) % 8 = 0 := by omega
  cases kind₀ <;> cases kind₁
  · obtain ⟨w, hw, rfl⟩ := block_of_stored haligned hrest
    exact ⟨_, hw, rfl⟩
  · obtain ⟨c, u, bits', hu, rfl, hitems⟩ := reads_takeCodes.of_bind hrest
    obtain ⟨w, hw, rfl⟩ := items_of_symbols hitems
    exact ⟨_, .dynamic hu hw, by simp⟩
  · rw [afterKind, Option.bind_eq_some_iff] at hrest
    obtain ⟨c, hc, hitems⟩ := hrest
    obtain ⟨w, hw, rfl⟩ := items_of_symbols hitems
    exact ⟨_, .fixed hc hw, rfl⟩
  · cases hrest

theorem Block.block_eq (h : Block position out final w all)
    (haligned : (position + (w ++ r).length) % 8 = 0) :
    block out (w ++ r) = some (final, all, r) := by
  cases h with
  | @stored gap u v content _ hgap hoctet hu hv hall =>
    simp only [List.cons_append, List.append_assoc, List.length_cons] at haligned ⊢
    have hdrop : (gap ++ (u ++ (v ++ (bitsOf content ++ r)))).length % 8 = gap.length := by omega
    have hlength : content.length + (0xFFFF - content.length) = 0xFFFF := by
      have hlt := number_lt u
      rw [hu.1, hu.2] at hlt
      have : content.length < 65536 := hlt
      omega
    simp only [block_cons, afterKind, Gzip.stored, hdrop, List.drop_left,
      (reads_takeBits _).front hu,
      (reads_takeBits _).front hv, Option.bind_eq_bind, Option.bind_some, if_pos hlength,
      (reads_takeOctets _ _).front ⟨content, rfl, rfl, hall⟩]
  | fixed hc hitems =>
    simp only [List.cons_append, block_cons, afterKind, hc, Option.bind_some,
      hitems.symbols_front]
  | dynamic hu hitems =>
    simp only [List.cons_append, List.append_assoc, block_cons, afterKind, reads_takeCodes.front hu,
      Option.bind_some, hitems.symbols_front]

theorem Block.length_pos (h : Block position out final w all) : 0 < w.length := by
  cases h <;> simp

end

theorem blocks_form {fuel position : Nat} {out all : Array UInt8} {bits r : List Bool}
    (haligned : (position + bits.length) % 8 = 0) (h : blocks fuel out bits = some (all, r)) :
    ∃ w, Blocks position out w all ∧ bits = w ++ r := by
  induction fuel generalizing position out bits with
  | zero => cases h
  | succ fuel ih =>
    obtain ⟨⟨final, next, bits'⟩, hblock, hmore⟩ := Option.bind_eq_some_iff.1 h
    obtain ⟨v, hv, rfl⟩ := block_form haligned hblock
    simp only at hmore
    split at hmore
    · rename_i hfinal
      subst hfinal
      cases hmore
      exact ⟨v, .last hv, rfl⟩
    · rename_i hfinal
      rw [Bool.not_eq_true] at hfinal
      subst hfinal
      rw [List.length_append, ← Nat.add_assoc] at haligned
      obtain ⟨w, hw, rfl⟩ := ih haligned hmore
      exact ⟨v ++ w, .more hv hw, by simp⟩

theorem Blocks.blocks_eq {position : Nat} {out all : Array UInt8} {w : List Bool}
    (h : Blocks position out w all) (r : List Bool) (fuel : Nat) (hfuel : w.length < fuel)
    (haligned : (position + (w ++ r).length) % 8 = 0) :
    blocks fuel out (w ++ r) = some (all, r) := by
  induction h generalizing fuel with
  | last hblock =>
    obtain ⟨fuel, rfl⟩ : ∃ n, fuel = n + 1 := ⟨fuel - 1, by omega⟩
    simp [blocks, hblock.block_eq haligned]
  | more hblock _ ih =>
    have hpos := hblock.length_pos
    rw [List.append_assoc] at haligned ⊢
    rw [List.length_append] at hfuel
    obtain ⟨fuel, rfl⟩ : ∃ n, fuel = n + 1 := ⟨fuel - 1, by omega⟩
    simp only [blocks, hblock.block_eq haligned, Option.bind_eq_bind, Option.bind_some]
    rw [List.length_append, ← Nat.add_assoc] at haligned
    exact ih fuel (by omega) haligned

/-- Compressed data is its blocks, from the first bit of an octet on. -/
theorem inflate_eq_some_iff {bits r : List Bool} {out : Array UInt8}
    (haligned : bits.length % 8 = 0) :
    inflate bits = some (out, r) ↔ ∃ w, Blocks 0 #[] w out ∧ bits = w ++ r := by
  constructor
  · exact blocks_form (by omega)
  · intro h
    obtain ⟨w, hw, rfl⟩ := h
    exact hw.blocks_eq r _ (by rw [List.length_append]; omega) (by omega)

end ExplicitSelf.Gzip
