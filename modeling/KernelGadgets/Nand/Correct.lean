import Mathlib.Algebra.BigOperators.Intervals
import Mathlib.Algebra.Order.BigOperators.Group.Finset
import KernelGadgets.Nand.Ecc

/-!
# Correction and detection

The XOR of the codes of two blocks is the code of the XOR of their registers (`code_xor`). Its
first two bytes interleave two registers and the third holds the column parities, so the 24 bits
come in pairs, a plain bit beside its complement. One flipped data bit sets exactly one bit of every
pair, and the plain ones spell its position; two flipped data bits set both bits of a pair or none;
a flipped bit of the stored code sets a single bit.
-/

namespace KernelGadgets.Nand

/-! ## The code is linear -/

theorem and_shiftRight (x : Byte) (j k : ℕ) :
    (x &&& BitVec.twoPow 8 j) >>> k = pick (BitVec.twoPow 8 j >>> k) (x.getLsbD j) := by
  rw [BitVec.and_twoPow]
  cases x.getLsbD j
  · exact BitVec.zero_ushiftRight
  · rfl

theorem and_shiftLeft (x : Byte) (j k : ℕ) :
    (x &&& BitVec.twoPow 8 j) <<< k = pick (BitVec.twoPow 8 j <<< k) (x.getLsbD j) := by
  rw [BitVec.and_twoPow]
  cases x.getLsbD j
  · exact BitVec.zero_shiftLeft k
  · rfl

/-- Four pairs of bits in one byte. -/
def weave (p3 q3 p2 q2 p1 q1 p0 q0 : Bool) : Byte :=
  pick 0x80 p3 ^^^ pick 0x40 q3 ^^^ pick 0x20 p2 ^^^ pick 0x10 q2 ^^^
  pick 0x08 p1 ^^^ pick 0x04 q1 ^^^ pick 0x02 p0 ^^^ pick 0x01 q0

theorem or_eq_weave : ∀ p3 q3 p2 q2 p1 q1 p0 q0 : Bool,
    pick 0x80 p3 ||| pick 0x40 q3 ||| pick 0x20 p2 ||| pick 0x10 q2 |||
    pick 0x08 p1 ||| pick 0x04 q1 ||| pick 0x02 p0 ||| pick 0x01 q0 =
      weave p3 q3 p2 q2 p1 q1 p0 q0 := by
  decide

theorem tmp1Of_eq (a b : Byte) :
    tmp1Of a b = weave (b.getLsbD 7) (a.getLsbD 7) (b.getLsbD 6) (a.getLsbD 6)
      (b.getLsbD 5) (a.getLsbD 5) (b.getLsbD 4) (a.getLsbD 4) := by
  rw [← or_eq_weave]
  show ((b &&& BitVec.twoPow 8 7) >>> 0) ||| ((a &&& BitVec.twoPow 8 7) >>> 1) |||
    ((b &&& BitVec.twoPow 8 6) >>> 1) ||| ((a &&& BitVec.twoPow 8 6) >>> 2) |||
    ((b &&& BitVec.twoPow 8 5) >>> 2) ||| ((a &&& BitVec.twoPow 8 5) >>> 3) |||
    ((b &&& BitVec.twoPow 8 4) >>> 3) ||| ((a &&& BitVec.twoPow 8 4) >>> 4) = _
  simp only [and_shiftRight]
  rfl

theorem tmp2Of_eq (a b : Byte) :
    tmp2Of a b = weave (b.getLsbD 3) (a.getLsbD 3) (b.getLsbD 2) (a.getLsbD 2)
      (b.getLsbD 1) (a.getLsbD 1) (b.getLsbD 0) (a.getLsbD 0) := by
  rw [← or_eq_weave]
  show ((b &&& BitVec.twoPow 8 3) <<< 4) ||| ((a &&& BitVec.twoPow 8 3) <<< 3) |||
    ((b &&& BitVec.twoPow 8 2) <<< 3) ||| ((a &&& BitVec.twoPow 8 2) <<< 2) |||
    ((b &&& BitVec.twoPow 8 1) <<< 2) ||| ((a &&& BitVec.twoPow 8 1) <<< 1) |||
    ((b &&& BitVec.twoPow 8 0) <<< 1) ||| ((a &&& BitVec.twoPow 8 0) <<< 0) = _
  simp only [and_shiftLeft]
  rfl

theorem weave_xor (p3 q3 p2 q2 p1 q1 p0 q0 p3' q3' p2' q2' p1' q1' p0' q0' : Bool) :
    weave (p3 ^^ p3') (q3 ^^ q3') (p2 ^^ p2') (q2 ^^ q2') (p1 ^^ p1') (q1 ^^ q1') (p0 ^^ p0')
        (q0 ^^ q0') =
      weave p3 q3 p2 q2 p1 q1 p0 q0 ^^^ weave p3' q3' p2' q2' p1' q1' p0' q0' := by
  simp only [weave, pick_xor]
  ac_rfl

theorem tmp1Of_xor (a b a' b' : Byte) :
    tmp1Of (a ^^^ a') (b ^^^ b') = tmp1Of a b ^^^ tmp1Of a' b' := by
  simp only [tmp1Of_eq, BitVec.getLsbD_xor, weave_xor]

theorem tmp2Of_xor (a b a' b' : Byte) :
    tmp2Of (a ^^^ a') (b ^^^ b') = tmp2Of a b ^^^ tmp2Of a' b' := by
  simp only [tmp2Of_eq, BitVec.getLsbD_xor, weave_xor]

theorem columns_xor (a b : Byte) :
    ((a <<< 2) ||| 0x03#8) ^^^ ((b <<< 2) ||| 0x03#8) = (a ^^^ b) <<< 2 := by
  have hlow : ∀ i < 8, (0x03#8).getLsbD i = decide (i < 2) := by decide
  apply BitVec.eq_of_getLsbD_eq
  intro i hi
  simp only [BitVec.getLsbD_xor, BitVec.getLsbD_or, BitVec.getLsbD_shiftLeft, hlow i hi]
  by_cases h : i < 2
  · simp [h]
  · simp [h, hi]

/-- What `nand_correct_data` makes of blocks whose registers differ by `r`. -/
def judge (r : Regs) : Outcome Correction :=
  correctSyndrome (tmp2Of r.reg2 r.reg3) (tmp1Of r.reg2 r.reg3) (r.reg1 <<< 2)

/-- Only the XOR of the registers counts. -/
theorem code_xor {d d' : Page} {r : Regs} (h : eccRegs eccTbl d' = eccRegs eccTbl d ^^^ r) :
    nandCorrectData (nandCalculateEcc eccTbl d) (nandCalculateEcc eccTbl d') = judge r := by
  have hcancel : ∀ x y : Byte, x ^^^ y ^^^ x = y := by
    intro x y
    rw [BitVec.xor_comm x y, BitVec.xor_assoc, BitVec.xor_self, BitVec.xor_zero]
  show correctSyndrome
    (tmp2Of (eccRegs eccTbl d').reg2 (eccRegs eccTbl d').reg3 ^^^
      tmp2Of (eccRegs eccTbl d).reg2 (eccRegs eccTbl d).reg3)
    (tmp1Of (eccRegs eccTbl d').reg2 (eccRegs eccTbl d').reg3 ^^^
      tmp1Of (eccRegs eccTbl d).reg2 (eccRegs eccTbl d).reg3)
    ((((eccRegs eccTbl d').reg1 <<< 2) ||| 0x03#8) ^^^
      (((eccRegs eccTbl d).reg1 <<< 2) ||| 0x03#8)) = _
  simp only [← tmp1Of_xor, ← tmp2Of_xor, columns_xor, h, Regs.xor_reg1, Regs.xor_reg2,
    Regs.xor_reg3, hcancel]
  rfl

/-! ## Counting bits -/

/-- The loop counts the bits that are one. -/
theorem countbitsLoop_eq {n : ℕ} {byte : BitVec 32} (h : byte.toNat < 2 ^ n) (res : ℕ) :
    countbitsLoop (n + 1) byte res =
      .ok (res + ∑ k ∈ Finset.range n, (byte.getLsbD k).toNat) := by
  induction n generalizing byte res with
  | zero =>
    have hz : byte = 0 := BitVec.eq_of_toNat_eq (Nat.lt_one_iff.mp h)
    rw [countbitsLoop, if_pos hz, Finset.sum_range_zero, Nat.add_zero]
  | succ n ih =>
    rw [countbitsLoop]
    split_ifs with hz
    · rw [hz]
      simp
    · have hlow : (byte &&& 0x01).toNat = (byte.getLsbD 0).toNat := by
        have hand : byte &&& 0x01 = if byte.getLsbD 0 then 0x01 else 0 := BitVec.and_twoPow byte 0
        rw [hand]
        cases byte.getLsbD 0 <;> rfl
      have hnext : (byte >>> 1).toNat < 2 ^ n := by
        rw [BitVec.toNat_ushiftRight, Nat.shiftRight_eq_div_pow]
        rw [Nat.pow_succ] at h
        omega
      have hbit : ∀ k, (byte >>> 1).getLsbD k = byte.getLsbD (k + 1) := by
        intro k
        rw [BitVec.getLsbD_ushiftRight, Nat.add_comm]
      rw [ih hnext, Finset.sum_range_succ', hlow]
      simp only [hbit]
      congr 1
      omega

theorem two_le_countbits {byte : BitVec 32} {j k : ℕ} (hj : j < 32) (hk : k < 32) (hjk : j ≠ k)
    (hbj : byte.getLsbD j = true) (hbk : byte.getLsbD k = true) :
    ∃ n, countbits byte = .ok n ∧ 2 ≤ n := by
  refine ⟨_, countbitsLoop_eq byte.isLt 0, ?_⟩
  have hsub : ({j, k} : Finset ℕ) ⊆ Finset.range 32 := by
    intro i hi
    rw [Finset.mem_insert, Finset.mem_singleton] at hi
    rw [Finset.mem_range]
    omega
  have hle := Finset.sum_le_sum_of_subset (f := fun k => (byte.getLsbD k).toNat) hsub
  rw [Finset.sum_pair hjk, hbj, hbk] at hle
  rw [Nat.zero_add]
  exact hle

/-! ## Pairs -/

/-- Both bits of every pair agree. -/
def Paired (s : Byte) : Prop := ∀ k < 4, s.getLsbD (2 * k) = s.getLsbD (2 * k + 1)

instance : DecidablePred Paired :=
  fun s => inferInstanceAs (Decidable (∀ k < 4, s.getLsbD (2 * k) = s.getLsbD (2 * k + 1)))

theorem Paired.differ : ∀ {s : Byte}, Paired s → (s ^^^ (s >>> 1)) &&& 0x55 = 0 := by
  decide

theorem Paired.exists_pair : ∀ {s : Byte}, Paired s → s ≠ 0 →
    ∃ k < 4, s.getLsbD (2 * k) = true ∧ s.getLsbD (2 * k + 1) = true := by
  decide

/-- A word with the bits of a paired byte other than zero has two bits that are one. -/
theorem Paired.two_le_countbits {s : Byte} (h : Paired s) (hs : s ≠ 0) {byte : BitVec 32} {m : ℕ}
    (hm : m + 8 ≤ 32) (hin : ∀ j < 8, s.getLsbD j = true → byte.getLsbD (m + j) = true) :
    ∃ n, countbits byte = .ok n ∧ 2 ≤ n := by
  obtain ⟨k, hk, hb, hb'⟩ := h.exists_pair hs
  have hj := hin (2 * k) (by omega) hb
  have hj' := hin (2 * k + 1) (by omega) hb'
  exact KernelGadgets.Nand.two_le_countbits (by omega) (by omega) (by omega) hj hj'

theorem countbits_word {s0 s1 s2 : Byte} (h0 : Paired s0) (h1 : Paired s1) (h2 : Paired s2)
    (hne : s0 ||| s1 ||| s2 ≠ 0) :
    ∃ n, countbits (s0.setWidth 32 ||| (s1.setWidth 32 <<< 8) ||| (s2.setWidth 32 <<< 16)) = .ok n ∧
      2 ≤ n := by
  by_cases hs0 : s0 = 0
  · by_cases hs1 : s1 = 0
    · have hs2 : s2 ≠ 0 := by
        intro hs2
        apply hne
        rw [hs0, hs1, hs2]
        rfl
      apply h2.two_le_countbits hs2 (m := 16) (by decide)
      intro j hj hb
      simp [hb]
      omega
    · apply h1.two_le_countbits hs1 (m := 8) (by decide)
      intro j hj hb
      simp [hb]
      omega
  · apply h0.two_le_countbits hs0 (m := 0) (by decide)
    intro j hj hb
    simp [hb]
    omega

/-- Paired bytes, not all of them zero, are two wrong bits. -/
theorem correctSyndrome_paired {s0 s1 s2 : Byte} (h0 : Paired s0) (h1 : Paired s1)
    (h2 : Paired s2) (hne : s0 ||| s1 ||| s2 ≠ 0) :
    correctSyndrome s0 s1 s2 = .ok ⟨-1, none⟩ := by
  obtain ⟨n, hn, hn2⟩ := countbits_word h0 h1 h2 hne
  have hcheck : ¬((s0 ^^^ (s0 >>> 1)) &&& 0x55 = 0x55 ∧ (s1 ^^^ (s1 >>> 1)) &&& 0x55 = 0x55 ∧
      (s2 ^^^ (s2 >>> 1)) &&& 0x54 = 0x54) := by
    rw [h0.differ]
    rintro ⟨hc, -⟩
    exact absurd hc (by decide)
  rw [correctSyndrome, if_neg hne, if_neg hcheck, hn]
  show Outcome.ok (if n = 1 then _ else _) = _
  rw [if_neg (by omega)]

/-! ## The positions of flipped bits -/

/-- The column parities of a single bit. -/
def column (q : Fin 8) : Byte := eccEntry (BitVec.twoPow 8 q) &&& 0x3f

/-- A byte with a single bit has odd parity. -/
theorem contrib_twoPow (p : Fin 256) (q : Fin 8) :
    contrib p (BitVec.twoPow 8 q) = ⟨column q, ~~~BitVec.ofNat 8 p, BitVec.ofNat 8 p⟩ := by
  have hodd : ∀ q : Fin 8, (eccEntry (BitVec.twoPow 8 q)).getLsbD 6 = true := by decide
  rw [contrib, hodd]
  rfl

/-- The plain bits of the pairs spell the byte. -/
theorem byte_located : ∀ p : Fin 256,
    let s0 := tmp2Of (~~~BitVec.ofNat 8 p) (BitVec.ofNat 8 p)
    let s1 := tmp1Of (~~~BitVec.ofNat 8 p) (BitVec.ofNat 8 p)
    (s0 ^^^ (s0 >>> 1)) &&& 0x55 = 0x55 ∧ (s1 ^^^ (s1 >>> 1)) &&& 0x55 = 0x55 ∧
      (byteoffsOf s0 s1).toNat = p := by
  decide +kernel

/-- And the bit. -/
theorem bit_located : ∀ q : Fin 8,
    let s2 := column q <<< 2
    (s2 ^^^ (s2 >>> 1)) &&& 0x54 = 0x54 ∧ (bitnumOf s2).toNat = q := by
  decide

/-- One flipped bit is found. -/
theorem judge_one (p : Fin 256) (q : Fin 8) :
    judge (contrib p (BitVec.twoPow 8 q)) = .ok ⟨1, some (p, q)⟩ := by
  obtain ⟨h0, h1, hp⟩ := byte_located p
  obtain ⟨h2, hq⟩ := bit_located q
  rw [contrib_twoPow]
  unfold judge correctSyndrome
  rw [if_neg, if_pos ⟨h0, h1, h2⟩, hp, hq]
  intro hz
  have hs0 := (BitVec.or_eq_zero_iff.mp (BitVec.or_eq_zero_iff.mp hz).1).1
  rw [hs0] at h0
  exact absurd h0 (by decide)

theorem paired_tmp : ∀ a : Byte, Paired (tmp2Of a a) ∧ Paired (tmp1Of a a) := by
  decide

theorem tmp_eq_zero : ∀ a : Byte, tmp2Of a a = 0 → tmp1Of a a = 0 → a = 0 := by
  decide

theorem paired_columns : ∀ q q' : Fin 8, Paired ((column q ^^^ column q') <<< 2) := by
  decide

theorem columns_eq_zero : ∀ q q' : Fin 8, (column q ^^^ column q') <<< 2 = 0 → q = q' := by
  decide

theorem not_xor_not (a b : Byte) : ~~~a ^^^ ~~~b = a ^^^ b := by
  rw [← BitVec.not_xor_left, ← BitVec.not_xor_right, BitVec.not_not]

/-- Two flipped bits are noticed. -/
theorem judge_two {b c : Fin 256 × Fin 8} (h : b ≠ c) :
    judge (contrib b.1 (BitVec.twoPow 8 b.2) ^^^ contrib c.1 (BitVec.twoPow 8 c.2)) =
      .ok ⟨-1, none⟩ := by
  rw [contrib_twoPow, contrib_twoPow]
  show correctSyndrome
    (tmp2Of (~~~BitVec.ofNat 8 b.1 ^^^ ~~~BitVec.ofNat 8 c.1)
      (BitVec.ofNat 8 b.1 ^^^ BitVec.ofNat 8 c.1))
    (tmp1Of (~~~BitVec.ofNat 8 b.1 ^^^ ~~~BitVec.ofNat 8 c.1)
      (BitVec.ofNat 8 b.1 ^^^ BitVec.ofNat 8 c.1))
    ((column b.2 ^^^ column c.2) <<< 2) = _
  rw [not_xor_not]
  apply correctSyndrome_paired (paired_tmp _).1 (paired_tmp _).2 (paired_columns b.2 c.2)
  intro hz
  obtain ⟨hz, h2⟩ := BitVec.or_eq_zero_iff.mp hz
  obtain ⟨h0, h1⟩ := BitVec.or_eq_zero_iff.mp hz
  have hp := congrArg BitVec.toNat (BitVec.xor_eq_zero_iff.mp (tmp_eq_zero _ h0 h1))
  rw [BitVec.toNat_ofNat, BitVec.toNat_ofNat, Nat.mod_eq_of_lt b.1.isLt,
    Nat.mod_eq_of_lt c.1.isLt] at hp
  exact h (Prod.ext (Fin.ext hp) (columns_eq_zero _ _ h2))

/-! ## The result -/

/-- A flipped bit of the stored code is a single bit of the XOR. -/
theorem stored_flip (k : Fin 3 × Fin 8) (code : Code) :
    nandCorrectData (flip code k) code = .ok ⟨1, none⟩ := by
  have hsingle : ∀ k : Fin 3 × Fin 8,
      correctSyndrome (flip (fun _ => 0) k 0) (flip (fun _ => 0) k 1) (flip (fun _ => 0) k 2) =
        .ok ⟨1, none⟩ := by
    decide
  have hxor : ∀ i, code i ^^^ flip code k i = flip (fun _ => 0) k i := by
    intro i
    by_cases hi : i = k.1
    · rw [hi, flip_self, flip_self, ← BitVec.xor_assoc, BitVec.xor_self]
      rfl
    · rw [flip_of_ne hi, flip_of_ne hi, BitVec.xor_self]
      rfl
  rw [nandCorrectData, hxor, hxor, hxor]
  exact hsingle k

/-- **The ECC corrects one error and detects two.** With the table that `mkECCtbl` makes: a flipped
bit of the block is named, two are reported, an intact block is accepted, and a flipped bit of the
stored code is recognised without naming a bit of the block. -/
theorem ecc_corrects (d : Page) :
    (∀ (p : Fin 256) (q : Fin 8),
      nandCorrectData (nandCalculateEcc eccTbl d) (nandCalculateEcc eccTbl (flip d (p, q))) =
        .ok ⟨1, some (p, q)⟩) ∧
    (∀ d' : Page, (differing d d').card = 2 →
      nandCorrectData (nandCalculateEcc eccTbl d) (nandCalculateEcc eccTbl d') =
        .ok ⟨-1, none⟩) ∧
    nandCorrectData (nandCalculateEcc eccTbl d) (nandCalculateEcc eccTbl d) = .ok ⟨0, none⟩ ∧
    ∀ k : Fin 3 × Fin 8,
      nandCorrectData (flip (nandCalculateEcc eccTbl d) k) (nandCalculateEcc eccTbl d) =
        .ok ⟨1, none⟩ := by
  refine ⟨?_, ?_, ?_, ?_⟩
  · intro p q
    rw [code_xor (eccRegs_flip d (p, q)), judge_one]
  · intro d' h
    obtain ⟨b, c, hbc, hdiff⟩ := Finset.card_eq_two.mp h
    rw [eq_flip_flip_of_differing hbc hdiff]
    have hregs := eccRegs_flip (flip d b) c
    rw [eccRegs_flip d b, Regs.xor_assoc] at hregs
    rw [code_xor hregs, judge_two hbc]
  · unfold nandCorrectData
    simp only [BitVec.xor_self]
    rfl
  · intro k
    exact stored_flip k _

theorem ecc_corrects_sample :
    let d : Page := fun _ => 0x34
    let d' := flip (flip d (52, 6)) (9, 0)
    (differing d d').card = 2 ∧
      nandCorrectData (nandCalculateEcc eccTbl d) (nandCalculateEcc eccTbl d') = .ok ⟨-1, none⟩ := by
  intro d d'
  have hcard : (differing d d').card = 2 := by decide +kernel
  exact ⟨hcard, (ecc_corrects d).2.1 d' hcard⟩

end KernelGadgets.Nand
