import KernelGadgets.Nand.Prev
import KernelGadgets.Nand.Rows

/-!
# Both correctors follow the verdict

The XOR of two codes is three bytes, of the low row parities, the high ones and the columns. Both
correctors test them for zero, for pairs of two bits that differ and for a single one, in different
ways: tables against shifts and a loop. Either way they do what the verdict on the pairs says
(`Follows`, `follows_of_tests`).
-/

namespace KernelGadgets.Nand

variable {m : ℕ}

/-- The bits of the pairs in which two codes differ. -/
def syndromeOf (m : ℕ) (smc : Bool) (readEcc calcEcc : Code) (j : Fin (10 + m)) (v : Bool) : Bool :=
  bitAt readEcc (place smc j v) ^^ bitAt calcEcc (place smc j v)

/-- How many of the bits beside the pairs differ. -/
def spareOf (m : ℕ) (smc : Bool) (readEcc calcEcc : Code) : ℕ :=
  if m = 1 then ∑ v, (bitAt readEcc (place smc 11 v) ^^ bitAt calcEcc (place smc 11 v)).toNat else 0

/-- What a verdict does to the sector. -/
def Follows (bad : ℤ) (buf : Sector m) (res : Outcome (ℤ × Sector m)) : Verdict (10 + m) → Prop
  | .clean => res = .ok (0, buf)
  | .data a => ∃ b, (∀ j : Fin (10 + m), (address b).testBit j = a j) ∧ res = .ok (1, flip buf b)
  | .code => res = .ok (1, buf)
  | .lost => res = .ok (bad, buf)

/-! ## Three bytes as pairs -/

/-- A bit of a pair in the low rows, the high rows and the columns. -/
def tripleBit (b0 b1 b2 : Byte) (j : ℕ) (v : Bool) : Bool :=
  if j < 3 then b2.getLsbD (2 * (j + 1) + v.toNat)
  else if j < 7 then b0.getLsbD (2 * (j - 3) + v.toNat)
  else if j < 11 then b1.getLsbD (2 * (j - 7) + v.toNat)
  else b2.getLsbD v.toNat

theorem tripleBit_difference (smc : Bool) (a b : Code) {j : ℕ} (hj : j < 12) (v : Bool) :
    tripleBit (difference a b (if smc then 0 else 1)) (difference a b (if smc then 1 else 0))
      (difference a b 2) j v = (bitAt a (place smc j v) ^^ bitAt b (place smc j v)) := by
  cases smc <;> interval_cases j <;> cases v <;> exact BitVec.getLsbD_xor

/-- The number of ones. -/
def ones (x : Byte) : ℕ := ∑ q : Fin 8, (x.getLsbD q).toNat

theorem ones_eq_zero {x : Byte} : ones x = 0 ↔ x = 0 := by
  revert x
  decide

section

variable (b0 b1 b2 : Byte)

theorem ones_pairs (hm : m = 1 ∨ m = 2) :
    differences (fun j : Fin (10 + m) => tripleBit b0 b1 b2 j)
        (if m = 1 then ∑ v, (tripleBit b0 b1 b2 11 v).toNat else 0) =
      ones b0 + ones b1 + ones b2 := by
  rw [differences_eq]
  unfold ones
  simp only [Fin.sum_univ_eight]
  obtain rfl | rfl := hm
  · simp [Fin.sum_univ_succ, tripleBit]
    omega
  · simp [Fin.sum_univ_succ, tripleBit]
    omega

theorem or_eq_zero : b0 ||| b1 ||| b2 = 0 ↔ ones b0 + ones b1 + ones b2 = 0 := by
  rw [Nat.add_eq_zero_iff, Nat.add_eq_zero_iff, ones_eq_zero, ones_eq_zero, ones_eq_zero]
  exact BitVec.or_eq_zero_iff.trans (and_congr_left' BitVec.or_eq_zero_iff)

/-- Four pairs whose two bits differ. -/
theorem differ_55 : ∀ x : Byte, (x ^^^ (x >>> 1)) &&& 0x55 = 0x55 ↔
    ∀ k < 4, x.getLsbD (2 * k + 1) ≠ x.getLsbD (2 * k) := by
  decide

/-- Three of them. -/
theorem differ_54 : ∀ x : Byte, (x ^^^ (x >>> 1)) &&& 0x54 = 0x54 ↔
    ∀ k < 3, x.getLsbD (2 * (k + 1) + 1) ≠ x.getLsbD (2 * (k + 1)) := by
  decide

theorem forall_lt_pairs {P : ℕ → Prop} (hm : m = 1 ∨ m = 2) :
    (∀ j : Fin (10 + m), P j) ↔
      (∀ k < 4, P (k + 3)) ∧ (∀ k < 4, P (k + 7)) ∧ (∀ k < 3, P k) ∧ (m = 2 → P 11) := by
  constructor
  · intro h
    refine ⟨fun k hk => h ⟨k + 3, by omega⟩, fun k hk => h ⟨k + 7, by omega⟩,
      fun k hk => h ⟨k, by omega⟩, fun h2 => h ⟨11, by omega⟩⟩
  · rintro ⟨hl, hh, hc, h11⟩ ⟨j, hj⟩
    by_cases h3 : j < 3
    · exact hc j h3
    by_cases h7 : j < 7
    · have h := hl (j - 3) (by omega)
      rwa [Nat.sub_add_cancel (by omega)] at h
    by_cases hj11 : j < 11
    · have h := hh (j - 7) (by omega)
      rwa [Nat.sub_add_cancel (by omega)] at h
    · obtain rfl : j = 11 := by omega
      exact h11 (by omega)

theorem tripleBit_low {k : ℕ} (hk : k < 4) (v : Bool) :
    tripleBit b0 b1 b2 (k + 3) v = b0.getLsbD (2 * k + v.toNat) := by
  unfold tripleBit
  rw [if_neg (by omega), if_pos (by omega), Nat.add_sub_cancel]

theorem tripleBit_high {k : ℕ} (hk : k < 4) (v : Bool) :
    tripleBit b0 b1 b2 (k + 7) v = b1.getLsbD (2 * k + v.toNat) := by
  unfold tripleBit
  rw [if_neg (by omega), if_neg (by omega), if_pos (by omega), Nat.add_sub_cancel]

theorem tripleBit_column {k : ℕ} (hk : k < 3) (v : Bool) :
    tripleBit b0 b1 b2 k v = b2.getLsbD (2 * (k + 1) + v.toNat) := by
  unfold tripleBit
  rw [if_pos hk]

theorem forall_lt_four {P : ℕ → Prop} : (∀ k < 4, P k) ↔ (∀ k < 3, P (k + 1)) ∧ P 0 := by
  constructor
  · intro h
    exact ⟨fun k hk => h (k + 1) (by omega), h 0 (by decide)⟩
  · rintro ⟨h, h0⟩ k hk
    cases k with
    | zero => exact h0
    | succ k => exact h k (by omega)

/-- The test for one wrong bit of the sector. -/
theorem differ_pairs (hm : m = 1 ∨ m = 2) :
    ((b0 ^^^ (b0 >>> 1)) &&& 0x55 = 0x55 ∧ (b1 ^^^ (b1 >>> 1)) &&& 0x55 = 0x55 ∧
      (m = 1 ∧ (b2 ^^^ (b2 >>> 1)) &&& 0x54 = 0x54 ∨
        m = 2 ∧ (b2 ^^^ (b2 >>> 1)) &&& 0x55 = 0x55)) ↔
      ∀ j : Fin (10 + m), tripleBit b0 b1 b2 j true ≠ tripleBit b0 b1 b2 j false := by
  have hcolumns : (m = 1 ∧ (b2 ^^^ (b2 >>> 1)) &&& 0x54 = 0x54 ∨
        m = 2 ∧ (b2 ^^^ (b2 >>> 1)) &&& 0x55 = 0x55) ↔
      (∀ k < 3, b2.getLsbD (2 * (k + 1) + 1) ≠ b2.getLsbD (2 * (k + 1))) ∧
        (m = 2 → b2.getLsbD 1 ≠ b2.getLsbD 0) := by
    rw [differ_54, differ_55, forall_lt_four]
    obtain rfl | rfl := hm
    · simp
    · simp
  rw [forall_lt_pairs (P := fun j => tripleBit b0 b1 b2 j true ≠ tripleBit b0 b1 b2 j false) hm,
    hcolumns, differ_55, differ_55]
  simp +contextual only [tripleBit_low, tripleBit_high, tripleBit_column]
  rfl

/-! ## The place of a wrong bit -/

/-- The odd bits of the bytes spell the bit's number. -/
theorem spelled_of_testBit (hm : m = 1 ∨ m = 2) {p : Fin (256 * m)} {q : Fin 8}
    (hlow : ∀ k < 4, p.val.testBit k = b0.getLsbD (2 * k + 1))
    (hhigh : ∀ k < 4, p.val.testBit (k + 4) = b1.getLsbD (2 * k + 1))
    (hcolumn : ∀ k < 3, q.val.testBit k = b2.getLsbD (2 * (k + 1) + 1))
    (h11 : m = 2 → p.val.testBit 8 = b2.getLsbD 1) :
    ∀ j : Fin (10 + m), (address (p, q)).testBit j = tripleBit b0 b1 b2 j true := by
  rw [forall_lt_pairs (P := fun j => (address (p, q)).testBit j = tripleBit b0 b1 b2 j true) hm]
  refine ⟨fun k hk => ?_, fun k hk => ?_, fun k hk => ?_, fun h2 => ?_⟩
  · rw [tripleBit_low _ _ _ hk, address_testBit, if_neg (by omega), Nat.add_sub_cancel]
    exact hlow k hk
  · rw [tripleBit_high _ _ _ hk, address_testBit, if_neg (by omega)]
    exact hhigh k hk
  · rw [tripleBit_column _ _ _ hk, address_testBit, if_pos hk]
    exact hcolumn k hk
  · rw [address_testBit, if_neg (by decide)]
    exact h11 h2

theorem update_eq_flip (buf : Sector m) {p q : ℕ} (hp : p < 256 * m) (hq : q < 8) :
    Function.update buf ⟨p, hp⟩ (buf ⟨p, hp⟩ ^^^ (1#8 <<< q)) = flip buf (⟨p, hp⟩, ⟨q, hq⟩) := by
  unfold flip
  rw [BitVec.twoPow_eq]

end

section

variable (hm : m = 1 ∨ m = 2) (smc : Bool) (readEcc calcEcc : Code)

include hm

/-- The three tests of a corrector, in their order. -/
theorem follows_of_tests {bad : ℤ} {buf : Sector m} {res : Outcome (ℤ × Sector m)}
    {b0 b1 b2 : Byte} (h0 : difference readEcc calcEcc (if smc then 0 else 1) = b0)
    (h1 : difference readEcc calcEcc (if smc then 1 else 0) = b1)
    (h2 : difference readEcc calcEcc 2 = b2)
    (hclean : ones b0 + ones b1 + ones b2 = 0 → res = .ok (0, buf))
    (hdata : ones b0 + ones b1 + ones b2 ≠ 0 →
      (∀ j : Fin (10 + m), tripleBit b0 b1 b2 j true ≠ tripleBit b0 b1 b2 j false) →
        ∃ b, (∀ j : Fin (10 + m), (address b).testBit j = tripleBit b0 b1 b2 j true) ∧
          res = .ok (1, flip buf b))
    (hcode : ones b0 + ones b1 + ones b2 ≠ 0 →
      (¬∀ j : Fin (10 + m), tripleBit b0 b1 b2 j true ≠ tripleBit b0 b1 b2 j false) →
        res = if ones b0 + ones b1 + ones b2 = 1 then .ok (1, buf) else .ok (bad, buf)) :
    Follows bad buf res
      (verdict (syndromeOf m smc readEcc calcEcc) (spareOf m smc readEcc calcEcc)) := by
  have hbit : ∀ j < 12, ∀ v, (bitAt readEcc (place smc j v) ^^ bitAt calcEcc (place smc j v)) =
      tripleBit b0 b1 b2 j v := by
    intro j hj v
    rw [← tripleBit_difference smc readEcc calcEcc hj, h0, h1, h2]
  have hs : syndromeOf m smc readEcc calcEcc =
      fun j : Fin (10 + m) => tripleBit b0 b1 b2 j := by
    funext j v
    exact hbit j (by omega) v
  have hspare : spareOf m smc readEcc calcEcc =
      if m = 1 then ∑ v, (tripleBit b0 b1 b2 11 v).toNat else 0 := by
    unfold spareOf
    simp only [hbit 11 (by decide)]
  unfold verdict
  rw [hs, hspare, ones_pairs b0 b1 b2 hm]
  by_cases hzero : ones b0 + ones b1 + ones b2 = 0
  · rw [if_pos hzero]
    exact hclean hzero
  rw [if_neg hzero]
  by_cases hd : ∀ j : Fin (10 + m), tripleBit b0 b1 b2 j true ≠ tripleBit b0 b1 b2 j false
  · rw [if_pos hd]
    exact hdata hzero hd
  rw [if_neg hd]
  have hres := hcode hzero hd
  by_cases hone : ones b0 + ones b1 + ones b2 = 1
  · rw [if_pos hone] at hres ⊢
    exact hres
  · rw [if_neg hone] at hres ⊢
    exact hres

end

/-! ## The word-parallel corrector -/

namespace Later

theorem addressbits_lt : ∀ x : Byte, (lookup addressbits x).toNat < 16 := by
  decide

theorem addressbits_testBit : ∀ x : Byte, ∀ k < 4,
    (lookup addressbits x).toNat.testBit k = x.getLsbD (2 * k + 1) := by
  decide

theorem addressbits_column : ∀ x : Byte, (lookup addressbits (x >>> 2)).toNat < 8 := by
  decide

theorem addressbits_top : ∀ x : Byte, (lookup addressbits (x &&& 0x3)).toNat < 2 := by
  decide

theorem bitsperbyte_eq : ∀ x : Byte, (lookup bitsperbyte x).toNat = ones x := by
  decide

theorem low_testBit (b0 b1 : Byte) (k : ℕ) :
    (((lookup addressbits b1).toNat <<< 4) + (lookup addressbits b0).toNat).testBit k =
      if k < 4 then (lookup addressbits b0).toNat.testBit k
      else (lookup addressbits b1).toNat.testBit (k - 4) := by
  rw [Nat.shiftLeft_eq, Nat.mul_comm]
  exact Nat.testBit_two_pow_mul_add _ (addressbits_lt b0) k

theorem low_lt (b0 b1 : Byte) :
    ((lookup addressbits b1).toNat <<< 4) + (lookup addressbits b0).toNat < 256 := by
  have h0 := addressbits_lt b0
  have h1 := addressbits_lt b1
  rw [Nat.shiftLeft_eq]
  omega

theorem byteAddrOf_lt (hm : m = 1 ∨ m = 2) (b0 b1 b2 : Byte) :
    byteAddrOf m b0 b1 b2 < 256 * m := by
  have hlow := low_lt b0 b1
  have htop := addressbits_top b2
  unfold byteAddrOf
  rw [Nat.shiftLeft_eq _ 8]
  obtain rfl | rfl := hm
  · rw [if_pos rfl]
    exact hlow
  · rw [if_neg (by decide)]
    omega

theorem byteAddrOf_testBit (b0 b1 b2 : Byte) {k : ℕ} (hk : k < 8) :
    (byteAddrOf m b0 b1 b2).testBit k = if k < 4 then (lookup addressbits b0).toNat.testBit k
      else (lookup addressbits b1).toNat.testBit (k - 4) := by
  rw [← low_testBit]
  unfold byteAddrOf
  split_ifs
  · rfl
  · rw [Nat.shiftLeft_eq _ 8, Nat.mul_comm _ (2 ^ 8)]
    refine (Nat.testBit_two_pow_mul_add _ (low_lt b0 b1) k).trans ?_
    rw [if_pos hk]

theorem byteAddrOf_top (b0 b1 b2 : Byte) : (byteAddrOf 2 b0 b1 b2).testBit 8 = b2.getLsbD 1 := by
  have htop : ∀ x : Byte, (lookup addressbits (x &&& 0x3)).toNat.testBit 0 = x.getLsbD 1 := by
    decide
  unfold byteAddrOf
  rw [if_neg (by decide), Nat.shiftLeft_eq _ 8, Nat.mul_comm _ (2 ^ 8), ← htop]
  exact Nat.testBit_two_pow_mul_add _ (low_lt b0 b1) 8

/-- The bit that the corrector flips is the one that the pairs spell. -/
theorem byteAddrOf_spells (hm : m = 1 ∨ m = 2) (b0 b1 b2 : Byte) :
    ∀ j : Fin (10 + m), (address (⟨byteAddrOf m b0 b1 b2, byteAddrOf_lt hm b0 b1 b2⟩,
      ⟨(lookup addressbits (b2 >>> 2)).toNat, addressbits_column b2⟩)).testBit j =
        tripleBit b0 b1 b2 j true := by
  apply spelled_of_testBit b0 b1 b2 hm
  · intro k hk
    show (byteAddrOf m b0 b1 b2).testBit k = _
    rw [byteAddrOf_testBit b0 b1 b2 (by omega), if_pos hk, addressbits_testBit b0 k hk]
  · intro k hk
    show (byteAddrOf m b0 b1 b2).testBit (k + 4) = _
    rw [byteAddrOf_testBit b0 b1 b2 (by omega), if_neg (by omega), Nat.add_sub_cancel,
      addressbits_testBit b1 k hk]
  · intro k hk
    refine (addressbits_testBit (b2 >>> 2) k (by omega)).trans ?_
    rw [BitVec.getLsbD_ushiftRight]
    congr 1
    omega
  · rintro rfl
    exact byteAddrOf_top b0 b1 b2

theorem correctData_follows (hm : m = 1 ∨ m = 2) (smc : Bool) (buf : Sector m)
    (readEcc calcEcc : Code) :
    Follows (-1) buf (correctData smc buf readEcc calcEcc)
      (verdict (syndromeOf m smc readEcc calcEcc) (spareOf m smc readEcc calcEcc)) := by
  apply follows_of_tests hm smc readEcc calcEcc rfl rfl rfl
  all_goals
    unfold correctData
    generalize difference readEcc calcEcc (if smc then 0 else 1) = b0
    generalize difference readEcc calcEcc (if smc then 1 else 0) = b1
    generalize difference readEcc calcEcc 2 = b2
    simp only [or_eq_zero, differ_pairs b0 b1 b2 hm, bitsperbyte_eq]
  · intro h0
    rw [if_pos h0]
  · intro h0 hd
    have hp := byteAddrOf_lt hm b0 b1 b2
    rw [if_neg h0, if_pos hd, dif_pos hp, update_eq_flip buf hp (addressbits_column b2)]
    exact ⟨_, byteAddrOf_spells hm b0 b1 b2, rfl⟩
  · intro h0 hd
    rw [if_neg h0, if_neg hd]

end Later

/-! ## The older corrector -/

namespace Prev

theorem difference_comm (a b : Code) (k : ℕ) : difference a b k = difference b a k :=
  BitVec.xor_comm _ _

theorem byteoffsOf_testBit (s0 s1 : Byte) {k : ℕ} (hk : k < 8) :
    (byteoffsOf s0 s1).toNat.testBit k =
      if k < 4 then s0.getLsbD (2 * k + 1) else s1.getLsbD (2 * (k - 4) + 1) := by
  rw [BitVec.testBit_toNat]
  unfold byteoffsOf
  interval_cases k <;> simp

theorem byteoffsOf_lt (s0 s1 : Byte) : (byteoffsOf s0 s1).toNat < 256 := by
  have hand : ∀ x mask : BitVec 32, mask.toNat < 2 ^ 8 → (x &&& mask).toNat < 2 ^ 8 := by
    intro x mask h
    rw [BitVec.toNat_and]
    exact Nat.and_lt_two_pow _ h
  have hor : ∀ {x y : BitVec 32}, x.toNat < 2 ^ 8 → y.toNat < 2 ^ 8 →
      (x ||| y).toNat < 2 ^ 8 := by
    intro x y hx hy
    rw [BitVec.toNat_or]
    exact Nat.or_lt_two_pow hx hy
  unfold byteoffsOf
  refine hor (hor (hor (hor (hor (hor (hor ?_ ?_) ?_) ?_) ?_) ?_) ?_) ?_ <;>
    exact hand _ _ (by decide)

theorem bitnumOf_testBit : ∀ s2 : Byte, ∀ k < 3, (bitnumOf s2).toNat.testBit k =
    s2.getLsbD (2 * (k + 1) + 1) := by
  decide

theorem bitnumOf_lt : ∀ s2 : Byte, (bitnumOf s2).toNat < 8 := by
  decide

theorem countbits_eq (s0 s1 s2 : Byte) :
    countbits (s0.setWidth 32 ||| (s1.setWidth 32 <<< 8) ||| (s2.setWidth 32 <<< 16)) =
      .ok (ones s0 + ones s1 + ones s2) := by
  unfold countbits
  rw [countbitsLoop_eq (BitVec.isLt _)]
  unfold ones
  simp [Finset.sum_range_succ, Fin.sum_univ_eight]
  omega

theorem nandCorrectData_follows (smc : Bool) (dat : Page) (readEcc calcEcc : Code) :
    Follows (m := 1) (-ebadmsg) dat (nandCorrectData smc dat readEcc calcEcc)
      (verdict (syndromeOf 1 smc readEcc calcEcc) (spareOf 1 smc readEcc calcEcc)) := by
  have hcomm := difference_comm readEcc calcEcc
  apply follows_of_tests (Or.inl rfl) smc readEcc calcEcc (hcomm _) (hcomm _) (hcomm _)
  all_goals
    unfold nandCorrectData
    generalize difference calcEcc readEcc (if smc then 0 else 1) = s0
    generalize difference calcEcc readEcc (if smc then 1 else 0) = s1
    generalize difference calcEcc readEcc 2 = s2
    have htest := differ_pairs (m := 1) s0 s1 s2 (Or.inl rfl)
    simp only [true_and, (by decide : ¬(1 : ℕ) = 2), false_and, or_false] at htest
    simp only [or_eq_zero, htest]
  · intro h0
    rw [if_pos h0]
  · intro h0 hd
    have hp := byteoffsOf_lt s0 s1
    rw [if_neg h0, if_pos hd, dif_pos hp, update_eq_flip (m := 1) dat hp (bitnumOf_lt s2)]
    refine ⟨_, spelled_of_testBit s0 s1 s2 (Or.inl rfl) ?_ ?_ ?_ ?_, rfl⟩
    · intro k hk
      exact (byteoffsOf_testBit s0 s1 (by omega)).trans (if_pos hk)
    · intro k hk
      refine (byteoffsOf_testBit s0 s1 (by omega)).trans ?_
      rw [if_neg (by omega), Nat.add_sub_cancel]
    · intro k hk
      exact bitnumOf_testBit s2 k hk
    · intro h
      exact absurd h (by decide)
  · intro h0 hd
    rw [if_neg h0, if_neg hd, countbits_eq]
    show Outcome.ok (if _ then _ else _) = _
    rw [apply_ite Outcome.ok]

end Prev
end KernelGadgets.Nand
