import KernelGadgets.Hid.Message

/-!
# The check byte is a parity

What the check of a message detects. The check byte makes the XOR of the length, the payload and
itself zero, so an alteration goes unnoticed exactly when the XOR of its differences is zero: one
parity for each of the eight bit columns.

* `valid_iff` reads the check as a parity over all bytes, the check byte among them.
* `parity_diff` and `column_diff`: the parity of an altered struct differs by the parity of the
  differences, and in each column by the parity of the number of bits flipped.
* `parityCheck` puts them together for every struct.
-/

namespace KernelGadgets.Hid

open Block

/-! ## Alterations -/

/-- The XOR of the differences in the first `k` bytes of `value`. -/
def diffParity (m m' : Block) : ℕ → UInt8
  | 0 => 0
  | k + 1 => diffParity m m' k ^^^ (byte m (2 + k) ^^^ byte m' (2 + k))

/-- How many of the first `k` bytes of `value` differ in the bit `c`. -/
def flips (m m' : Block) (c : ℕ) : ℕ → ℕ
  | 0 => 0
  | k + 1 => flips m m' c k +
      if (byte m (2 + k) ^^^ byte m' (2 + k)).toBitVec.getLsbD c then 1 else 0

/-- `m'` is `m` with other payload and check bytes, which are `value[1]` to `value[len + 1]`. -/
structure Altered (m m' : Block) : Prop where
  length : m'.length = m.length
  same : ∀ i, i < 3 ∨ (byte m 2).toNat + 4 ≤ i → byte m' i = byte m i

/-- The status, the start flag and the length are right. -/
def Headed (m : Block) : Prop :=
  (byte m 0 = singleMsg ∨ byte m 0 = multiMsg) ∧ byte m 1 = startFlag ∧ (byte m 2).toNat ≤ 28

instance : DecidablePred Headed := fun _ => inferInstanceAs (Decidable (_ ∧ _))

variable {m m' : Block}

theorem parity_diff (m m' : Block) (k : ℕ) : parity m' k = parity m k ^^^ diffParity m m' k := by
  induction k with
  | zero => exact UInt8.xor_self.symm
  | succ k ih =>
    rw [parity, parity, diffParity, ih]
    have hbyte : byte m' (2 + k) = byte m (2 + k) ^^^ (byte m (2 + k) ^^^ byte m' (2 + k)) := by
      rw [← UInt8.xor_assoc, UInt8.xor_self, UInt8.zero_xor]
    nth_rewrite 1 [hbyte]
    ac_rfl

/-- A column of the differences is the parity of the number of bits flipped in it. -/
theorem column_diff (m m' : Block) (c k : ℕ) :
    (diffParity m m' k).toBitVec.getLsbD c = decide (flips m m' c k % 2 = 1) := by
  induction k with
  | zero => simp [diffParity, flips]
  | succ k ih =>
    rw [diffParity, flips, UInt8.toBitVec_xor, BitVec.getLsbD_xor, ih]
    cases (byte m (2 + k) ^^^ byte m' (2 + k)).toBitVec.getLsbD c with
    | false => simp
    | true =>
      rw [if_pos rfl, Bool.xor_true, ← decide_not]
      congr 1
      apply propext
      omega

/-- A struct is valid when its head is right and the parity with the check byte is zero. -/
theorem valid_iff : Valid m ↔ Headed m ∧ parity m ((byte m 2).toNat + 2) = 0 := by
  have hpar : parity m ((byte m 2).toNat + 2) =
      parity m ((byte m 2).toNat + 1) ^^^ byte m (2 + ((byte m 2).toNat + 1)) := rfl
  rw [hpar, UInt8.xor_eq_zero_iff]
  unfold Valid Headed
  rw [msgMaxLen, and_assoc, and_assoc]

theorem checkMsg_eq_zero (hm : m.length = msgMaxLen) : checkMsg m = .ok 0 ↔ Valid m := by
  rw [checkMsg_eq hm]
  by_cases hv : Valid m
  · simp [hv]
  · simp [hv]

theorem checkMsg_eq_one (hm : m.length = msgMaxLen) : checkMsg m = .ok 1 ↔ ¬ Valid m := by
  rw [checkMsg_eq hm]
  by_cases hv : Valid m
  · simp [hv]
  · simp [hv]

/-! ## What an alteration does -/

section Altered

theorem Altered.len (h : Altered m m') : byte m' 2 = byte m 2 := h.same 2 (by omega)

theorem Altered.headed (h : Altered m m') : Headed m' ↔ Headed m := by
  unfold Headed
  rw [h.same 0 (by omega), h.same 1 (by omega), h.len]

/-- An altered valid struct is valid when the XOR of the differences is zero. -/
theorem Altered.valid_iff (h : Altered m m') (hv : Valid m) :
    Valid m' ↔ diffParity m m' ((byte m 2).toNat + 2) = 0 := by
  obtain ⟨hhead, hpar⟩ := Hid.valid_iff.mp hv
  rw [Hid.valid_iff, h.headed, h.len, parity_diff m m', hpar, UInt8.zero_xor]
  exact and_iff_right hhead

/-- An odd number of flips in one column is noticed. -/
theorem Altered.not_valid (h : Altered m m') (hv : Valid m) {c : ℕ}
    (hc : flips m m' c ((byte m 2).toNat + 2) % 2 = 1) : ¬ Valid m' := by
  rw [h.valid_iff hv]
  intro hzero
  have hcol := column_diff m m' c ((byte m 2).toNat + 2)
  rw [hzero] at hcol
  simp [hc] at hcol

/-- One byte of payload or check replaced. -/
theorem altered_set (m : Block) {i : ℕ} (h1 : 1 ≤ i) (hi : i ≤ (byte m 2).toNat + 1) (v : UInt8) :
    Altered m (m.set (2 + i) v) where
  length := List.length_set
  same j hj := byte_set_of_ne _ (by omega) _

theorem diffParity_set {i k : ℕ} (v : UInt8) (hin : 2 + i < m.length) :
    diffParity m (m.set (2 + i) v) k = if i < k then byte m (2 + i) ^^^ v else 0 := by
  induction k with
  | zero => rfl
  | succ k ih =>
    rw [diffParity, ih]
    by_cases hik : i = k
    · subst hik
      rw [if_neg (by omega), if_pos (by omega), byte_set_self hin, UInt8.zero_xor]
    · rw [byte_set_of_ne _ (by omega), UInt8.xor_self, UInt8.xor_zero]
      by_cases hlt : i < k
      · rw [if_pos hlt, if_pos (by omega)]
      · rw [if_neg hlt, if_neg (by omega)]

/-- A single byte replaced by another one is noticed. -/
theorem not_valid_set (hm : m.length = msgMaxLen) (hv : Valid m) {i : ℕ} (h1 : 1 ≤ i)
    (hi : i ≤ (byte m 2).toNat + 1) {v : UInt8} (hne : v ≠ byte m (2 + i)) :
    ¬ Valid (m.set (2 + i) v) := by
  have hlen : (byte m 2).toNat ≤ 28 := (valid_iff.mp hv).1.2.2
  rw [(altered_set m h1 hi v).valid_iff hv,
    diffParity_set v (by rw [hm, msgMaxLen]; omega), if_pos (by omega), UInt8.xor_eq_zero_iff]
  exact Ne.symm hne

/-- The check byte that `get_check_byte` returns is the only one that is accepted. -/
theorem valid_set_check (hm : m.length = msgMaxLen) (hh : Headed m) (v : UInt8) :
    Valid (m.set (2 + ((byte m 2).toNat + 1)) v) ↔ v = parity m ((byte m 2).toNat + 1) := by
  have hlen : (byte m 2).toNat ≤ 28 := hh.2.2
  have halt := altered_set m (by omega) (Nat.le_refl ((byte m 2).toNat + 1)) v
  have hin : 2 + ((byte m 2).toNat + 1) < m.length := by rw [hm, msgMaxLen]; omega
  have hpar : parity (m.set (2 + ((byte m 2).toNat + 1)) v) ((byte m 2).toNat + 2) =
      parity m ((byte m 2).toNat + 1) ^^^ v := by
    rw [parity, byte_set_self hin]
    congr 1
    exact parity_congr fun i hi => byte_set_of_ne _ (by omega) _
  rw [valid_iff, halt.headed, halt.len, hpar, UInt8.xor_eq_zero_iff, eq_comm]
  exact and_iff_right hh

end Altered

/-! ## The check of a struct -/

/-- The check of a struct is a parity for each bit column of the length, the payload and the check
byte. -/
structure ParityCheck (m : Block) : Prop where
  /-- What is accepted. The call ends, so nothing outside the struct is read. -/
  accepts : checkMsg m =
    .ok (if Headed m ∧ parity m ((byte m 2).toNat + 2) = 0 then 0 else 1)
  /-- The alterations that go unnoticed. -/
  alteration : checkMsg m = .ok 0 → ∀ m', Altered m m' →
    (checkMsg m' = .ok 0 ↔ diffParity m m' ((byte m 2).toNat + 2) = 0)
  /-- Every alteration of a single byte is noticed. -/
  single : checkMsg m = .ok 0 → ∀ i, 1 ≤ i → i ≤ (byte m 2).toNat + 1 →
    ∀ v, v ≠ byte m (2 + i) → checkMsg (m.set (2 + i) v) = .ok 1
  /-- So is every one that flips an odd number of bits in a column. -/
  column : checkMsg m = .ok 0 → ∀ m', Altered m m' →
    ∀ c, flips m m' c ((byte m 2).toNat + 2) % 2 = 1 → checkMsg m' = .ok 1
  /-- One check byte makes the struct accepted, the one `get_check_byte` returns. -/
  unique : Headed m → ∃ check, getCheckByte m = .ok check ∧
    ∀ v, checkMsg (m.set (2 + ((byte m 2).toNat + 1)) v) = .ok 0 ↔ v = check

/-- **The frame check is a column parity.** -/
theorem parityCheck (m : Block) (hm : m.length = msgMaxLen) : ParityCheck m where
  accepts := by
    rw [checkMsg_eq hm]
    simp only [valid_iff]
  alteration h m' halt := by
    rw [checkMsg_eq_zero (halt.length.trans hm)]
    exact halt.valid_iff ((checkMsg_eq_zero hm).mp h)
  single h i h1 hi v hne := by
    rw [checkMsg_eq_one (List.length_set.trans hm)]
    exact not_valid_set hm ((checkMsg_eq_zero hm).mp h) h1 hi hne
  column h m' halt c hc := by
    rw [checkMsg_eq_one (halt.length.trans hm)]
    exact halt.not_valid ((checkMsg_eq_zero hm).mp h) hc
  unique hh := by
    have hlen : (byte m 2).toNat ≤ 28 := hh.2.2
    refine ⟨_, getCheckByte_eq (by rw [hm, msgMaxLen]; omega), fun v => ?_⟩
    rw [checkMsg_eq_zero (List.length_set.trans hm)]
    exact valid_set_check hm hh v

/-- A struct with the payload 1, 2, 3. -/
def sampleStruct : Block := 0x02 :: 0x55 :: 3 :: 1 :: 2 :: 3 :: 3 :: List.replicate 25 0

theorem parityCheck_sample : ParityCheck sampleStruct := parityCheck sampleStruct rfl

/-- Two flips in one column go unnoticed, here in the first two bytes of the payload. -/
example : checkMsg ((sampleStruct.set 3 0x81).set 4 0x82) = .ok 0 := by decide

end KernelGadgets.Hid
