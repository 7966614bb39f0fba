import KernelGadgets.Nand.Pairs

/-!
# The older ECC of the kernel

`nandCalculateEcc` takes the bytes of a page one by one through a table and keeps three registers,
as the program of the table's generator does; its code is inverted and has two orders.
`nandCorrectData` flips the wrong bit where it stands.
-/

namespace KernelGadgets.Nand.Prev

/-! ## The code -/

/-- `nand_ecc_precalc_table` -/
def nandEccPrecalcTable : List Byte :=
  [0x00, 0x55, 0x56, 0x03, 0x59, 0x0c, 0x0f, 0x5a, 0x5a, 0x0f, 0x0c, 0x59, 0x03, 0x56, 0x55, 0x00,
    0x65, 0x30, 0x33, 0x66, 0x3c, 0x69, 0x6a, 0x3f, 0x3f, 0x6a, 0x69, 0x3c, 0x66, 0x33, 0x30, 0x65,
    0x66, 0x33, 0x30, 0x65, 0x3f, 0x6a, 0x69, 0x3c, 0x3c, 0x69, 0x6a, 0x3f, 0x65, 0x30, 0x33, 0x66,
    0x03, 0x56, 0x55, 0x00, 0x5a, 0x0f, 0x0c, 0x59, 0x59, 0x0c, 0x0f, 0x5a, 0x00, 0x55, 0x56, 0x03,
    0x69, 0x3c, 0x3f, 0x6a, 0x30, 0x65, 0x66, 0x33, 0x33, 0x66, 0x65, 0x30, 0x6a, 0x3f, 0x3c, 0x69,
    0x0c, 0x59, 0x5a, 0x0f, 0x55, 0x00, 0x03, 0x56, 0x56, 0x03, 0x00, 0x55, 0x0f, 0x5a, 0x59, 0x0c,
    0x0f, 0x5a, 0x59, 0x0c, 0x56, 0x03, 0x00, 0x55, 0x55, 0x00, 0x03, 0x56, 0x0c, 0x59, 0x5a, 0x0f,
    0x6a, 0x3f, 0x3c, 0x69, 0x33, 0x66, 0x65, 0x30, 0x30, 0x65, 0x66, 0x33, 0x69, 0x3c, 0x3f, 0x6a,
    0x6a, 0x3f, 0x3c, 0x69, 0x33, 0x66, 0x65, 0x30, 0x30, 0x65, 0x66, 0x33, 0x69, 0x3c, 0x3f, 0x6a,
    0x0f, 0x5a, 0x59, 0x0c, 0x56, 0x03, 0x00, 0x55, 0x55, 0x00, 0x03, 0x56, 0x0c, 0x59, 0x5a, 0x0f,
    0x0c, 0x59, 0x5a, 0x0f, 0x55, 0x00, 0x03, 0x56, 0x56, 0x03, 0x00, 0x55, 0x0f, 0x5a, 0x59, 0x0c,
    0x69, 0x3c, 0x3f, 0x6a, 0x30, 0x65, 0x66, 0x33, 0x33, 0x66, 0x65, 0x30, 0x6a, 0x3f, 0x3c, 0x69,
    0x03, 0x56, 0x55, 0x00, 0x5a, 0x0f, 0x0c, 0x59, 0x59, 0x0c, 0x0f, 0x5a, 0x00, 0x55, 0x56, 0x03,
    0x66, 0x33, 0x30, 0x65, 0x3f, 0x6a, 0x69, 0x3c, 0x3c, 0x69, 0x6a, 0x3f, 0x65, 0x30, 0x33, 0x66,
    0x65, 0x30, 0x33, 0x66, 0x3c, 0x69, 0x6a, 0x3f, 0x3f, 0x6a, 0x69, 0x3c, 0x66, 0x33, 0x30, 0x65,
    0x00, 0x55, 0x56, 0x03, 0x59, 0x0c, 0x0f, 0x5a, 0x5a, 0x0f, 0x0c, 0x59, 0x03, 0x56, 0x55, 0x00]

/-- `nand_calculate_ecc` for 256 bytes. -/
def nandCalculateEcc (smc : Bool) (dat : Page) : Code :=
  let r := eccRegs nandEccPrecalcTable dat
  let tmp1 := tmp1Of r.reg2 r.reg3
  let tmp2 := tmp2Of r.reg2 r.reg3
  ordered smc (~~~tmp2) (~~~tmp1) (((~~~r.reg1) <<< 2) ||| 0x03#8)

/-- `EBADMSG` -/
def ebadmsg : ℤ := 74

/-- `nand_correct_data`: what it returns, and what it leaves in `dat`. -/
def nandCorrectData (smc : Bool) (dat : Page) (readEcc calcEcc : Code) : Outcome (ℤ × Page) :=
  let s0 := difference calcEcc readEcc (if smc then 0 else 1)
  let s1 := difference calcEcc readEcc (if smc then 1 else 0)
  let s2 := difference calcEcc readEcc 2
  if s0 ||| s1 ||| s2 = 0 then
    .ok (0, dat)
  else if (s0 ^^^ (s0 >>> 1)) &&& 0x55 = 0x55 ∧ (s1 ^^^ (s1 >>> 1)) &&& 0x55 = 0x55 ∧
      (s2 ^^^ (s2 >>> 1)) &&& 0x54 = 0x54 then
    let byteoffs := (byteoffsOf s0 s1).toNat
    let bitnum := (bitnumOf s2).toNat
    if h : byteoffs < 256 then
      .ok (1, Function.update dat ⟨byteoffs, h⟩ (dat ⟨byteoffs, h⟩ ^^^ (1#8 <<< bitnum)))
    else .fault
  else do
    let n ← countbits (s0.setWidth 32 ||| (s1.setWidth 32 <<< 8) ||| (s2.setWidth 32 <<< 16))
    return if n = 1 then (1, dat) else (-ebadmsg, dat)

/-! ## The registers -/

theorem precalcTable_lookup : ∀ x : Byte, lookup nandEccPrecalcTable x = eccEntry x := by
  decide

theorem pick_getElem (mask : Byte) (b : Bool) {k : ℕ} (hk : k < 8) :
    (pick mask b)[k] = (mask[k] && b) := by
  cases b
  · rw [Bool.and_false]
    exact BitVec.getElem_zero hk
  · exact (Bool.and_true _).symm

theorem eccEntry_parity (x : Byte) : (eccEntry x).getLsbD 6 = parity x := by
  rw [eccEntry_eq]
  unfold parity
  simp [pick_getElem, Fin.sum_univ_eight, Bool.add_eq_xor]

theorem eccEntry_column (x : Byte) {j : ℕ} (hj : j < 3) (v : Bool) :
    (eccEntry x &&& 0x3f).getLsbD (2 * j + v.toNat) =
      ∑ q : Fin 8, if q.val.testBit j = v then x.getLsbD q else false := by
  rw [eccEntry_eq]
  interval_cases j <;> cases v <;>
    simp [pick_getElem, Fin.sum_univ_eight, Bool.add_eq_xor, Nat.testBit]

/-- The table is the generator's. -/
theorem eccRegs_precalcTable (dat : Page) :
    eccRegs nandEccPrecalcTable dat = eccRegs eccTbl dat := by
  have hround : eccRound nandEccPrecalcTable dat = eccRound eccTbl dat := by
    funext r i
    unfold eccRound
    rw [precalcTable_lookup, eccTbl_lookup]
  unfold eccRegs
  rw [hround]

theorem pick_getLsbD (mask : Byte) (b : Bool) (k : ℕ) :
    (pick mask b).getLsbD k = (mask.getLsbD k && b) := by
  cases b
  · rw [Bool.and_false]
    exact BitVec.getLsbD_zero
  · exact (Bool.and_true _).symm

section

variable (dat : Page)

/-- A bit of a register is the sum of what the bytes contribute to it. -/
theorem eccRegs_bit (φ : Regs → Bool) (hφ : ∀ r s, φ (r ^^^ s) = (φ r ^^ φ s))
    (h0 : φ ⟨0, 0, 0⟩ = false) :
    φ (eccRegs eccTbl dat) = ∑ i, φ (contrib i (dat i)) := by
  refine foldl_finRange_adds φ (fun r i => ?_) h0
  rw [eccRound_eq, hφ]

theorem number_getLsbD (p : Fin 256) {k : ℕ} (hk : k < 8) :
    (BitVec.ofNat 8 p).getLsbD k = p.val.testBit k := by
  rw [BitVec.getLsbD_ofNat, decide_eq_true hk, Bool.true_and]

theorem row_testBit (p : Fin 256) (q : Fin 8) (k : ℕ) :
    (address (m := 1) (p, q)).testBit (k + 3) = p.val.testBit k := by
  rw [address_testBit, if_neg (by omega), Nat.add_sub_cancel]

/-- A register to which the bytes of odd parity add the number `f p` has a row parity. -/
theorem row_bit (φ : Regs → Bool) (hφ : ∀ r s, φ (r ^^^ s) = (φ r ^^ φ s)) (h0 : φ ⟨0, 0, 0⟩ = false)
    {f : Fin 256 → Byte} {k : ℕ} {v : Bool} (hf : ∀ p, (f p).getLsbD k = decide (p.val.testBit k = v))
    (hpick : ∀ p x, φ (contrib p x) = (pick (f p) ((eccEntry x).getLsbD 6)).getLsbD k) :
    φ (eccRegs eccTbl dat) = parityAt (address (m := 1)) (bitAt dat) (k + 3) v := by
  rw [eccRegs_bit dat φ hφ h0, parityAt_rows]
  refine Finset.sum_congr rfl fun p _ => ?_
  simp only [hpick, pick_getLsbD, hf, eccEntry_parity, row_testBit]
  by_cases h : p.val.testBit k = v
  · simp only [if_pos h, decide_eq_true h, Bool.true_and]
    rfl
  · simp only [if_neg h, decide_eq_false h, Bool.false_and]
    rfl

/-- `reg3` has the row parities of ones, `reg2` those of zeros. -/
theorem reg3_bit {k : ℕ} (hk : k < 8) : (eccRegs eccTbl dat).reg3.getLsbD k =
    parityAt (address (m := 1)) (bitAt dat) (k + 3) true := by
  refine row_bit dat (fun r => r.reg3.getLsbD k) (fun r s => BitVec.getLsbD_xor)
    BitVec.getLsbD_zero (f := fun p => BitVec.ofNat 8 p) (fun p => ?_) fun p x => rfl
  rw [number_getLsbD p hk]
  cases p.val.testBit k <;> rfl

theorem reg2_bit {k : ℕ} (hk : k < 8) : (eccRegs eccTbl dat).reg2.getLsbD k =
    parityAt (address (m := 1)) (bitAt dat) (k + 3) false := by
  refine row_bit dat (fun r => r.reg2.getLsbD k) (fun r s => BitVec.getLsbD_xor)
    BitVec.getLsbD_zero (f := fun p => ~~~BitVec.ofNat 8 p) (fun p => ?_) fun p x => rfl
  rw [BitVec.getLsbD_not, number_getLsbD p hk, decide_eq_true hk, Bool.true_and]
  cases p.val.testBit k <;> rfl

theorem reg1_bit {j : ℕ} (hj : j < 3) (v : Bool) :
    (eccRegs eccTbl dat).reg1.getLsbD (2 * j + v.toNat) =
      parityAt (address (m := 1)) (bitAt dat) j v := by
  rw [eccRegs_bit dat (fun r => r.reg1.getLsbD (2 * j + v.toNat)) (fun r s => BitVec.getLsbD_xor)
    BitVec.getLsbD_zero, parityAt_rows]
  refine Finset.sum_congr rfl fun p _ => ?_
  simp only [address_testBit, if_pos hj]
  exact eccEntry_column (dat p) hj v

/-! ## The code of the registers -/

theorem weave_not : ∀ p3 q3 p2 q2 p1 q1 p0 q0 : Bool,
    ~~~weave p3 q3 p2 q2 p1 q1 p0 q0 =
      weave (!p3) (!q3) (!p2) (!q2) (!p1) (!q1) (!p0) (!q0) := by
  decide

theorem columns_eq (x : Byte) : (x <<< 2) ||| 0x03#8 =
    weave (x.getLsbD 5) (x.getLsbD 4) (x.getLsbD 3) (x.getLsbD 2) (x.getLsbD 1)
      (x.getLsbD 0) true true := by
  apply BitVec.eq_of_getLsbD_eq
  intro i hi
  interval_cases i <;> simp [weave, pick_getElem]

/-- The bits of the registers, pair by pair. -/
def regsBit (r : Regs) (j : ℕ) (v : Bool) : Bool :=
  if j < 3 then r.reg1.getLsbD (2 * j + v.toNat)
  else if v then r.reg3.getLsbD (j - 3) else r.reg2.getLsbD (j - 3)

theorem nandCalculateEcc_layout (smc : Bool) :
    nandCalculateEcc smc dat =
      layout smc fun j v => !(decide (j < 11) && regsBit (eccRegs eccTbl dat) j v) := by
  have hnot : ∀ k < 8, (~~~(eccRegs eccTbl dat).reg1).getLsbD k =
      !(eccRegs eccTbl dat).reg1.getLsbD k := by
    intro k hk
    rw [BitVec.getLsbD_not, decide_eq_true hk, Bool.true_and]
  unfold nandCalculateEcc
  simp (disch := decide) only [eccRegs_precalcTable, tmp1Of_eq, tmp2Of_eq, weave_not, columns_eq,
    hnot]
  rfl

theorem regsBit_eq {j : ℕ} (hj : j < 11) (v : Bool) :
    regsBit (eccRegs eccTbl dat) j v = parityAt (address (m := 1)) (bitAt dat) j v := by
  unfold regsBit
  by_cases h3 : j < 3
  · rw [if_pos h3, reg1_bit dat h3]
  · have hj3 : j - 3 + 3 = j := by omega
    rw [if_neg h3]
    cases v with
    | false => exact (reg2_bit dat (by omega)).trans (by rw [hj3])
    | true => exact (reg3_bit dat (by omega)).trans (by rw [hj3])

/-- **The older ECC** is the code of the page. -/
theorem nandCalculateEcc_eq (smc : Bool) :
    nandCalculateEcc smc dat = codeOf (m := 1) smc dat := by
  rw [nandCalculateEcc_layout]
  refine layout_congr fun j _ v => ?_
  unfold pairsOf
  by_cases hj : j < 11
  · rw [regsBit_eq dat hj]
  · rw [decide_eq_false hj, Bool.false_and, Bool.false_and]

end

end KernelGadgets.Nand.Prev
