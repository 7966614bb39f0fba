import KernelGadgets.Nand.Words

/-!
# The word-parallel ECC computes the code

A sum `φ` of some bits of a word is additive, so a register holds the sum over the words that were
added to it (`even_loop`). The words of a round carry the numbers `16 * i + t`, and the register of
bit `s` sees those that have a zero there (`even_round`). Folding adds the four bytes of a word,
which come in either order (`loadWord_byte`); what the tables say of the folded words are the pairs
of the sector (`calculateEcc_eq`).
-/

namespace KernelGadgets.Nand.Later

variable {m : ℕ}

/-! ## A round -/

/-- The register of the words whose number has a zero as its bit `s`. -/
def Acc.even (r : Acc) : ℕ → Word
  | 0 => r.rp4
  | 1 => r.rp6
  | 2 => r.rp8
  | 3 => r.rp10
  | 4 => r.rp12
  | 5 => r.rp14
  | _ => r.rp16

theorem number_testBit (i : ℕ) (t : Fin 16) (s : ℕ) :
    (16 * i + t).testBit s = if s < 4 then t.val.testBit s else i.testBit (s - 4) :=
  Nat.testBit_two_pow_mul_add i (show t.val < 2 ^ 4 from t.isLt) s

theorem and_eq_zero (i k : ℕ) : i &&& 2 ^ k = 0 ↔ i.testBit k = false := by
  rw [Nat.and_two_pow]
  cases i.testBit k <;> simp

theorem sum_sixteen {M : Type} [AddCommMonoid M] (f : Fin 16 → M) :
    ∑ t, f t = f 0 + f 1 + f 2 + f 3 + f 4 + f 5 + f 6 + f 7 + f 8 + f 9 + f 10 + f 11 + f 12 +
      f 13 + f 14 + f 15 := by
  simp only [Fin.sum_univ_castSucc, Finset.univ_eq_empty, Finset.sum_empty, zero_add]
  rfl

section

variable {φ : Word → Bool} (hφ : ∀ x y, φ (x ^^^ y) = (φ x ^^ φ y))

include hφ

theorem rowSum_eq (bp : Fin 16 → Word) : φ (rowSum bp) = ∑ t, φ (bp t) := by
  rw [sum_sixteen]
  unfold rowSum
  simp only [hφ, Bool.add_eq_xor]

theorem par_round (i : ℕ) (bp : Fin 16 → Word) (r : Acc) :
    φ (round m i bp r).par = (φ r.par ^^ ∑ t, φ (bp t)) := by
  rw [← rowSum_eq hφ, ← hφ]
  rfl

/-- A register to which the sum of a round is added, or not. -/
theorem add_rowSum {c : Prop} [Decidable c] {b : Bool} (h : c ↔ b = false) (bp : Fin 16 → Word)
    (x : Word) :
    φ (if c then x ^^^ rowSum bp else x) =
      (φ x ^^ ∑ t, if b = false then φ (bp t) else false) := by
  cases b with
  | false =>
    rw [if_pos (h.mpr rfl), hφ, rowSum_eq hφ]
    rfl
  | true =>
    have hzero : (∑ _t : Fin 16, false : Bool) = false := Finset.sum_const_zero
    rw [if_neg fun hc => Bool.false_ne_true (h.mp hc).symm]
    show φ x = (φ x ^^ ∑ _t : Fin 16, false)
    rw [hzero, Bool.xor_false]

/-- **A round** adds the words to the registers that see them. -/
theorem even_round (i : ℕ) (bp : Fin 16 → Word) (r : Acc) {s : ℕ} (hs : s < 7)
    (h6 : s = 6 → m = 2) :
    φ ((round m i bp r).even s) =
      (φ (r.even s) ^^
        ∑ t : Fin 16, if (16 * i + t).testBit s = false then φ (bp t) else false) := by
  simp only [number_testBit]
  interval_cases s
  case «4» => exact add_rowSum hφ (and_eq_zero i 0) bp r.rp12
  case «5» => exact add_rowSum hφ (and_eq_zero i 1) bp r.rp14
  case «6» =>
    have hc : (m = 2 ∧ i &&& 0x4 = 0) ↔ i.testBit 2 = false := by
      rw [and_iff_right (h6 rfl)]
      exact and_eq_zero i 2
    exact add_rowSum hφ hc bp r.rp16
  all_goals simp [round, Acc.even, hφ, sum_sixteen, Nat.testBit, Bool.add_eq_xor]

/-! ## The loop -/

theorem additive_zero : φ 0 = false := by
  have h := hφ 0 0
  rw [BitVec.xor_self, Bool.xor_self] at h
  exact h

variable (φ) (bigEndian : Bool) (buf : Sector m)

theorem par_loop : φ (loop bigEndian buf).par = ∑ k, φ (loadWord bigEndian buf k) := by
  rw [sum_pieces (show 64 * m = 4 * m * 16 by omega) _ fun i t => by omega]
  exact foldl_finRange_adds (fun r : Acc => φ r.par)
    (fun r i => par_round hφ i (loadRound bigEndian buf i) r) (additive_zero hφ)

theorem even_loop {s : ℕ} (hs : s < 7) (h6 : s = 6 → m = 2) :
    φ ((loop bigEndian buf).even s) =
      ∑ k, if k.val.testBit s = false then φ (loadWord bigEndian buf k) else false := by
  have hstart : φ (Acc.even ⟨0, 0, 0, 0, 0, 0, 0, 0⟩ s) = false := by
    interval_cases s <;> exact additive_zero hφ
  rw [sum_pieces (show 64 * m = 4 * m * 16 by omega) _ fun i t => by omega]
  exact foldl_finRange_adds (fun r : Acc => φ (r.even s))
    (fun r i => even_round hφ i (loadRound bigEndian buf i) r hs h6) hstart

end

/-! ## After the loop -/

theorem invparityAt_eq (x : Byte) : invparityAt (x.setWidth 32) = pick 1 (!parity x) := by
  have h : ∀ x : Byte, lookup invparity x = pick 1 (!parity x) := by decide
  have hx : (x.setWidth 32).toNat = x.toNat :=
    (BitVec.toNat_setWidth _ _).trans (Nat.mod_eq_of_lt (Nat.lt_trans x.isLt (by decide)))
  unfold invparityAt
  rw [hx]
  exact h x

theorem shift_pick (k : ℕ) (b : Bool) : pick 1 b <<< k = pick (1 <<< k) b := by
  cases b
  · exact BitVec.zero_shiftLeft k
  · rfl

theorem rowByte_eq (x7 x6 x5 x4 x3 x2 x1 x0 : Byte) :
    rowByte (x7.setWidth 32) (x6.setWidth 32) (x5.setWidth 32) (x4.setWidth 32) (x3.setWidth 32)
        (x2.setWidth 32) (x1.setWidth 32) (x0.setWidth 32) =
      weave (!parity x7) (!parity x6) (!parity x5) (!parity x4) (!parity x3) (!parity x2)
        (!parity x1) (!parity x0) := by
  rw [← or_eq_weave]
  unfold rowByte
  simp only [invparityAt_eq, shift_pick]
  rfl

theorem columnByte_eq (x : Byte) (q0 p0 : Bool) :
    columnByte (x.setWidth 32) ||| pick 0x02 p0 ||| pick 0x01 q0 =
      weave (!parity (x &&& columnMask 2 true)) (!parity (x &&& columnMask 2 false))
        (!parity (x &&& columnMask 1 true)) (!parity (x &&& columnMask 1 false))
        (!parity (x &&& columnMask 0 true)) (!parity (x &&& columnMask 0 false)) p0 q0 := by
  have hmask : ∀ mask : Byte, x.setWidth 32 &&& mask.setWidth 32 = (x &&& mask).setWidth 32 :=
    fun mask => (BitVec.setWidth_and ..).symm
  rw [← or_eq_weave]
  unfold columnByte
  show (invparityAt (x.setWidth 32 &&& (columnMask 2 true).setWidth 32) <<< 7) |||
    (invparityAt (x.setWidth 32 &&& (columnMask 2 false).setWidth 32) <<< 6) |||
    (invparityAt (x.setWidth 32 &&& (columnMask 1 true).setWidth 32) <<< 5) |||
    (invparityAt (x.setWidth 32 &&& (columnMask 1 false).setWidth 32) <<< 4) |||
    (invparityAt (x.setWidth 32 &&& (columnMask 0 true).setWidth 32) <<< 3) |||
    (invparityAt (x.setWidth 32 &&& (columnMask 0 false).setWidth 32) <<< 2) ||| _ ||| _ = _
  simp only [hmask, invparityAt_eq, shift_pick]
  rfl

/-- The byte whose parity is a bit of a pair. -/
def pairByte (bigEndian : Bool) (r : Acc) (j : ℕ) (v : Bool) : Byte :=
  if j < 3 then whole r.par &&& columnMask j v
  else if j < 5 then lanes bigEndian (fun l => l.testBit (j - 3) == v) r.par
  else
    let rp := whole (r.even (j - 5))
    if v then whole r.par ^^^ rp else rp


section

variable (bigEndian smc : Bool) (r : Acc)

theorem par_eq : (r.par ^^^ (r.par >>> 16) ^^^ (r.par ^^^ (r.par >>> 16)) >>> 8) &&& 0xff =
    (whole r.par).setWidth 32 :=
  foldWord_eq r.par

theorem rp01_eq (w : Word) :
    (w ^^^ (w >>> 16)) &&& 0xff = (byteOf 0 w ^^^ byteOf 2 w).setWidth 32 ∧
      ((w ^^^ (w >>> 16)) >>> 8) &&& 0xff = (byteOf 1 w ^^^ byteOf 3 w).setWidth 32 := by
  constructor
  · show (w ^^^ (w >>> (8 * 2))) &&& 0xff = _
    simp only [and_low, byteOf_xor, byteOf_shift]
  · show ((w ^^^ (w >>> (8 * 2))) >>> (8 * 1)) &&& 0xff = _
    simp only [and_low, byteOf_xor, byteOf_shift]

/-- The row parities inside a word, in the two orders. -/
theorem lanes_rows (w : Word) :
    (lanes bigEndian (fun l => l.testBit 1 == true) w =
        if bigEndian then byteOf 0 w ^^^ byteOf 1 w else byteOf 2 w ^^^ byteOf 3 w) ∧
      (lanes bigEndian (fun l => l.testBit 1 == false) w =
        if bigEndian then byteOf 2 w ^^^ byteOf 3 w else byteOf 0 w ^^^ byteOf 1 w) ∧
      (lanes bigEndian (fun l => l.testBit 0 == true) w =
        if bigEndian then byteOf 0 w ^^^ byteOf 2 w else byteOf 1 w ^^^ byteOf 3 w) ∧
      lanes bigEndian (fun l => l.testBit 0 == false) w =
        if bigEndian then byteOf 1 w ^^^ byteOf 3 w else byteOf 0 w ^^^ byteOf 2 w := by
  cases bigEndian <;> simp [lanes, lane, Nat.testBit, BitVec.xor_comm]

theorem apply_ite_setWidth (x y : Byte) :
    (if bigEndian then x.setWidth 32 else y.setWidth 32) =
      (if bigEndian then x else y).setWidth 32 := by
  cases bigEndian <;> rfl

/-- What the code says is the parity of `pairByte`. -/
theorem finish_eq {m : ℕ} (hm : m = 1 ∨ m = 2) : finish bigEndian smc m r =
    .ok (layout smc fun j v => !(decide (j < 10 + m) && parity (pairByte bigEndian r j v))) := by
  obtain ⟨h3, h2, h1, h0⟩ := lanes_rows bigEndian r.par
  unfold finish
  simp only [foldWord_eq, upper_eq, lower_eq, rp01_eq, par_eq, odd_eq, apply_ite_setWidth, ← h3,
    ← h2, ← h1, ← h0, rowByte_eq]
  obtain rfl | rfl := hm
  · rw [if_pos rfl]
    rw [show (3 : Byte) = pick 0x02 true ||| pick 0x01 true from rfl, ← BitVec.or_assoc,
      columnByte_eq]
    rfl
  · simp only [if_true, odd_eq, invparityAt_eq, shift_pick]
    rw [if_neg (by decide)]
    show Outcome.ok (ordered smc _ _
      (columnByte (BitVec.setWidth 32 (whole r.par)) ||| pick 0x02 _ ||| pick 0x01 _)) = _
    rw [columnByte_eq]
    rfl
end

/-! ## The pairs -/

section

variable (bigEndian : Bool) (buf : Sector m)

theorem parity_column {j : ℕ} (hj : j < 3) (v : Bool) :
    parity (whole (loop bigEndian buf).par &&& columnMask j v) =
      parityAt address (bitAt buf) j v := by
  have hψ : ∀ x y, parity ((x ^^^ y) &&& columnMask j v) =
      (parity (x &&& columnMask j v) ^^ parity (y &&& columnMask j v)) := by
    intro x y
    rw [xor_and, parity_xor]
  have hφ : ∀ x y, parity (whole (x ^^^ y) &&& columnMask j v) =
      (parity (whole x &&& columnMask j v) ^^ parity (whole y &&& columnMask j v)) := by
    intro x y
    rw [whole, lanes_xor, hψ]
    rfl
  rw [par_loop (fun w => parity (whole w &&& columnMask j v)) hφ, parityAt_words]
  refine Finset.sum_congr rfl fun k _ => ?_
  rw [additive_whole (fun x => parity (x &&& columnMask j v)) hψ]
  refine Finset.sum_congr rfl fun l _ => ?_
  simp only [word_testBit, if_pos hj]
  exact parity_columnMask hj v _

theorem parity_inner {j : ℕ} (h3 : ¬j < 3) (h5 : j < 5) (v : Bool) :
    parity (lanes bigEndian (fun l => l.testBit (j - 3) == v) (loop bigEndian buf).par) =
      parityAt address (bitAt buf) j v := by
  have hφ : ∀ x y, parity (lanes bigEndian (fun l => l.testBit (j - 3) == v) (x ^^^ y)) =
      (parity (lanes bigEndian (fun l => l.testBit (j - 3) == v) x) ^^
        parity (lanes bigEndian (fun l => l.testBit (j - 3) == v) y)) := by
    intro x y
    rw [lanes_xor, parity_xor]
  rw [par_loop (fun w => parity (lanes bigEndian (fun l => l.testBit (j - 3) == v) w)) hφ,
    parityAt_words]
  refine Finset.sum_congr rfl fun k _ => ?_
  rw [additive_lanes parity parity_xor]
  refine Finset.sum_congr rfl fun l _ => ?_
  simp only [word_testBit, if_neg h3, if_pos h5, beq_iff_eq]
  by_cases h : l.val.testBit (j - 3) = v
  · simp only [if_pos h]
    rfl
  · simp only [if_neg h]
    exact Finset.sum_const_zero.symm

theorem parity_whole_xor (x y : Word) : parity (whole (x ^^^ y)) =
    (parity (whole x) ^^ parity (whole y)) := by
  rw [whole, lanes_xor, parity_xor]
  rfl

theorem parity_even {s : ℕ} (hs : s < 7) (h6 : s = 6 → m = 2) :
    parity (whole ((loop bigEndian buf).even s)) =
      parityAt address (bitAt buf) (s + 5) false := by
  rw [even_loop (fun w => parity (whole w)) parity_whole_xor bigEndian buf hs h6, parityAt_words]
  refine Finset.sum_congr rfl fun k _ => ?_
  rw [additive_whole parity parity_xor]
  simp only [word_testBit, if_neg (show ¬s + 5 < 3 by omega), if_neg (show ¬s + 5 < 5 by omega),
    Nat.add_sub_cancel]
  by_cases h : k.val.testBit s = false
  · simp only [if_pos h]
    rfl
  · simp only [if_neg h]
    rfl

theorem parity_par : parity (whole (loop bigEndian buf).par) = ∑ b, bitAt buf b := by
  rw [par_loop (fun w => parity (whole w)) parity_whole_xor, Fintype.sum_prod_type,
    sum_pieces (show 256 * m = 64 * m * 4 by omega) _ fun k l => by omega]
  exact Finset.sum_congr rfl fun k _ => additive_whole parity parity_xor bigEndian buf k

theorem parity_pairByte (hm : m = 1 ∨ m = 2) {j : ℕ} (hj : j < 10 + m) (v : Bool) :
    parity (pairByte bigEndian (loop bigEndian buf) j v) =
      parityAt address (bitAt buf) j v := by
  unfold pairByte
  by_cases h3 : j < 3
  · rw [if_pos h3, parity_column _ _ h3]
  by_cases h5 : j < 5
  · rw [if_neg h3, if_pos h5, parity_inner _ _ h3 h5]
  · have heven := parity_even bigEndian buf (s := j - 5) (by omega) (by omega)
    rw [Nat.sub_add_cancel (Nat.le_of_not_lt h5)] at heven
    rw [if_neg h3, if_neg h5]
    cases v with
    | false => exact heven
    | true =>
      have hpair := parityAt_pair address (bitAt buf) j
      show parity (whole (loop bigEndian buf).par ^^^ whole ((loop bigEndian buf).even (j - 5))) = _
      rw [parity_xor, heven, parity_par, ← hpair, Bool.xor_assoc, Bool.xor_self, Bool.xor_false]

/-- The word-parallel ECC is the code of the sector, on machines of either byte order. -/
theorem calculateEcc_eq (smc : Bool) (hm : m = 1 ∨ m = 2) :
    calculateEcc bigEndian smc buf = .ok (codeOf smc buf) := by
  unfold calculateEcc
  rw [finish_eq bigEndian smc _ hm]
  refine congrArg Outcome.ok (layout_congr fun j _ v => ?_)
  unfold pairsOf
  by_cases hj : j < 10 + m
  · rw [parity_pairByte bigEndian buf hm hj]
  · rw [decide_eq_false hj, Bool.false_and, Bool.false_and]

theorem codeOf_pairs (smc : Bool) {j : ℕ} (hj : j < 12) (v : Bool) :
    bitAt (codeOf smc buf) (place smc j v) =
      if j < 10 + m then !parityAt address (bitAt buf) j v else true := by
  unfold codeOf
  rw [bitAt_layout smc _ hj]
  unfold pairsOf
  by_cases h : j < 10 + m
  · rw [if_pos h, decide_eq_true h, Bool.true_and]
  · rw [if_neg h, decide_eq_false h, Bool.false_and]
    rfl

/-- A sector of another size makes the code depend on `rp17`, which has no value. -/
theorem calculateEcc_fault (smc : Bool) (hm : ¬(m = 1 ∨ m = 2)) :
    calculateEcc bigEndian smc buf = .fault := by
  unfold calculateEcc finish
  dsimp only
  rw [if_neg fun h => hm (Or.inl h), if_neg fun h => hm (Or.inr h)]

/-- **The word-parallel ECC, bit by bit.** For sectors of 256 and 512 bytes and machines of either
byte order, every bit of the code is the inverted parity of the bits of the sector that it is for,
and the two bits that are left over with 256 bytes are ones. -/
theorem calculateEcc_bits (smc : Bool) :
    (m = 1 ∨ m = 2 → ∃ code, calculateEcc bigEndian smc buf = .ok code ∧
      ∀ j < 12, ∀ v, bitAt code (place smc j v) =
        if j < 10 + m then !parityAt address (bitAt buf) j v else true) ∧
      (¬(m = 1 ∨ m = 2) → calculateEcc bigEndian smc buf = .fault) := by
  constructor
  · intro hm
    refine ⟨codeOf smc buf, calculateEcc_eq bigEndian buf smc hm, fun j hj v => ?_⟩
    exact codeOf_pairs buf smc hj v
  · exact fun hm => calculateEcc_fault bigEndian buf smc hm

end

end KernelGadgets.Nand.Later
