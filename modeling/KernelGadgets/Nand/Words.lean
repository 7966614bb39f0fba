import KernelGadgets.Nand.Later
import Mathlib.Tactic.FinCases

/-!
# Words as bytes

A machine loads the four bytes of a word in one order or the other (`loadWord_byte`). The parities
of a word are those of sums of its bytes (`lanes`, `whole`), which the code gets by shifting the
word and adding it to itself (`foldWord_eq`).
-/

namespace KernelGadgets.Nand.Later

variable {m : ℕ}

/-! ## Bytes of words -/

/-- Byte `k` of a word. -/
def byteOf (k : ℕ) (w : Word) : Byte := (w >>> (8 * k)).setWidth 8

theorem byteOf_getLsbD (k : ℕ) (w : Word) {q : ℕ} (hq : q < 8) :
    (byteOf k w).getLsbD q = w.getLsbD (8 * k + q) := by
  unfold byteOf
  rw [BitVec.getLsbD_setWidth, BitVec.getLsbD_ushiftRight, decide_eq_true hq, Bool.true_and]

theorem byteOf_xor (k : ℕ) (x y : Word) : byteOf k (x ^^^ y) = byteOf k x ^^^ byteOf k y := by
  unfold byteOf
  rw [BitVec.ushiftRight_xor_distrib, BitVec.setWidth_xor]

theorem byteOf_shift (k j : ℕ) (x : Word) : byteOf k (x >>> (8 * j)) = byteOf (j + k) x := by
  unfold byteOf
  rw [← BitVec.shiftRight_add, ← Nat.mul_add]

theorem and_low (x : Word) : x &&& 0xff = (byteOf 0 x).setWidth 32 := by
  have h : ∀ q < 32, (0xff : Word).getLsbD q = decide (q < 8) := by decide
  apply BitVec.eq_of_getLsbD_eq
  intro q hq
  rw [BitVec.getLsbD_and, h q hq, BitVec.getLsbD_setWidth, decide_eq_true hq, Bool.true_and]
  by_cases h8 : q < 8
  · rw [byteOf_getLsbD 0 x h8, decide_eq_true h8, Bool.and_true, Nat.mul_zero, Nat.zero_add]
  · rw [BitVec.getLsbD_of_ge _ _ (Nat.le_of_not_lt h8), decide_eq_false h8, Bool.and_false]

theorem append_getLsbD (b : Fin 4 → Byte) (q : ℕ) :
    (b 3 ++ b 2 ++ b 1 ++ b 0).getLsbD q =
      if q < 8 then (b 0).getLsbD q else if q < 16 then (b 1).getLsbD (q - 8)
      else if q < 24 then (b 2).getLsbD (q - 16) else (b 3).getLsbD (q - 24) := by
  grind

theorem byteOf_append (b : Fin 4 → Byte) (l : Fin 4) :
    byteOf l (b 3 ++ b 2 ++ b 1 ++ b 0) = b l := by
  apply BitVec.eq_of_getLsbD_eq
  intro q hq
  rw [byteOf_getLsbD _ _ hq]
  refine (append_getLsbD b _).trans ?_
  fin_cases l <;> simp <;> grind

/-- Where the machine has byte `l` of four. -/
def lane (bigEndian : Bool) (l : ℕ) : ℕ := if bigEndian then 3 - l else l

theorem loadWord_byte (bigEndian : Bool) (buf : Sector m) (k : Fin (64 * m)) (l : Fin 4) :
    byteOf (lane bigEndian l) (loadWord bigEndian buf k) = buf (byteIndex k l) := by
  cases bigEndian with
  | false => exact byteOf_append (fun l => buf (byteIndex k l)) l
  | true =>
    have hrev : 3 - l.val = l.rev.val := by
      rw [Fin.val_rev]
      omega
    show byteOf (3 - l.val) _ = _
    rw [hrev]
    refine (byteOf_append (fun l => buf (byteIndex k l.rev)) l.rev).trans ?_
    rw [Fin.rev_rev]

/-! ## Columns -/

/-- The mask of a column parity. -/
def columnMask (j : ℕ) (v : Bool) : Byte :=
  match j, v with
  | 0, false => 0x55
  | 0, true => 0xaa
  | 1, false => 0x33
  | 1, true => 0xcc
  | 2, false => 0x0f
  | 2, true => 0xf0
  | _, _ => 0xff

theorem parity_columnMask {j : ℕ} (hj : j < 3) (v : Bool) (x : Byte) :
    parity (x &&& columnMask j v) =
      ∑ q : Fin 8, if q.val.testBit j = v then x.getLsbD q else false := by
  have hmask : ∀ j < 3, ∀ v, ∀ q : Fin 8,
      (columnMask j v).getLsbD q = decide (q.val.testBit j = v) := by decide
  unfold parity
  refine Finset.sum_congr rfl fun q _ => ?_
  rw [BitVec.getLsbD_and, hmask j hj v q]
  by_cases h : q.val.testBit j = v
  · rw [if_pos h, decide_eq_true h, Bool.and_true]
  · rw [if_neg h, decide_eq_false h, Bool.and_false]

/-! ## Folding -/

/-- The sum of the bytes `c` of a word, numbered as in memory. -/
def lanes (bigEndian : Bool) (c : ℕ → Bool) (w : Word) : Byte :=
  let b := fun l => if c l then byteOf (lane bigEndian l) w else 0
  b 0 ^^^ b 1 ^^^ b 2 ^^^ b 3

theorem lanes_xor (bigEndian : Bool) (c : ℕ → Bool) (x y : Word) :
    lanes bigEndian c (x ^^^ y) = lanes bigEndian c x ^^^ lanes bigEndian c y := by
  have h : ∀ l, (if c l then byteOf (lane bigEndian l) (x ^^^ y) else 0) =
      (if c l then byteOf (lane bigEndian l) x else 0) ^^^
        (if c l then byteOf (lane bigEndian l) y else 0) := by
    intro l
    cases c l
    · exact (BitVec.xor_zero).symm
    · exact byteOf_xor _ _ _
  unfold lanes
  simp only [h]
  ac_rfl

/-- The sum of the four bytes. -/
def whole (w : Word) : Byte := lanes false (fun _ => true) w

theorem whole_eq (bigEndian : Bool) (w : Word) : lanes bigEndian (fun _ => true) w = whole w := by
  cases bigEndian with
  | false => rfl
  | true =>
    show byteOf 3 w ^^^ byteOf 2 w ^^^ byteOf 1 w ^^^ byteOf 0 w =
      byteOf 0 w ^^^ byteOf 1 w ^^^ byteOf 2 w ^^^ byteOf 3 w
    ac_rfl

theorem foldWord_eq (w : Word) : foldWord w = (whole w).setWidth 32 := by
  show (w ^^^ w >>> (8 * 2) ^^^ (w ^^^ w >>> (8 * 2)) >>> (8 * 1)) &&& 0xff = _
  simp only [and_low, byteOf_xor, byteOf_shift]
  show _ = (byteOf 0 w ^^^ byteOf 1 w ^^^ byteOf 2 w ^^^ byteOf 3 w).setWidth 32
  congr 1
  ac_rfl

theorem upper_eq (w : Word) : foldHalf (w >>> 16) = (byteOf 2 w ^^^ byteOf 3 w).setWidth 32 := by
  show (w >>> (8 * 2) ^^^ w >>> (8 * 2) >>> (8 * 1)) &&& 0xff = _
  simp only [and_low, byteOf_xor, byteOf_shift]

theorem lower_eq (w : Word) :
    foldHalf (w &&& 0xffff) = (byteOf 0 w ^^^ byteOf 1 w).setWidth 32 := by
  have hmask : ∀ q < 16, (0xffff : Word).getLsbD q = true := by decide
  have hlow : ∀ k < 2, byteOf k (w &&& 0xffff) = byteOf k w := by
    intro k hk
    apply BitVec.eq_of_getLsbD_eq
    intro q hq
    rw [byteOf_getLsbD _ _ hq, byteOf_getLsbD _ _ hq, BitVec.getLsbD_and, hmask _ (by omega),
      Bool.and_true]
  show ((w &&& (0xffff : Word)) ^^^ (w &&& (0xffff : Word)) >>> (8 * 1)) &&& 0xff = _
  simp only [and_low, byteOf_xor, byteOf_shift, hlow 0 (by decide), hlow 1 (by decide)]

theorem odd_eq (x y : Byte) :
    (x.setWidth 32 ^^^ y.setWidth 32) &&& (0xff : Word) = (x ^^^ y).setWidth 32 := by
  rw [← BitVec.setWidth_xor, and_low]
  congr 1
  exact BitVec.setWidth_setWidth_of_le _ (by decide)

/-! ## The words of a sector -/

theorem word_testBit (k : Fin (64 * m)) (l : Fin 4) (q : Fin 8) (j : ℕ) :
    (address (byteIndex k l, q)).testBit j =
      if j < 3 then q.val.testBit j
      else if j < 5 then l.val.testBit (j - 3) else k.val.testBit (j - 5) := by
  have hbyte : (byteIndex k l).val.testBit (j - 3) =
      if j - 3 < 2 then l.val.testBit (j - 3) else k.val.testBit (j - 3 - 2) :=
    Nat.testBit_two_pow_mul_add k.val (show l.val < 2 ^ 2 from l.isLt) (j - 3)
  rw [address_testBit]
  by_cases h3 : j < 3
  · rw [if_pos h3, if_pos h3]
  · rw [if_neg h3, if_neg h3, hbyte]
    by_cases h5 : j < 5
    · rw [if_pos h5, if_pos (by omega)]
    · rw [if_neg h5, if_neg (by omega), Nat.sub_sub]

/-- The parities word by word. -/
theorem parityAt_words (buf : Sector m) (j : ℕ) (v : Bool) :
    parityAt address (bitAt buf) j v =
      ∑ k, ∑ l, ∑ q, if (address (byteIndex k l, q)).testBit j = v
        then (buf (byteIndex k l)).getLsbD q else false := by
  rw [parityAt_rows, sum_pieces (show 256 * m = 64 * m * 4 by omega) _ fun k l => by omega]
  rfl

section

variable (ψ : Byte → Bool) (hψ : ∀ x y, ψ (x ^^^ y) = (ψ x ^^ ψ y)) (bigEndian : Bool)
  (buf : Sector m)

include hψ

theorem additive_lanes (c : ℕ → Bool) (k : Fin (64 * m)) :
    ψ (lanes bigEndian c (loadWord bigEndian buf k)) =
      ∑ l : Fin 4, if c l then ψ (buf (byteIndex k l)) else false := by
  have hzero : ψ 0 = false := by
    have h := hψ 0 0
    rw [BitVec.xor_self, Bool.xor_self] at h
    exact h
  have h : ∀ l : Fin 4,
      ψ (if c l then byteOf (lane bigEndian l) (loadWord bigEndian buf k) else 0) =
        if c l then ψ (buf (byteIndex k l)) else false := by
    intro l
    rw [loadWord_byte, apply_ite ψ, hzero]
  unfold lanes
  rw [hψ, hψ, hψ, Fin.sum_univ_four, ← h 0, ← h 1, ← h 2, ← h 3]
  rfl

theorem additive_whole (k : Fin (64 * m)) :
    ψ (whole (loadWord bigEndian buf k)) = ∑ l, ψ (buf (byteIndex k l)) := by
  rw [← whole_eq bigEndian, additive_lanes ψ hψ]
  rfl

end

end KernelGadgets.Nand.Later
