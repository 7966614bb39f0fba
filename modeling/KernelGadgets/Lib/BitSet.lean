import Mathlib.Data.List.GetD
import Mathlib.Data.Set.Insert
import Mathlib.Tactic.Common

/-!
# Arrays of words as sets of numbers

An array of `w`-bit words stands for the set of the numbers `b` whose bit, bit `b % w` of word
`b / w`, is one. Writing one word touches only the numbers of that word (`mem_bits_set`); an OR with
a one-bit mask inserts one number, an AND with the complement of the mask removes one.
-/

namespace KernelGadgets

variable {w : ℕ}

/-- The numbers whose bit is one. -/
def bits (arr : List (BitVec w)) : Set ℕ :=
  {b | (arr.getD (b / w) 0).getLsbD (b % w) = true}

theorem mem_bits {arr : List (BitVec w)} {b : ℕ} :
    b ∈ bits arr ↔ (arr.getD (b / w) 0).getLsbD (b % w) = true := Iff.rfl

/-- Within one word, the place of a bit determines its number. -/
theorem mod_eq_mod_iff {b i : ℕ} (hd : b / w = i / w) : i % w = b % w ↔ b = i := by
  constructor
  · intro hm
    rw [← Nat.div_add_mod b w, ← Nat.div_add_mod i w, hd, hm]
  · intro h
    rw [h]

theorem mem_bits_set {arr : List (BitVec w)} {j b : ℕ} (hj : j < arr.length) (v : BitVec w) :
    b ∈ bits (arr.set j v) ↔ if b / w = j then v.getLsbD (b % w) = true else b ∈ bits arr := by
  rw [mem_bits, List.getD_eq_getElem?_getD, List.getElem?_set]
  split_ifs with h₁ h₂ h₂
  · simp
  · exact absurd h₁.symm h₂
  · exact absurd h₂.symm h₁
  · rw [mem_bits, List.getD_eq_getElem?_getD]

variable {arr : List (BitVec w)} {i : ℕ} {v : BitVec w}

/-- OR with the mask of a bit inserts the number of the bit. -/
theorem bits_set_or (hw : 0 < w) (hv : arr[i / w]? = some v) :
    bits (arr.set (i / w) (v ||| BitVec.twoPow w (i % w))) = insert i (bits arr) := by
  obtain ⟨hj, rfl⟩ := List.getElem?_eq_some_iff.mp hv
  have hi : i % w < w := Nat.mod_lt i hw
  ext b
  rw [mem_bits_set hj, Set.mem_insert_iff]
  by_cases hb : b / w = i / w
  · rw [if_pos hb, BitVec.getLsbD_or, BitVec.getLsbD_twoPow, mem_bits,
      List.getD_eq_getElem?_getD, hb, hv]
    simp [hi, mod_eq_mod_iff hb, or_comm]
  · have hne : b ≠ i := fun h => hb (h ▸ rfl)
    simp [hb, hne]

/-- AND with the complement of the mask of a bit removes the number of the bit. -/
theorem bits_set_and_not (hw : 0 < w) (hv : arr[i / w]? = some v) :
    bits (arr.set (i / w) (v &&& ~~~BitVec.twoPow w (i % w))) = bits arr \ {i} := by
  obtain ⟨hj, rfl⟩ := List.getElem?_eq_some_iff.mp hv
  have hi : i % w < w := Nat.mod_lt i hw
  ext b
  rw [mem_bits_set hj, Set.mem_sdiff, Set.mem_singleton_iff]
  by_cases hb : b / w = i / w
  · rw [if_pos hb, BitVec.getLsbD_and, BitVec.getLsbD_not, BitVec.getLsbD_twoPow, mem_bits,
      List.getD_eq_getElem?_getD, hb, hv]
    have hbw : b % w < w := Nat.mod_lt b hw
    simp [hi, mod_eq_mod_iff hb, hbw]
  · have hne : b ≠ i := fun h => hb (h ▸ rfl)
    simp [hb, hne]

/-- Words without a bit are zero. -/
theorem eq_replicate_of_bits_eq_empty (hw : 0 < w) (h : bits arr = ∅) :
    arr = List.replicate arr.length 0 := by
  refine List.eq_replicate_iff.mpr ⟨rfl, fun v hv => ?_⟩
  obtain ⟨j, hj, rfl⟩ := List.getElem_of_mem hv
  apply BitVec.eq_of_getLsbD_eq
  intro k hk
  have hdiv : (w * j + k) / w = j := by
    rw [Nat.mul_add_div hw, Nat.div_eq_of_lt hk, Nat.add_zero]
  have hmod : (w * j + k) % w = k := by
    rw [Nat.mul_add_mod, Nat.mod_eq_of_lt hk]
  have hnot : w * j + k ∉ bits arr := by
    rw [h]
    exact Set.notMem_empty _
  rw [mem_bits, hdiv, hmod, List.getD_eq_getElem _ _ hj] at hnot
  rw [Bool.eq_false_iff.mpr hnot]
  exact BitVec.getLsbD_zero.symm

theorem bits_replicate_zero (n : ℕ) : bits (List.replicate n (0 : BitVec w)) = ∅ := by
  ext b
  rw [mem_bits, List.getD_eq_getElem?_getD, List.getElem?_getD_replicate_default_eq]
  simp

/-- AND with the mask of a bit is zero exactly when the number of the bit is absent. -/
theorem and_twoPow_ne_zero_iff (hw : 0 < w) (hv : arr[i / w]? = some v) :
    v &&& BitVec.twoPow w (i % w) ≠ 0 ↔ i ∈ bits arr := by
  have hi : i % w < w := Nat.mod_lt i hw
  rw [mem_bits, List.getD_eq_getElem?_getD, hv, Option.getD_some, BitVec.and_twoPow]
  cases h : v.getLsbD (i % w)
  · simp
  · simp only [if_true, iff_true]
    intro h0
    have h1 : (BitVec.twoPow w (i % w)).getLsbD (i % w) = (0 : BitVec w).getLsbD (i % w) := by
      rw [h0]
    simp [hi] at h1

end KernelGadgets
