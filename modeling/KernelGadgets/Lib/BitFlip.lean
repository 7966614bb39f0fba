import Mathlib.Data.Finset.Card
import Mathlib.Data.Fintype.Prod
import Mathlib.Tactic.Common

/-!
# Flipped bits

A word array is a function from places to `w`-bit words, a bit of it a pair of a place and a bit
number. `flip x b` is `x` with bit `b` flipped, `differing x y` the set of the bits in which two
arrays differ. Flipping a differing bit makes the arrays agree there and changes nothing else
(`differing_flip`), so arrays that differ in one or two bits are flips of each other
(`eq_flip_of_differing`, `eq_flip_flip_of_differing`).
-/

namespace KernelGadgets

variable {ι : Type} {w : ℕ}

/-! ## Differing bits -/

/-- One bit of an array. -/
def bitAt (x : ι → BitVec w) (b : ι × Fin w) : Bool := (x b.1).getLsbD b.2

theorem ext_bitAt {x y : ι → BitVec w} (h : ∀ b, bitAt x b = bitAt y b) : x = y := by
  funext i
  apply BitVec.eq_of_getLsbD_eq
  intro j hj
  exact h (i, ⟨j, hj⟩)

/-- The bits in which two arrays differ. -/
def differing [Fintype ι] (x y : ι → BitVec w) : Finset (ι × Fin w) :=
  Finset.univ.filter fun b => bitAt x b ≠ bitAt y b

theorem mem_differing [Fintype ι] {x y : ι → BitVec w} {b : ι × Fin w} :
    b ∈ differing x y ↔ bitAt x b ≠ bitAt y b := by
  simp [differing]

theorem eq_of_differing [Fintype ι] {x y : ι → BitVec w} (h : differing x y = ∅) : x = y := by
  apply ext_bitAt
  intro b
  by_contra hb
  have hmem := mem_differing.mpr hb
  rw [h] at hmem
  exact Finset.notMem_empty b hmem

theorem differing_self [Fintype ι] (x : ι → BitVec w) : differing x x = ∅ := by
  simp [differing]

theorem differing_comm [Fintype ι] (x y : ι → BitVec w) : differing x y = differing y x := by
  ext b
  rw [mem_differing, mem_differing]
  exact ne_comm

/-! ## Flips -/

variable [DecidableEq ι]

theorem bitAt_of_differing [Fintype ι] (x y : ι → BitVec w) (b : ι × Fin w) :
    bitAt y b = (bitAt x b ^^ decide (b ∈ differing x y)) := by
  simp only [mem_differing]
  cases bitAt x b <;> cases bitAt y b <;> rfl

/-- The array with one bit flipped. -/
def flip (x : ι → BitVec w) (b : ι × Fin w) : ι → BitVec w :=
  Function.update x b.1 (x b.1 ^^^ BitVec.twoPow w b.2)

theorem flip_self (x : ι → BitVec w) (b : ι × Fin w) :
    flip x b b.1 = x b.1 ^^^ BitVec.twoPow w b.2 :=
  Function.update_self _ _ _

theorem flip_of_ne {i : ι} {b : ι × Fin w} (h : i ≠ b.1) (x : ι → BitVec w) :
    flip x b i = x i :=
  Function.update_of_ne h _ _

theorem bitAt_flip (x : ι → BitVec w) (b c : ι × Fin w) :
    bitAt (flip x b) c = (bitAt x c ^^ decide (c = b)) := by
  unfold bitAt
  by_cases h : c.1 = b.1
  · rw [h, flip_self, BitVec.getLsbD_xor, BitVec.getLsbD_twoPow]
    have hcb : c = b ↔ b.2.val = c.2.val := by
      rw [Prod.ext_iff, and_iff_right h, Fin.ext_iff, eq_comm]
    simp [hcb]
  · rw [flip_of_ne h]
    have hcb : c ≠ b := fun hcb => h (congrArg Prod.fst hcb)
    simp [hcb]

theorem flip_ne (x : ι → BitVec w) (b : ι × Fin w) : flip x b ≠ x := by
  intro h
  have hb := bitAt_flip x b b
  rw [h, decide_eq_true rfl] at hb
  cases hx : bitAt x b <;> simp [hx] at hb

variable [Fintype ι] {x y : ι → BitVec w} {b c : ι × Fin w}

theorem differing_flip (hb : b ∈ differing x y) :
    differing (flip x b) y = (differing x y).erase b := by
  ext c
  rw [Finset.mem_erase, mem_differing, mem_differing, bitAt_flip]
  have hb := mem_differing.mp hb
  by_cases hc : c = b
  · subst hc
    cases hx : bitAt x c <;> cases hy : bitAt y c <;> simp_all
  · simp [hc]

theorem differing_flip_of_notMem (hb : b ∉ differing x y) :
    differing x (flip y b) = insert b (differing x y) := by
  ext c
  rw [Finset.mem_insert, mem_differing, mem_differing, bitAt_flip]
  rw [mem_differing, not_not] at hb
  by_cases hc : c = b
  · subst hc
    simp [hb]
  · simp [hc]

theorem differing_self_flip (x : ι → BitVec w) (b : ι × Fin w) : differing x (flip x b) = {b} := by
  rw [differing_flip_of_notMem (differing_self x ▸ Finset.notMem_empty b), differing_self]
  rfl

theorem eq_flip_of_differing (h : differing x y = {b}) : y = flip x b := by
  have hb : b ∈ differing x y := by rw [h]; exact Finset.mem_singleton_self b
  symm
  apply eq_of_differing
  rw [differing_flip hb, h, Finset.erase_singleton]

theorem eq_flip_flip_of_differing (hbc : b ≠ c) (h : differing x y = {b, c}) :
    y = flip (flip x b) c := by
  have hb : b ∈ differing x y := by rw [h]; exact Finset.mem_insert_self b _
  apply eq_flip_of_differing
  rw [differing_flip hb, h, Finset.erase_insert (by simpa using hbc)]

end KernelGadgets
