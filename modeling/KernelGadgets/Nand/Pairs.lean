import KernelGadgets.Lib.BitFlip
import KernelGadgets.Lib.ParityPairs
import KernelGadgets.Nand.Correct
import Mathlib.Tactic.IntervalCases

/-!
# The layout of a code

The kernel's codes of a sector of `m` times 256 bytes hold its parity pairs, inverted so that the
code of an erased sector is erased. Pairs 0 to 2 are the column parities `cp`, the others the row
parities `rp`: pair `3 + k` is `rp(2k)` and `rp(2k + 1)`. A sector of 256 bytes has no pair 11, and
ones in its place. The two bytes of row parities stand in the order of the SmartMedia specification
or in the other one.

`codeOf` is the code of a sector. The programs that compute it differ in how they come to the
parities, and agree because they all come to it.
-/

namespace KernelGadgets.Nand

/-- `m` times 256 bytes. -/
abbrev Sector (m : ℕ) := Fin (256 * m) → Byte

variable {m : ℕ}

/-- The number of a bit. -/
def address (b : Fin (256 * m) × Fin 8) : ℕ := 8 * b.1 + b.2

/-- Bit `k` of a byte. -/
def bitNo (k : ℕ) : Fin 8 := ⟨k % 8, Nat.mod_lt k (Nat.zero_lt_succ 7)⟩

/-- Byte `k` of a code. -/
def byteNo (k : ℕ) : Fin 3 := ⟨k % 3, Nat.mod_lt k (Nat.zero_lt_succ 2)⟩

/-- A byte of two codes, `a[k] ^ b[k]`. -/
def difference (a b : Code) (k : ℕ) : Byte := a (byteNo k) ^^^ b (byteNo k)

/-- Where the code has a bit of a pair. -/
def place (smc : Bool) (j : ℕ) (v : Bool) : Fin 3 × Fin 8 :=
  if j < 3 then (byteNo 2, bitNo (2 * (j + 1) + v.toNat))
  else if j < 7 then (byteNo (if smc then 0 else 1), bitNo (2 * (j - 3) + v.toNat))
  else if j < 11 then (byteNo (if smc then 1 else 0), bitNo (2 * (j - 7) + v.toNat))
  else (byteNo 2, bitNo v.toNat)

/-- A code from its bytes. The SmartMedia order has the low row parities first. -/
def ordered (smc : Bool) (low high columns : Byte) : Code :=
  if smc then ![low, high, columns] else ![high, low, columns]

/-- The code with given bits. -/
def layout (smc : Bool) (f : ℕ → Bool → Bool) : Code :=
  let low := weave (f 6 true) (f 6 false) (f 5 true) (f 5 false) (f 4 true) (f 4 false)
    (f 3 true) (f 3 false)
  let high := weave (f 10 true) (f 10 false) (f 9 true) (f 9 false) (f 8 true) (f 8 false)
    (f 7 true) (f 7 false)
  let columns := weave (f 2 true) (f 2 false) (f 1 true) (f 1 false) (f 0 true) (f 0 false)
    (f 11 true) (f 11 false)
  ordered smc low high columns

/-- The bits of the code of a sector. -/
def pairsOf (buf : Sector m) (j : ℕ) (v : Bool) : Bool :=
  !(decide (j < 10 + m) && parityAt address (bitAt buf) j v)

/-- **The code of a sector.** -/
def codeOf (smc : Bool) (buf : Sector m) : Code := layout smc (pairsOf buf)

/-! ## Places -/

theorem exists_place (smc : Bool) : ∀ c, ∃ j < 12, ∃ v, place smc j v = c := by
  cases smc <;> decide

theorem place_inj (smc : Bool) :
    ∀ i < 12, ∀ j < 12, ∀ v w, place smc i v = place smc j w → i = j ∧ v = w := by
  cases smc <;> decide

/-- The places beside the pairs. -/
def sparePlaces (m : ℕ) (smc : Bool) : Finset (Fin 3 × Fin 8) :=
  if m = 1 then {place smc 11 false, place smc 11 true} else ∅

theorem mem_sparePlaces (hm : m = 1 ∨ m = 2) (smc : Bool) {j : ℕ} (hj : j < 12) (v : Bool) :
    place smc j v ∈ sparePlaces m smc ↔ ¬j < 10 + m := by
  unfold sparePlaces
  obtain rfl | rfl := hm
  · rw [if_pos rfl, Finset.mem_insert, Finset.mem_singleton]
    constructor
    · rintro (h | h)
      · exact (place_inj smc j hj 11 (by decide) v false h).1 ▸ by decide
      · exact (place_inj smc j hj 11 (by decide) v true h).1 ▸ by decide
    · intro h
      obtain rfl : j = 11 := by omega
      cases v
      · exact Or.inl rfl
      · exact Or.inr rfl
  · rw [if_neg (by decide)]
    exact iff_of_false (Finset.notMem_empty _) (fun h => h hj)

theorem weave_getLsbD : ∀ p3 q3 p2 q2 p1 q1 p0 q0 : Bool,
    let x := weave p3 q3 p2 q2 p1 q1 p0 q0
    (x.getLsbD 7 = p3 ∧ x.getLsbD 6 = q3) ∧ (x.getLsbD 5 = p2 ∧ x.getLsbD 4 = q2) ∧
      (x.getLsbD 3 = p1 ∧ x.getLsbD 2 = q1) ∧ x.getLsbD 1 = p0 ∧ x.getLsbD 0 = q0 := by
  decide

theorem bitAt_layout (smc : Bool) (f : ℕ → Bool → Bool) {j : ℕ} (hj : j < 12) (v : Bool) :
    bitAt (layout smc f) (place smc j v) = f j v := by
  obtain ⟨⟨l7, l6⟩, ⟨l5, l4⟩, ⟨l3, l2⟩, l1, l0⟩ := weave_getLsbD (f 6 true) (f 6 false)
    (f 5 true) (f 5 false) (f 4 true) (f 4 false) (f 3 true) (f 3 false)
  obtain ⟨⟨h7, h6⟩, ⟨h5, h4⟩, ⟨h3, h2⟩, h1, h0⟩ := weave_getLsbD (f 10 true) (f 10 false)
    (f 9 true) (f 9 false) (f 8 true) (f 8 false) (f 7 true) (f 7 false)
  obtain ⟨⟨c7, c6⟩, ⟨c5, c4⟩, ⟨c3, c2⟩, c1, c0⟩ := weave_getLsbD (f 2 true) (f 2 false)
    (f 1 true) (f 1 false) (f 0 true) (f 0 false) (f 11 true) (f 11 false)
  cases smc <;> interval_cases j <;> cases v <;> assumption

theorem layout_congr {smc : Bool} {f g : ℕ → Bool → Bool} (h : ∀ j < 12, ∀ v, f j v = g j v) :
    layout smc f = layout smc g := by
  unfold layout
  simp (disch := decide) only [h]

/-! ## Addresses -/

section

variable (b : Fin (256 * m) × Fin 8)

theorem address_testBit (j : ℕ) :
    (address b).testBit j = if j < 3 then b.2.val.testBit j else b.1.val.testBit (j - 3) :=
  Nat.testBit_two_pow_mul_add b.1.val (show b.2.val < 2 ^ 3 from b.2.isLt) j

theorem address_lt : address b < 2048 * m := by
  have h1 := b.1.isLt
  have h2 := b.2.isLt
  unfold address
  omega

end

theorem addressed (hm : m = 1 ∨ m = 2) :
    Addressed (address : Fin (256 * m) × Fin 8 → ℕ) (10 + m) where
  inj := by
    intro b c h
    have hb := b.2.isLt
    have hc := c.2.isLt
    unfold address at h
    ext
    · omega
    · omega
  lt := by
    intro b
    have h := address_lt b
    obtain rfl | rfl := hm
    · exact h
    · exact h
  surj := by
    intro a ha
    have hlt : a / 8 < 256 * m := by
      obtain rfl | rfl := hm
      · have : a < 2048 := ha
        omega
      · have : a < 4096 := ha
        omega
    exact ⟨(⟨a / 8, hlt⟩, ⟨a % 8, Nat.mod_lt _ (by decide)⟩), Nat.div_add_mod a 8⟩

/-! ## Parities of bytes -/

/-- The parity of a byte. -/
def parity (x : Byte) : Bool := ∑ q : Fin 8, x.getLsbD q

theorem parity_xor (x y : Byte) : parity (x ^^^ y) = (parity x ^^ parity y) := by
  unfold parity
  simp only [BitVec.getLsbD_xor]
  exact Finset.sum_add_distrib

/-- The parities byte by byte. -/
theorem parityAt_rows (x : Fin (256 * m) × Fin 8 → Bool) (j : ℕ) (v : Bool) :
    parityAt address x j v =
      ∑ p, ∑ q, if (address (p, q)).testBit j = v then x (p, q) else false := by
  rw [parityAt_eq_sum, Fintype.sum_prod_type]

end KernelGadgets.Nand
