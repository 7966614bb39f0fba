import Mathlib.Algebra.Group.Int.Defs
import Mathlib.Algebra.Group.Nat.Defs
import KernelGadgets.Lib.Outcome

/-!
# C integers

A value of an unsigned type is a natural number below the modulus of the type, a value of type
`int` the integer it stands for. Conversions are taken modulo the modulus; a signed addition that
leaves the type is undefined. An operation between an `int` and a `size_t` is done on `size_t`.
-/

namespace KernelGadgets

/-- The largest `int`. -/
def intMax : ℕ := 2 ^ 31 - 1

/-- Conversion to `_u32`. -/
def u32 (x : ℕ) : ℕ := x % 2 ^ 32

/-- Conversion to `unsigned long long`. -/
def u64 (x : ℕ) : ℕ := x % 2 ^ 64

/-- Conversion of a `_u32` to `int`. -/
def cInt (x : ℕ) : ℤ := Int.bmod x (2 ^ 32)

/-- Conversion of an `int` to `_u32`. -/
def u32OfInt (z : ℤ) : ℕ := (z % 2 ^ 32).toNat

/-- Conversion to `size_t`. -/
def sizeT (z : ℤ) : ℕ := (z % 2 ^ 64).toNat

/-- `x + y` on type `int`. -/
def addInt (x y : ℤ) : Outcome ℤ :=
  if -(intMax : ℤ) - 1 ≤ x + y ∧ x + y ≤ intMax then .ok (x + y) else .fault

/-- An `int` added to the address of an object, as an offset inside the object. -/
def offset (z : ℤ) : Outcome ℕ :=
  if 0 ≤ z then .ok z.toNat else .fault

@[simp] theorem u32OfInt_cInt (x : ℕ) : u32OfInt (cInt x) = u32 x := by
  unfold u32OfInt cInt u32
  have h : (Int.bmod (x : ℤ) (2 ^ 32)) % ((2 ^ 32 : ℕ) : ℤ) = (x : ℤ) % ((2 ^ 32 : ℕ) : ℤ) :=
    Int.bmod_emod
  omega

/-- The low 32 bits as a two's complement number. -/
theorem cInt_eq (x : ℕ) : cInt x =
    if x % 2 ^ 32 < 2 ^ 31 then ((x % 2 ^ 32 : ℕ) : ℤ) else ((x % 2 ^ 32 : ℕ) : ℤ) - 2 ^ 32 := by
  unfold cInt
  rw [Int.bmod_def]
  split_ifs <;> omega

theorem u64_of_lt {x : ℕ} (h : x < 2 ^ 64) : u64 x = x := Nat.mod_eq_of_lt h

theorem sizeT_natCast {n : ℕ} (h : n < 2 ^ 64) : sizeT n = n := by
  unfold sizeT
  omega

theorem addInt_ok {x y : ℤ} (h : 0 ≤ x + y) (h' : x + y ≤ intMax) : addInt x y = .ok (x + y) :=
  if_pos ⟨by omega, h'⟩

@[simp] theorem offset_natCast (n : ℕ) : offset n = .ok n :=
  if_pos (Int.natCast_nonneg n)

end KernelGadgets
