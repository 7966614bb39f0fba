import Mathlib.Algebra.BigOperators.Ring.Finset
import Mathlib.Algebra.Order.Ring.Nat
import Mathlib.Data.Nat.Digits.Defs
import Mathlib.Tactic.Common

/-!
# Fixed-width digits

`digitsOf b k n` are the `k` lowest digits of `n` to the base `b`, lowest first, with the leading
zeros that `Nat.digits` leaves out and without the higher digits that `Nat.digitsAppend` keeps. It
is the inverse of `Nat.ofDigits` on lists of `k` digits (`ofDigits_digitsOf`, `digitsOf_ofDigits`),
and it can be taken from the low end, as it is defined, or from the high end
(`digitsOf_succ_last`). Read to any base `c`, the digits are a sum (`ofDigits_digitsOf_eq_sum`).
-/

namespace KernelGadgets

/-- The `k` lowest digits of `n` to the base `b`, lowest first. -/
def digitsOf (b : ℕ) : ℕ → ℕ → List ℕ
  | 0, _ => []
  | k + 1, n => n % b :: digitsOf b k (n / b)

variable {b : ℕ}

@[simp] theorem digitsOf_zero (n : ℕ) : digitsOf b 0 n = [] := rfl

@[simp] theorem digitsOf_succ (k n : ℕ) :
    digitsOf b (k + 1) n = n % b :: digitsOf b k (n / b) := rfl

@[simp] theorem length_digitsOf (k n : ℕ) : (digitsOf b k n).length = k := by
  induction k generalizing n with
  | zero => rfl
  | succ k ih => rw [digitsOf_succ, List.length_cons, ih]

theorem mem_digitsOf {k n d : ℕ} : d ∈ digitsOf b k n ↔ ∃ i < k, n / b ^ i % b = d := by
  induction k generalizing n with
  | zero => simp
  | succ k ih =>
    rw [digitsOf_succ, List.mem_cons, ih]
    constructor
    · rintro (rfl | ⟨i, hi, rfl⟩)
      · exact ⟨0, Nat.succ_pos k, by rw [Nat.pow_zero, Nat.div_one]⟩
      · exact ⟨i + 1, Nat.succ_lt_succ hi, by rw [Nat.pow_succ', Nat.div_div_eq_div_mul]⟩
    · rintro ⟨i, hi, rfl⟩
      cases i with
      | zero => left; rw [Nat.pow_zero, Nat.div_one]
      | succ i =>
        right
        exact ⟨i, Nat.lt_of_succ_lt_succ hi, by rw [Nat.pow_succ', Nat.div_div_eq_div_mul]⟩

theorem digitsOf_lt (hb : 0 < b) {k n d : ℕ} (hd : d ∈ digitsOf b k n) : d < b := by
  obtain ⟨i, -, rfl⟩ := mem_digitsOf.mp hd
  exact Nat.mod_lt _ hb

/-- The number of the `k` lowest digits is the number modulo `b ^ k`. -/
theorem ofDigits_digitsOf (k n : ℕ) : Nat.ofDigits b (digitsOf b k n) = n % b ^ k := by
  induction k generalizing n with
  | zero => rw [digitsOf_zero, Nat.ofDigits_nil, Nat.pow_zero, Nat.mod_one]
  | succ k ih =>
    rw [digitsOf_succ, Nat.ofDigits_cons, ih, Nat.pow_succ', Nat.mod_mul]

/-- The digits to the base `b`, read to the base `c`, as a sum. -/
theorem ofDigits_digitsOf_eq_sum (c k n : ℕ) :
    Nat.ofDigits c (digitsOf b k n) = ∑ i ∈ Finset.range k, n / b ^ i % b * c ^ i := by
  induction k generalizing n with
  | zero => rfl
  | succ k ih =>
    have hstep : ∀ i, n / b / b ^ i % b * c ^ i * c = n / b ^ (i + 1) % b * c ^ (i + 1) := by
      intro i
      rw [Nat.div_div_eq_div_mul, ← Nat.pow_succ', Nat.pow_succ c, Nat.mul_assoc]
    rw [digitsOf_succ, Nat.ofDigits_cons, ih, Finset.sum_range_succ', Nat.pow_zero, Nat.pow_zero,
      Nat.div_one, Nat.mul_one, Nat.add_comm, Nat.mul_comm c, Finset.sum_mul]
    simp only [hstep]

/-- The digits of the number of a list of digits are the list. -/
theorem digitsOf_ofDigits {l : List ℕ} (hl : ∀ d ∈ l, d < b) :
    digitsOf b l.length (Nat.ofDigits b l) = l := by
  induction l with
  | nil => rfl
  | cons d l ih =>
    have hd : d < b := hl d List.mem_cons_self
    have hmod : (d + b * Nat.ofDigits b l) % b = d := by
      rw [Nat.add_mul_mod_self_left, Nat.mod_eq_of_lt hd]
    have hdiv : (d + b * Nat.ofDigits b l) / b = Nat.ofDigits b l := by
      rw [Nat.add_mul_div_left _ _ (Nat.zero_lt_of_lt hd), Nat.div_eq_of_lt hd, Nat.zero_add]
    rw [List.length_cons, Nat.ofDigits_cons, digitsOf_succ, hmod, hdiv,
      ih fun e he => hl e (List.mem_cons_of_mem d he)]

/-- The digits from the high end: the highest of `k + 1` digits stands behind the digits of the
rest. -/
theorem digitsOf_succ_last (k n : ℕ) :
    digitsOf b (k + 1) n = digitsOf b k (n % b ^ k) ++ [n / b ^ k % b] := by
  induction k generalizing n with
  | zero => rw [digitsOf_succ, digitsOf_zero, digitsOf_zero, Nat.pow_zero, Nat.div_one]; rfl
  | succ k ih =>
    have hlow : n % b ^ (k + 1) % b = n % b := by
      rw [Nat.pow_succ', Nat.mod_mul_right_mod]
    have hrest : n % b ^ (k + 1) / b = n / b % b ^ k := by
      rw [Nat.pow_succ', Nat.mod_mul_right_div_self]
    rw [digitsOf_succ, ih, digitsOf_succ k (n % b ^ (k + 1)), hlow, hrest, Nat.div_div_eq_div_mul,
      ← Nat.pow_succ']
    rfl

end KernelGadgets
