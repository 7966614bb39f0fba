import Mathlib.Data.Nat.Digits.Defs
import Mathlib.Tactic.Common

/-!
# Numerals

`numeral b n` is the number `n` written to a base of at most 16, as the bytes of its characters:
the highest digit first, without leading zeros, and `0` for zero. `readNumeral` reads a string of
digits back (`readNumeral_numeral`).

A numeral is a single digit (`numeral_of_lt`), or the numeral of the quotient and the digit of the
remainder (`numeral_step`); the other facts follow by induction on the quotient.
-/

namespace KernelGadgets

/-- The digits, `0123456789ABCDEF`. -/
def digitChars : List UInt8 :=
  [0x30, 0x31, 0x32, 0x33, 0x34, 0x35, 0x36, 0x37, 0x38, 0x39, 0x41, 0x42, 0x43, 0x44, 0x45, 0x46]

def digitChar (d : ℕ) : UInt8 := digitChars.getD d 0

/-- The number a digit stands for. -/
def digitValue (c : UInt8) : ℕ := if c.toNat ≤ 0x39 then c.toNat - 0x30 else c.toNat - 0x37

/-- `n` written to the base `b`. -/
def numeral (b n : ℕ) : List UInt8 :=
  if n = 0 then [digitChar 0] else ((Nat.digits b n).map digitChar).reverse

/-- The number that a string of digits stands for. -/
def readNumeral (b : ℕ) (s : List UInt8) : ℕ := s.foldl (fun n c => n * b + digitValue c) 0

theorem digitValue_digitChar : ∀ d < 16, digitValue (digitChar d) = d := by decide

theorem digitChar_ne_nul : ∀ d < 16, digitChar d ≠ 0 := by decide

theorem digitChar_eq_zero : ∀ d < 16, digitChar d = digitChar 0 → d = 0 := by decide

variable {b n : ℕ}

theorem numeral_of_lt (h : n < b) : numeral b n = [digitChar n] := by
  unfold numeral
  split_ifs with hn
  · rw [hn]
  · rw [Nat.digits_of_lt b n hn h]
    rfl

theorem numeral_step (hb : 2 ≤ b) (h : b ≤ n) :
    numeral b n = numeral b (n / b) ++ [digitChar (n % b)] := by
  have hn : n ≠ 0 := by omega
  have hq : n / b ≠ 0 := Nat.ne_of_gt (Nat.div_pos h (by omega))
  rw [numeral, if_neg hn, numeral, if_neg hq, Nat.digits_def' hb (by omega), List.map_cons,
    List.reverse_cons]

/-- Induction along the digits. -/
theorem numeral_induction (hb : 2 ≤ b) {P : ℕ → Prop} (digit : ∀ n < b, P n)
    (step : ∀ n, b ≤ n → P (n / b) → P n) (n : ℕ) : P n := by
  induction n using Nat.strong_induction_on with
  | _ n ih =>
    by_cases h : n < b
    · exact digit n h
    · exact step n (by omega) (ih _ (Nat.div_lt_self (by omega) hb))

section Facts

variable (hb : 2 ≤ b)
include hb

theorem numeral_ne_nil (n : ℕ) : numeral b n ≠ [] := by
  induction n using numeral_induction hb with
  | digit n h => rw [numeral_of_lt h]; exact List.cons_ne_nil _ _
  | step n h ih => rw [numeral_step hb h]; simp

theorem length_numeral_pos (n : ℕ) : 0 < (numeral b n).length :=
  List.length_pos_iff.mpr (numeral_ne_nil hb n)

theorem length_numeral_step (h : b ≤ n) :
    (numeral b n).length = (numeral b (n / b)).length + 1 := by
  rw [numeral_step hb h, List.length_append, List.length_singleton]

/-- A number below `b ^ k` has at most `k` digits. -/
theorem length_numeral_le {k : ℕ} (hk : 1 ≤ k) (h : n < b ^ k) : (numeral b n).length ≤ k := by
  induction k generalizing n with
  | zero => omega
  | succ k ih =>
    by_cases hlt : n < b
    · rw [numeral_of_lt hlt, List.length_singleton]
      omega
    · rw [length_numeral_step hb (by omega)]
      have hpos : 1 ≤ k := by
        by_contra hk0
        obtain rfl : k = 0 := by omega
        rw [Nat.pow_one] at h
        exact hlt h
      have hq : n / b < b ^ k := Nat.div_lt_of_lt_mul (by rwa [← Nat.pow_succ'])
      have hlen := ih hpos hq
      omega

theorem head_numeral_step (h : b ≤ n) : (numeral b n).head? = (numeral b (n / b)).head? := by
  obtain ⟨c, s, hs⟩ := List.exists_cons_of_ne_nil (numeral_ne_nil hb (n / b))
  rw [numeral_step hb h, hs]
  rfl

variable (h16 : b ≤ 16)
include h16

theorem nul_notMem_numeral (n : ℕ) : 0 ∉ numeral b n := by
  induction n using numeral_induction hb with
  | digit n h =>
    rw [numeral_of_lt h, List.mem_singleton]
    exact Ne.symm (digitChar_ne_nul n (by omega))
  | step n h ih =>
    have hd : n % b < b := Nat.mod_lt n (by omega)
    rw [numeral_step hb h, List.mem_append, List.mem_singleton, not_or]
    exact ⟨ih, Ne.symm (digitChar_ne_nul _ (by omega))⟩

/-- There is no leading zero, except for zero itself. -/
theorem head_numeral (n : ℕ) (hz : (numeral b n).head? = some (digitChar 0)) : n = 0 := by
  induction n using numeral_induction hb with
  | digit n h =>
    rw [numeral_of_lt h] at hz
    exact digitChar_eq_zero n (by omega) (Option.some.inj hz)
  | step n h ih =>
    rw [head_numeral_step hb h] at hz
    have hq : 0 < n / b := Nat.div_pos h (by omega)
    have := ih hz
    omega

/-- **Reading back.** -/
theorem readNumeral_numeral (n : ℕ) : readNumeral b (numeral b n) = n := by
  induction n using numeral_induction hb with
  | digit n h =>
    rw [numeral_of_lt h, readNumeral, List.foldl_cons, List.foldl_nil,
      digitValue_digitChar n (by omega), Nat.zero_mul, Nat.zero_add]
  | step n h ih =>
    have hd : n % b < b := Nat.mod_lt n (by omega)
    rw [readNumeral] at ih
    rw [numeral_step hb h, readNumeral, List.foldl_append, ih, List.foldl_cons, List.foldl_nil,
      digitValue_digitChar _ (by omega), Nat.mul_comm]
    exact Nat.div_add_mod n b

end Facts

end KernelGadgets
