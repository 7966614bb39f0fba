import KernelGadgets.Lib.CInt
import KernelGadgets.Lib.Digits

/-!
# Binary coded decimals

`ul2bcd` takes the decimal digits of a number from the low end, each into the top four bits of an
accumulator that moves down by four bits a round; `bcd2ul` takes the four-bit digits of its
argument from the high end. Both loops make sixteen rounds. `ul2bcd_eq` and `bcd2ul_eq` read them as
one list of sixteen digits read to two bases, and `bcd_inverse` puts them together.

The arithmetic is that of `unsigned long long`. `bcd2ulChecked` is the decoder with every product,
sum and shift checked against the type; `bcd2ul_exact` says that no check fails.
-/

namespace KernelGadgets.Gadget

/-! ## The code -/

/-- `sizeof(dec) << 1`, the number of four-bit digits of an `unsigned long long`. -/
def bcdStep : ℕ := 8 <<< 1

/-- The loop of `ul2bcd` with `n` rounds to go. -/
def ul2bcdLoop : ℕ → ℕ → ℕ → ℕ
  | 0, _, bcd => bcd
  | n + 1, dec, bcd =>
    let bcd := if bcd ≠ 0 then bcd >>> 4 else bcd
    let bcd := bcd ||| u64 ((dec % 10) <<< ((bcdStep <<< 2) - 4))
    ul2bcdLoop n (dec / 10) bcd

def ul2bcd (dec : ℕ) : ℕ := ul2bcdLoop bcdStep dec 0

/-- The loop of `bcd2ul` with `n` rounds to go. -/
def bcd2ulLoop : ℕ → ℕ → ℕ → ℕ → ℕ → ℕ
  | 0, _, _, _, dec => dec
  | n + 1, i, count, bcd, dec =>
    let dec := if dec ≠ 0 then u64 (dec * 10) else dec
    let dec := u64 (dec + ((bcd >>> ((count <<< 2) - 4)) &&& 0xF))
    let bcd := bcd &&& (0x0FFFFFFFFFFFFFFF >>> (i <<< 2))
    bcd2ulLoop n (i + 1) (count - 1) bcd dec

def bcd2ul (bcd : ℕ) : ℕ := bcd2ulLoop bcdStep 0 bcdStep bcd 0

/-! ## The encoder -/

/-- A test for zero before a shift saves the shift and changes nothing. -/
theorem ite_shiftRight (x k : ℕ) : (if x ≠ 0 then x >>> k else x) = x >>> k := by
  by_cases hx : x = 0
  · rw [hx, if_neg (by decide), Nat.zero_shiftRight]
  · rw [if_pos hx]

/-- The digit that enters at the top stands above all digits taken so far. -/
theorem or_top {n a d : ℕ} (hn : n ≤ 15) (ha : a < 16 ^ (15 - n)) (hd : d < 16) :
    16 ^ n * a ||| u64 (d <<< 60) = 16 ^ n * (a + 16 ^ (15 - n) * d) := by
  have hpow : 16 ^ n * 16 ^ (15 - n) = 2 ^ 60 := by
    rw [← Nat.pow_add, Nat.add_sub_cancel' hn]
    rfl
  have hlow : 16 ^ n * a < 2 ^ 60 := by
    rw [← hpow]
    exact Nat.mul_lt_mul_of_pos_left ha (Nat.pow_pos (by decide))
  have hfit : d <<< 60 < 2 ^ 64 := by
    rw [Nat.shiftLeft_eq]
    omega
  rw [u64_of_lt hfit, Nat.or_comm, ← Nat.shiftLeft_add_eq_or_of_lt hlow, Nat.shiftLeft_eq,
    Nat.mul_add, ← Nat.mul_assoc, hpow, Nat.add_comm, Nat.mul_comm d]

theorem ul2bcdLoop_eq {n : ℕ} (hn : n ≤ 16) (dec : ℕ) {a : ℕ} (ha : a < 16 ^ (16 - n)) :
    ul2bcdLoop n dec (16 ^ n * a) =
      a + 16 ^ (16 - n) * Nat.ofDigits 16 (digitsOf 10 n dec) := by
  induction n generalizing dec a with
  | zero => rw [ul2bcdLoop, digitsOf_zero, Nat.ofDigits_nil, Nat.mul_zero, Nat.pow_zero,
      Nat.one_mul, Nat.add_zero]
  | succ n ih =>
    have hsub : 16 - (n + 1) = 15 - n := by omega
    have hd : dec % 10 < 16 := by omega
    have hshift : (16 ^ (n + 1) * a) >>> 4 = 16 ^ n * a := by
      rw [Nat.shiftRight_eq_div_pow, Nat.pow_succ', Nat.mul_assoc]
      exact Nat.mul_div_cancel_left _ (by decide)
    have hpow : 16 ^ (16 - n) = 16 ^ (15 - n) * 16 := by
      rw [← Nat.pow_succ]
      congr 1
      omega
    rw [hsub] at ha ⊢
    have ha' : a + 16 ^ (15 - n) * (dec % 10) < 16 ^ (16 - n) := by
      have hle : 16 ^ (15 - n) * (dec % 10) ≤ 16 ^ (15 - n) * 9 :=
        Nat.mul_le_mul_left _ (by omega)
      omega
    rw [ul2bcdLoop, ite_shiftRight, hshift]
    show ul2bcdLoop n (dec / 10) (16 ^ n * a ||| u64 ((dec % 10) <<< 60)) = _
    rw [or_top (by omega) ha hd, ih (by omega) _ ha', digitsOf_succ, Nat.ofDigits_cons, hpow,
      Nat.mul_add, Nat.mul_assoc, Nat.add_assoc]

/-- The encoder reads the decimal digits to the base 16. -/
theorem ul2bcd_eq (dec : ℕ) : ul2bcd dec = Nat.ofDigits 16 (digitsOf 10 16 dec) := by
  have h : ul2bcdLoop 16 dec (16 ^ 16 * 0) = _ := ul2bcdLoop_eq (Nat.le_refl 16) dec (by decide)
  rw [Nat.mul_zero, Nat.zero_add, Nat.sub_self, Nat.pow_zero, Nat.one_mul] at h
  exact h

/-! ## The decoder -/

/-- A test for zero before a product saves the product and changes nothing. -/
theorem ite_mul (x : ℕ) : (if x ≠ 0 then u64 (x * 10) else x) = u64 (x * 10) := by
  by_cases hx : x = 0
  · rw [hx, if_neg (by decide)]
    rfl
  · rw [if_pos hx]

/-- The digit that `count` points at. -/
theorem and_nibble (bcd n : ℕ) :
    (bcd >>> (((n + 1) <<< 2) - 4)) &&& 0xF = bcd / 16 ^ n % 16 := by
  have hshift : ((n + 1) <<< 2) - 4 = 4 * n := by
    rw [Nat.shiftLeft_eq]
    omega
  have h : (bcd / 16 ^ n) &&& (2 ^ 4 - 1) = bcd / 16 ^ n % 2 ^ 4 :=
    Nat.and_two_pow_sub_one_eq_mod _ 4
  rw [hshift, Nat.shiftRight_eq_div_pow, Nat.pow_mul]
  exact h

/-- The mask keeps the digits below the one that was taken. -/
theorem and_mask {n : ℕ} (hn : n < 16) (bcd : ℕ) :
    bcd &&& (0x0FFFFFFFFFFFFFFF >>> ((15 - n) <<< 2)) = bcd % 16 ^ n := by
  have hmask : ∀ m < 16, 0x0FFFFFFFFFFFFFFF >>> ((15 - m) <<< 2) = 2 ^ (4 * m) - 1 := by decide
  have hpow : 2 ^ (4 * n) = 16 ^ n := Nat.pow_mul 2 4 n
  rw [hmask n hn, Nat.and_two_pow_sub_one_eq_mod, hpow]

/-- One digit read from the high end. -/
theorem readDigit (n bcd dec : ℕ) :
    dec * 10 ^ (n + 1) + Nat.ofDigits 10 (digitsOf 16 (n + 1) bcd) =
      (dec * 10 + bcd / 16 ^ n % 16) * 10 ^ n +
        Nat.ofDigits 10 (digitsOf 16 n (bcd % 16 ^ n)) := by
  rw [digitsOf_succ_last, Nat.ofDigits_append, Nat.ofDigits_singleton, length_digitsOf,
    Nat.pow_succ', ← Nat.mul_assoc, Nat.add_mul, Nat.mul_comm (10 ^ n) (bcd / _ % _),
    Nat.add_assoc, Nat.add_comm (Nat.ofDigits _ _)]

/-- A value that still fits after `n` more digits fits now. -/
theorem fits_now {n x y : ℕ} (h : x * 10 ^ n + y < 2 ^ 64) : x < 2 ^ 64 := by
  have hle : x ≤ x * 10 ^ n := Nat.le_mul_of_pos_right _ (Nat.pow_pos (by decide))
  omega

/-- With `n` digits to go, the value read so far counts `10 ^ n`-fold. -/
theorem bcd2ulLoop_eq {n : ℕ} (hn : n ≤ 16) {bcd dec : ℕ}
    (hfit : dec * 10 ^ n + Nat.ofDigits 10 (digitsOf 16 n bcd) < 2 ^ 64) :
    bcd2ulLoop n (16 - n) n bcd dec = dec * 10 ^ n + Nat.ofDigits 10 (digitsOf 16 n bcd) := by
  induction n generalizing bcd dec with
  | zero => rw [bcd2ulLoop, digitsOf_zero, Nat.ofDigits_nil, Nat.pow_zero, Nat.mul_one,
      Nat.add_zero]
  | succ n ih =>
    rw [readDigit] at hfit ⊢
    have hdec := fits_now hfit
    have hsub : 16 - (n + 1) = 15 - n := by omega
    have hnext : 15 - n + 1 = 16 - n := by omega
    have hten : dec * 10 < 2 ^ 64 := by omega
    rw [bcd2ulLoop, hsub, ite_mul, u64_of_lt hten, and_nibble, u64_of_lt hdec, and_mask hn, hnext]
    exact ih (by omega) hfit

/-- The digits read to the base 10 stay below `2 ^ 64`, even digits above 9. -/
theorem digits_fit (bcd : ℕ) : Nat.ofDigits 10 (digitsOf 16 16 bcd) < 2 ^ 64 :=
  calc Nat.ofDigits 10 (digitsOf 16 16 bcd)
      ≤ Nat.ofDigits 16 (digitsOf 16 16 bcd) := Nat.ofDigits_monotone _ (by decide)
    _ = bcd % 16 ^ 16 := ofDigits_digitsOf 16 bcd
    _ < 2 ^ 64 := Nat.mod_lt _ (by decide)

/-- The decoder reads the four-bit digits to the base 10. -/
theorem bcd2ul_eq (bcd : ℕ) : bcd2ul bcd = Nat.ofDigits 10 (digitsOf 16 16 bcd) := by
  have hloop : bcd2ulLoop 16 (16 - 16) 16 bcd 0 = _ :=
    bcd2ulLoop_eq (Nat.le_refl 16) (by rw [Nat.zero_mul, Nat.zero_add]; exact digits_fit bcd)
  rw [Nat.zero_mul, Nat.zero_add] at hloop
  exact hloop

/-! ## Both -/

/-- Every four-bit digit is a decimal digit. -/
def IsBcd (bcd : ℕ) : Prop := ∀ k < 16, (bcd >>> (4 * k)) &&& 0xF ≤ 9

instance : DecidablePred IsBcd :=
  fun bcd => inferInstanceAs (Decidable (∀ k < 16, (bcd >>> (4 * k)) &&& 0xF ≤ 9))

/-- The `k`-th four-bit digit. -/
theorem nibble_eq (bcd k : ℕ) : (bcd >>> (4 * k)) &&& 0xF = bcd / 16 ^ k % 16 := by
  rw [← and_nibble, Nat.shiftLeft_eq, Nat.succ_mul k, Nat.mul_comm k]
  rfl

theorem isBcd_iff {bcd : ℕ} : IsBcd bcd ↔ ∀ d ∈ digitsOf 16 16 bcd, d < 10 := by
  constructor
  · intro h d hd
    obtain ⟨k, hk16, rfl⟩ := mem_digitsOf.mp hd
    exact Nat.lt_succ_of_le (nibble_eq bcd k ▸ h k hk16)
  · intro h k hk16
    rw [nibble_eq]
    exact Nat.le_of_lt_succ (h _ (mem_digitsOf.mpr ⟨k, hk16, rfl⟩))

theorem digitsOf_ul2bcd (n : ℕ) : digitsOf 16 16 (ul2bcd n) = digitsOf 10 16 n := by
  have h := @digitsOf_ofDigits 16 (digitsOf 10 16 n) fun d hd =>
    Nat.lt_trans (digitsOf_lt (by decide) hd) (by decide)
  rw [length_digitsOf] at h
  rw [ul2bcd_eq, h]

theorem isBcd_ul2bcd (n : ℕ) : IsBcd (ul2bcd n) := by
  rw [isBcd_iff, digitsOf_ul2bcd]
  intro d hd
  exact digitsOf_lt (by decide) hd

theorem bcd2ul_ul2bcd (n : ℕ) : bcd2ul (ul2bcd n) = n % 10 ^ 16 := by
  rw [bcd2ul_eq, digitsOf_ul2bcd, ofDigits_digitsOf]

theorem ul2bcd_bcd2ul {bcd : ℕ} (h : bcd < 2 ^ 64) : ul2bcd (bcd2ul bcd) = bcd ↔ IsBcd bcd := by
  constructor
  · intro heq
    rw [← heq]
    exact isBcd_ul2bcd _
  · intro hd
    have hdigits := digitsOf_ofDigits (isBcd_iff.mp hd)
    rw [length_digitsOf] at hdigits
    rw [bcd2ul_eq, ul2bcd_eq, hdigits, ofDigits_digitsOf]
    exact Nat.mod_eq_of_lt h

/-- **The conversions are inverse on their formats.** On numbers up to their lowest sixteen decimal
digits, on 64-bit words exactly where every four-bit digit is a decimal digit. -/
theorem bcd_inverse :
    (∀ n < 2 ^ 64, bcd2ul (ul2bcd n) = n % 10 ^ 16 ∧ IsBcd (ul2bcd n)) ∧
      ∀ bcd < 2 ^ 64, (ul2bcd (bcd2ul bcd) = bcd ↔ IsBcd bcd) := by
  constructor
  · intro n _
    exact ⟨bcd2ul_ul2bcd n, isBcd_ul2bcd n⟩
  · intro bcd hbcd
    exact ul2bcd_bcd2ul hbcd

theorem bcd_inverse_sample :
    bcd2ul (ul2bcd 1357924680) = 1357924680 ∧ ul2bcd (bcd2ul 0x1357924680) = 0x1357924680 ∧
      ul2bcd (bcd2ul 0x1A) ≠ 0x1A := by
  refine ⟨(bcd_inverse.1 1357924680 (by decide)).1, ?_, ?_⟩
  · exact (bcd_inverse.2 0x1357924680 (by decide)).mpr (by decide)
  · exact mt (bcd_inverse.2 0x1A (by decide)).mp (by decide)

/-! ## The decoder stays in its type -/

/-- A product that must not leave `unsigned long long`. -/
def mul64 (x y : ℕ) : Outcome ℕ := if x * y < 2 ^ 64 then .ok (x * y) else .fault

/-- A sum that must not leave `unsigned long long`. -/
def add64 (x y : ℕ) : Outcome ℕ := if x + y < 2 ^ 64 then .ok (x + y) else .fault

/-- A shift whose amount must be below the width of `unsigned long long`. -/
def shiftRight64 (x k : ℕ) : Outcome ℕ := if k < 64 then .ok (x >>> k) else .fault

/-- `if (dec) dec *= 10;` -/
def timesTen (dec : ℕ) : Outcome ℕ := if dec ≠ 0 then mul64 dec 10 else .ok dec

/-- The loop of `bcd2ul` with its arithmetic checked. The shift amounts are `unsigned int`. -/
def bcd2ulChecked : ℕ → ℕ → ℕ → ℕ → ℕ → Outcome ℕ
  | 0, _, _, _, dec => .ok dec
  | n + 1, i, count, bcd, dec => do
    let dec ← timesTen dec
    let digit ← shiftRight64 bcd (u32 ((count <<< 2) + 2 ^ 32 - 4))
    let dec ← add64 dec (digit &&& 0xF)
    let mask ← shiftRight64 0x0FFFFFFFFFFFFFFF (u32 (i <<< 2))
    bcd2ulChecked n (i + 1) (count - 1) (bcd &&& mask) dec

theorem timesTen_ok {dec : ℕ} (h : dec * 10 < 2 ^ 64) : timesTen dec = .ok (dec * 10) := by
  by_cases hd : dec = 0
  · subst hd
    rfl
  · rw [timesTen, if_pos hd, mul64, if_pos h]

/-- No check fails while the value fits. -/
theorem bcd2ulChecked_eq {n : ℕ} (hn : n ≤ 16) {bcd dec : ℕ}
    (hfit : dec * 10 ^ n + Nat.ofDigits 10 (digitsOf 16 n bcd) < 2 ^ 64) :
    bcd2ulChecked n (16 - n) n bcd dec =
      .ok (dec * 10 ^ n + Nat.ofDigits 10 (digitsOf 16 n bcd)) := by
  induction n generalizing bcd dec with
  | zero => rw [bcd2ulChecked, digitsOf_zero, Nat.ofDigits_nil, Nat.pow_zero, Nat.mul_one,
      Nat.add_zero]
  | succ n ih =>
    rw [readDigit] at hfit ⊢
    have hdec := fits_now hfit
    have hamount : u32 (((n + 1) <<< 2) + 2 ^ 32 - 4) = ((n + 1) <<< 2) - 4 := by
      rw [Nat.shiftLeft_eq, u32]
      omega
    have hmask : u32 ((15 - n) <<< 2) = (15 - n) <<< 2 := by
      rw [Nat.shiftLeft_eq, u32]
      omega
    have hlow : ((n + 1) <<< 2) - 4 < 64 := by rw [Nat.shiftLeft_eq]; omega
    have hlow' : (15 - n) <<< 2 < 64 := by rw [Nat.shiftLeft_eq]; omega
    have hsub : 16 - (n + 1) = 15 - n := by omega
    have hnext : 15 - n + 1 = 16 - n := by omega
    rw [bcd2ulChecked, hsub, timesTen_ok (by omega), Outcome.ok_bind, hamount, shiftRight64,
      if_pos hlow, Outcome.ok_bind, and_nibble, add64, if_pos hdec, Outcome.ok_bind, hmask,
      shiftRight64, if_pos hlow', Outcome.ok_bind, and_mask hn, hnext]
    exact ih (by omega) hfit

/-- **The decoder is exact.** For every word, digits above 9 included, it gives the sum of the
four-bit digits times the powers of ten; no product or sum on the way leaves the type, and every
shift amount is below 64. -/
theorem bcd2ul_exact (bcd : ℕ) :
    bcd2ulChecked bcdStep 0 bcdStep bcd 0 = .ok (bcd2ul bcd) ∧
      bcd2ul bcd = ∑ k ∈ Finset.range 16, ((bcd >>> (4 * k)) &&& 0xF) * 10 ^ k := by
  constructor
  · have hloop : bcd2ulChecked 16 (16 - 16) 16 bcd 0 = _ :=
      bcd2ulChecked_eq (Nat.le_refl 16) (by rw [Nat.zero_mul, Nat.zero_add]; exact digits_fit bcd)
    rw [Nat.zero_mul, Nat.zero_add, ← bcd2ul_eq] at hloop
    exact hloop
  · rw [bcd2ul_eq, ofDigits_digitsOf_eq_sum]
    exact Finset.sum_congr rfl fun k _ => by rw [nibble_eq]

/-- A word with digits above 9. -/
example : bcd2ul 0x1F0A = 1 * 1000 + 15 * 100 + 10 := by decide

end KernelGadgets.Gadget
