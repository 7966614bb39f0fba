import Mathlib.Algebra.BigOperators.Fin
import Mathlib.Algebra.BigOperators.Ring.Finset
import Mathlib.Algebra.Order.BigOperators.Group.Finset
import Mathlib.Algebra.Ring.BooleanRing
import Mathlib.Data.Fintype.BigOperators
import Mathlib.Data.Nat.Bitwise

/-!
# Codes of parity pairs

The bits of a block have addresses. The code of a block has a pair of parities for every bit `j` of
the addresses: the parity of the bits of the block whose address has a one there, and that of the
others (`parityAt`). Sums over `Bool` are parities.

`verdict` is what a decoder makes of the pairs in which two codes differ. When only bits of the
block are wrong, it depends on whether their number is odd and on the sum of their addresses
(`verdict_errorAt`); one wrong bit of block and code together is told, and two are noticed
(`verdict_one_data`, `verdict_of_code`, `verdict_two`).
-/

namespace KernelGadgets

variable {β : Type} [Fintype β] {n k : ℕ}

/-! ## Parities -/

/-- The parity of the bits of `x` whose address has `v` as its bit `j`. -/
def parityAt (addr : β → ℕ) (x : β → Bool) (j : ℕ) (v : Bool) : Bool :=
  ∑ b with (addr b).testBit j = v, x b

/-- The sum over a block is the sum over its pieces. -/
theorem sum_pieces {M : Type} [AddCommMonoid M] {a b : ℕ} (h : k = a * b) (f : Fin k → M)
    (hlt : ∀ (i : Fin a) (t : Fin b), b * i + t < k) :
    ∑ p, f p = ∑ i : Fin a, ∑ t : Fin b, f ⟨b * i + t, hlt i t⟩ := by
  subst h
  rw [← finProdFinEquiv.sum_comp, Fintype.sum_prod_type]
  refine Finset.sum_congr rfl fun i _ => Finset.sum_congr rfl fun t _ => ?_
  exact congrArg f (Fin.ext (Nat.add_comm _ _))

/-- A register to which every round of a loop adds. -/
theorem foldl_adds {σ ι : Type} {step : σ → ι → σ} (φ : σ → Bool) {g : ι → Bool}
    (h : ∀ s i, φ (step s i) = (φ s ^^ g i)) (l : List ι) (s : σ) :
    φ (l.foldl step s) = (φ s ^^ (l.map g).sum) := by
  induction l generalizing s with
  | nil => exact (Bool.xor_false _).symm
  | cons i l ih =>
    rw [List.foldl_cons, ih, h, List.map_cons, List.sum_cons, Bool.xor_assoc, Bool.add_eq_xor]

theorem foldl_finRange_adds {σ : Type} {step : σ → Fin k → σ} (φ : σ → Bool) {g : Fin k → Bool}
    (h : ∀ s i, φ (step s i) = (φ s ^^ g i)) {s : σ} (h0 : φ s = false) :
    φ ((List.finRange k).foldl step s) = ∑ i, g i := by
  rw [foldl_adds φ h, h0, Bool.false_xor, Fin.sum_univ_def]

theorem sum_true {ι : Type} {s : Finset ι} : (∑ _b ∈ s, true : Bool) = decide (Odd s.card) := by
  classical
  induction s using Finset.induction_on with
  | empty => rfl
  | insert b s hb ih =>
    have hodd : Odd (insert b s).card ↔ ¬Odd s.card := by
      rw [Finset.card_insert_of_notMem hb, Nat.odd_add_one]
    rw [Finset.sum_insert hb, ih, decide_eq_decide.mpr hodd, decide_not]
    exact Bool.true_xor _

section

variable (addr : β → ℕ)

theorem parityAt_xor (x y : β → Bool) (j : ℕ) (v : Bool) :
    parityAt addr (fun b => x b ^^ y b) j v = (parityAt addr x j v ^^ parityAt addr y j v) :=
  Finset.sum_add_distrib

/-- The two parities of a pair are those of two halves. -/
theorem parityAt_pair (x : β → Bool) (j : ℕ) :
    (parityAt addr x j true ^^ parityAt addr x j false) = ∑ b, x b := by
  have hhalves := Finset.sum_filter_add_sum_filter_not Finset.univ
    (fun b => (addr b).testBit j = true) x
  simp only [Bool.not_eq_true] at hhalves
  exact hhalves

/-- A pair as a sum over all bits. -/
theorem parityAt_eq_sum (x : β → Bool) (j : ℕ) (v : Bool) :
    parityAt addr x j v = ∑ b, if (addr b).testBit j = v then x b else false :=
  Finset.sum_filter ..

end

/-! ## Errors -/

variable [DecidableEq β]

/-- The pairs of the bits `E` alone. -/
def errorAt (addr : β → ℕ) (E : Finset β) (j : ℕ) (v : Bool) : Bool :=
  parityAt addr (fun b => decide (b ∈ E)) j v

section

variable (addr : β → ℕ) (E : Finset β) (j : ℕ)

/-- Blocks that differ in the bits `E` have pairs that differ by those of `E`. -/
theorem parityAt_of_differ {x y : β → Bool} (h : ∀ b, y b = (x b ^^ decide (b ∈ E))) (v : Bool) :
    parityAt addr y j v = (parityAt addr x j v ^^ errorAt addr E j v) := by
  rw [errorAt, ← parityAt_xor]
  exact congrArg (parityAt addr · j v) (funext h)

/-- The sum of the addresses. -/
theorem errorAt_true : errorAt addr E j true = ∑ b ∈ E, (addr b).testBit j := by
  unfold errorAt
  rw [parityAt_eq_sum, ← Finset.sum_filter_add_sum_filter_not Finset.univ (· ∈ E)]
  have hout : ∑ b with b ∉ E,
      (if (addr b).testBit j = true then decide (b ∈ E) else false) = false := by
    apply Finset.sum_eq_zero
    intro b hb
    rw [decide_eq_false (Finset.mem_filter.mp hb).2]
    exact ite_self _
  rw [hout, Finset.filter_univ_mem]
  refine Eq.trans (Bool.xor_false _) (Finset.sum_congr rfl fun b hb => ?_)
  rw [decide_eq_true hb]
  cases (addr b).testBit j <;> rfl

/-- The two of a pair differ for an odd number of errors. -/
theorem errorAt_pair :
    (errorAt addr E j true ^^ errorAt addr E j false) = decide (Odd E.card) := by
  unfold errorAt
  rw [parityAt_pair, ← sum_true, ← Finset.sum_filter_add_sum_filter_not Finset.univ (· ∈ E)]
  have hout : ∑ b with b ∉ E, decide (b ∈ E) = false := by
    apply Finset.sum_eq_zero
    intro b hb
    exact decide_eq_false (Finset.mem_filter.mp hb).2
  rw [hout, Finset.filter_univ_mem]
  exact Eq.trans (Bool.xor_false _) (Finset.sum_congr rfl fun b hb => decide_eq_true hb)

theorem errorAt_false :
    errorAt addr E j false = (decide (Odd E.card) ^^ errorAt addr E j true) := by
  rw [← errorAt_pair addr E j]
  cases errorAt addr E j true <;> cases errorAt addr E j false <;> rfl

@[simp] theorem errorAt_empty (v : Bool) : errorAt addr ∅ j v = false := by
  cases v with
  | true => exact errorAt_true addr ∅ j
  | false =>
    rw [errorAt_false, errorAt_true]
    rfl

@[simp] theorem errorAt_singleton (b : β) (v : Bool) :
    errorAt addr {b} j v = decide ((addr b).testBit j = v) := by
  have htrue : errorAt addr {b} j true = (addr b).testBit j := by
    rw [errorAt_true, Finset.sum_singleton]
  cases v with
  | true =>
    rw [htrue]
    cases (addr b).testBit j <;> rfl
  | false =>
    rw [errorAt_false, htrue, Finset.card_singleton]
    cases (addr b).testBit j <;> rfl

end

/-! ## Addresses -/

/-- The bits are numbered by all numbers of `n` bits. -/
structure Addressed (addr : β → ℕ) (n : ℕ) : Prop where
  inj : Function.Injective addr
  lt : ∀ b, addr b < 2 ^ n
  surj : ∀ a < 2 ^ n, ∃ b, addr b = a

namespace Addressed

variable {addr : β → ℕ}

omit [Fintype β] [DecidableEq β] in
theorem ext (A : Addressed addr n) {b c : β}
    (h : ∀ j : Fin n, (addr b).testBit j = (addr c).testBit j) : b = c := by
  apply A.inj
  apply Nat.eq_of_testBit_eq
  intro j
  by_cases hj : j < n
  · exact h ⟨j, hj⟩
  · have hpow : 2 ^ n ≤ 2 ^ j := Nat.pow_le_pow_right (by decide) (Nat.le_of_not_lt hj)
    rw [Nat.testBit_lt_two_pow (Nat.lt_of_lt_of_le (A.lt b) hpow),
      Nat.testBit_lt_two_pow (Nat.lt_of_lt_of_le (A.lt c) hpow)]

end Addressed

/-! ## Verdicts -/

/-- What a decoder makes of two codes: they agree, the bit of the block with an address is wrong, a
bit of the code is wrong, or more is wrong than can be told. -/
inductive Verdict (n : ℕ) where
  | clean
  | data (spelled : Fin n → Bool)
  | code
  | lost

/-- The number of bits that differ, in the pairs and in `spare` places beside them. -/
def differences (s : Fin n → Bool → Bool) (spare : ℕ) : ℕ :=
  ∑ p : Fin n × Bool, (s p.1 p.2).toNat + spare

/-- The verdict on the pairs that differ. -/
def verdict (s : Fin n → Bool → Bool) (spare : ℕ) : Verdict n :=
  if differences s spare = 0 then .clean
  else if ∀ j, s j true ≠ s j false then .data fun j => s j true
  else if differences s spare = 1 then .code
  else .lost

section

variable {s : Fin n → Bool → Bool} {spare : ℕ}

/-- The differences pair by pair. -/
theorem differences_eq (s : Fin n → Bool → Bool) (spare : ℕ) :
    differences s spare = ∑ j, ((s j true).toNat + (s j false).toNat) + spare := by
  unfold differences
  rw [Fintype.sum_prod_type]
  simp only [Fintype.sum_bool]

/-- Where the two of every pair differ, one of them is a one. -/
theorem differences_of_differ (h : ∀ j, s j true ≠ s j false) : differences s spare = n + spare := by
  have hone : ∀ j, (s j true).toNat + (s j false).toNat = 1 := by
    intro j
    have hj := h j
    cases ht : s j true <;> cases hf : s j false <;> simp_all
  rw [differences_eq, Finset.sum_congr rfl fun j _ => hone j]
  simp

/-- A pair of two that differ has differences. -/
theorem card_differ_le_differences :
    (Finset.univ.filter fun j => s j true ≠ s j false).card ≤ differences s spare := by
  rw [differences_eq, Finset.card_filter]
  refine Nat.le_trans (Finset.sum_le_sum fun j _ => ?_) (Nat.le_add_right _ _)
  cases s j true <;> cases s j false <;> decide

theorem differences_eq_zero : differences s spare = 0 ↔ (∀ j v, s j v = false) ∧ spare = 0 := by
  unfold differences
  rw [Nat.add_eq_zero_iff, Finset.sum_eq_zero_iff]
  constructor
  · rintro ⟨h, h0⟩
    refine ⟨fun j v => ?_, h0⟩
    have hjv := h (j, v) (Finset.mem_univ _)
    cases hs : s j v with
    | false => rfl
    | true => simp [hs] at hjv
  · rintro ⟨h, h0⟩
    refine ⟨fun p _ => ?_, h0⟩
    rw [h p.1 p.2]
    rfl

/-- An address is read off pairs of two that differ. -/
theorem verdict_eq_data {a : Fin n → Bool} (h : verdict s spare = .data a) :
    (∀ j, s j true ≠ s j false) ∧ a = fun j => s j true := by
  unfold verdict at h
  split_ifs at h with h0 hd
  exact ⟨hd, (Verdict.data.inj h).symm⟩

/-- All pairs differ in two, and there is one at least. -/
theorem verdict_of_differ (hn : 0 < n) (h : ∀ j, s j true ≠ s j false) :
    verdict s spare = .data fun j => s j true := by
  have hw : differences s spare = n + spare := differences_of_differ h
  unfold verdict
  rw [if_neg (by omega), if_pos h]

/-- The two of every pair agree. -/
theorem verdict_of_agree (hn : 0 < n) (h : ∀ j, s j true = s j false) :
    verdict s 0 = if ∀ j, s j true = false then .clean else .lost := by
  have hdiffer : ¬∀ j, s j true ≠ s j false := fun hd => hd ⟨0, hn⟩ (h ⟨0, hn⟩)
  have htwice : differences s 0 = 2 * ∑ j, (s j true).toNat := by
    rw [differences_eq, Nat.add_zero, Finset.mul_sum]
    refine Finset.sum_congr rfl fun j _ => ?_
    rw [← h j]
    omega
  have hzero : differences s 0 = 0 ↔ ∀ j, s j true = false := by
    rw [differences_eq_zero]
    constructor
    · rintro ⟨hs, -⟩ j
      exact hs j true
    · intro hs
      refine ⟨fun j v => ?_, rfl⟩
      cases v with
      | true => exact hs j
      | false => rw [← h j, hs j]
  unfold verdict
  rw [if_neg hdiffer]
  by_cases hall : ∀ j, s j true = false
  · rw [if_pos (hzero.mpr hall), if_pos hall]
  · have hne : differences s 0 ≠ 0 := fun hw => hall (hzero.mp hw)
    rw [if_neg hne, if_neg hall, if_neg (by omega)]

/-- Few wrong bits of the code alone. -/
theorem verdict_of_code (hn : 3 ≤ n) (h : differences s spare ≤ 2) :
    verdict s spare =
      if differences s spare = 0 then .clean
      else if differences s spare = 1 then .code else .lost := by
  have hdiffer : ¬∀ j, s j true ≠ s j false := by
    intro hd
    have hw : differences s spare = n + spare := differences_of_differ hd
    omega
  unfold verdict
  rw [if_neg hdiffer]

/-- Most pairs differ in two, but not all. -/
theorem verdict_of_almost (h : ¬∀ j, s j true ≠ s j false)
    (hcard : 2 ≤ (Finset.univ.filter fun j => s j true ≠ s j false).card) :
    verdict s spare = .lost := by
  have hw : 2 ≤ differences s spare := Nat.le_trans hcard card_differ_le_differences
  unfold verdict
  rw [if_neg (by omega), if_neg h, if_neg (by omega)]

end

/-! ## Errors and verdicts -/

/-- The pairs that differ when the bits `E` of the block and the bits `F` of its code are wrong. -/
def syndrome (addr : β → ℕ) (E : Finset β) (F : Finset (Fin n × Bool)) (j : Fin n) (v : Bool) :
    Bool :=
  errorAt addr E j v ^^ decide ((j, v) ∈ F)

section

variable (addr : β → ℕ) {E : Finset β} {F : Finset (Fin n × Bool)} {spare : ℕ}

omit [DecidableEq β] in
/-- **Errors of the block.** An odd number of them is taken for one at the sum of their addresses;
an even number is noticed unless the addresses cancel. -/
theorem verdict_errorAt [DecidableEq β] (hn : 0 < n) (E : Finset β) :
    verdict (fun (j : Fin n) v => errorAt addr E j v) 0 =
      if Odd E.card then .data fun j => ∑ b ∈ E, (addr b).testBit j
      else if ∀ j : Fin n, ∑ b ∈ E, (addr b).testBit j = false then .clean else .lost := by
  by_cases hodd : Odd E.card
  · rw [if_pos hodd, verdict_of_differ hn]
    · exact congrArg Verdict.data (funext fun j => errorAt_true addr E j)
    · intro j
      rw [errorAt_false, decide_eq_true hodd]
      cases errorAt addr E j true <;> decide
  · rw [if_neg hodd, verdict_of_agree hn]
    · simp only [errorAt_true]
    · intro j
      rw [errorAt_false, decide_eq_false hodd, Bool.false_xor]

theorem differences_syndrome_empty : differences (syndrome addr ∅ F) spare = F.card + spare := by
  unfold differences syndrome
  congr 1
  rw [Finset.card_eq_sum_ones, ← Finset.sum_filter_add_sum_filter_not Finset.univ (· ∈ F)]
  have hout : ∑ p with p ∉ F, (errorAt addr ∅ p.1 p.2 ^^ decide ((p.1, p.2) ∈ F)).toNat = 0 := by
    apply Finset.sum_eq_zero
    intro p hp
    rw [errorAt_empty, decide_eq_false (Finset.mem_filter.mp hp).2]
    rfl
  rw [hout, Finset.filter_univ_mem, Nat.add_zero]
  refine Finset.sum_congr rfl fun p hp => ?_
  rw [errorAt_empty, decide_eq_true hp]
  rfl

/-- **One wrong bit of the block** is told, whatever the bits beside the pairs are. -/
theorem verdict_one_data (hn : 0 < n) (b : β) :
    verdict (syndrome addr {b} (∅ : Finset (Fin n × Bool))) spare =
      .data fun j => (addr b).testBit j := by
  have hs : ∀ (j : Fin n) v, syndrome addr {b} ∅ j v = decide ((addr b).testBit j = v) := by
    intro j v
    rw [syndrome, errorAt_singleton, decide_eq_false (Finset.notMem_empty _), Bool.xor_false]
  rw [verdict_of_differ hn]
  · refine congrArg Verdict.data (funext fun j => ?_)
    rw [hs]
    cases (addr b).testBit j <;> rfl
  · intro j
    rw [hs, hs]
    cases (addr b).testBit j <;> decide

/-- A wrong bit of the block beside one of the code. -/
theorem verdict_data_and_code (hn : 3 ≤ n) (b : β) (f : Fin n × Bool) :
    verdict (syndrome addr {b} {f}) spare = .lost := by
  have hs : ∀ (j : Fin n) v,
      syndrome addr {b} {f} j v = (decide ((addr b).testBit j = v) ^^ decide ((j, v) = f)) := by
    intro j v
    rw [syndrome, errorAt_singleton]
    simp only [Finset.mem_singleton]
  have hdiffer : ∀ j, syndrome addr {b} {f} j true ≠ syndrome addr {b} {f} j false ↔ j ≠ f.1 := by
    intro j
    obtain ⟨i, v⟩ := f
    rw [hs, hs]
    by_cases hj : j = i
    · subst hj
      cases (addr b).testBit j <;> cases v <;> simp
    · cases (addr b).testBit j <;> simp [hj]
  apply verdict_of_almost
  · intro hall
    exact (hdiffer f.1).mp (hall f.1) rfl
  · simp only [hdiffer]
    rw [Finset.filter_ne', Finset.card_erase_of_mem (Finset.mem_univ _), Finset.card_univ,
      Fintype.card_fin]
    omega

/-- Two wrong bits of the block. -/
theorem verdict_two_data (A : Addressed addr n) (hn : 0 < n) {b c : β} (hbc : b ≠ c) :
    verdict (syndrome addr {b, c} (∅ : Finset (Fin n × Bool))) 0 = .lost := by
  have hs : syndrome addr {b, c} (∅ : Finset (Fin n × Bool)) =
      fun (j : Fin n) v => errorAt addr {b, c} j v := by
    funext j v
    rw [syndrome, decide_eq_false (Finset.notMem_empty _), Bool.xor_false]
  have heven : ¬Odd ({b, c} : Finset β).card := by
    rw [Finset.card_pair hbc]
    decide
  have hne : ¬∀ j : Fin n, ∑ d ∈ ({b, c} : Finset β), (addr d).testBit j = false := by
    intro h
    apply hbc
    apply A.ext
    intro j
    have hj := h j
    rw [Finset.sum_pair hbc, Bool.add_eq_xor] at hj
    cases hb : (addr b).testBit j <;> cases hc : (addr c).testBit j <;> simp_all
  rw [hs, verdict_errorAt addr hn, if_neg heven, if_neg hne]

/-- **Two wrong bits** of the block and its code are noticed. -/
theorem verdict_two (A : Addressed addr n) (hn : 3 ≤ n) (h : E.card + F.card = 2) :
    verdict (syndrome addr E F) 0 = .lost := by
  obtain h0 | h1 | h2 : E.card = 0 ∨ E.card = 1 ∨ E.card = 2 := by omega
  · obtain rfl := Finset.card_eq_zero.mp h0
    have hw : differences (syndrome addr ∅ F) 0 = F.card := differences_syndrome_empty addr
    rw [verdict_of_code hn (by omega), if_neg (by omega), if_neg (by omega)]
  · obtain ⟨b, rfl⟩ := Finset.card_eq_one.mp h1
    obtain ⟨f, rfl⟩ := Finset.card_eq_one.mp (show F.card = 1 by omega)
    exact verdict_data_and_code addr hn b f
  · obtain ⟨b, c, hbc, rfl⟩ := Finset.card_eq_two.mp h2
    obtain rfl := Finset.card_eq_zero.mp (show F.card = 0 by omega)
    exact verdict_two_data addr A (by omega) hbc

end

end KernelGadgets
