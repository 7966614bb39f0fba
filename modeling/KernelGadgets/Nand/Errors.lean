import KernelGadgets.Nand.Decode

/-!
# What the codes tell of errors

A sector is stored with its code and read back, with some bits of both wrong. The pairs in which the
stored code and the code of what was read differ are the syndrome of these errors
(`syndromeOf_eq`), so the library's verdicts on syndromes are statements about the corrector: what
it makes of any errors of the sector (`errors_decoded`), and of up to two of sector and code
(`errors_le_two`). A flipped bit brings the pairs in order, so that a second pass flips none
(`corrects_once`).
-/

namespace KernelGadgets.Nand

variable {m : ℕ}

/-! ## The syndrome of errors -/

/-- The bits of the pairs among places of a code. -/
def pairsIn (m : ℕ) (smc : Bool) (F : Finset (Fin 3 × Fin 8)) : Finset (Fin (10 + m) × Bool) :=
  Finset.univ.filter fun p => place smc p.1 p.2 ∈ F

section

variable (smc : Bool) (orig buf : Sector m) (readEcc : Code)

theorem syndromeOf_eq (hm : m = 1 ∨ m = 2) :
    syndromeOf m smc readEcc (codeOf smc buf) = syndrome address (differing orig buf)
      (pairsIn m smc (differing (codeOf smc orig) readEcc)) := by
  funext j v
  have hj : j.val < 12 := by omega
  have hparity : parityAt address (bitAt buf) j v = _ :=
    parityAt_of_differ address (differing orig buf) j (bitAt_of_differing orig buf) v
  have hcode : ∀ x : Sector m, bitAt (codeOf smc x) (place smc j v) =
      !parityAt address (bitAt x) j v := by
    intro x
    unfold codeOf
    rw [bitAt_layout smc _ hj]
    unfold pairsOf
    rw [decide_eq_true j.isLt, Bool.true_and]
  have hmem : (j, v) ∈ pairsIn m smc (differing (codeOf smc orig) readEcc) ↔
      place smc j v ∈ differing (codeOf smc orig) readEcc := by
    simp only [pairsIn, Finset.mem_filter, Finset.mem_univ, true_and]
  unfold syndromeOf syndrome
  rw [bitAt_of_differing (codeOf smc orig) readEcc, hcode, hcode, hparity,
    decide_eq_decide.mpr hmem]
  cases parityAt address (bitAt orig) j v <;> cases errorAt address (differing orig buf) j v <;>
    cases decide (place smc j v ∈ differing (codeOf smc orig) readEcc) <;> rfl

theorem card_inter_pair {α : Type} [DecidableEq α] {F : Finset α} {a b : α} (hab : a ≠ b) :
    (F ∩ {a, b}).card = (decide (a ∈ F)).toNat + (decide (b ∈ F)).toNat := by
  rw [Finset.inter_comm, ← Finset.filter_mem_eq_inter, Finset.card_filter, Finset.sum_pair hab]
  by_cases ha : a ∈ F <;> by_cases hb : b ∈ F <;> simp [ha, hb]

theorem spareOf_eq : spareOf m smc readEcc (codeOf smc buf) =
    (differing (codeOf smc orig) readEcc ∩ sparePlaces m smc).card := by
  unfold spareOf sparePlaces
  by_cases h1 : m = 1
  · subst h1
    have hcode : ∀ (x : Sector 1) v, bitAt (codeOf smc x) (place smc 11 v) = true := by
      intro x v
      rw [codeOf, bitAt_layout smc _ (by decide)]
      rfl
    have hne : place smc 11 false ≠ place smc 11 true := by
      intro h
      exact Bool.false_ne_true (place_inj smc 11 (by decide) 11 (by decide) false true h).2
    have hread : ∀ v, bitAt readEcc (place smc 11 v) =
        !decide (place smc 11 v ∈ differing (codeOf smc orig) readEcc) := by
      intro v
      rw [bitAt_of_differing (codeOf smc orig) readEcc, hcode, Bool.true_xor]
    rw [if_pos rfl, if_pos rfl, card_inter_pair hne, Fintype.sum_bool, Nat.add_comm]
    simp only [hcode, hread, Bool.xor_true, Bool.not_not]
  · rw [if_neg h1, if_neg h1, Finset.inter_empty, Finset.card_empty]

end

/-- A place holds a bit of a pair or is beside them. -/
theorem card_places (hm : m = 1 ∨ m = 2) (smc : Bool) (F : Finset (Fin 3 × Fin 8)) :
    (pairsIn m smc F).card + (F ∩ sparePlaces m smc).card = F.card := by
  have himage : (pairsIn m smc F).image (fun p => place smc p.1 p.2) = F \ sparePlaces m smc := by
    ext c
    simp only [pairsIn, Finset.mem_image, Finset.mem_filter, Finset.mem_univ, true_and,
      Finset.mem_sdiff]
    constructor
    · rintro ⟨p, hp, rfl⟩
      exact ⟨hp, fun hspare => (mem_sparePlaces hm smc (by omega) p.2).mp hspare p.1.isLt⟩
    · rintro ⟨hc, hspare⟩
      obtain ⟨j, hj, v, rfl⟩ := exists_place smc c
      have hj' : j < 10 + m := by
        by_contra h
        exact hspare ((mem_sparePlaces hm smc hj v).mpr h)
      exact ⟨(⟨j, hj'⟩, v), hc, rfl⟩
  have hinj : Function.Injective fun p : Fin (10 + m) × Bool => place smc p.1 p.2 := by
    intro p p' h
    obtain ⟨hj, hv⟩ := place_inj smc p.1 (by omega) p'.1 (by omega) p.2 p'.2 h
    exact Prod.ext (Fin.ext hj) hv
  rw [← Finset.card_image_of_injective _ hinj, himage, Nat.add_comm,
    Finset.card_inter_add_card_sdiff]

/-! ## Reading a sector back -/

section

variable (hm : m = 1 ∨ m = 2) (smc : Bool) (orig buf : Sector m)

include hm

/-- What the corrector does with a stored code and the code of what was read. -/
theorem correctData_stored (readEcc : Code) :
    Follows (-1) buf (Later.correctData smc buf readEcc (codeOf smc buf))
      (verdict (syndrome address (differing orig buf)
          (pairsIn m smc (differing (codeOf smc orig) readEcc)))
        (differing (codeOf smc orig) readEcc ∩ sparePlaces m smc).card) := by
  rw [← syndromeOf_eq smc orig buf readEcc hm, ← spareOf_eq smc orig buf readEcc]
  exact Later.correctData_follows hm smc buf readEcc (codeOf smc buf)

/-- Errors of the sector alone. -/
theorem correctData_errors :
    let E := differing orig buf
    let res := Later.correctData smc buf (codeOf smc orig) (codeOf smc buf)
    if Odd E.card then
      ∃ b, (∀ j : Fin (10 + m), (address b).testBit j = ∑ c ∈ E, (address c).testBit j) ∧
        res = .ok (1, flip buf b)
    else if ∀ j : Fin (10 + m), ∑ c ∈ E, (address c).testBit j = false then res = .ok (0, buf)
    else res = .ok (-1, buf) := by
  have hF := differing_self (codeOf smc orig)
  have hpairs : pairsIn m smc ∅ = ∅ := by
    simp [pairsIn]
  have h := correctData_stored hm smc orig buf (codeOf smc orig)
  have hs : syndrome address (differing orig buf) (∅ : Finset (Fin (10 + m) × Bool)) =
      fun (j : Fin (10 + m)) v => errorAt address (differing orig buf) j v := by
    funext j v
    rw [syndrome, decide_eq_false (Finset.notMem_empty _), Bool.xor_false]
  rw [hF, hpairs, Finset.empty_inter, Finset.card_empty, hs, verdict_errorAt _ (by omega)] at h
  intro E res
  split_ifs at h ⊢
  · exact h
  · exact h
  · exact h

omit hm in
theorem Follows.flip {bad : ℤ} {res : Outcome (ℤ × Sector m)}
    (A : Addressed (address (m := m)) (10 + m)) {b : Fin (256 * m) × Fin 8} (h : Follows bad buf res (.data fun j => (address b).testBit j)) :
    res = .ok (1, KernelGadgets.flip buf b) := by
  obtain ⟨c, hc, hres⟩ := h
  rwa [A.ext hc] at hres

omit hm in
theorem pairsIn_eq_empty {F : Finset (Fin 3 × Fin 8)} (hm : m = 1 ∨ m = 2) :
    pairsIn m smc F = ∅ ↔ F ⊆ sparePlaces m smc := by
  have hcard := card_places hm smc F
  rw [← Finset.card_eq_zero, ← Finset.inter_eq_left]
  constructor
  · intro h
    exact Finset.eq_of_subset_of_card_le Finset.inter_subset_left (by omega)
  · intro h
    rw [h] at hcard
    omega

section

variable {E : Finset (Fin (256 * m) × Fin 8)} {F : Finset (Fin 3 × Fin 8)} {readEcc : Code}
  (hE : differing orig buf = E) (hF : differing (codeOf smc orig) readEcc = F)

include hE hF

/-- Errors of the code alone. -/
theorem correctData_code (h0 : E = ∅) (hF2 : F.card ≤ 2) :
    Later.correctData smc buf readEcc (codeOf smc buf) =
      if F.card = 0 then .ok (0, orig)
      else if F.card = 1 then .ok (1, orig)
      else .ok (-1, buf) := by
  have h := correctData_stored hm smc orig buf readEcc
  have hd : differences (syndrome address ∅ (pairsIn m smc F)) (F ∩ sparePlaces m smc).card = _ :=
    differences_syndrome_empty (address (m := m))
  rw [card_places hm] at hd
  have hbuf : orig = buf := eq_of_differing (hE.trans h0)
  rw [hE, hF, h0, verdict_of_code (by omega) (by omega), hd] at h
  split_ifs at h ⊢
  · rw [hbuf]
    exact h
  · rw [hbuf]
    exact h
  · exact h

/-- One error of the sector. -/
theorem correctData_one (h1 : E.card = 1) (hF1 : F.card ≤ 1) :
    Later.correctData smc buf readEcc (codeOf smc buf) =
      if F ⊆ sparePlaces m smc then .ok (1, orig) else .ok (-1, buf) := by
  have h := correctData_stored hm smc orig buf readEcc
  obtain ⟨b, rfl⟩ := Finset.card_eq_one.mp h1
  have horig : orig = flip buf b := by
    apply eq_flip_of_differing
    rw [differing_comm, hE]
  rw [hE, hF] at h
  by_cases hsub : F ⊆ sparePlaces m smc
  · rw [(pairsIn_eq_empty smc hm).mpr hsub, verdict_one_data _ (by omega)] at h
    rw [if_pos hsub, horig]
    exact Follows.flip buf (addressed hm) h
  · have hpairs : (pairsIn m smc F).card = 1 := by
      have hne : (pairsIn m smc F).card ≠ 0 := by
        rw [Finset.card_ne_zero, Finset.nonempty_iff_ne_empty]
        exact fun he => hsub ((pairsIn_eq_empty smc hm).mp he)
      have hcard := card_places hm smc F
      omega
    obtain ⟨f, hf⟩ := Finset.card_eq_one.mp hpairs
    rw [hf, verdict_data_and_code _ (by omega)] at h
    rw [if_neg hsub]
    exact h

/-- Two errors of the sector. -/
theorem correctData_two (h2 : E.card = 2) (hF0 : F = ∅) :
    Later.correctData smc buf readEcc (codeOf smc buf) = .ok (-1, buf) := by
  have h := correctData_stored hm smc orig buf readEcc
  have hpairs : pairsIn m smc F = ∅ := by
    rw [pairsIn_eq_empty smc hm, hF0]
    exact Finset.empty_subset _
  rw [hE, hF, hpairs, hF0, Finset.empty_inter, Finset.card_empty,
    verdict_two _ (addressed hm) (by omega) (by rw [Finset.card_empty]; omega)] at h
  exact h

/-- Up to two errors of the sector and its code. -/
theorem correctData_le_two (h : E.card + F.card ≤ 2) :
    Later.correctData smc buf readEcc (codeOf smc buf) =
      if E.card + F.card = 0 then .ok (0, orig)
      else if E.card + F.card = 1 ∨ E.card = 1 ∧ F ⊆ sparePlaces m smc then .ok (1, orig)
      else .ok (-1, buf) := by
  obtain h0 | h1 | h2 : E.card = 0 ∨ E.card = 1 ∨ E.card = 2 := by omega
  · rw [correctData_code hm smc orig buf hE hF (Finset.card_eq_zero.mp h0) (by omega)]
    simp only [h0, Nat.zero_add, Nat.zero_ne_one, false_and, or_false]
  · rw [correctData_one hm smc orig buf hE hF h1 (by omega),
      if_neg (show ¬E.card + F.card = 0 by omega)]
    by_cases hsub : F ⊆ sparePlaces m smc
    · rw [if_pos hsub, if_pos (Or.inr ⟨h1, hsub⟩)]
    · have hne : F ≠ ∅ := fun he => hsub (he ▸ Finset.empty_subset _)
      have hcard := Finset.card_ne_zero.mpr (Finset.nonempty_iff_ne_empty.mpr hne)
      rw [if_neg hsub, if_neg]
      rintro (hone | ⟨-, hs⟩)
      · omega
      · exact hsub hs
  · have hF0 : F.card = 0 := by omega
    rw [correctData_two hm smc orig buf hE hF h2 (Finset.card_eq_zero.mp hF0), if_neg (by omega),
      if_neg (by omega)]

end

end

/-! ## Correcting twice -/

section

variable (smc : Bool) (buf : Sector m) (readEcc : Code)

theorem syndromeOf_flip (hm : m = 1 ∨ m = 2) (b : Fin (256 * m) × Fin 8) (j : Fin (10 + m))
    (v : Bool) :
    syndromeOf m smc readEcc (codeOf smc (flip buf b)) j v =
      (syndromeOf m smc readEcc (codeOf smc buf) j v ^^ decide ((address b).testBit j = v)) := by
  have hj : j.val < 12 := by omega
  have hflip : ∀ c, bitAt (flip buf b) c = (bitAt buf c ^^ decide (c ∈ ({b} : Finset _))) := by
    intro c
    rw [bitAt_flip]
    simp only [Finset.mem_singleton]
  have hparity := parityAt_of_differ address {b} j hflip v
  rw [errorAt_singleton] at hparity
  unfold syndromeOf codeOf
  rw [bitAt_layout smc _ hj, bitAt_layout smc _ hj]
  unfold pairsOf
  rw [hparity, decide_eq_true j.isLt, Bool.true_and, Bool.true_and, ← Bool.not_xor, Bool.xor_assoc]

theorem spareOf_le : spareOf m smc readEcc (codeOf smc buf) ≤ 2 := by
  rw [spareOf_eq smc buf buf]
  refine Nat.le_trans (Finset.card_le_card Finset.inter_subset_right) ?_
  unfold sparePlaces
  split_ifs
  · exact Finset.card_le_two
  · exact Nat.zero_le _

variable (hm : m = 1 ∨ m = 2)

include hm

/-- After a bit of the sector was flipped, the pairs agree. -/
theorem verdict_flip {b : Fin (256 * m) × Fin 8} {a : Fin (10 + m) → Bool}
    (hv : verdict (syndromeOf m smc readEcc (codeOf smc buf))
      (spareOf m smc readEcc (codeOf smc buf)) = .data a)
    (hb : ∀ j : Fin (10 + m), (address b).testBit j = a j) :
    verdict (syndromeOf m smc readEcc (codeOf smc (flip buf b)))
        (spareOf m smc readEcc (codeOf smc (flip buf b))) =
      if spareOf m smc readEcc (codeOf smc buf) = 0 then .clean
      else if spareOf m smc readEcc (codeOf smc buf) = 1 then .code else .lost := by
  obtain ⟨hdiffer, rfl⟩ := verdict_eq_data hv
  have hs : syndromeOf m smc readEcc (codeOf smc (flip buf b)) = fun _ _ => false := by
    funext j v
    have hj := hdiffer j
    rw [syndromeOf_flip smc buf readEcc hm, hb j]
    cases v <;> cases ht : syndromeOf m smc readEcc (codeOf smc buf) j true <;>
      cases hf : syndromeOf m smc readEcc (codeOf smc buf) j false <;> simp_all
  have hspare : spareOf m smc readEcc (codeOf smc (flip buf b)) =
      spareOf m smc readEcc (codeOf smc buf) := by
    rw [spareOf_eq smc buf (flip buf b), spareOf_eq smc buf buf]
  have hd : differences (fun (_ : Fin (10 + m)) _ => false)
      (spareOf m smc readEcc (codeOf smc buf)) = spareOf m smc readEcc (codeOf smc buf) := by
    simp [differences]
  have hle := spareOf_le smc buf readEcc
  rw [hs, hspare, verdict_of_code (by omega) (by omega), hd]

/-- A second pass leaves the sector as the first one did. -/
theorem correctData_twice :
    ∃ r buf' r', Later.correctData smc buf readEcc (codeOf smc buf) = .ok (r, buf') ∧
      Later.correctData smc buf' readEcc (codeOf smc buf') = .ok (r', buf') ∧
      (buf' = buf → r' = r) ∧
      (buf' ≠ buf → r = 1 ∧ r' = if spareOf m smc readEcc (codeOf smc buf) = 0 then 0
        else if spareOf m smc readEcc (codeOf smc buf) = 1 then 1 else -1) := by
  have h := Later.correctData_follows hm smc buf readEcc (codeOf smc buf)
  cases hv : verdict (syndromeOf m smc readEcc (codeOf smc buf))
      (spareOf m smc readEcc (codeOf smc buf)) with
  | clean =>
    rw [hv] at h
    exact ⟨0, buf, 0, h, h, fun _ => rfl, fun hne => absurd rfl hne⟩
  | code =>
    rw [hv] at h
    exact ⟨1, buf, 1, h, h, fun _ => rfl, fun hne => absurd rfl hne⟩
  | lost =>
    rw [hv] at h
    exact ⟨-1, buf, -1, h, h, fun _ => rfl, fun hne => absurd rfl hne⟩
  | data a =>
    rw [hv] at h
    obtain ⟨b, hb, hres⟩ := h
    have h' := Later.correctData_follows hm smc (flip buf b) readEcc (codeOf smc (flip buf b))
    rw [verdict_flip smc buf readEcc hm hv hb] at h'
    refine ⟨1, flip buf b, _, hres, ?_, fun he => absurd he (flip_ne buf b), fun _ => ⟨rfl, rfl⟩⟩
    split_ifs at h' ⊢
    · exact h'
    · exact h'
    · exact h'

end

/-! ## Results -/

/-- **Any errors of a sector.** An odd number of wrong bits is taken for one at the sum of their
numbers; an even number is reported, unless the numbers cancel, when nothing is noticed. -/
theorem errors_decoded (hm : m = 1 ∨ m = 2) (smc be be' : Bool) (orig buf : Sector m) :
    ∃ stored calcEcc, Later.calculateEcc be smc orig = .ok stored ∧
      Later.calculateEcc be' smc buf = .ok calcEcc ∧
      (Odd (differing orig buf).card →
        ∃ b, (∀ j : Fin (10 + m), (address b).testBit j =
            ∑ c ∈ differing orig buf, (address c).testBit j) ∧
          Later.correctData smc buf stored calcEcc = .ok (1, flip buf b)) ∧
      (Even (differing orig buf).card →
        Later.correctData smc buf stored calcEcc =
          if ∀ j : Fin (10 + m), ∑ c ∈ differing orig buf, (address c).testBit j = false then
            .ok (0, buf) else .ok (-1, buf)) := by
  have h := correctData_errors hm smc orig buf
  refine ⟨_, _, Later.calculateEcc_eq be orig smc hm, Later.calculateEcc_eq be' buf smc hm,
    fun hodd => ?_, fun heven => ?_⟩
  · rwa [if_pos hodd] at h
  · rw [if_neg (Nat.not_odd_iff_even.mpr heven)] at h
    split_ifs at h ⊢
    · exact h
    · exact h

/-- An erased sector. -/
def erased : Sector 2 := fun _ => 0xff

/-- A bit of its first byte. -/
def firstByte (k : ℕ) : Fin (256 * 2) × Fin 8 := (⟨0, by decide⟩, bitNo k)

/-- An erased sector with three wrong bits. -/
def threeWrong : Sector 2 := flip (flip (flip erased (firstByte 1)) (firstByte 2)) (firstByte 4)

theorem differing_threeWrong :
    differing erased threeWrong = {firstByte 4, firstByte 2, firstByte 1} := by
  have h1 := differing_self_flip erased (firstByte 1)
  have h2 : differing erased (flip (flip erased (firstByte 1)) (firstByte 2)) =
      {firstByte 2, firstByte 1} := by
    rw [differing_flip_of_notMem, h1]
    rw [h1]
    decide
  unfold threeWrong
  rw [differing_flip_of_notMem, h2]
  rw [h2]
  decide

theorem sum_threeWrong : ∀ j : Fin (10 + 2),
    ∑ c ∈ ({firstByte 4, firstByte 2, firstByte 1} : Finset _), (address c).testBit j = (address (firstByte 7)).testBit j := by
  decide

/-- Three wrong bits are taken for a fourth. -/
theorem errors_decoded_sample :
    ∃ stored calcEcc, Later.calculateEcc false true erased = .ok stored ∧
      Later.calculateEcc true true threeWrong = .ok calcEcc ∧
      Later.correctData true threeWrong stored calcEcc =
        .ok (1, flip threeWrong (firstByte 7)) := by
  obtain ⟨stored, calcEcc, hs, hc, hodd, -⟩ :=
    errors_decoded (m := 2) (Or.inr rfl) true false true erased threeWrong
  refine ⟨stored, calcEcc, hs, hc, ?_⟩
  rw [differing_threeWrong] at hodd
  obtain ⟨b, hb, hres⟩ := hodd (by decide)
  have hb7 : b = firstByte 7 := (addressed (Or.inr rfl)).ext fun j =>
    (hb j).trans (sum_threeWrong j)
  rw [hres, hb7]

/-- **Up to two errors of a sector and its stored code** are undone or reported. The two bits beside
the pairs of a sector of 256 bytes do not count. -/
theorem errors_le_two (hm : m = 1 ∨ m = 2) (smc be be' : Bool) {orig buf : Sector m}
    {stored readEcc : Code} (hs : Later.calculateEcc be smc orig = .ok stored)
    (h : (differing orig buf).card + (differing stored readEcc).card ≤ 2) :
    ∃ calcEcc, Later.calculateEcc be' smc buf = .ok calcEcc ∧
      Later.correctData smc buf readEcc calcEcc =
        if (differing orig buf).card + (differing stored readEcc).card = 0 then .ok (0, orig)
        else if (differing orig buf).card + (differing stored readEcc).card = 1 ∨
            (differing orig buf).card = 1 ∧ differing stored readEcc ⊆ sparePlaces m smc then
          .ok (1, orig)
        else .ok (-1, buf) := by
  rw [Later.calculateEcc_eq be orig smc hm] at hs
  obtain rfl := Outcome.ok.inj hs
  exact ⟨_, Later.calculateEcc_eq be' buf smc hm,
    correctData_le_two hm smc orig buf rfl rfl h⟩

/-- A wrong bit of an empty page. -/
theorem errors_le_two_sample :
    let orig : Sector 1 := fun _ => 0
    let b : Fin (256 * 1) × Fin 8 := (⟨200, by decide⟩, ⟨6, by decide⟩)
    ∃ calcEcc, Later.calculateEcc true false (flip orig b) = .ok calcEcc ∧
      Later.correctData false (flip orig b) (codeOf false orig) calcEcc = .ok (1, orig) := by
  intro orig b
  have hd := differing_self_flip orig b
  have hc := differing_self (codeOf false orig)
  obtain ⟨calcEcc, hcalc, hres⟩ := errors_le_two (m := 1) (Or.inl rfl) false false true
    (Later.calculateEcc_eq false orig false (Or.inl rfl))
    (show (differing orig (flip orig b)).card + _ ≤ 2 by rw [hd, hc]; decide)
  refine ⟨calcEcc, hcalc, hres.trans ?_⟩
  rw [hd, hc]
  rfl

/-- **Correcting again** never flips another bit. Where the first pass flipped one, the second
finds the pairs in order. -/
theorem corrects_once (hm : m = 1 ∨ m = 2) (smc be : Bool) (buf : Sector m) (readEcc : Code) :
    ∃ calcEcc r buf' calcEcc' r', Later.calculateEcc be smc buf = .ok calcEcc ∧
      Later.correctData smc buf readEcc calcEcc = .ok (r, buf') ∧
      Later.calculateEcc be smc buf' = .ok calcEcc' ∧
      Later.correctData smc buf' readEcc calcEcc' = .ok (r', buf') ∧
      (buf' = buf → r' = r) ∧
      (buf' ≠ buf → r = 1 ∧ r' = if spareOf m smc readEcc calcEcc = 0 then 0
        else if spareOf m smc readEcc calcEcc = 1 then 1 else -1) := by
  obtain ⟨r, buf', r', hfirst, hsecond, hsame, hflipped⟩ := correctData_twice smc buf readEcc hm
  exact ⟨_, r, buf', _, r', Later.calculateEcc_eq be buf smc hm, hfirst,
    Later.calculateEcc_eq be buf' smc hm, hsecond, hsame, hflipped⟩

/-- An erased sector against a code of zeros. -/
theorem corrects_once_sample :
    ∃ calcEcc r buf' calcEcc' r', Later.calculateEcc false true erased = .ok calcEcc ∧
      Later.correctData true erased (fun _ => 0) calcEcc = .ok (r, buf') ∧
      Later.calculateEcc false true buf' = .ok calcEcc' ∧
      Later.correctData true buf' (fun _ => 0) calcEcc' = .ok (r', buf') ∧
      (buf' = erased → r' = r) ∧
      (buf' ≠ erased → r = 1 ∧ r' = if spareOf 2 true (fun _ => 0) calcEcc = 0 then 0
        else if spareOf 2 true (fun _ => 0) calcEcc = 1 then 1 else -1) :=
  corrects_once (Or.inr rfl) true false erased fun _ => 0

end KernelGadgets.Nand
