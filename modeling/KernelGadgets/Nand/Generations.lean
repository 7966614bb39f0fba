import KernelGadgets.Nand.Decode

/-!
# Three generations of the ECC

The program of the table's generator, the older code of the kernel and the word-parallel one come
to the same parities. The first stores them plain, the others inverted; the two correctors of the
kernel return and write the same, up to the name of an error.
-/

namespace KernelGadgets.Nand

variable (smc : Bool) (dat : Page)

/-- The generator's program stores the parities plain. -/
theorem nandCalculateEcc_bitAt {j : ℕ} (hj : j < 12) (v : Bool) :
    bitAt (nandCalculateEcc eccTbl dat) (place true j v) =
      if j < 11 then parityAt (address (m := 1)) (bitAt dat) j v else true := by
  have hlayout : nandCalculateEcc eccTbl dat = layout true fun j v =>
      decide (j < 11) && Prev.regsBit (eccRegs eccTbl dat) j v || decide (j = 11) := by
    unfold nandCalculateEcc
    simp only [tmp1Of_eq, tmp2Of_eq, Prev.columns_eq]
    simp [layout, Prev.regsBit, ordered]
  rw [hlayout, bitAt_layout true _ hj]
  by_cases h : j < 11
  · rw [if_pos h, Prev.regsBit_eq dat h, decide_eq_true h, Bool.true_and,
      decide_eq_false (show ¬j = 11 by omega), Bool.or_false]
  · rw [if_neg h, decide_eq_true (show j = 11 by omega), Bool.or_true]

theorem codeOf_bitAt {j : ℕ} (hj : j < 12) (v : Bool) :
    bitAt (codeOf (m := 1) smc dat) (place smc j v) =
      if j < 11 then !parityAt (address (m := 1)) (bitAt dat) j v else true :=
  Later.codeOf_pairs (m := 1) dat smc hj v

/-- **The codes of the generations agree.** The two of the kernel are equal, in both orders; the
generator's is their complement in the SmartMedia order, the two ones beside the pairs apart. -/
theorem generations_agree (bigEndian : Bool) :
    Later.calculateEcc (m := 1) bigEndian smc dat = .ok (Prev.nandCalculateEcc smc dat) ∧
      ∀ c, bitAt (nandCalculateEcc eccTbl dat) c =
        if c ∈ sparePlaces 1 true then true else !bitAt (Prev.nandCalculateEcc true dat) c := by
  constructor
  · rw [Prev.nandCalculateEcc_eq]
    exact Later.calculateEcc_eq (m := 1) bigEndian dat smc (Or.inl rfl)
  · intro c
    obtain ⟨j, hj, v, rfl⟩ := exists_place true c
    have hspare := mem_sparePlaces (Or.inl rfl : (1 : ℕ) = 1 ∨ 1 = 2) true hj v
    rw [Prev.nandCalculateEcc_eq, nandCalculateEcc_bitAt dat hj, codeOf_bitAt true dat hj]
    by_cases h : j < 11
    · rw [if_pos h, if_pos h, if_neg (hspare.not.mpr (not_not.mpr h)), Bool.not_not]
    · rw [if_neg h, if_pos (hspare.mpr h)]

/-! ## The correctors -/

/-- The page after the corrector of the generator's program, which only names the bit. -/
def corrected : Option (ℕ × ℕ) → Page
  | none => dat
  | some (byteoffs, bitnum) => fun i =>
    if i.val = byteoffs then dat i ^^^ (1#8 <<< bitnum) else dat i

theorem corrected_some {p q : ℕ} (hp : p < 256) :
    corrected dat (some (p, q)) =
      Function.update dat ⟨p, hp⟩ (dat ⟨p, hp⟩ ^^^ (1#8 <<< q)) := by
  funext i
  by_cases h : i = ⟨p, hp⟩
  · subst h
    rw [Function.update_self]
    exact if_pos rfl
  · rw [Function.update_of_ne h]
    exact if_neg fun hi => h (Fin.ext hi)

/-- The generator's program tests the same bytes as the older corrector. -/
theorem nandCorrectData_corrected (readEcc calcEcc : Code) :
    ∃ ret ∈ ([-1, 0, 1] : List ℤ), ∃ located, nandCorrectData readEcc calcEcc = .ok ⟨ret, located⟩ ∧
      Prev.nandCorrectData true dat readEcc calcEcc =
        .ok (if ret = -1 then -Prev.ebadmsg else ret, corrected dat located) := by
  have h0 : difference calcEcc readEcc (if true then 0 else 1) = calcEcc 0 ^^^ readEcc 0 := rfl
  have h1 : difference calcEcc readEcc (if true then 1 else 0) = calcEcc 1 ^^^ readEcc 1 := rfl
  have h2 : difference calcEcc readEcc 2 = calcEcc 2 ^^^ readEcc 2 := rfl
  unfold nandCorrectData correctSyndrome Prev.nandCorrectData
  rw [h0, h1, h2]
  generalize calcEcc 0 ^^^ readEcc 0 = s0
  generalize calcEcc 1 ^^^ readEcc 1 = s1
  generalize calcEcc 2 ^^^ readEcc 2 = s2
  dsimp only
  split_ifs with hzero hpairs hp
  · exact ⟨0, by decide, none, rfl, rfl⟩
  · rw [← corrected_some]
    exact ⟨1, by decide, _, rfl, rfl⟩
  · exact absurd (Prev.byteoffsOf_lt s0 s1) hp
  · rw [Prev.countbits_eq]
    by_cases hone : ones s0 + ones s1 + ones s2 = 1
    · exact ⟨1, by decide, none, congrArg Outcome.ok (if_pos hone),
        congrArg Outcome.ok (if_pos hone)⟩
    · exact ⟨-1, by decide, none, congrArg Outcome.ok (if_neg hone),
        congrArg Outcome.ok (if_neg hone)⟩

theorem kernel_correctors_agree (readEcc calcEcc : Code) :
    ∃ ret ∈ ([-1, 0, 1] : List ℤ), ∃ dat',
      Later.correctData (m := 1) smc dat readEcc calcEcc = .ok (ret, dat') ∧
      Prev.nandCorrectData smc dat readEcc calcEcc =
        .ok (if ret = -1 then -Prev.ebadmsg else ret, dat') := by
  have hlater := Later.correctData_follows (m := 1) (Or.inl rfl) smc dat readEcc calcEcc
  have hprev := Prev.nandCorrectData_follows smc dat readEcc calcEcc
  cases hv : verdict (syndromeOf 1 smc readEcc calcEcc) (spareOf 1 smc readEcc calcEcc) with
  | clean =>
    rw [hv] at hlater hprev
    exact ⟨0, by decide, dat, hlater, hprev⟩
  | data a =>
    rw [hv] at hlater hprev
    obtain ⟨b, hb, hlater⟩ := hlater
    obtain ⟨c, hc, hprev⟩ := hprev
    obtain rfl : c = b := (addressed (Or.inl rfl)).ext fun j => (hc j).trans (hb j).symm
    exact ⟨1, by decide, _, hlater, hprev⟩
  | code =>
    rw [hv] at hlater hprev
    exact ⟨1, by decide, dat, hlater, hprev⟩
  | lost =>
    rw [hv] at hlater hprev
    exact ⟨-1, by decide, dat, hlater, hprev⟩

/-- **The correctors agree.** For any two codes, the two of the kernel return the same and leave the
same page, up to the number for an error; the generator's program returns what the newer one does,
and names the bit that they flip. -/
theorem correctors_agree (readEcc calcEcc : Code) :
    ∃ ret dat', Later.correctData (m := 1) smc dat readEcc calcEcc = .ok (ret, dat') ∧
      Prev.nandCorrectData smc dat readEcc calcEcc =
        .ok (if ret = -1 then -Prev.ebadmsg else ret, dat') ∧
      (smc = true → ∃ located, nandCorrectData readEcc calcEcc = .ok ⟨ret, located⟩ ∧
        dat' = corrected dat located) := by
  obtain ⟨ret, hret, dat', hlater, hprev⟩ := kernel_correctors_agree smc dat readEcc calcEcc
  refine ⟨ret, dat', hlater, hprev, ?_⟩
  rintro rfl
  obtain ⟨ret', hret', located, hgen, hprev'⟩ := nandCorrectData_corrected dat readEcc calcEcc
  have hcode : ∀ r ∈ ([-1, 0, 1] : List ℤ), ∀ r' ∈ ([-1, 0, 1] : List ℤ),
      (if r = -1 then -Prev.ebadmsg else r) = (if r' = -1 then -Prev.ebadmsg else r') → r = r' := by
    decide
  obtain ⟨hr, hdat⟩ := Prod.mk.inj (Outcome.ok.inj (hprev.symm.trans hprev'))
  obtain rfl := hcode ret hret ret' hret' hr
  exact ⟨located, hgen, hdat⟩

end KernelGadgets.Nand
