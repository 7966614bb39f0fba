import Mathlib.Algebra.Group.Action.Defs
import Mathlib.Algebra.Order.BigOperators.Group.List
import Mathlib.Order.Lattice.Nat
import Mathlib.Tactic.Linarith

/-!
# List scheduling

Values are distributed over `k` groups; the makespan of a distribution is its largest sum, `opt k vs`
the smallest makespan over all distributions of `vs`. The greedy rule gives the next value to a
group with the smallest sum (`Greedy`). For values in descending order every greedy distribution is
within `(4 k - 1) / (3 k)` of the optimum.

The bound is kept as an invariant of the rule (`Balanced.greedy`). A value of at most a third of
the optimum is paid for by the average sum (`greedy_small`). For a larger one each optimal group has
at most two values; counting a value double if it does not go together with the new one, each
optimal group counts two at most and each greedy group two at least, so that the new value still
fits (`greedy_large`).

A greedy distribution of descending values is also fair: without any single one of its values a
group is no larger than any other (`Fair.greedy`).
-/

namespace KernelGadgets

/-- `parts` are `k` groups that hold the values `vs`. -/
structure IsDistribution (k : ℕ) (vs : List ℕ) (parts : List (List ℕ)) : Prop where
  length : parts.length = k
  perm : parts.flatten.Perm vs

/-- The largest sum of a group. -/
def makespan (parts : List (List ℕ)) : ℕ := parts.foldr (fun p m => max p.sum m) 0

/-- The values can be distributed with sums of at most `m`. -/
def Feasible (k : ℕ) (vs : List ℕ) (m : ℕ) : Prop :=
  ∃ parts, IsDistribution k vs parts ∧ ∀ p ∈ parts, p.sum ≤ m

/-- The smallest possible largest sum. -/
noncomputable def opt (k : ℕ) (vs : List ℕ) : ℕ :=
  sInf {m | ∃ parts, IsDistribution k vs parts ∧ makespan parts = m}

/-! ## Makespans -/

theorem makespan_le_iff {parts : List (List ℕ)} {m : ℕ} :
    makespan parts ≤ m ↔ ∀ p ∈ parts, p.sum ≤ m := by
  induction parts with
  | nil => simp [makespan]
  | cons p parts ih =>
    have hcons : makespan (p :: parts) = max p.sum (makespan parts) := rfl
    rw [hcons, Nat.max_le, ih, List.forall_mem_cons]

/-- Some group has the largest sum. -/
theorem exists_sum_eq_makespan {parts : List (List ℕ)} (h : parts ≠ []) :
    ∃ p ∈ parts, p.sum = makespan parts := by
  by_contra hne
  push Not at hne
  have hlt : ∀ p ∈ parts, p.sum < makespan parts := by
    intro p hp
    exact Nat.lt_of_le_of_ne (makespan_le_iff.mp (Nat.le_refl _) p hp) (hne p hp)
  obtain ⟨p, hp⟩ := List.exists_mem_of_ne_nil parts h
  have hpos : 0 < makespan parts := Nat.zero_lt_of_lt (hlt p hp)
  have hle : makespan parts ≤ makespan parts - 1 :=
    makespan_le_iff.mpr fun p hp => Nat.le_sub_one_of_lt (hlt p hp)
  omega

theorem isDistribution_singleton (vs : List ℕ) (k : ℕ) :
    IsDistribution (k + 1) vs (vs :: List.replicate k []) := by
  constructor
  · rw [List.length_cons, List.length_replicate]
  · simp

/-- The optimum is attained. -/
theorem feasible_opt {k : ℕ} (hk : 0 < k) (vs : List ℕ) : Feasible k vs (opt k vs) := by
  obtain ⟨k, rfl⟩ := Nat.exists_eq_succ_of_ne_zero hk.ne'
  have hne : {m | ∃ parts, IsDistribution (k + 1) vs parts ∧ makespan parts = m}.Nonempty :=
    ⟨_, _, isDistribution_singleton vs k, rfl⟩
  obtain ⟨parts, hparts, hm⟩ := Nat.sInf_mem hne
  exact ⟨parts, hparts, makespan_le_iff.mp hm.le⟩

/-! ## Counting -/

section

variable {k n : ℕ} {vs : List ℕ} {parts : List (List ℕ)}

/-- A weight of the values is shared out over the groups. -/
theorem IsDistribution.sum_map (h : IsDistribution k vs parts) (w : ℕ → ℕ) :
    (parts.map fun p => (p.map w).sum).sum = (vs.map w).sum := by
  rw [← (h.perm.map w).sum_eq, List.map_flatten, List.sum_flatten, List.map_map]
  rfl

theorem IsDistribution.sum_le (h : IsDistribution k vs parts) (w : ℕ → ℕ)
    (hle : ∀ p ∈ parts, (p.map w).sum ≤ n) : (vs.map w).sum ≤ k * n := by
  have hsum := List.sum_le_card_nsmul (parts.map fun p => (p.map w).sum) n (by
    intro s hs
    obtain ⟨p, hp, rfl⟩ := List.mem_map.mp hs
    exact hle p hp)
  rwa [h.sum_map, List.length_map, h.length, smul_eq_mul] at hsum

theorem IsDistribution.le_sum (h : IsDistribution k vs parts) (w : ℕ → ℕ)
    (hle : ∀ p ∈ parts, n ≤ (p.map w).sum) : k * n ≤ (vs.map w).sum := by
  have hsum := List.card_nsmul_le_sum (parts.map fun p => (p.map w).sum) n (by
    intro s hs
    obtain ⟨p, hp, rfl⟩ := List.mem_map.mp hs
    exact hle p hp)
  rwa [h.sum_map, List.length_map, h.length, smul_eq_mul] at hsum

end

/-! ## The greedy rule -/

/-- `x` is given to a group with the smallest sum. -/
def Greedy (x : ℕ) (gs gs' : List (List ℕ)) : Prop :=
  ∃ g rest, gs.Perm (g :: rest) ∧ (∀ h ∈ rest, g.sum ≤ h.sum) ∧ gs' = (g ++ [x]) :: rest

section

variable {k m x : ℕ} {vs g : List ℕ} {rest gs : List (List ℕ)}

theorem IsDistribution.of_perm (h : IsDistribution k vs gs) {gs' : List (List ℕ)}
    (hp : gs.Perm gs') : IsDistribution k vs gs' := by
  constructor
  · rw [← hp.length_eq, h.length]
  · exact hp.flatten.symm.trans h.perm

theorem IsDistribution.ne_nil (h : IsDistribution k vs gs) (hk : 0 < k) : gs ≠ [] := by
  intro hnil
  have hlen := h.length
  rw [hnil, List.length_nil] at hlen
  omega

theorem isDistribution_replicate (k : ℕ) : IsDistribution k [] (List.replicate k []) := by
  constructor
  · exact List.length_replicate
  · simp

theorem IsDistribution.give (h : IsDistribution k vs (g :: rest)) (x : ℕ) :
    IsDistribution k (x :: vs) ((g ++ [x]) :: rest) := by
  constructor
  · rw [← h.length, List.length_cons, List.length_cons]
  · have hperm := h.perm.cons x
    rw [List.flatten_cons] at hperm ⊢
    rw [List.append_assoc]
    exact List.perm_middle.trans hperm

/-- One value less needs no more. -/
theorem Feasible.tail (h : Feasible k (x :: vs) m) : Feasible k vs m := by
  obtain ⟨parts, hparts, hm⟩ := h
  have hx : x ∈ parts.flatten := hparts.perm.mem_iff.mpr List.mem_cons_self
  obtain ⟨p, hp, hxp⟩ := List.mem_flatten.mp hx
  obtain ⟨s, t, rfl⟩ := List.append_of_mem hp
  have hperm : (s ++ p :: t).Perm (p :: (s ++ t)) := List.perm_middle
  have hdist := hparts.of_perm hperm
  refine ⟨p.erase x :: (s ++ t), ⟨hdist.length, ?_⟩, ?_⟩
  · have hflat := hdist.perm
    rw [List.flatten_cons] at hflat ⊢
    have hcons := ((List.perm_cons_erase hxp).append_right (s ++ t).flatten).symm.trans hflat
    exact hcons.cons_inv
  · intro q hq
    obtain rfl | hq := List.mem_cons.mp hq
    · exact ((List.erase_sublist).sum_le_sum fun _ _ => Nat.zero_le _).trans (hm p hp)
    · exact hm q (hperm.mem_iff.mpr (List.mem_cons_of_mem p hq))

/-- Every value is below the sums that are possible. -/
theorem Feasible.le (h : Feasible k (x :: vs) m) : x ≤ m := by
  obtain ⟨parts, hparts, hm⟩ := h
  have hx : x ∈ parts.flatten := hparts.perm.mem_iff.mpr List.mem_cons_self
  obtain ⟨p, hp, hxp⟩ := List.mem_flatten.mp hx
  exact (List.single_le_sum (fun _ _ => Nat.zero_le _) x hxp).trans (hm p hp)

/-- A value of at most a third of `m`: the smallest sum is at most the average. -/
theorem greedy_small (h : IsDistribution k vs (g :: rest)) (hmin : ∀ p ∈ rest, g.sum ≤ p.sum)
    (hf : Feasible k (x :: vs) m) (hx : 3 * x ≤ m) :
    3 * k * (g.sum + x) ≤ (4 * k - 1) * m := by
  obtain ⟨parts, hparts, hm⟩ := hf
  have hlow : k * g.sum ≤ (vs.map id).sum := by
    apply h.le_sum id
    intro p hp
    rw [List.map_id]
    obtain rfl | hp := List.mem_cons.mp hp
    · exact Nat.le_refl _
    · exact hmin p hp
  have hhigh : ((x :: vs).map id).sum ≤ k * m := by
    apply hparts.sum_le id
    intro p hp
    rw [List.map_id]
    exact hm p hp
  have hk : k = rest.length + 1 := by rw [← h.length, List.length_cons]
  rw [List.map_id] at hlow hhigh
  rw [List.sum_cons] at hhigh
  rw [hk] at hlow hhigh ⊢
  have hrest : rest.length * (3 * x) ≤ rest.length * m := Nat.mul_le_mul_left _ hx
  have hsub : 4 * (rest.length + 1) - 1 = 4 * rest.length + 3 := by omega
  rw [hsub]
  linarith

/-- Counts a value double if it does not go together with `x`. -/
def weight (m x y : ℕ) : ℕ := if m < y + x then 2 else 1

theorem weight_pos (m x y : ℕ) : 1 ≤ weight m x y := by
  unfold weight
  split_ifs <;> decide

/-- A group of an optimal distribution counts two at most. -/
theorem weight_part (hx : m < 3 * x) {p : List ℕ} (hp : ∀ y ∈ p, x ≤ y) (hm : p.sum ≤ m) :
    (p.map (weight m x)).sum ≤ 2 := by
  match p with
  | [] => simp
  | [y] =>
    rw [List.map_singleton, List.sum_singleton]
    unfold weight
    split_ifs <;> decide
  | [y, z] =>
    have hy := hp y (by simp)
    have hz := hp z (by simp)
    simp only [List.sum_cons, List.sum_nil] at hm
    simp only [List.map_cons, List.map_nil, List.sum_cons, List.sum_nil, weight]
    rw [if_neg (by omega), if_neg (by omega)]
    exact Nat.le_refl 2
  | y :: z :: t :: p =>
    have hy := hp y (by simp)
    have hz := hp z (by simp)
    have ht := hp t (by simp)
    simp only [List.sum_cons] at hm
    omega

/-- A group that has no room for `x` counts two at least. -/
theorem weight_group (hx : x ≤ m) {p : List ℕ} (hm : m < p.sum + x) :
    2 ≤ (p.map (weight m x)).sum := by
  match p with
  | [] =>
    rw [List.sum_nil] at hm
    omega
  | [y] =>
    rw [List.sum_singleton] at hm
    rw [List.map_singleton, List.sum_singleton, weight, if_pos hm]
  | y :: z :: p =>
    have hy := weight_pos m x y
    have hz := weight_pos m x z
    simp only [List.map_cons, List.sum_cons]
    omega

/-- A value of more than a third of `m` still fits. -/
theorem greedy_large (h : IsDistribution k vs (g :: rest)) (hmin : ∀ p ∈ rest, g.sum ≤ p.sum)
    (hle : ∀ y ∈ vs, x ≤ y) (hf : Feasible k (x :: vs) m) (hx : m < 3 * x) : g.sum + x ≤ m := by
  have hxm := hf.le
  obtain ⟨parts, hparts, hm⟩ := hf
  by_contra hfull
  have hlow : k * 2 ≤ (vs.map (weight m x)).sum := by
    apply h.le_sum
    intro p hp
    apply weight_group hxm
    obtain rfl | hp := List.mem_cons.mp hp
    · omega
    · have := hmin p hp
      omega
  have hhigh : ((x :: vs).map (weight m x)).sum ≤ k * 2 := by
    apply hparts.sum_le
    intro p hp
    apply weight_part hx _ (hm p hp)
    intro y hy
    have hy' : y ∈ x :: vs := hparts.perm.mem_iff.mp (List.mem_flatten.mpr ⟨p, hp, hy⟩)
    obtain rfl | hy' := List.mem_cons.mp hy'
    · exact Nat.le_refl _
    · exact hle y hy'
  have hpos := weight_pos m x x
  rw [List.map_cons, List.sum_cons] at hhigh
  omega

/-! ## The bound -/

/-- A distribution within the bound of every possible largest sum. -/
structure Balanced (k : ℕ) (vs : List ℕ) (gs : List (List ℕ)) : Prop where
  dist : IsDistribution k vs gs
  bound : ∀ m, Feasible k vs m → ∀ p ∈ gs, 3 * k * p.sum ≤ (4 * k - 1) * m

/-- Empty groups are balanced. -/
theorem balanced_nil (k : ℕ) : Balanced k [] (List.replicate k []) := by
  refine ⟨isDistribution_replicate k, ?_⟩
  intro m _ p hp
  rw [List.eq_of_mem_replicate hp]
  simp

/-- **The greedy rule keeps the bound**, as long as the values descend. -/
theorem Balanced.greedy (h : Balanced k vs gs) {gs' : List (List ℕ)} (hg : Greedy x gs gs')
    (hle : ∀ y ∈ vs, x ≤ y) : Balanced k (x :: vs) gs' := by
  obtain ⟨g, rest, hperm, hmin, rfl⟩ := hg
  have hdist := h.dist.of_perm hperm
  refine ⟨hdist.give x, ?_⟩
  intro m hf p hp
  obtain rfl | hp := List.mem_cons.mp hp
  · rw [List.sum_append, List.sum_singleton]
    by_cases hx : 3 * x ≤ m
    · exact greedy_small hdist hmin hf hx
    · have hfit := greedy_large hdist hmin hle hf (by omega)
      have hk : k = rest.length + 1 := by rw [← hdist.length, List.length_cons]
      calc 3 * k * (g.sum + x) ≤ 3 * k * m := Nat.mul_le_mul_left _ hfit
        _ ≤ (4 * k - 1) * m := Nat.mul_le_mul_right _ (by omega)
  · exact h.bound m hf.tail p (hperm.mem_iff.mpr (List.mem_cons_of_mem g hp))

/-- The order of the values does not matter. -/
theorem Balanced.perm (h : Balanced k vs gs) {vs' : List ℕ} (hp : vs.Perm vs') :
    Balanced k vs' gs := by
  refine ⟨⟨h.dist.length, h.dist.perm.trans hp⟩, ?_⟩
  rintro m ⟨parts, hparts, hm⟩
  exact h.bound m ⟨parts, ⟨hparts.length, hparts.perm.trans hp.symm⟩, hm⟩

/-- The largest sum of a balanced distribution against the optimum. -/
theorem Balanced.makespan_le (h : Balanced k vs gs) (hk : 0 < k) :
    3 * k * makespan gs ≤ (4 * k - 1) * opt k vs := by
  obtain ⟨p, hp, hsum⟩ := exists_sum_eq_makespan (h.dist.ne_nil hk)
  rw [← hsum]
  exact h.bound _ (feasible_opt hk vs) p hp

/-! ## Fairness -/

/-- A distribution in which no group is larger than another one without a value of its own. -/
structure Fair (k : ℕ) (vs : List ℕ) (gs : List (List ℕ)) : Prop where
  dist : IsDistribution k vs gs
  fair : ∀ g ∈ gs, ∀ h ∈ gs, ∀ y ∈ g, g.sum - y ≤ h.sum

theorem fair_nil (k : ℕ) : Fair k [] (List.replicate k []) := by
  refine ⟨isDistribution_replicate k, ?_⟩
  intro g hg _ _ y hy
  rw [List.eq_of_mem_replicate hg] at hy
  exact absurd hy List.not_mem_nil

/-- **The greedy rule keeps a distribution fair**, as long as the values descend: the value a group
is given is its smallest, and without it the group was the smallest. -/
theorem Fair.greedy (h : Fair k vs gs) {gs' : List (List ℕ)} (hg : Greedy x gs gs')
    (hle : ∀ y ∈ vs, x ≤ y) : Fair k (x :: vs) gs' := by
  obtain ⟨g, rest, hperm, hmin, rfl⟩ := hg
  have hdist := h.dist.of_perm hperm
  have hfair : ∀ p ∈ g :: rest, ∀ q ∈ g :: rest, ∀ y ∈ p, p.sum - y ≤ q.sum :=
    fun p hp q hq => h.fair p (hperm.mem_iff.mpr hp) q (hperm.mem_iff.mpr hq)
  have hsmall : ∀ y ∈ g, x ≤ y := fun y hy =>
    hle y (hdist.perm.mem_iff.mp (List.mem_flatten.mpr ⟨g, List.mem_cons_self, hy⟩))
  refine ⟨hdist.give x, ?_⟩
  have hsum : (g ++ [x]).sum = g.sum + x := by rw [List.sum_append, List.sum_singleton]
  rintro p hp q hq y hy
  obtain rfl | hp := List.mem_cons.mp hp
  · obtain rfl | hq := List.mem_cons.mp hq
    · exact Nat.sub_le _ _
    · have hgq := hmin q hq
      rw [hsum]
      obtain hy | hy := List.mem_append.mp hy
      · -- `y` was in the group before, and is no smaller than `x`
        have hold := hfair g List.mem_cons_self q (List.mem_cons_of_mem g hq) y hy
        have hxy := hsmall y hy
        omega
      · rw [List.mem_singleton.mp hy]
        omega
  · have hp' := List.mem_cons_of_mem g hp
    obtain rfl | hq := List.mem_cons.mp hq
    · have hold := hfair p hp' g List.mem_cons_self y hy
      rw [hsum]
      omega
    · exact hfair p hp' q (List.mem_cons_of_mem g hq) y hy

/-- The order of the values does not matter. -/
theorem Fair.perm (h : Fair k vs gs) {vs' : List ℕ} (hp : vs.Perm vs') : Fair k vs' gs :=
  ⟨⟨h.dist.length, h.dist.perm.trans hp⟩, h.fair⟩

/-- The sums of a fair distribution differ by no more than a bound of the values. -/
theorem Fair.spread (h : Fair k vs gs) (hm : ∀ v ∈ vs, v ≤ m) {p q : List ℕ} (hp : p ∈ gs)
    (hq : q ∈ gs) : p.sum - q.sum ≤ m := by
  cases p with
  | nil => simp
  | cons y p =>
    have hy : y ∈ vs := h.dist.perm.mem_iff.mp
      (List.mem_flatten.mpr ⟨y :: p, hp, List.mem_cons_self⟩)
    have hym := hm y hy
    have hfair := h.fair (y :: p) hp q hq y List.mem_cons_self
    omega

end

end KernelGadgets
