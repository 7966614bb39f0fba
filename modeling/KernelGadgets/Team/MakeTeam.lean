import Mathlib.Data.List.MinMax
import Mathlib.Data.List.Sort
import KernelGadgets.Lib.ListScheduling

/-!
# The team builder

The script sorts the values in descending order and appends each to the first group of the list of
groups, which it sorts by sum before every value. Both sorts are stable. Reading the first group of
an empty list of groups raises an exception, here `none`.
-/

namespace KernelGadgets.Team

/-! ## The code -/

/-- `load_balance_groups.sort(key=lambda x: sum(x))` -/
def sortGroups (groups : List (List ℕ)) : List (List ℕ) :=
  groups.insertionSort fun x y => x.sum ≤ y.sum

/-- The body of the loop: sort, and append to the first group. -/
def appendFirst (groups : List (List ℕ)) (v : ℕ) : Option (List (List ℕ)) :=
  match sortGroups groups with
  | [] => none
  | g :: rest => some ((g ++ [v]) :: rest)

/-- `load_balance_groups` after the loop. -/
def loadBalanceGroups (groups : ℕ) (values : List ℕ) : Option (List (List ℕ)) :=
  (values.insertionSort fun x y => x ≥ y).foldlM appendFirst (List.replicate groups [])

/-! ## The loop is greedy -/

instance totalBySum : Std.Total fun x y : List ℕ => x.sum ≤ y.sum :=
  ⟨fun x y => Nat.le_total x.sum y.sum⟩

instance transBySum : IsTrans (List ℕ) fun x y => x.sum ≤ y.sum :=
  ⟨fun _ _ _ => Nat.le_trans⟩

theorem perm_sortGroups (groups : List (List ℕ)) : (sortGroups groups).Perm groups :=
  List.perm_insertionSort _ groups

theorem appendFirst_greedy {groups : List (List ℕ)} (h : groups ≠ []) (v : ℕ) :
    ∃ groups', appendFirst groups v = some groups' ∧ Greedy v groups groups' := by
  have hperm := perm_sortGroups groups
  have hsorted : (sortGroups groups).Pairwise fun x y => x.sum ≤ y.sum :=
    List.pairwise_insertionSort _ groups
  unfold appendFirst
  cases hs : sortGroups groups with
  | nil =>
    rw [hs] at hperm
    exact absurd hperm.nil_eq.symm h
  | cons g rest =>
    rw [hs] at hperm hsorted
    exact ⟨_, rfl, g, rest, hperm.symm, (List.pairwise_cons.mp hsorted).1, rfl⟩

/-- **The loop rule.** What the greedy rule keeps for descending values, the loop keeps over the
rest of the sorted values. -/
theorem foldlM_greedy {k : ℕ} (hk : 0 < k) {inv : List ℕ → List (List ℕ) → Prop}
    (hdist : ∀ {vs gs}, inv vs gs → IsDistribution k vs gs)
    (hstep : ∀ {x vs gs}, inv vs gs →
      ∀ {gs'}, Greedy x gs gs' → (∀ y ∈ vs, x ≤ y) → inv (x :: vs) gs')
    {rest : List ℕ} :
    ∀ {vs : List ℕ} {groups : List (List ℕ)}, inv vs groups →
      (∀ v ∈ rest, ∀ y ∈ vs, v ≤ y) → rest.Pairwise (fun x y => x ≥ y) →
      ∃ groups', rest.foldlM appendFirst groups = some groups' ∧
        inv (rest.reverse ++ vs) groups' := by
  induction rest with
  | nil =>
    intro vs groups h _ _
    exact ⟨groups, rfl, h⟩
  | cons v rest ih =>
    intro vs groups h hle hsorted
    obtain ⟨hv, hsorted⟩ := List.pairwise_cons.mp hsorted
    obtain ⟨groups₁, h₁, hgreedy⟩ := appendFirst_greedy ((hdist h).ne_nil hk) v
    have hinv : inv (v :: vs) groups₁ := hstep h hgreedy (hle v List.mem_cons_self)
    have hle₁ : ∀ u ∈ rest, ∀ y ∈ v :: vs, u ≤ y := by
      intro u hu y hy
      obtain rfl | hy := List.mem_cons.mp hy
      · exact hv u hu
      · exact hle u (List.mem_cons_of_mem v hu) y hy
    obtain ⟨groups₂, h₂, hinv₂⟩ := ih hinv hle₁ hsorted
    refine ⟨groups₂, ?_, ?_⟩
    · rw [List.foldlM_cons, h₁]
      exact h₂
    · rwa [List.reverse_cons, List.append_assoc]

/-- The values in the order in which the loop takes them. -/
theorem sorted_values (values : List ℕ) :
    (values.insertionSort fun x y => x ≥ y).Pairwise fun x y => x ≥ y :=
  List.pairwise_insertionSort _ values

/-- **The team builder is within 4/3 of the optimum.** It ends with a distribution of the values
over the groups whose largest sum is at most `(4 k - 1) / (3 k)` times the smallest possible. -/
theorem makeTeam_approx (values : List ℕ) {k : ℕ} (hk : 1 ≤ k) :
    ∃ groups, loadBalanceGroups k values = some groups ∧ IsDistribution k values groups ∧
      3 * k * makespan groups ≤ (4 * k - 1) * opt k values := by
  obtain ⟨groups, hgroups, hbal⟩ := foldlM_greedy hk Balanced.dist Balanced.greedy
    (balanced_nil k) (by simp) (sorted_values values)
  have hperm : ((values.insertionSort fun x y => x ≥ y).reverse ++ []).Perm values := by
    rw [List.append_nil]
    exact (List.reverse_perm _).trans (List.perm_insertionSort _ values)
  have hvalues := hbal.perm hperm
  exact ⟨groups, hgroups, hvalues.dist, hvalues.makespan_le hk⟩

theorem makeTeam_approx_sample :
    ∃ groups, loadBalanceGroups 3 [5, 3, 4, 3, 5, 4, 3] = some groups ∧
      IsDistribution 3 [5, 3, 4, 3, 5, 4, 3] groups ∧
      3 * 3 * makespan groups ≤ (4 * 3 - 1) * opt 3 [5, 3, 4, 3, 5, 4, 3] :=
  makeTeam_approx [5, 3, 4, 3, 5, 4, 3] (by decide)

/-- The bound is reached: here the largest sum is 11, and 9 is possible. -/
example : (loadBalanceGroups 3 [5, 3, 4, 3, 5, 4, 3]).map makespan = some 11 := by decide

/-! ## The teams are fair -/

/-- `load_balance_groups` after `n` iterations of the loop. -/
def groupsAfter (groups : ℕ) (values : List ℕ) (n : ℕ) : Option (List (List ℕ)) :=
  ((values.insertionSort fun x y => x ≥ y).take n).foldlM appendFirst (List.replicate groups [])

/-- All iterations make up the loop. -/
theorem groupsAfter_of_le {values : List ℕ} {n : ℕ} (hn : values.length ≤ n) (k : ℕ) :
    groupsAfter k values n = loadBalanceGroups k values := by
  have hlen : (values.insertionSort fun x y => x ≥ y).length = values.length :=
    (List.perm_insertionSort _ values).length_eq
  rw [groupsAfter, List.take_of_length_le (by rwa [hlen]), loadBalanceGroups]

/-- **The teams are fair.** After every iteration the groups hold the values taken so far, each
once, and without any single one of its values a group is no larger than any other; so two sums
differ by no more than the largest value. After as many iterations as there are values these are the
groups that the script ends with. -/
theorem makeTeam_fair (values : List ℕ) {k : ℕ} (hk : 1 ≤ k) (n : ℕ) :
    ∃ groups, groupsAfter k values n = some groups ∧
      (values.length ≤ n → loadBalanceGroups k values = some groups) ∧
      Fair k ((values.insertionSort fun x y => x ≥ y).take n) groups ∧
      ∀ g ∈ groups, ∀ h ∈ groups, g.sum - h.sum ≤ values.foldr max 0 := by
  obtain ⟨groups, hgroups, hfair⟩ := foldlM_greedy hk Fair.dist Fair.greedy (fair_nil k)
    (by simp) (List.Pairwise.take (i := n) (sorted_values values))
  rw [List.append_nil] at hfair
  have htaken := hfair.perm (List.reverse_perm _)
  refine ⟨groups, hgroups, fun hn => ?_, htaken, fun g hg h hh => ?_⟩
  · rw [← groupsAfter_of_le hn]
    exact hgroups
  apply htaken.spread _ hg hh
  intro v hv
  have hmem := (List.perm_insertionSort _ values).mem_iff.mp (List.mem_of_mem_take hv)
  exact List.le_max_of_le' 0 hmem (Nat.le_refl v)

theorem makeTeam_fair_sample :
    ∃ groups, groupsAfter 2 [3, 9, 4] 2 = some groups ∧
      ([3, 9, 4].length ≤ 2 → loadBalanceGroups 2 [3, 9, 4] = some groups) ∧
      Fair 2 (([3, 9, 4].insertionSort fun x y => x ≥ y).take 2) groups ∧
      ∀ g ∈ groups, ∀ h ∈ groups, g.sum - h.sum ≤ [3, 9, 4].foldr max 0 :=
  makeTeam_fair [3, 9, 4] (by decide) 2

end KernelGadgets.Team
