import KernelGadgets.IndexList.Fifo

/-!
# The pools that `list_info_init` can set up

The loop of `list_info_init` counts with an `int`, and its last link is written at the counter less
one. A pool without items has no such item, and a pool of more than `INT_MAX` items takes the
counter past the end of its type. For all others the storage is left as a pool whose allocations
return the indices in their order (`initServes_iff`).
-/

namespace KernelGadgets.IndexList

open ListInfo

/-- `list_info_init` ends inside the storage, and the allocations on what it leaves return
`0, 1, …, n - 1` and `INVALID_LIST_HEAD` from then on. -/
def InitServes (li : ListInfo) : Prop :=
  (listInfoInit li).Ends fun info => ∀ k,
    (poolMachine.run ⟨info, []⟩ (List.replicate (li.itemTotal + k) .alloc)).Ends fun r =>
      r.1 = (List.range li.itemTotal).map .item ++ List.replicate k (.item invalidListHead)

section

variable {li : ListInfo} (w : li.WF)

include w

/-! ## The limits -/

/-- Without items the last link is written behind the storage. -/
theorem listInfoInit_empty (h0 : li.itemTotal = 0) : listInfoInit li = .fault := by
  have hlen : li.itemBase.length = 0 := by
    rw [w.size, h0, Nat.zero_mul]
  unfold listInfoInit
  rw [h0]
  show itemSetNext2 _ _ _ _ = .fault
  unfold itemSetNext2 Block.store32
  rw [if_neg (by simp only [hlen]; omega)]
  rfl

/-! ## The allocations -/

omit w in
theorem specRun_allocs (n k : ℕ) :
    (Machine.specRun queueStep (List.range n) (List.replicate (n + k) .alloc)).1 =
      (List.range n).map .item ++ List.replicate k (.item invalidListHead) := by
  have hfirst := specRun_alloc (List.range n) []
  rw [List.append_nil, List.length_range] at hfirst
  rw [List.replicate_add, Machine.specRun_append, hfirst, specRun_alloc_nil]

/-- **The pools that can be set up** are those of at least one and at most `INT_MAX` items. -/
theorem initServes_iff : InitServes li ↔ 1 ≤ li.itemTotal ∧ li.itemTotal ≤ intMax := by
  constructor
  · rintro ⟨info, h, -⟩
    refine ⟨Nat.one_le_iff_ne_zero.mpr fun h0 => ?_, Nat.le_of_not_lt fun hn => ?_⟩
    · rw [listInfoInit_empty w h0] at h
      cases h
    · rw [listInfoInit_large w hn] at h
      cases h
  · rintro ⟨h1, hn⟩
    refine .of_eq (listInfoInit_ok w h1 hn) fun k => ?_
    have T := Tracks.initial w h1 hn
    refine (T.run (T.legal_alloc (li.itemTotal + k))).mono ?_
    rintro ⟨os, c⟩ ⟨ho, -⟩
    exact ho.trans (specRun_allocs li.itemTotal k)

end

/-- The two items of `sampleInfo`, then `INVALID_LIST_HEAD`. -/
theorem initServes_sample : InitServes sampleInfo :=
  (initServes_iff sampleInfo_wf).mpr ⟨by decide, by decide⟩

/-- A pool without items, and without storage. -/
def emptyInfo : ListInfo where
  itemBase := []
  itemTotal := 0
  itemSize := 8
  nextOffset := 4
  freeHead := 3
  freeTail := 3

theorem not_initServes_empty :
    emptyInfo.WF ∧ emptyInfo.itemTotal ≤ 0xffffffff ∧ ¬InitServes emptyInfo := by
  refine ⟨⟨rfl, by decide, by decide⟩, by decide, ?_⟩
  rintro ⟨info, h, -⟩
  cases h

end KernelGadgets.IndexList
