import KernelGadgets.Lib.Chain
import KernelGadgets.IndexList.Pool

/-!
# The free list of the pool

`FreeList li free` says that the pool's free list, from `free_head` to `free_tail`, is `free`.

* `list_info_init` leaves every item on it, in the order of the indices (`freeList_initialised`).
* `list_alloc_item` takes the head off, or leaves the empty list alone (`listAllocItem_cons`,
  `listAllocItem_nil`).
* `list_free_item` appends (`listFreeItem_ok`).

Each operation comes with the pool it leaves (`initialised`, `allocated`, `freed`), the free list
of that pool, and the links it does not touch.
-/

namespace KernelGadgets.IndexList

open ListInfo

/-! ## The free list -/

/-- The free list of the pool, from `free_head` to `free_tail`. -/
structure FreeList (li : ListInfo) (free : List ℕ) : Prop where
  chain : Chain (li.link li.poolField) invalidListHead li.freeHead free
  lt : ∀ x ∈ free, x < li.itemTotal
  nodup : free.Nodup
  tail : ∀ {xs x}, free = xs ++ [x] → li.freeTail = x

/-- A change that keeps the ends and the links of the free items keeps the free list. -/
theorem FreeList.congr {li li' : ListInfo} {free : List ℕ} (F : FreeList li free)
    (ht : li'.itemTotal = li.itemTotal) (hh : li'.freeHead = li.freeHead)
    (he : li'.freeTail = li.freeTail)
    (hl : ∀ x ∈ free, li'.link li'.poolField x = li.link li.poolField x) : FreeList li' free where
  chain := by rw [hh]; exact F.chain.congr hl
  lt := by rw [ht]; exact F.lt
  nodup := F.nodup
  tail := by rw [he]; exact F.tail

theorem invalidListHead_lt : invalidListHead < 2 ^ 32 := by decide

/-! ## Setting the pool up -/

section Init

variable {li : ListInfo}

/-- The pool after the loop: the `k` items from `i` on are linked to the items behind them. -/
def linkedUp (li : ListInfo) (i : ℕ) : ℕ → ListInfo
  | 0 => li
  | k + 1 => linkedUp (li.setLink li.poolField i (i + 1)) (i + 1) k

theorem linkedUp_wf (w : li.WF) (i k : ℕ) : (linkedUp li i k).WF := by
  induction k generalizing li i with
  | zero => exact w
  | succ k ih => exact ih w.setLink (i + 1)

/-- The loop changes the bytes of the array only. -/
theorem linkedUp_eq (li : ListInfo) (i k : ℕ) :
    linkedUp li i k = { li with itemBase := (linkedUp li i k).itemBase } := by
  induction k generalizing li i with
  | zero => rfl
  | succ k ih => exact ih (li.setLink li.poolField i (i + 1)) (i + 1)

@[simp] theorem itemTotal_linkedUp (li : ListInfo) (i k : ℕ) :
    (linkedUp li i k).itemTotal = li.itemTotal := by
  rw [linkedUp_eq]

@[simp] theorem itemSize_linkedUp (li : ListInfo) (i k : ℕ) :
    (linkedUp li i k).itemSize = li.itemSize := by
  rw [linkedUp_eq]

@[simp] theorem nextOffset_linkedUp (li : ListInfo) (i k : ℕ) :
    (linkedUp li i k).nextOffset = li.nextOffset := by
  rw [linkedUp_eq]

@[simp] theorem freeHead_linkedUp (li : ListInfo) (i k : ℕ) :
    (linkedUp li i k).freeHead = li.freeHead := by
  rw [linkedUp_eq]

@[simp] theorem freeTail_linkedUp (li : ListInfo) (i k : ℕ) :
    (linkedUp li i k).freeTail = li.freeTail := by
  rw [linkedUp_eq]

@[simp] theorem poolField_linkedUp (li : ListInfo) (i k : ℕ) :
    (linkedUp li i k).poolField = li.poolField := by
  unfold ListInfo.poolField; rw [nextOffset_linkedUp]

theorem link_linkedUp (w : li.WF) {i k : ℕ} (hk : i + k ≤ li.itemTotal) (hn : li.itemTotal ≤ intMax)
    (x : ℕ) : (linkedUp li i k).link li.poolField x =
      if i ≤ x ∧ x < i + k then x + 1 else li.link li.poolField x := by
  unfold intMax at hn
  induction k generalizing li i with
  | zero => rw [if_neg (by omega)]; rfl
  | succ k ih =>
    have hs := link_setLink w w.poolField_le (i := i) (v := i + 1) (by omega) (by omega)
    have h := @ih (li.setLink li.poolField i (i + 1)) w.setLink (i + 1)
      (by simp only [itemTotal_setLink]; omega) hn
    rw [poolField_setLink, hs] at h
    rw [linkedUp, h]
    by_cases hx : x = i
    · subst hx
      rw [if_neg (by omega), if_pos (by omega), Function.update_self]
    · rw [Function.update_of_ne hx]
      by_cases hr : i + 1 ≤ x ∧ x < i + 1 + k
      · rw [if_pos hr, if_pos (by omega)]
      · rw [if_neg hr, if_neg (by omega)]

theorem listInfoInitLoop_ok (w : li.WF) {i k : ℕ} (hk : i + k ≤ li.itemTotal)
    (hn : i + k ≤ intMax) : listInfoInitLoop li i k = .ok (linkedUp li i k, i + k) := by
  induction k generalizing li i with
  | zero => rfl
  | succ k ih =>
    rw [listInfoInitLoop, if_neg (by omega), itemSetNext_ok w (by omega), Outcome.ok_bind,
      ih w.setLink (by simp only [itemTotal_setLink]; omega) (by omega), linkedUp]
    congr 2
    omega

/-- A loop whose counter has to pass the largest `int` is undefined. -/
theorem listInfoInitLoop_fault (w : li.WF) {i k : ℕ} (hi : i ≤ intMax) (hk : intMax < i + k)
    (hn : i + k ≤ li.itemTotal) : listInfoInitLoop li i k = .fault := by
  induction k generalizing li i with
  | zero => omega
  | succ k ih =>
    rw [listInfoInitLoop]
    by_cases h : i = intMax
    · rw [if_pos h]
    · rw [if_neg h, itemSetNext_ok w (by omega), Outcome.ok_bind]
      refine ih w.setLink (by omega) (by omega) ?_
      rw [itemTotal_setLink]
      omega

theorem listInfoInit_large (w : li.WF) (hn : intMax < li.itemTotal) : listInfoInit li = .fault := by
  have hloop := listInfoInitLoop_fault (w.withFree (h := 0) (t := u32 (li.itemTotal + 2 ^ 64 - 1)))
    (i := 0) (k := li.itemTotal) (Nat.zero_le _) (by omega) (by rw [itemTotal_withFree]; omega)
  unfold withFree at hloop
  unfold listInfoInit
  simp only [hloop]
  rfl

/-- The pool `list_info_init` leaves. -/
def initialised (li : ListInfo) : ListInfo :=
  (linkedUp (li.withFree 0 (li.itemTotal - 1)) 0 li.itemTotal).setLink li.poolField
    (li.itemTotal - 1) invalidListHead

variable (w : li.WF) (h1 : 1 ≤ li.itemTotal) (hn : li.itemTotal ≤ intMax)

include w h1 hn

theorem listInfoInit_ok : listInfoInit li = .ok (initialised li) := by
  have ht : u32 (li.itemTotal + 2 ^ 64 - 1) = li.itemTotal - 1 := by
    unfold u32 intMax at *; omega
  have hi : u32 (li.itemTotal + 2 ^ 32 - 1) = li.itemTotal - 1 := by
    unfold u32 intMax at *; omega
  have w' := w.withFree (h := 0) (t := li.itemTotal - 1)
  have hl := listInfoInitLoop_ok w' (i := 0) (k := li.itemTotal)
    (by rw [itemTotal_withFree]; omega) (by omega)
  have hset := itemSetNext_ok (linkedUp_wf w' 0 li.itemTotal) (i := li.itemTotal - 1)
    (by simp; omega) invalidListHead
  rw [poolField_linkedUp, poolField_withFree] at hset
  have e : listInfoInit li =
      listInfoInitLoop (li.withFree 0 (u32 (li.itemTotal + 2 ^ 64 - 1))) 0 li.itemTotal >>=
        fun r => itemSetNext r.1 (u32 (r.2 + 2 ^ 32 - 1)) invalidListHead := by
    unfold listInfoInit withFree
    rfl
  rw [e, ht, hl, Outcome.ok_bind, Nat.zero_add, hi, hset, initialised]

omit h1 hn in
theorem initialised_wf : (initialised li).WF := (linkedUp_wf w.withFree _ _).setLink

omit w h1 hn in
@[simp] theorem itemTotal_initialised : (initialised li).itemTotal = li.itemTotal := by
  simp [initialised]

omit w h1 hn in
@[simp] theorem itemSize_initialised : (initialised li).itemSize = li.itemSize := by
  simp [initialised]

omit w h1 hn in
@[simp] theorem poolField_initialised : (initialised li).poolField = li.poolField := by
  simp [initialised]

theorem link_initialised {x : ℕ} (hx : x < li.itemTotal) :
    (initialised li).link li.poolField x =
      if x + 1 = li.itemTotal then invalidListHead else x + 1 := by
  have w' := w.withFree (h := 0) (t := li.itemTotal - 1)
  have hs := link_setLink (linkedUp_wf w' 0 li.itemTotal) (o := li.poolField)
    (i := li.itemTotal - 1) (by simpa using w.poolField_le) (by simp; omega) invalidListHead_lt
  have hl := link_linkedUp w' (i := 0) (k := li.itemTotal) (by rw [itemTotal_withFree]; omega)
    hn x
  unfold initialised
  rw [hs]
  by_cases hx' : x = li.itemTotal - 1
  · rw [hx', Function.update_self, if_pos (by omega)]
  · rw [Function.update_of_ne hx', if_neg (by omega)]
    rw [poolField_withFree] at hl
    rw [hl, if_pos (by omega)]

/-- **The initial free list** holds every item, in the order of the indices. -/
theorem freeList_initialised : FreeList (initialised li) (List.range li.itemTotal) where
  chain := by
    obtain ⟨m, hm⟩ : ∃ m, li.itemTotal = m + 1 := ⟨li.itemTotal - 1, by omega⟩
    have hh : (initialised li).freeHead = 0 := by simp [initialised]
    have hI : intMax < invalidListHead := by decide
    have hup : ∀ x < m, (initialised li).link li.poolField x = x + 1 := by
      intro x hx
      rw [link_initialised w h1 hn (by omega), if_neg (by omega)]
    rw [poolField_initialised, hh, hm, List.range_succ]
    refine ⟨Links.snoc_iff.mpr ⟨Links.range hup, ?_⟩, ?_⟩
    · rw [link_initialised w h1 hn (by omega), if_pos hm.symm]
    · rw [← List.range_succ, List.mem_range]
      omega
  lt x hx := by simpa using hx
  nodup := List.nodup_range
  tail := by
    obtain ⟨m, hm⟩ : ∃ m, li.itemTotal = m + 1 := ⟨li.itemTotal - 1, by omega⟩
    have ht : (initialised li).freeTail = li.itemTotal - 1 := by simp [initialised]
    intro xs x h
    rw [hm, List.range_succ] at h
    obtain ⟨-, h⟩ := List.append_inj' h rfl
    rw [ht, hm]
    simpa using h

end Init

section Alloc

variable {li : ListInfo} {x : ℕ} {xs : List ℕ}

theorem listAllocItem_nil (F : FreeList li []) : listAllocItem li = .ok (invalidListHead, li) := by
  have h : li.freeHead = invalidListHead := Chain.nil_iff.mp F.chain
  unfold listAllocItem
  rw [if_pos h]
  rfl

/-- The pool after the item `x` at the head of the free list `x :: xs` is allocated. -/
def allocated (li : ListInfo) (x : ℕ) (xs : List ℕ) : ListInfo :=
  (li.setLink li.poolField x invalidListHead).withFree (li.link li.poolField x)
    (if xs = [] then invalidListHead else li.freeTail)

@[simp] theorem itemTotal_allocated : (allocated li x xs).itemTotal = li.itemTotal := rfl
@[simp] theorem itemSize_allocated : (allocated li x xs).itemSize = li.itemSize := rfl
@[simp] theorem poolField_allocated : (allocated li x xs).poolField = li.poolField := rfl

theorem allocated_wf (w : li.WF) : (allocated li x xs).WF := w.setLink.withFree

/-- An allocation from any pool whose free list starts with an item. -/
theorem listAllocItem_ok (w : li.WF) (hne : li.freeHead ≠ invalidListHead)
    (hlt : li.freeHead < li.itemTotal) : listAllocItem li = .ok (li.freeHead,
      (li.setLink li.poolField li.freeHead invalidListHead).withFree
        (li.link li.poolField li.freeHead)
        (if li.link li.poolField li.freeHead = invalidListHead then invalidListHead
          else li.freeTail)) := by
  have hget := itemGetNext_ok w hlt
  unfold listAllocItem
  rw [if_neg hne]
  simp only [hget, Outcome.ok_bind]
  by_cases hn : li.link li.poolField li.freeHead = invalidListHead
  · have hset := itemSetNext_ok (w.withFree (h := invalidListHead) (t := invalidListHead)) hlt
      invalidListHead
    unfold withFree at hset
    simp only [hn, if_true, hset, Outcome.ok_bind, Outcome.pure_eq]
    rfl
  · have hset := itemSetNext_ok (w.withFree (h := li.link li.poolField li.freeHead)
      (t := li.freeTail)) hlt invalidListHead
    unfold withFree at hset
    simp only [hn, if_false, hset, Outcome.ok_bind, Outcome.pure_eq]
    rfl

theorem listAllocItem_cons (w : li.WF) (F : FreeList li (x :: xs)) :
    listAllocItem li = .ok (x, allocated li x xs) := by
  obtain ⟨hx, hne, hc⟩ := Chain.cons_iff.mp F.chain
  have hlt : x < li.itemTotal := F.lt x List.mem_cons_self
  have h := listAllocItem_ok w (by rwa [hx]) (by rwa [hx])
  rw [hx] at h
  rw [h, allocated]
  simp only [hc.head_eq_nil_iff]

theorem link_allocated (w : li.WF) (hx : x < li.itemTotal) (xs : List ℕ) :
    (allocated li x xs).link li.poolField =
      Function.update (li.link li.poolField) x invalidListHead :=
  link_setLink w w.poolField_le hx invalidListHead_lt

theorem FreeList.allocated (w : li.WF) (F : FreeList li (x :: xs)) :
    FreeList (allocated li x xs) xs where
  chain := by
    have h := link_allocated w (F.lt x List.mem_cons_self) xs
    show Chain ((IndexList.allocated li x xs).link li.poolField) _ (li.link li.poolField x) xs
    rw [h]
    obtain ⟨hx, -, -⟩ := Chain.cons_iff.mp F.chain
    exact F.chain.tail (List.nodup_cons.mp F.nodup).1
  lt y hy := F.lt y (List.mem_cons_of_mem _ hy)
  nodup := (List.nodup_cons.mp F.nodup).2
  tail := by
    intro ys y h
    subst h
    show (if ys ++ [y] = [] then invalidListHead else li.freeTail) = y
    rw [if_neg (by simp)]
    exact F.tail (List.cons_append ..).symm

end Alloc

section Free

variable {li : ListInfo} {free : List ℕ} {idx : ℕ}

/-- The pool after the item `idx` is appended to the free list `free`. -/
def freed (li : ListInfo) (free : List ℕ) (idx : ℕ) : ListInfo :=
  if free = [] then (li.setLink li.poolField idx invalidListHead).withFree idx idx
  else ((li.setLink li.poolField li.freeTail idx).setLink li.poolField idx invalidListHead).withFree
    li.freeHead idx

theorem freed_wf (w : li.WF) : (freed li free idx).WF := by
  unfold freed
  split_ifs
  · exact w.setLink.withFree
  · exact w.setLink.setLink.withFree

@[simp] theorem itemTotal_freed : (freed li free idx).itemTotal = li.itemTotal := by
  unfold freed; split_ifs <;> rfl

@[simp] theorem itemSize_freed : (freed li free idx).itemSize = li.itemSize := by
  unfold freed; split_ifs <;> rfl

@[simp] theorem poolField_freed : (freed li free idx).poolField = li.poolField := by
  unfold freed; split_ifs <;> rfl

theorem FreeList.tail_mem (F : FreeList li free) (hf : free ≠ []) : li.freeTail ∈ free := by
  rw [F.tail (List.dropLast_append_getLast hf).symm]
  exact List.getLast_mem hf

theorem FreeList.tail_lt (F : FreeList li free) (hf : free ≠ []) : li.freeTail < li.itemTotal :=
  F.lt _ (F.tail_mem hf)

/-- A free into a pool whose free list is empty. -/
theorem listFreeItem_of_eq (w : li.WF) (he : li.freeHead = invalidListHead)
    (hi : idx < li.itemTotal) : listFreeItem li idx =
      .ok ((li.setLink li.poolField idx invalidListHead).withFree idx idx) := by
  unfold listFreeItem
  rw [if_neg (not_not_intro he)]
  exact itemSetNext_ok (w.withFree (h := idx) (t := idx)) hi _

/-- A free into any pool whose free list ends with an item. -/
theorem listFreeItem_of_ne (w : li.WF) (hne : li.freeHead ≠ invalidListHead)
    (ht : li.freeTail < li.itemTotal) (hi : idx < li.itemTotal) : listFreeItem li idx =
      .ok (((li.setLink li.poolField li.freeTail idx).setLink li.poolField idx
        invalidListHead).withFree li.freeHead idx) := by
  unfold listFreeItem
  rw [if_pos hne, itemSetNext_ok w ht]
  exact itemSetNext_ok (w.setLink.withFree (h := li.freeHead) (t := idx)) hi _

theorem listFreeItem_ok (w : li.WF) (F : FreeList li free) (hi : idx < li.itemTotal) :
    listFreeItem li idx = .ok (freed li free idx) := by
  have hh := F.chain.head_eq_nil_iff
  unfold freed
  by_cases hf : free = []
  · rw [if_pos hf, listFreeItem_of_eq w (hh.mpr hf) hi]
  · rw [if_neg hf, listFreeItem_of_ne w (fun e => hf (hh.mp e)) (F.tail_lt hf) hi]

theorem link_freed (w : li.WF) (F : FreeList li free) (hi : idx < li.itemTotal)
    (hn : li.itemTotal ≤ invalidListHead) :
    (freed li free idx).link li.poolField =
      if free = [] then Function.update (li.link li.poolField) idx invalidListHead
      else Function.update (Function.update (li.link li.poolField) li.freeTail idx) idx
        invalidListHead := by
  have hI := invalidListHead_lt
  unfold freed
  by_cases hf : free = []
  · rw [if_pos hf, if_pos hf, link_withFree, link_setLink w w.poolField_le hi hI]
  · rw [if_neg hf, if_neg hf, link_withFree, link_setLink w.setLink w.poolField_le hi hI,
      link_setLink w w.poolField_le (F.tail_lt hf) (by omega)]

/-- The freed item is linked in behind the last one. -/
theorem chain_freed (w : li.WF) (F : FreeList li free) (hi : idx < li.itemTotal)
    (hn : li.itemTotal ≤ invalidListHead) (hidx : idx ∉ free) :
    Chain ((freed li free idx).link (freed li free idx).poolField) invalidListHead
      (freed li free idx).freeHead (free ++ [idx]) := by
  have hl := link_freed w F hi hn
  by_cases hf : free = []
  · subst hf
    rw [if_pos rfl] at hl
    have e : freed li [] idx =
        (li.setLink li.poolField idx invalidListHead).withFree idx idx := if_pos rfl
    rw [poolField_freed, hl, show (freed li [] idx).freeHead = idx by rw [e]; rfl]
    exact Chain.single (by omega) (Function.update_self ..)
  · rw [if_neg hf] at hl
    have e : freed li free idx = ((li.setLink li.poolField li.freeTail idx).setLink
      li.poolField idx invalidListHead).withFree li.freeHead idx := if_neg hf
    rw [poolField_freed, hl, show (freed li free idx).freeHead = li.freeHead by rw [e]; rfl]
    obtain ⟨ys, y, rfl⟩ : ∃ ys y, free = ys ++ [y] :=
      ⟨_, _, (List.dropLast_append_getLast hf).symm⟩
    rw [F.tail rfl]
    have hy : y ∉ ys := by
      have := F.nodup
      rw [List.nodup_append] at this
      intro h
      exact this.2.2 y h y (by simp) rfl
    have hyi : y ≠ idx := fun h => hidx (by simp [h])
    -- reset `idx` first, then link it in behind `y`
    rw [Function.update_comm hyi]
    exact (F.chain.update hidx invalidListHead).snoc hy (by omega) hyi (Function.update_self ..)

theorem FreeList.freed (w : li.WF) (F : FreeList li free) (hi : idx < li.itemTotal)
    (hn : li.itemTotal ≤ invalidListHead) (hidx : idx ∉ free) :
    FreeList (freed li free idx) (free ++ [idx]) where
  chain := chain_freed w F hi hn hidx
  lt := by
    rw [itemTotal_freed]
    intro x hx
    rcases List.mem_append.mp hx with hx | hx
    · exact F.lt x hx
    · rw [List.mem_singleton.mp hx]; exact hi
  nodup := by
    rw [List.nodup_append]
    refine ⟨F.nodup, by simp, ?_⟩
    rintro x hx y hy rfl
    exact hidx (List.mem_singleton.mp hy ▸ hx)
  tail := by
    intro ys y h
    obtain ⟨-, h⟩ := List.append_inj' h rfl
    obtain rfl : idx = y := by simpa using h
    unfold IndexList.freed
    split_ifs <;> rfl

end Free

end KernelGadgets.IndexList
