import KernelGadgets.IndexList.FreeList

/-!
# The index table of `list.c`

A table of list heads, one bucket each; the items of a bucket are linked through a field of the
items, the pool's own (`index_list_prelink`, `index_list_unlink`) or another one (the variants
with a `2`). `index_list_prelink2` searches a bucket and returns the address of the link field a
new item is to be stored in, which `index_list_do_link` then writes; `index_list_unlink2` takes
the first matching item out.

The loops that follow a bucket change nothing while they search, and their only variable is a
`_u32`. A search that has made `2 ^ 32` steps has therefore been at one item twice and never ends:
`walkFuel` iterations decide it.
-/

namespace KernelGadgets.IndexList

open ListInfo

/-- The pool and the table, the latter as the `idx` of each of its `struct index_item`. -/
structure Lists where
  info : ListInfo
  itb : List ℕ
  deriving DecidableEq, Repr

/-- A `_u32 *` that `index_list_prelink2` returns. -/
inductive Slot where
  /-- `&itb[itb_idx].idx` -/
  | idx (itbIdx : ℕ)
  /-- A link field of an item, by its address from `item_base`. -/
  | next (addr : ℕ)
  deriving DecidableEq, Repr

/-- `func_is_same_item`, pure; it may read the pool. -/
abbrev IsSameItem (δ : Type) := ListInfo → ℕ → δ → Bool

/-- The iterations granted to a search of a bucket. -/
def walkFuel : ℕ := 2 ^ 32

/-! ## The source's functions -/

/-- The loop of `index_table_init` from counter `i` with `k` iterations to go; `i` is an `int`. -/
def indexTableInitLoop (itb : List ℕ) (i : ℕ) : ℕ → Outcome (List ℕ)
  | 0 => .ok itb
  | k + 1 =>
    if itb.length ≤ i ∨ i = intMax then .fault
    else indexTableInitLoop (itb.set i invalidListHead) (i + 1) k

def indexTableInit (itb : List ℕ) (total : ℕ) : Outcome (List ℕ) :=
  indexTableInitLoop itb 0 total

def indexListDoLink (s : Lists) (destAddr : Slot) (new : ℕ) : Outcome Lists :=
  match destAddr with
  | .idx b => if b < s.itb.length then .ok { s with itb := s.itb.set b new } else .fault
  | .next addr => do
    let base ← Block.store32 s.info.itemBase addr new
    return { s with info := { s.info with itemBase := base } }

section Search

variable {δ : Type} (isSame : IsSameItem δ) (li : ListInfo) (data : δ) (nextOffset : ℕ)

/-- The `while` loop of `index_list_prelink2`; `none` is `NULL`. -/
def prelinkLoop : ℕ → ℕ → Outcome (Option Slot)
  | 0, _ => .diverge
  | fuel + 1, head => do
    let next ← itemGetNext2 li head nextOffset
    if next ≠ invalidListHead then
      if isSame li next data then
        return none
      else
        prelinkLoop fuel next
    else
      return some (.next (itemGetNextAddr2 li head nextOffset))

/-- The `while` loop of `index_list_unlink2`. -/
def unlinkLoop : ℕ → ℕ → Outcome (ℕ × ListInfo)
  | 0, _ => .diverge
  | fuel + 1, head => do
    let current ← itemGetNext2 li head nextOffset
    if current ≠ invalidListHead then
      if isSame li current data then
        let next ← itemGetNext2 li current nextOffset
        let li ← itemSetNext2 li head next nextOffset
        let li ← itemSetNext2 li current invalidListHead nextOffset
        return (current, li)
      else
        unlinkLoop fuel current
    else
      return (invalidListHead, li)

end Search

section Table

variable {δ : Type} (isSame : IsSameItem δ)

def indexListPrelink2 (s : Lists) (itbIdx : ℕ) (data : δ) (nextOffset : ℤ) :
    Outcome (Option Slot) :=
  match s.itb[itbIdx]? with
  | none => .fault
  | some head =>
    if head ≠ invalidListHead then
      if isSame s.info head data then
        .ok none
      else
        prelinkLoop isSame s.info data (u32OfInt nextOffset) walkFuel head
    else
      .ok (some (.idx itbIdx))

def indexListPrelink (s : Lists) (itbIdx : ℕ) (data : δ) : Outcome (Option Slot) :=
  indexListPrelink2 isSame s itbIdx data (cInt s.info.nextOffset)

def indexListUnlink2 (s : Lists) (itbIdx : ℕ) (data : δ) (nextOffset : ℕ) : Outcome (ℕ × Lists) :=
  match s.itb[itbIdx]? with
  | none => .fault
  | some head =>
    if head ≠ invalidListHead then
      if isSame s.info head data then do
        let next ← itemGetNext2 s.info head nextOffset
        let li ← itemSetNext2 s.info head invalidListHead nextOffset
        return (head, ⟨li, s.itb.set itbIdx next⟩)
      else do
        let (r, li) ← unlinkLoop isSame s.info data nextOffset walkFuel head
        return (r, { s with info := li })
    else
      .ok (invalidListHead, s)

def indexListUnlink (s : Lists) (itbIdx : ℕ) (data : δ) : Outcome (ℕ × Lists) :=
  indexListUnlink2 isSame s itbIdx data s.info.poolField

end Table

/-! ## Setting the table up -/

theorem getD_set (l : List ℕ) (b b' x d : ℕ) (hb : b < l.length) :
    (l.set b x).getD b' d = if b' = b then x else l.getD b' d := by
  rw [List.getD_eq_getElem?_getD, List.getD_eq_getElem?_getD, List.getElem?_set]
  by_cases h : b' = b
  · subst h; simp [hb]
  · simp [h, Ne.symm h]

theorem indexTableInitLoop_ok {itb : List ℕ} {i k : ℕ} (hk : i + k ≤ itb.length)
    (hn : i + k ≤ intMax) : (indexTableInitLoop itb i k).Ends fun t => t.length = itb.length ∧
      ∀ b, t.getD b invalidListHead =
        if i ≤ b ∧ b < i + k then invalidListHead else itb.getD b invalidListHead := by
  induction k generalizing itb i with
  | zero =>
    refine .of_eq rfl ⟨rfl, fun b => ?_⟩
    rw [if_neg (by omega)]
  | succ k ih =>
    obtain ⟨t, ht, hlen, hb⟩ := @ih (itb.set i invalidListHead) (i + 1)
      (by simp only [List.length_set]; omega) (by omega)
    rw [indexTableInitLoop, if_neg (by omega), ht]
    refine .of_eq rfl ⟨by simpa using hlen, fun b => ?_⟩
    rw [hb, getD_set _ _ _ _ _ (by omega)]
    by_cases hbi : b = i
    · subst hbi
      rw [if_neg (by omega), if_pos rfl, if_pos (by omega)]
    · by_cases hr : i + 1 ≤ b ∧ b < i + 1 + k
      · rw [if_pos hr, if_pos (by omega)]
      · rw [if_neg hr, if_neg hbi, if_neg (by omega)]

/-- A set-up that ends did not overflow its counter. -/
theorem indexTableInitLoop_le {itb t : List ℕ} {i k : ℕ} (hi : i ≤ intMax)
    (h : indexTableInitLoop itb i k = .ok t) : i + k ≤ intMax ∧ i + k ≤ max itb.length i := by
  induction k generalizing itb i with
  | zero => omega
  | succ k ih =>
    rw [indexTableInitLoop] at h
    split_ifs at h with hc
    have := ih (by omega) h
    rw [List.length_set] at this
    omega

/-- **The initial table**: every bucket is empty. -/
theorem indexTableInit_ok {itb t : List ℕ} (h : indexTableInit itb itb.length = .ok t) :
    t.length = itb.length ∧ ∀ b, t.getD b invalidListHead = invalidListHead := by
  obtain ⟨hn, -⟩ := indexTableInitLoop_le (by decide) h
  have hk : 0 + itb.length ≤ itb.length := by omega
  obtain ⟨t', ht, hlen, hb⟩ := indexTableInitLoop_ok hk hn
  obtain rfl : t = t' := Outcome.ok.inj (h.symm.trans ht)
  refine ⟨hlen, fun b => ?_⟩
  rw [hb]
  by_cases hbl : b < itb.length
  · rw [if_pos (by omega)]
  · rw [if_neg (by omega), List.getD_eq_default _ _ (by omega)]

/-! ## Searching a chain -/

section Walk

variable {δ : Type} {isSame : IsSameItem δ} {li : ListInfo} {data : δ} {o : ℕ}

/-- The search from an item on, along the chain behind it. -/
theorem prelinkLoop_ok (w : li.WF) (ho : o + 4 ≤ li.itemSize) {rest : List ℕ} {head fuel : ℕ}
    (hh : head < li.itemTotal) (hc : Chain (li.link o) invalidListHead (li.link o head) rest)
    (hr : ∀ x ∈ rest, x < li.itemTotal) (hf : rest.length < fuel) :
    prelinkLoop isSame li data o fuel head =
      .ok (if rest.any (isSame li · data) then none
        else some (.next (itemGetNextAddr2 li (rest.getLastD head) o))) := by
  induction rest generalizing head fuel with
  | nil =>
    obtain ⟨fuel, rfl⟩ : ∃ k, fuel = k + 1 := ⟨fuel - 1, by simp at hf; omega⟩
    have hn : li.link o head = invalidListHead := Chain.nil_iff.mp hc
    simp [prelinkLoop, itemGetNext2_ok w ho hh, hn]
  | cons x rest ih =>
    obtain ⟨fuel, rfl⟩ : ∃ k, fuel = k + 1 := ⟨fuel - 1, by simp at hf; omega⟩
    obtain ⟨hx, hne, hc⟩ := Chain.cons_iff.mp hc
    have hfuel : rest.length < fuel := by simpa using hf
    have h := ih (hr x List.mem_cons_self) hc (fun y hy => hr y (List.mem_cons_of_mem _ hy)) hfuel
    rw [prelinkLoop, itemGetNext2_ok w ho hh, Outcome.ok_bind, hx, if_pos hne]
    cases hm : isSame li x data with
    | true => simp [hm]
    | false =>
      rw [if_neg (by simp), h, List.any_cons, hm, Bool.false_or, List.getLastD_cons]

/-- The search for an item to unlink, from an item on. -/
theorem unlinkLoop_ok (isSame : IsSameItem δ) (data : δ) (w : li.WF) (ho : o + 4 ≤ li.itemSize)
    {rest : List ℕ} {head fuel : ℕ}
    (hh : head < li.itemTotal) (hc : Chain (li.link o) invalidListHead (li.link o head) rest)
    (hr : ∀ x ∈ rest, x < li.itemTotal) (hf : rest.length < fuel) :
    (∀ x ∈ rest, isSame li x data = false) ∧
        unlinkLoop isSame li data o fuel head = .ok (invalidListHead, li) ∨
      ∃ ys c zs, rest = ys ++ c :: zs ∧ (∀ x ∈ ys, isSame li x data = false) ∧
        isSame li c data = true ∧ unlinkLoop isSame li data o fuel head =
          .ok (c, (li.setLink o (ys.getLastD head) (li.link o c)).setLink o c invalidListHead) := by
  induction rest generalizing head fuel with
  | nil =>
    obtain ⟨fuel, rfl⟩ : ∃ k, fuel = k + 1 := ⟨fuel - 1, by simp at hf; omega⟩
    have hn : li.link o head = invalidListHead := Chain.nil_iff.mp hc
    left
    simp [unlinkLoop, itemGetNext2_ok w ho hh, hn]
  | cons x rest ih =>
    obtain ⟨fuel, rfl⟩ : ∃ k, fuel = k + 1 := ⟨fuel - 1, by simp at hf; omega⟩
    obtain ⟨hx, hne, hc⟩ := Chain.cons_iff.mp hc
    have hfuel : rest.length < fuel := by simpa using hf
    have hxlt := hr x List.mem_cons_self
    have h := ih hxlt hc (fun y hy => hr y (List.mem_cons_of_mem _ hy)) hfuel
    rw [unlinkLoop, itemGetNext2_ok w ho hh, Outcome.ok_bind, hx, if_pos hne]
    cases hm : isSame li x data with
    | true =>
      refine .inr ⟨[], x, rest, rfl, by simp, hm, ?_⟩
      rw [if_pos rfl, itemGetNext2_ok w ho hxlt, Outcome.ok_bind, itemSetNext2_ok w ho hh,
        Outcome.ok_bind, itemSetNext2_ok w.setLink ho hxlt]
      rfl
    | false =>
      rw [if_neg (by simp)]
      rcases h with ⟨hn, h⟩ | ⟨ys, c, zs, rfl, hn, hc', h⟩
      · exact .inl ⟨by simpa [hm] using hn, h⟩
      · refine .inr ⟨x :: ys, c, zs, rfl, by simpa [hm] using hn, hc', ?_⟩
        rw [h, List.getLastD_cons]

end Walk

end KernelGadgets.IndexList
