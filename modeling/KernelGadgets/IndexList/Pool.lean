import Mathlib.Logic.Function.Basic
import KernelGadgets.Lib.Block
import KernelGadgets.Lib.CInt

/-!
# The item pool of `list.c`

`struct list_info` describes an array of items in memory; every item holds, at some offset, the
index of the item behind it. The functions are those of the source, on the bytes of the array:
`itemSetNext2`, `itemGetNext2` and their variants for the pool's own field, `listInfoInit`,
`listFreeItem` and `listAllocItem`.

`ListInfo.WF` is the layout: the array has its size and the link field lies in the item. Under it
the byte accesses come to reads and writes of `ListInfo.link`, one successor function for each
offset (`link_setLink`, `link_setLink_of_ne`, `link_setLink_of_apart`).
-/

namespace KernelGadgets.IndexList

/-- `INVALID_LIST_HEAD`. -/
def invalidListHead : ℕ := 0xffffffff

/-- `struct list_info`, the array at `item_base` as its bytes. -/
structure ListInfo where
  itemBase : Block
  itemTotal : ℕ
  itemSize : ℕ
  nextOffset : ℕ
  freeHead : ℕ
  freeTail : ℕ
  deriving DecidableEq, Repr

/-! ## The source's functions -/

/-- The address, counted from `item_base`, of the field at `nextOffset` of the item `idx`. -/
def itemGetNextAddr2 (li : ListInfo) (idx nextOffset : ℕ) : ℕ :=
  idx * li.itemSize % 2 ^ 64 + nextOffset

def itemSetNext2 (li : ListInfo) (idx next nextOffset : ℕ) : Outcome ListInfo := do
  let base ← Block.store32 li.itemBase (itemGetNextAddr2 li idx nextOffset) next
  return { li with itemBase := base }

def itemGetNext2 (li : ListInfo) (idx nextOffset : ℕ) : Outcome ℕ :=
  Block.load32 li.itemBase (itemGetNextAddr2 li idx nextOffset)

/-- The offset the pool uses: `next_offset` is a `size_t`, the accessors take a `_u32`. -/
def ListInfo.poolField (li : ListInfo) : ℕ := u32 li.nextOffset

def itemSetNext (li : ListInfo) (idx next : ℕ) : Outcome ListInfo :=
  itemSetNext2 li idx next li.poolField

def itemGetNext (li : ListInfo) (idx : ℕ) : Outcome ℕ :=
  itemGetNext2 li idx li.poolField

/-- The `for` loop of `list_info_init` from counter `i` with `k` iterations to go. The counter is
an `int`: `i + 1` is undefined when `i` is the largest one. -/
def listInfoInitLoop (li : ListInfo) (i : ℕ) : ℕ → Outcome (ListInfo × ℕ)
  | 0 => .ok (li, i)
  | k + 1 =>
    if i = intMax then .fault
    else do
      let li ← itemSetNext li i (i + 1)
      listInfoInitLoop li (i + 1) k

def listInfoInit (li : ListInfo) : Outcome ListInfo := do
  let li := { li with freeHead := 0, freeTail := u32 (li.itemTotal + 2 ^ 64 - 1) }
  let (li, i) ← listInfoInitLoop li 0 li.itemTotal
  itemSetNext li (u32 (i + 2 ^ 32 - 1)) invalidListHead

def listFreeItem (li : ListInfo) (idx : ℕ) : Outcome ListInfo := do
  let li ← if li.freeHead ≠ invalidListHead then do
      let li ← itemSetNext li li.freeTail idx
      pure { li with freeTail := idx }
    else
      pure { li with freeHead := idx, freeTail := idx }
  itemSetNext li idx invalidListHead

def listAllocItem (li : ListInfo) : Outcome (ℕ × ListInfo) := do
  if li.freeHead = invalidListHead then
    return (invalidListHead, li)
  let new := li.freeHead
  let next ← itemGetNext li new
  let li := { li with freeHead := next }
  let li := if li.freeHead = invalidListHead then { li with freeTail := invalidListHead } else li
  let li ← itemSetNext li new invalidListHead
  return (new, li)

/-! ## Layout and links -/

/-- The array has the size its fields say, and the link field lies in the item. -/
structure ListInfo.WF (li : ListInfo) : Prop where
  size : li.itemBase.length = li.itemTotal * li.itemSize
  field : li.nextOffset + 4 ≤ li.itemSize
  room : li.itemTotal * li.itemSize < 2 ^ 64

/-- Two 4-byte fields that do not overlap. -/
def Apart (o o' : ℕ) : Prop := o + 4 ≤ o' ∨ o' + 4 ≤ o

namespace ListInfo

/-- The link at offset `o`, as a successor function on the indices. -/
def link (li : ListInfo) (o idx : ℕ) : ℕ := Block.word li.itemBase (idx * li.itemSize + o)

/-- The pool with one link changed. -/
def setLink (li : ListInfo) (o idx v : ℕ) : ListInfo :=
  { li with itemBase := Block.setWord li.itemBase (idx * li.itemSize + o) v }

/-- The pool with the ends of its free list changed. -/
def withFree (li : ListInfo) (h t : ℕ) : ListInfo := { li with freeHead := h, freeTail := t }

variable {li : ListInfo} {o o' i v : ℕ}

@[simp] theorem itemTotal_setLink : (li.setLink o i v).itemTotal = li.itemTotal := rfl
@[simp] theorem itemSize_setLink : (li.setLink o i v).itemSize = li.itemSize := rfl
@[simp] theorem nextOffset_setLink : (li.setLink o i v).nextOffset = li.nextOffset := rfl
@[simp] theorem poolField_setLink : (li.setLink o i v).poolField = li.poolField := rfl
@[simp] theorem freeHead_setLink : (li.setLink o i v).freeHead = li.freeHead := rfl
@[simp] theorem freeTail_setLink : (li.setLink o i v).freeTail = li.freeTail := rfl

variable {h t : ℕ}

@[simp] theorem link_withFree : (li.withFree h t).link = li.link := rfl
@[simp] theorem setLink_withFree : (li.withFree h t).setLink o i v = (li.setLink o i v).withFree h t :=
  rfl
@[simp] theorem itemTotal_withFree : (li.withFree h t).itemTotal = li.itemTotal := rfl
@[simp] theorem itemSize_withFree : (li.withFree h t).itemSize = li.itemSize := rfl
@[simp] theorem nextOffset_withFree : (li.withFree h t).nextOffset = li.nextOffset := rfl
@[simp] theorem poolField_withFree : (li.withFree h t).poolField = li.poolField := rfl
@[simp] theorem freeHead_withFree : (li.withFree h t).freeHead = h := rfl
@[simp] theorem freeTail_withFree : (li.withFree h t).freeTail = t := rfl

theorem WF.setLink (w : li.WF) : (li.setLink o i v).WF where
  size := by simpa [ListInfo.setLink] using w.size
  field := w.field
  room := w.room

theorem WF.withFree (w : li.WF) : (li.withFree h t).WF := ⟨w.size, w.field, w.room⟩

theorem WF.poolField_le (w : li.WF) : li.poolField + 4 ≤ li.itemSize := by
  have h1 := w.field
  have h2 : li.poolField ≤ li.nextOffset := Nat.mod_le _ _
  omega

theorem link_lt (li : ListInfo) (o idx : ℕ) : li.link o idx < 2 ^ 32 := Block.word_lt _ _

/-- A field of an item of the array lies in the array. -/
theorem WF.inside (w : li.WF) (ho : o + 4 ≤ li.itemSize) (hi : i < li.itemTotal) :
    i * li.itemSize + o + 4 ≤ li.itemBase.length := by
  have h1 : (i + 1) * li.itemSize ≤ li.itemTotal * li.itemSize := Nat.mul_le_mul_right _ hi
  rw [w.size]
  rw [Nat.succ_mul] at h1
  omega

/-- Different items do not overlap. -/
theorem item_apart {i j : ℕ} (s : ℕ) (hij : i ≠ j) : i * s + s ≤ j * s ∨ j * s + s ≤ i * s := by
  rw [← Nat.succ_mul, ← Nat.succ_mul]
  exact (Nat.lt_or_gt_of_ne hij).imp (Nat.mul_le_mul_right s) (Nat.mul_le_mul_right s)

/-- Fields of different items do not overlap. -/
theorem field_apart {s j : ℕ} (ho : o + 4 ≤ s) (ho' : o' + 4 ≤ s) (hij : i ≠ j) :
    i * s + o + 4 ≤ j * s + o' ∨ j * s + o' + 4 ≤ i * s + o := by
  have := item_apart s hij
  omega

/-- One link is written, with a value taken as a `_u32`. -/
theorem link_setLink_u32 (w : li.WF) (ho : o + 4 ≤ li.itemSize) (hi : i < li.itemTotal) (v : ℕ) :
    (li.setLink o i v).link o = Function.update (li.link o) i (u32 v) := by
  funext j
  by_cases hij : j = i
  · subst hij
    rw [Function.update_self]
    exact Block.word_setWord_self (w.inside ho hi) v
  · rw [Function.update_of_ne hij]
    exact Block.word_setWord_of_apart _ (field_apart ho ho (Ne.symm hij)) v

/-- **One link is written.** -/
theorem link_setLink (w : li.WF) (ho : o + 4 ≤ li.itemSize) (hi : i < li.itemTotal)
    (hv : v < 2 ^ 32) : (li.setLink o i v).link o = Function.update (li.link o) i v := by
  rw [link_setLink_u32 w ho hi, u32, Nat.mod_eq_of_lt hv]

/-- The links of the other items are kept, at every offset. -/
theorem link_setLink_of_ne {j : ℕ} (hij : j ≠ i) (ho : o + 4 ≤ li.itemSize)
    (ho' : o' + 4 ≤ li.itemSize) : (li.setLink o i v).link o' j = li.link o' j :=
  Block.word_setWord_of_apart _ (field_apart ho ho' (Ne.symm hij)) v

/-- The links at another offset are kept. -/
theorem link_setLink_of_apart (h : Apart o o') (ho : o + 4 ≤ li.itemSize)
    (ho' : o' + 4 ≤ li.itemSize) : (li.setLink o i v).link o' = li.link o' := by
  funext j
  refine Block.word_setWord_of_apart _ ?_ v
  show i * li.itemSize + o + 4 ≤ j * li.itemSize + o' ∨ j * li.itemSize + o' + 4 ≤ i * li.itemSize + o
  by_cases hij : i = j
  · subst hij
    rcases h with h | h <;> omega
  · exact field_apart ho ho' hij

end ListInfo

open ListInfo

section Access

variable {li : ListInfo} (w : li.WF) {o i : ℕ} (ho : o + 4 ≤ li.itemSize) (hi : i < li.itemTotal)

include w ho hi

theorem itemGetNextAddr2_eq : itemGetNextAddr2 li i o = i * li.itemSize + o := by
  have h1 := w.inside ho hi
  have h2 := w.room
  rw [w.size] at h1
  unfold itemGetNextAddr2
  rw [Nat.mod_eq_of_lt (by omega)]

theorem itemGetNext2_ok : itemGetNext2 li i o = .ok (li.link o i) := by
  unfold itemGetNext2
  rw [itemGetNextAddr2_eq w ho hi, Block.load32_ok (w.inside ho hi)]
  rfl

theorem itemSetNext2_ok (v : ℕ) : itemSetNext2 li i v o = .ok (li.setLink o i v) := by
  unfold itemSetNext2
  rw [itemGetNextAddr2_eq w ho hi, Block.store32_ok (w.inside ho hi)]
  rfl

end Access

theorem itemGetNext_ok {li : ListInfo} (w : li.WF) {i : ℕ} (hi : i < li.itemTotal) :
    itemGetNext li i = .ok (li.link li.poolField i) :=
  itemGetNext2_ok w w.poolField_le hi

theorem itemSetNext_ok {li : ListInfo} (w : li.WF) {i : ℕ} (hi : i < li.itemTotal) (v : ℕ) :
    itemSetNext li i v = .ok (li.setLink li.poolField i v) :=
  itemSetNext2_ok w w.poolField_le hi v

end KernelGadgets.IndexList
