import KernelGadgets.IndexList.Bucket

/-!
# What the pool and the table represent

`Represents o s free bk`: the free list of the pool is `free`, and bucket `b` of the table, linked
through the field at offset `o`, is the list `bk b`. The field is the pool's own or does not
overlap it.

Every library call is one change of this pair of lists: `allocItem` takes the head of `free` off,
`freeItem` appends to it, `doLink` appends to a bucket and `unlink` erases the first match from
one. The last two are calls on one `Bucket`; `replaceBucket` puts the bucket they leave back among
the others.
-/

namespace KernelGadgets.IndexList

open ListInfo

/-! ## Frames of the pool's calls -/

theorem frame_allocated {li : ListInfo} (w : li.WF) (x : ℕ) (xs : List ℕ) :
    Frame li.poolField li (allocated li x xs) (· = x) :=
  (Frame.setLink w.poolField_le x _).withFree _ _

theorem frame_freed {li : ListInfo} (w : li.WF) {free : List ℕ} (F : FreeList li free) (idx : ℕ) :
    Frame li.poolField li (freed li free idx) (fun y => y ∈ free ∨ y = idx) := by
  unfold freed
  by_cases hf : free = []
  · rw [if_pos hf]
    exact ((Frame.setLink w.poolField_le idx _).withFree _ _).mono fun _ h => .inr h
  · rw [if_neg hf]
    have h1 := Frame.setLink w.poolField_le li.freeTail idx
    have hw : (li.setLink li.poolField li.freeTail idx).WF := w.setLink
    have h2 := Frame.setLink hw.poolField_le idx invalidListHead
    refine (Frame.trans (h1.mono ?_) (h2.mono ?_)).withFree _ _
    · rintro y rfl; exact .inl (F.tail_mem hf)
    · intro _ h
      exact .inr h

/-! ## The representation -/

/-- The free list is `free`, and bucket `b`, linked through the field at `o`, is `bk b`; no item is
on two of the lists. Heads beyond the table count as empty buckets. -/
structure Represents (o : ℕ) (s : Lists) (free : List ℕ) (bk : ℕ → List ℕ) : Prop where
  wf : s.info.WF
  total_le : s.info.itemTotal ≤ intMax
  field : o + 4 ≤ s.info.itemSize
  sameOrApart : o = s.info.poolField ∨ Apart s.info.poolField o
  freeList : FreeList s.info free
  chain : ∀ b, Chain (s.info.link o) invalidListHead (s.itb.getD b invalidListHead) (bk b)
  lt : ∀ b, ∀ x ∈ bk b, x < s.info.itemTotal
  nodup : ∀ b, (bk b).Nodup
  notFree : ∀ {b x}, x ∈ bk b → x ∉ free
  once : ∀ {b b' x}, x ∈ bk b → x ∈ bk b' → b = b'

/-- An item of the pool that is on no list. -/
structure Loose (s : Lists) (free : List ℕ) (bk : ℕ → List ℕ) (x : ℕ) : Prop where
  lt : x < s.info.itemTotal
  notFree : x ∉ free
  notLinked : ∀ b, x ∉ bk b

theorem mem_update {bk : ℕ → List ℕ} {b b' y : ℕ} {xs : List ℕ}
    (h : y ∈ Function.update bk b xs b') : b' = b ∧ y ∈ xs ∨ b' ≠ b ∧ y ∈ bk b' := by
  by_cases hb' : b' = b
  · subst hb'
    rw [Function.update_self] at h
    exact .inl ⟨rfl, h⟩
  · rw [Function.update_of_ne hb'] at h
    exact .inr ⟨hb', h⟩

namespace Represents

variable {o : ℕ} {s : Lists} {free : List ℕ} {bk : ℕ → List ℕ}

theorem lt_invalid (R : Represents o s free bk) {x : ℕ} (hx : x < s.info.itemTotal) :
    x < invalidListHead := by
  have h := R.total_le
  have hI : intMax < invalidListHead := by decide
  omega

/-- One bucket of the table. -/
theorem bucket (R : Represents o s free bk) {b : ℕ} (hb : b < s.itb.length) :
    Bucket s o b (bk b) where
  wf := R.wf
  field := R.field
  inTable := hb
  chain := R.chain b
  lt := R.lt b

/-! ### `list_alloc_item` and `list_free_item` -/

theorem allocItem {x : ℕ} {xs : List ℕ} (R : Represents o s (x :: xs) bk) :
    Represents o { s with info := allocated s.info x xs } xs bk where
  wf := allocated_wf R.wf
  total_le := R.total_le
  field := R.field
  sameOrApart := R.sameOrApart
  freeList := R.freeList.allocated R.wf
  chain b := (R.chain b).congr fun _ hy => (frame_allocated R.wf x xs).link R.field
    fun e => R.notFree hy (e ▸ List.mem_cons_self)
  lt := R.lt
  nodup := R.nodup
  notFree hx h := R.notFree hx (List.mem_cons_of_mem _ h)
  once := R.once

theorem freeItem {idx : ℕ} (R : Represents o s free bk) (hi : Loose s free bk idx) :
    Represents o { s with info := freed s.info free idx } (free ++ [idx]) bk where
  wf := freed_wf R.wf
  total_le := by rw [itemTotal_freed]; exact R.total_le
  field := by rw [itemSize_freed]; exact R.field
  sameOrApart := by rw [poolField_freed]; exact R.sameOrApart
  freeList := R.freeList.freed R.wf hi.lt
    (Nat.le_of_lt (Nat.lt_of_le_of_lt R.total_le (by decide))) hi.notFree
  chain b := (R.chain b).congr fun y hy =>
    (frame_freed R.wf R.freeList idx).link R.field fun h => h.elim (R.notFree hy)
      fun e => hi.notLinked b (e ▸ hy)
  lt := by rw [itemTotal_freed]; exact R.lt
  nodup := R.nodup
  notFree hx h := by
    rcases List.mem_append.mp h with h | h
    · exact R.notFree hx h
    · exact hi.notLinked _ (List.mem_singleton.mp h ▸ hx)
  once := R.once

/-! ### One bucket changed -/

/-- **One bucket replaced.** The pool and the table are represented when only the links of one
bucket change, into a chain of items that were in the bucket or on no list. -/
theorem replaceBucket {s' : Lists} {b : ℕ} {xs : List ℕ} (R : Represents o s free bk)
    (hwf : s'.info.WF) (F : Frame o s.info s'.info (· ∈ bk b))
    (hh : s'.info.freeHead = s.info.freeHead) (ht : s'.info.freeTail = s.info.freeTail)
    (hother : ∀ b', b' ≠ b → s'.itb.getD b' invalidListHead = s.itb.getD b' invalidListHead)
    (hc : Chain (s'.info.link o) invalidListHead (s'.itb.getD b invalidListHead) xs)
    (hnd : xs.Nodup) (hxs : ∀ x ∈ xs, x ∈ bk b ∨ Loose s free bk x) :
    Represents o s' free (Function.update bk b xs) where
  wf := hwf
  total_le := F.itemTotal ▸ R.total_le
  field := F.itemSize ▸ R.field
  sameOrApart := by rw [F.poolField]; exact R.sameOrApart
  freeList := by
    apply R.freeList.congr F.itemTotal hh ht
    intro y hy
    rw [F.poolField]
    exact F.link R.wf.poolField_le fun h => R.notFree h hy
  chain b' := by
    by_cases hb' : b' = b
    · subst hb'
      rw [Function.update_self]
      exact hc
    · rw [Function.update_of_ne hb', hother b' hb']
      exact (R.chain b').congr fun y hy => F.link R.field fun h => hb' (R.once hy h)
  lt b' y hy := by
    rw [F.itemTotal]
    rcases mem_update hy with ⟨-, hy⟩ | ⟨-, hy⟩
    · exact (hxs y hy).elim (R.lt b y) Loose.lt
    · exact R.lt b' y hy
  nodup b' := by
    by_cases hb' : b' = b
    · subst hb'
      rwa [Function.update_self]
    · rw [Function.update_of_ne hb']
      exact R.nodup b'
  notFree hy := by
    rcases mem_update hy with ⟨-, hy⟩ | ⟨-, hy⟩
    · exact (hxs _ hy).elim R.notFree Loose.notFree
    · exact R.notFree hy
  once hy hy' := by
    rcases mem_update hy with ⟨e1, h1⟩ | ⟨n1, h1⟩ <;> rcases mem_update hy' with ⟨e2, h2⟩ | ⟨n2, h2⟩
    · rw [e1, e2]
    · rcases hxs _ h1 with h1 | h1
      · rw [e1, R.once h1 h2]
      · exact absurd h2 (h1.notLinked _)
    · rcases hxs _ h2 with h2 | h2
      · rw [e2, R.once h1 h2]
      · exact absurd h1 (h2.notLinked _)
    · exact R.once h1 h2

/-! ### The calls on a bucket -/

/-- **`index_list_prelink2`** on a bucket of the table. -/
theorem prelink {δ : Type} (isSame : IsSameItem δ) (R : Represents o s free bk) {b : ℕ}
    (hb : b < s.itb.length) (data : δ) {z : ℤ} (hz : u32OfInt z = o) :
    indexListPrelink2 isSame s b data z =
      .ok (if (bk b).any (isSame s.info · data) then none
        else some (tailSlot s.info o b (bk b))) :=
  (R.bucket hb).prelink isSame data hz

variable {x : ℕ} {b : ℕ}

theorem frame_linked (R : Represents o s free bk) :
    Frame o s.info (linked s o b (bk b) x).info (· ∈ bk b) :=
  linked_frame R.field b (bk b) x

theorem doLink_ok (R : Represents o s free bk) (hb : b < s.itb.length) :
    indexListDoLink s (tailSlot s.info o b (bk b)) x = .ok (linked s o b (bk b) x) :=
  (R.bucket hb).doLink_ok x

/-- **`index_list_do_link`** of an item whose link is reset appends it to the bucket. -/
theorem doLink (R : Represents o s free bk) (hb : b < s.itb.length) (hx : Loose s free bk x)
    (hn : s.info.link o x = invalidListHead) :
    Represents o (linked s o b (bk b) x) free (Function.update bk b (bk b ++ [x])) := by
  have hbucket := (R.bucket hb).linked hx.lt (R.lt_invalid hx.lt) (hx.notLinked b) hn
  have honly := (R.bucket hb).onlyBucket_linked x
  refine R.replaceBucket hbucket.wf honly.frame honly.freeHead honly.freeTail honly.head
    hbucket.chain hbucket.nodup ?_
  intro y hy
  rcases List.mem_append.mp hy with hy | hy
  · exact .inl hy
  · exact .inr (List.mem_singleton.mp hy ▸ hx)

/-- An item `c` is taken out of bucket `b`: `s'` represents the rest, every other link is kept, and
the link of `c` is reset. -/
structure Unlinked (o : ℕ) (s s' : Lists) (free : List ℕ) (bk : ℕ → List ℕ) (b c : ℕ) : Prop where
  represents : Represents o s' free (Function.update bk b ((bk b).erase c))
  frame : Frame o s.info s'.info (· ∈ bk b)
  length : s'.itb.length = s.itb.length
  freeHead : s'.info.freeHead = s.info.freeHead
  freeTail : s'.info.freeTail = s.info.freeTail
  reset : s'.info.link o c = invalidListHead

/-- Taking an item out of bucket `b` keeps everything but that bucket's chain. -/
theorem unlinked {s' : Lists} {c : ℕ} (R : Represents o s free bk)
    (U : Removed o b (bk b) c s s') : Unlinked o s s' free bk b c where
  represents := R.replaceBucket U.bucket.wf U.only.frame U.only.freeHead U.only.freeTail
    U.only.head U.bucket.chain U.bucket.nodup fun _ hy => .inl (List.mem_of_mem_erase hy)
  frame := U.only.frame
  length := U.only.length
  freeHead := U.only.freeHead
  freeTail := U.only.freeTail
  reset := U.reset

/-- **`index_list_unlink2`** takes the first match out of the bucket, or changes nothing. -/
theorem unlink {δ : Type} (isSame : IsSameItem δ) (R : Represents o s free bk)
    (hb : b < s.itb.length) (data : δ) :
    (bk b).find? (isSame s.info · data) = none ∧
        indexListUnlink2 isSame s b data o = .ok (invalidListHead, s) ∨
      ∃ c s', (bk b).find? (isSame s.info · data) = some c ∧
        indexListUnlink2 isSame s b data o = .ok (c, s') ∧ Unlinked o s s' free bk b c := by
  refine ((R.bucket hb).unlink isSame data).imp id ?_
  rintro ⟨c, s', hfind, hu, U⟩
  exact ⟨c, s', hfind, hu, R.unlinked U⟩

end Represents

end KernelGadgets.IndexList
