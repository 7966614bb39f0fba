import Mathlib.Data.List.Perm.Subperm
import KernelGadgets.IndexList.Table

/-!
# One bucket

`Bucket s o b c`: bucket `b` of the table, linked through the field at offset `o`, is the list `c`
of items of the pool. Nothing is asked of the other buckets, of the free list or of how the field
lies to the pool's own: the table functions follow and change this one chain.

* `Bucket.prelink`: a search finds a match or the slot at the end of the chain.
* `Bucket.linked`: an item stored in the slot is appended.
* `Bucket.unlink`: the first match is taken out.

`Frame` and `OnlyBucket` record what a call leaves alone: the links of the items it does not touch,
every byte outside the link fields, the other heads and the ends of the free list. From these the
other buckets and the free list are kept (`OnlyBucket.chain`, `OnlyBucket.freeList`).
-/

namespace KernelGadgets.IndexList

open ListInfo

/-! ## Frames -/

/-- From `li` to `li'` only the link fields at offset `o` of the items `touched` and the ends of
the free list have changed. -/
structure Frame (o : ℕ) (li li' : ListInfo) (touched : ℕ → Prop) : Prop where
  itemTotal : li'.itemTotal = li.itemTotal
  itemSize : li'.itemSize = li.itemSize
  nextOffset : li'.nextOffset = li.nextOffset
  link : ∀ {o' y}, o' + 4 ≤ li.itemSize → ¬ touched y → li'.link o' y = li.link o' y
  byte : ∀ {a}, (∀ i, a < i * li.itemSize + o ∨ i * li.itemSize + o + 4 ≤ a) →
    Block.byte li'.itemBase a = Block.byte li.itemBase a

namespace Frame

variable {o : ℕ} {li li' li'' : ListInfo} {P Q : ℕ → Prop}

theorem refl (o : ℕ) (li : ListInfo) (P : ℕ → Prop) : Frame o li li P :=
  ⟨rfl, rfl, rfl, fun _ _ => rfl, fun _ => rfl⟩

theorem mono (F : Frame o li li' P) (h : ∀ x, P x → Q x) : Frame o li li' Q :=
  ⟨F.itemTotal, F.itemSize, F.nextOffset, fun ho hy => F.link ho fun h' => hy (h _ h'), F.byte⟩

theorem trans (F : Frame o li li' P) (G : Frame o li' li'' P) : Frame o li li'' P where
  itemTotal := G.itemTotal.trans F.itemTotal
  itemSize := G.itemSize.trans F.itemSize
  nextOffset := G.nextOffset.trans F.nextOffset
  link ho hy := (G.link (F.itemSize ▸ ho) hy).trans (F.link ho hy)
  byte ha := (G.byte (F.itemSize ▸ ha)).trans (F.byte ha)

theorem setLink (ho : o + 4 ≤ li.itemSize) (i v : ℕ) : Frame o li (li.setLink o i v) (· = i) where
  itemTotal := rfl
  itemSize := rfl
  nextOffset := rfl
  link ho' hy := link_setLink_of_ne hy ho ho'
  byte ha := Block.byte_setWord_of_outside _ (ha i) v

theorem withFree (F : Frame o li li' P) (h t : ℕ) : Frame o li (li'.withFree h t) P :=
  ⟨F.itemTotal, F.itemSize, F.nextOffset, F.link, F.byte⟩

theorem poolField (F : Frame o li li' P) : li'.poolField = li.poolField := by
  unfold ListInfo.poolField; rw [F.nextOffset]

end Frame

/-- From `s` to `s'` only bucket `b` has changed, its head or the links of its items `c`. -/
structure OnlyBucket (o b : ℕ) (c : List ℕ) (s s' : Lists) : Prop where
  frame : Frame o s.info s'.info (· ∈ c)
  freeHead : s'.info.freeHead = s.info.freeHead
  freeTail : s'.info.freeTail = s.info.freeTail
  length : s'.itb.length = s.itb.length
  head : ∀ b', b' ≠ b → s'.itb.getD b' invalidListHead = s.itb.getD b' invalidListHead

namespace OnlyBucket

variable {o b : ℕ} {c : List ℕ} {s s' : Lists}

/-- The chain of every other bucket that has no item of the bucket is kept. -/
theorem chain (h : OnlyBucket o b c s s') (ho : o + 4 ≤ s.info.itemSize) {b' : ℕ} {xs : List ℕ}
    (hb : b' ≠ b) (hxs : ∀ x ∈ xs, x ∉ c)
    (hc : Chain (s.info.link o) invalidListHead (s.itb.getD b' invalidListHead) xs) :
    Chain (s'.info.link o) invalidListHead (s'.itb.getD b' invalidListHead) xs := by
  rw [h.head b' hb]
  exact hc.congr fun x hx => h.frame.link ho (hxs x hx)

/-- So is the free list. -/
theorem freeList (h : OnlyBucket o b c s s') (w : s.info.WF) {free : List ℕ}
    (hfree : ∀ x ∈ free, x ∉ c) (F : FreeList s.info free) : FreeList s'.info free := by
  apply F.congr h.frame.itemTotal h.freeHead h.freeTail
  intro x hx
  rw [h.frame.poolField]
  exact h.frame.link w.poolField_le (hfree x hx)

end OnlyBucket

/-! ## Buckets -/

/-- Bucket `b`, linked through the field at `o`, is the list `c` of items of the pool. -/
structure Bucket (s : Lists) (o b : ℕ) (c : List ℕ) : Prop where
  wf : s.info.WF
  field : o + 4 ≤ s.info.itemSize
  inTable : b < s.itb.length
  chain : Chain (s.info.link o) invalidListHead (s.itb.getD b invalidListHead) c
  lt : ∀ x ∈ c, x < s.info.itemTotal

theorem head_eq {s : Lists} {b : ℕ} (hb : b < s.itb.length) :
    s.itb[b]? = some (s.itb.getD b invalidListHead) := by
  rw [List.getD_eq_getElem?_getD, List.getElem?_eq_getElem hb, Option.getD_some]

/-- Links are `_u32`: a chain behind an item has fewer items than a search has iterations. -/
theorem length_lt_walkFuel {li : ListInfo} {o h : ℕ} {rest : List ℕ}
    (hc : Chain (li.link o) invalidListHead (li.link o h) rest) : rest.length < walkFuel := by
  have hsub : rest ⊆ List.range invalidListHead := by
    intro x hx
    have hne : x ≠ invalidListHead := fun e => hc.nil_notMem (e ▸ hx)
    have hlt : x < 2 ^ 32 := by
      rcases hc.links.eq_or_next hx with rfl | ⟨z, rfl⟩
      · exact link_lt li o h
      · exact link_lt li o z
    rw [List.mem_range]
    unfold invalidListHead at hne ⊢
    omega
  have hle := (hc.nodup.subperm hsub).length_le
  rw [List.length_range] at hle
  unfold walkFuel
  unfold invalidListHead at hle
  omega

namespace Represents

/-- The address of the link field a new item of bucket `b` is stored in. -/
def tailSlot (li : ListInfo) (o b : ℕ) (xs : List ℕ) : Slot :=
  match xs.getLast? with
  | none => .idx b
  | some y => .next (itemGetNextAddr2 li y o)

/-- The lists after `x` is stored in the slot at the end of bucket `b`. -/
def linked (s : Lists) (o b : ℕ) (xs : List ℕ) (x : ℕ) : Lists :=
  match xs.getLast? with
  | none => { s with itb := s.itb.set b x }
  | some y => { s with info := s.info.setLink o y x }

@[simp] theorem length_linked (s : Lists) (o b : ℕ) (xs : List ℕ) (x : ℕ) :
    (linked s o b xs x).itb.length = s.itb.length := by
  unfold linked; split <;> simp

theorem linked_frame {s : Lists} {o : ℕ} (ho : o + 4 ≤ s.info.itemSize) (b : ℕ) (xs : List ℕ)
    (x : ℕ) : Frame o s.info (linked s o b xs x).info (· ∈ xs) := by
  unfold linked
  cases h : xs.getLast? with
  | none => exact Frame.refl ..
  | some y =>
    have hy : y ∈ xs := List.mem_of_getLast? h
    exact (Frame.setLink ho y x).mono fun _ e => e ▸ hy

end Represents

open Represents (tailSlot linked)

/-- The item `x` is taken out of bucket `b`, which was `c`, and its link is reset. -/
structure Removed (o b : ℕ) (c : List ℕ) (x : ℕ) (s s' : Lists) : Prop where
  bucket : Bucket s' o b (c.erase x)
  only : OnlyBucket o b c s s'
  reset : s'.info.link o x = invalidListHead

namespace Bucket

variable {s : Lists} {o b : ℕ} {c : List ℕ}

theorem nodup (B : Bucket s o b c) : c.Nodup := B.chain.nodup

/-! ### `index_list_prelink2` -/

/-- **`index_list_prelink2`** returns `NULL` exactly when an item of the bucket matches, else the
slot at its end. -/
theorem prelink {δ : Type} (isSame : IsSameItem δ) (B : Bucket s o b c) (data : δ) {z : ℤ}
    (hz : u32OfInt z = o) : indexListPrelink2 isSame s b data z =
      .ok (if c.any (isSame s.info · data) then none else some (tailSlot s.info o b c)) := by
  have hc := B.chain
  unfold indexListPrelink2
  rw [head_eq B.inTable, hz]
  cases c with
  | nil =>
    simp only [ne_eq, Chain.nil_iff.mp hc, not_true_eq_false, if_false]
    simp [tailSlot]
  | cons h rest =>
    obtain ⟨hh, hne, hc⟩ := Chain.cons_iff.mp hc
    simp only [hh, ne_eq, hne, not_false_eq_true, if_true]
    cases hm : isSame s.info h data with
    | true => simp [hm]
    | false =>
      rw [if_neg (by simp), prelinkLoop_ok B.wf B.field (B.lt h List.mem_cons_self) hc
        (fun x hx => B.lt x (List.mem_cons_of_mem _ hx)) (length_lt_walkFuel hc), List.any_cons,
        hm, Bool.false_or, tailSlot, List.getLast?_cons, List.getLastD_eq_getLast?]

/-! ### `index_list_do_link` -/

theorem doLink_ok (B : Bucket s o b c) (x : ℕ) :
    indexListDoLink s (tailSlot s.info o b c) x = .ok (Represents.linked s o b c x) := by
  unfold tailSlot Represents.linked
  cases h : c.getLast? with
  | none => exact if_pos B.inTable
  | some y =>
    have hy := B.lt y (List.mem_of_getLast? h)
    simp only [indexListDoLink, itemGetNextAddr2_eq B.wf B.field hy,
      Block.store32_ok (B.wf.inside B.field hy)]
    rfl

theorem onlyBucket_linked (B : Bucket s o b c) (x : ℕ) :
    OnlyBucket o b c s (Represents.linked s o b c x) := by
  refine ⟨Represents.linked_frame B.field b c x, ?_, ?_, Represents.length_linked .., ?_⟩
  · unfold Represents.linked; split <;> rfl
  · unfold Represents.linked; split <;> rfl
  · intro b' hb'
    unfold Represents.linked
    split
    · simp only [getD_set _ _ _ _ _ B.inTable, if_neg hb']
    · rfl

/-- **`index_list_do_link`** of an item whose link is reset appends it to the bucket. -/
theorem linked (B : Bucket s o b c) {x : ℕ} (hlt : x < s.info.itemTotal)
    (hx : x < invalidListHead) (hnew : x ∉ c) (hn : s.info.link o x = invalidListHead) :
    Bucket (Represents.linked s o b c x) o b (c ++ [x]) := by
  have honly := B.onlyBucket_linked x
  refine ⟨?_, honly.frame.itemSize ▸ B.field, honly.length ▸ B.inTable, ?_, ?_⟩
  · unfold Represents.linked
    split
    · exact B.wf
    · exact B.wf.setLink
  · rcases List.eq_nil_or_concat c with rfl | ⟨ys, y, rfl⟩
    · show Chain (s.info.link o) _ ((s.itb.set b x).getD b _) [x]
      rw [getD_set _ _ _ _ _ B.inTable, if_pos rfl]
      exact Chain.single (by omega) hn
    · rw [List.concat_eq_append] at hnew ⊢
      have e : Represents.linked s o b (ys ++ [y]) x =
          { s with info := s.info.setLink o y x } := by
        simp [Represents.linked]
      have hc := B.chain
      have hnd := B.nodup
      rw [List.concat_eq_append] at hc hnd
      have hy : y < s.info.itemTotal := B.lt y (by simp)
      rw [e]
      simp only
      rw [link_setLink B.wf B.field hy (by unfold invalidListHead at hx; omega)]
      refine hc.snoc ?_ (by omega) (fun h => hnew (by simp [h])) hn
      rw [List.nodup_append] at hnd
      intro h
      exact hnd.2.2 y h y (by simp) rfl
  · intro y hy
    rw [honly.frame.itemTotal]
    rcases List.mem_append.mp hy with hy | hy
    · exact B.lt y hy
    · rw [List.mem_singleton.mp hy]
      exact hlt

/-! ### `index_list_unlink2` -/

/-- The head of a bucket is taken out: its successor becomes the head. -/
theorem removeHead {h : ℕ} {rest : List ℕ} (B : Bucket s o b (h :: rest)) :
    Removed o b (h :: rest) h s
      ⟨s.info.setLink o h invalidListHead, s.itb.set b (s.info.link o h)⟩ := by
  have hlt : h < s.info.itemTotal := B.lt h List.mem_cons_self
  have hl := link_setLink B.wf B.field hlt invalidListHead_lt
  refine ⟨⟨B.wf.setLink, B.field, ?_, ?_, ?_⟩, ⟨?_, rfl, rfl, List.length_set, ?_⟩, ?_⟩
  · rw [List.length_set]
    exact B.inTable
  · simp only [getD_set _ _ _ _ _ B.inTable, if_true, List.erase_cons_head, hl]
    exact B.chain.tail (List.nodup_cons.mp B.nodup).1
  · rw [List.erase_cons_head]
    exact fun x hx => B.lt x (List.mem_cons_of_mem _ hx)
  · exact (Frame.setLink B.field h _).mono fun _ e => e ▸ List.mem_cons_self
  · intro b' hb'
    simp only [getD_set _ _ _ _ _ B.inTable, if_neg hb']
  · simp only [hl, Function.update_self]

/-- An item behind `prev` is taken out: its successor follows `prev`. -/
theorem removeBehind {pre zs : List ℕ} {prev x : ℕ} (B : Bucket s o b (pre ++ prev :: x :: zs)) :
    Removed o b (pre ++ prev :: x :: zs) x s { s with info :=
      (s.info.setLink o prev (s.info.link o x)).setLink o x invalidListHead } := by
  have hnd := B.nodup
  have hplt : prev < s.info.itemTotal := B.lt prev (by simp)
  have hxlt : x < s.info.itemTotal := B.lt x (by simp)
  have hl1 := link_setLink B.wf B.field hplt (link_lt s.info o x)
  have hw : (s.info.setLink o prev (s.info.link o x)).WF := B.wf.setLink
  have hl2 := link_setLink hw B.field hxlt invalidListHead_lt
  rw [hl1] at hl2
  have herase : (pre ++ prev :: x :: zs).erase x = pre ++ prev :: zs := by
    have hxn : x ∉ pre ++ [prev] := by
      rw [← List.singleton_append, ← List.append_assoc, List.nodup_append] at hnd
      intro h'
      exact hnd.2.2 x h' x (by simp) rfl
    rw [← List.singleton_append, ← List.append_assoc, List.erase_append_right _ hxn,
      List.erase_cons_head, List.append_assoc]
    rfl
  refine ⟨⟨B.wf.setLink.setLink, B.field, B.inTable, ?_, ?_⟩,
    ⟨?_, rfl, rfl, rfl, fun _ _ => rfl⟩, ?_⟩
  · rw [herase]
    simp only [hl2]
    exact B.chain.unlink hnd
  · exact fun y hy => B.lt y (List.mem_of_mem_erase hy)
  · refine ((Frame.setLink B.field prev _).mono ?_).trans
      ((Frame.setLink (by exact B.field) x _).mono ?_)
    · rintro y rfl; simp
    · rintro y rfl; simp
  · simp only [hl2, Function.update_self]

/-- **`index_list_unlink2`** takes the first match out of the bucket, or changes nothing. -/
theorem unlink {δ : Type} (isSame : IsSameItem δ) (B : Bucket s o b c) (data : δ) :
    c.find? (isSame s.info · data) = none ∧
        indexListUnlink2 isSame s b data o = .ok (invalidListHead, s) ∨
      ∃ x s', c.find? (isSame s.info · data) = some x ∧
        indexListUnlink2 isSame s b data o = .ok (x, s') ∧ Removed o b c x s s' := by
  have hc := B.chain
  unfold indexListUnlink2
  rw [head_eq B.inTable]
  rcases c with _ | ⟨h, rest⟩
  · left
    simp only [ne_eq, Chain.nil_iff.mp hc, not_true_eq_false, if_false]
    simp
  obtain ⟨hh, hne, hc⟩ := Chain.cons_iff.mp hc
  have hhlt := B.lt h List.mem_cons_self
  simp only [hh, ne_eq, hne, not_false_eq_true, if_true]
  cases hm : isSame s.info h data with
  | true =>
    refine .inr ⟨h, _, by simp [hm], ?_, B.removeHead⟩
    rw [if_pos rfl, itemGetNext2_ok B.wf B.field hhlt, Outcome.ok_bind,
      itemSetNext2_ok B.wf B.field hhlt]
    rfl
  | false =>
    rw [if_neg (by simp)]
    rcases unlinkLoop_ok isSame data B.wf B.field hhlt hc
      (fun x hx => B.lt x (List.mem_cons_of_mem _ hx)) (length_lt_walkFuel hc) with
      ⟨hn, hu⟩ | ⟨ys, x, zs, rfl, hn, hxm, hu⟩
    · left
      refine ⟨?_, by rw [hu]; rfl⟩
      rw [List.find?_eq_none]
      intro x hx
      rcases List.mem_cons.mp hx with rfl | hx
      · simp [hm]
      · simp [hn x hx]
    · right
      -- `prev` is the item in front of the match
      obtain ⟨pre, prev, hpre⟩ : ∃ pre prev, h :: ys = pre ++ [prev] :=
        ⟨_, _, (List.dropLast_append_getLast (List.cons_ne_nil h ys)).symm⟩
      have hprev : ys.getLastD h = prev := by
        have e : (h :: ys).getLast? = some prev := by rw [hpre]; simp
        rw [List.getLast?_cons] at e
        rw [List.getLastD_eq_getLast?]
        exact Option.some.inj e
      have hall : h :: (ys ++ x :: zs) = pre ++ prev :: x :: zs := by
        rw [← List.cons_append, hpre, List.append_assoc]
        rfl
      rw [hprev] at hu
      have hremoved := (hall ▸ B).removeBehind
      rw [← hall] at hremoved
      refine ⟨x, _, ?_, by rw [hu]; rfl, hremoved⟩
      rw [List.find?_cons_of_neg (by simp [hm]), List.find?_eq_some_iff_append]
      exact ⟨hxm, ys, zs, rfl, fun y hy => by simp [hn y hy]⟩

end Bucket

/-! ## What the calls come to -/

/-- The other buckets and the free list, as far as they have no item of the bucket, are kept. -/
structure OthersKept (o b : ℕ) (c : List ℕ) (s s' : Lists) : Prop where
  chain : ∀ b' xs, b' ≠ b → (∀ x ∈ xs, x ∉ c) →
    Chain (s.info.link o) invalidListHead (s.itb.getD b' invalidListHead) xs →
    Chain (s'.info.link o) invalidListHead (s'.itb.getD b' invalidListHead) xs
  freeList : ∀ free, (∀ x ∈ free, x ∉ c) → FreeList s.info free → FreeList s'.info free
  freeHead : s'.info.freeHead = s.info.freeHead
  freeTail : s'.info.freeTail = s.info.freeTail

theorem OnlyBucket.othersKept {o b : ℕ} {c : List ℕ} {s s' : Lists} (h : OnlyBucket o b c s s')
    (B : Bucket s o b c) : OthersKept o b c s s' where
  chain _ _ hb hxs hc := h.chain B.field hb hxs hc
  freeList _ hfree F := h.freeList B.wf hfree F
  freeHead := h.freeHead
  freeTail := h.freeTail

section Calls

variable {δ : Type} (isSame : IsSameItem δ) {s : Lists} {o b : ℕ} {c : List ℕ}

/-- The first match, and nothing else, is taken out of the bucket; without a match nothing
changes. -/
structure UnlinksFirst (s : Lists) (o b : ℕ) (c : List ℕ) (data : δ) : Prop where
  found : ∀ x, c.find? (isSame s.info · data) = some x →
    ∃ s', indexListUnlink2 isSame s b data o = .ok (x, s') ∧ Removed o b c x s s' ∧
      OthersKept o b c s s'
  absent : (∀ x ∈ c, isSame s.info x data = false) →
    indexListUnlink2 isSame s b data o = .ok (invalidListHead, s)

/-- **`index_list_unlink2` on one bucket**, whatever the match and the rest of the table. -/
theorem unlinksFirst (B : Bucket s o b c) (data : δ) : UnlinksFirst isSame s o b c data := by
  rcases B.unlink isSame data with ⟨hnone, hu⟩ | ⟨x, s', hfind, hu, hremoved⟩
  · refine ⟨fun x hx => ?_, fun _ => hu⟩
    rw [hnone] at hx
    exact absurd hx (by simp)
  · constructor
    · intro y hy
      obtain rfl : x = y := Option.some.inj (hfind.symm.trans hy)
      exact ⟨s', hu, hremoved, hremoved.only.othersKept B⟩
    · intro habsent
      have hmatch := List.find?_some hfind
      rw [habsent x (List.mem_of_find?_eq_some hfind)] at hmatch
      exact absurd hmatch (by simp)

/-- A search for a place finds the end of the bucket unless an item matches, and an item stored
there is the last one. The offset is an `int`, used as a `_u32`. -/
structure LinksLast (s : Lists) (b : ℕ) (c : List ℕ) (data : δ) (z : ℤ) : Prop where
  null : indexListPrelink2 isSame s b data z = .ok none ↔ ∃ x ∈ c, isSame s.info x data = true
  slot : (∀ x ∈ c, isSame s.info x data = false) →
    ∃ slot, indexListPrelink2 isSame s b data z = .ok (some slot) ∧
      ∀ new, new < s.info.itemTotal → new < invalidListHead → new ∉ c →
        s.info.link (u32OfInt z) new = invalidListHead →
        ∃ s', indexListDoLink s slot new = .ok s' ∧ Bucket s' (u32OfInt z) b (c ++ [new]) ∧
          OthersKept (u32OfInt z) b c s s' ∧
          ∀ data', isSame s'.info new data' = true →
            indexListPrelink2 isSame s' b data' z = .ok none

/-- **`index_list_prelink2` and `index_list_do_link` on one bucket.** -/
theorem linksLast {z : ℤ} (B : Bucket s (u32OfInt z) b c) (data : δ) :
    LinksLast isSame s b c data z := by
  have hp := B.prelink isSame data rfl
  constructor
  · rw [hp, ← List.any_eq_true (p := fun x => isSame s.info x data)]
    by_cases hany : c.any (isSame s.info · data) = true
    · simp [hany]
    · simp [hany]
  · intro hnone
    have hany : c.any (isSame s.info · data) = false :=
      List.any_eq_false.mpr fun x hx => by simp [hnone x hx]
    rw [hany, if_neg (by simp)] at hp
    refine ⟨_, hp, fun new hlt hvalid hnew hreset => ?_⟩
    have hlinked := B.linked hlt hvalid hnew hreset
    refine ⟨_, B.doLink_ok new, hlinked, (B.onlyBucket_linked new).othersKept B, ?_⟩
    intro data' hmatch
    rw [hlinked.prelink isSame data' rfl, List.any_append]
    simp [hmatch]

end Calls

/-- Three items of eight bytes with two link fields each: through the first one bucket 0 is the
list of the items 2 and 0, through the second one item 1 is free. -/
def twoFields : Lists where
  info :=
    { itemBase := [255, 255, 255, 255, 255, 255, 255, 255, 255, 255, 255, 255, 255, 255, 255, 255,
        0, 0, 0, 0, 255, 255, 255, 255]
      itemTotal := 3
      itemSize := 8
      nextOffset := 4
      freeHead := 1
      freeTail := 1 }
  itb := [2, invalidListHead]

/-- Even items match even numbers. -/
def sameParity : IsSameItem ℕ := fun _ pos data => pos % 2 == data % 2

theorem bucket_twoFields : Bucket twoFields 0 0 [2, 0] where
  wf := ⟨by decide, by decide, by decide⟩
  field := by decide
  inTable := by decide
  chain := by
    have h2 : twoFields.info.link 0 2 = 0 := by decide +kernel
    have h0 : twoFields.info.link 0 0 = invalidListHead := by decide +kernel
    refine Chain.cons_iff.mpr ⟨rfl, by decide, Chain.cons_iff.mpr ⟨h2, by decide, ?_⟩⟩
    exact Chain.nil_iff.mpr h0
  lt := by decide

/-- Both items match; the first one is taken out. -/
theorem unlinksFirst_twoFields : UnlinksFirst sameParity twoFields 0 0 [2, 0] 4 :=
  unlinksFirst sameParity bucket_twoFields 4

theorem linksLast_twoFields : LinksLast sameParity twoFields 0 [2, 0] 1 0 :=
  linksLast (z := 0) sameParity bucket_twoFields 1

end KernelGadgets.IndexList
