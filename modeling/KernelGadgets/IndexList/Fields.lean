import KernelGadgets.Lib.Machine
import KernelGadgets.IndexList.Bucket

/-!
# The bytes of the pool as arrays of links

`item_set_next2`, `item_get_next2` and a write through the address of `item_get_next_addr2` act on
the fields of the items as on arrays, one for each offset, as long as the offsets used do not
overlap (`run_answers`); the bytes outside the fields written are kept (`run_bytes`). So the list
operations change the bytes of link fields only (`payloadKept`).
-/

namespace KernelGadgets.IndexList

open ListInfo

/-! ## Accesses -/

/-- A call of `item_set_next2`, of `item_get_next2`, or a write through the address that
`item_get_next_addr2` returns. -/
inductive Access where
  | set (idx next nextOffset : ℕ)
  | get (idx nextOffset : ℕ)
  | setAddr (idx next nextOffset : ℕ)

/-- The arrays: an offset, then an index. -/
abbrev LinkArrays := ℕ → ℕ → ℕ

/-- One entry of one array is changed; entries are `_u32`. -/
def LinkArrays.set (a : LinkArrays) (idx next nextOffset : ℕ) : LinkArrays :=
  Function.update a nextOffset (Function.update (a nextOffset) idx (u32 next))

/-- An access to arrays. -/
def LinkArrays.step (a : LinkArrays) : Access → Option ℕ × LinkArrays
  | .set idx next nextOffset => (none, a.set idx next nextOffset)
  | .get idx nextOffset => (some (a nextOffset idx), a)
  | .setAddr idx next nextOffset => (none, a.set idx next nextOffset)

namespace Access

def idx : Access → ℕ
  | set idx _ _ => idx
  | get idx _ => idx
  | setAddr idx _ _ => idx

def nextOffset : Access → ℕ
  | set _ _ nextOffset => nextOffset
  | get _ nextOffset => nextOffset
  | setAddr _ _ nextOffset => nextOffset

def IsWrite : Access → Prop
  | get _ _ => False
  | _ => True

/-- The field lies in an item of the array. -/
def Inside (c : Access) (li : ListInfo) : Prop :=
  c.idx < li.itemTotal ∧ c.nextOffset + 4 ≤ li.itemSize

/-- The byte `a` is written. -/
def Writes (c : Access) (li : ListInfo) (a : ℕ) : Prop :=
  c.IsWrite ∧ c.idx * li.itemSize + c.nextOffset ≤ a ∧
    a < c.idx * li.itemSize + c.nextOffset + 4

end Access

/-- The accesses run on the bytes. -/
def accessMachine : Machine ListInfo Access (Option ℕ) where
  allowed li c := c.Inside li
  step li
    | .set idx next nextOffset => do
      let li ← itemSetNext2 li idx next nextOffset
      return (none, li)
    | .get idx nextOffset => do
      let next ← itemGetNext2 li idx nextOffset
      return (some next, li)
    | .setAddr idx next nextOffset => do
      let base ← Block.store32 li.itemBase (itemGetNextAddr2 li idx nextOffset) next
      return (none, { li with itemBase := base })

/-- Any two of the offsets used are equal or do not overlap. -/
def Separate (calls : List Access) : Prop :=
  ∀ c ∈ calls, ∀ c' ∈ calls, c.nextOffset = c'.nextOffset ∨ Apart c.nextOffset c'.nextOffset

/-! ## One access -/

/-- The pool has the size and the layout of `li`. -/
structure SameLayout (li li' : ListInfo) : Prop where
  wf : li'.WF
  itemTotal : li'.itemTotal = li.itemTotal
  itemSize : li'.itemSize = li.itemSize

namespace Access

/-- What an access comes to. -/
def result (li : ListInfo) : Access → Option ℕ × ListInfo
  | set idx next nextOffset => (none, li.setLink nextOffset idx next)
  | get idx nextOffset => (some (li.link nextOffset idx), li)
  | setAddr idx next nextOffset => (none, li.setLink nextOffset idx next)

section

variable {li li' : ListInfo} {c : Access}

theorem step_ok (w : li.WF) (h : c.Inside li) : accessMachine.step li c = .ok (c.result li) := by
  cases c with
  | set idx next o =>
    obtain ⟨hi, ho⟩ : idx < li.itemTotal ∧ o + 4 ≤ li.itemSize := h
    show (itemSetNext2 li idx next o >>= fun li => .ok (none, li)) = _
    rw [itemSetNext2_ok w ho hi]
    rfl
  | get idx o =>
    obtain ⟨hi, ho⟩ : idx < li.itemTotal ∧ o + 4 ≤ li.itemSize := h
    show (itemGetNext2 li idx o >>= fun next => .ok (some next, li)) = _
    rw [itemGetNext2_ok w ho hi]
    rfl
  | setAddr idx next o =>
    obtain ⟨hi, ho⟩ : idx < li.itemTotal ∧ o + 4 ≤ li.itemSize := h
    show (Block.store32 li.itemBase (itemGetNextAddr2 li idx o) next >>= fun base =>
      .ok (none, { li with itemBase := base })) = _
    rw [itemGetNextAddr2_eq w ho hi, Block.store32_ok (w.inside ho hi)]
    rfl

theorem inside_congr (h : SameLayout li li') : c.Inside li' ↔ c.Inside li := by
  unfold Inside
  rw [h.itemTotal, h.itemSize]

theorem result_sameLayout (h : SameLayout li li') : SameLayout li (c.result li').2 := by
  cases c with
  | set idx next o => exact ⟨h.wf.setLink, h.itemTotal, h.itemSize⟩
  | get idx o => exact h
  | setAddr idx next o => exact ⟨h.wf.setLink, h.itemTotal, h.itemSize⟩

/-- A write changes one entry of the array at its offset, and no array whose fields are apart. -/
theorem link_set {a : LinkArrays} (w : li.WF) {idx next o o' : ℕ} (hi : idx < li.itemTotal)
    (ho : o + 4 ≤ li.itemSize) (ho' : o' + 4 ≤ li.itemSize) (h : o = o' ∨ Apart o o')
    (ha : li.link o' = a o') : (li.setLink o idx next).link o' = a.set idx next o o' := by
  unfold LinkArrays.set
  rcases h with rfl | h
  · rw [link_setLink_u32 w ho hi, Function.update_self, ha]
  · have hne : o' ≠ o := by
      rintro rfl
      unfold Apart at h
      omega
    rw [link_setLink_of_apart h ho ho', Function.update_of_ne hne, ha]

/-- A byte that an access does not write is kept. -/
theorem byte_result {a : ℕ} (h : ¬c.Writes li a) :
    Block.byte (c.result li).2.itemBase a = Block.byte li.itemBase a := by
  have hout : ∀ idx o : ℕ, ¬(idx * li.itemSize + o ≤ a ∧ a < idx * li.itemSize + o + 4) →
      a < idx * li.itemSize + o ∨ idx * li.itemSize + o + 4 ≤ a := fun idx o h => by omega
  cases c with
  | set idx next o =>
    exact Block.byte_setWord_of_outside _ (hout idx o fun hin => h ⟨trivial, hin⟩) next
  | get idx o => rfl
  | setAddr idx next o =>
    exact Block.byte_setWord_of_outside _ (hout idx o fun hin => h ⟨trivial, hin⟩) next

/-- The answer is that of the arrays, which go on agreeing with the links at offsets that are apart
from the one used or equal to it. -/
theorem result_arrays {a : LinkArrays} {o' : ℕ} (w : li.WF) (h : c.Inside li)
    (ho' : o' + 4 ≤ li.itemSize) (hsep : c.nextOffset = o' ∨ Apart c.nextOffset o')
    (ha : li.link o' = a o') : (c.result li).2.link o' = (a.step c).2 o' := by
  cases c with
  | set idx next o => exact link_set w h.1 h.2 ho' hsep ha
  | get idx o => exact ha
  | setAddr idx next o => exact link_set w h.1 h.2 ho' hsep ha

theorem answer_arrays {a : LinkArrays} (ha : li.link c.nextOffset = a c.nextOffset) :
    (c.result li).1 = (a.step c).1 := by
  cases c with
  | set idx next o => rfl
  | get idx o => exact congrArg some (congrFun ha idx)
  | setAddr idx next o => rfl

end

end Access

/-! ## Runs of accesses -/

section Runs

variable {li : ListInfo} (w : li.WF) {calls : List Access} (hin : ∀ c ∈ calls, c.Inside li)

include w hin

/-- The accesses are legal, also for an environment that makes no others. -/
theorem legal_accesses : (accessMachine.guard fun _ c => c ∈ calls).Legal li calls := by
  have hstep : ∀ li' c, SameLayout li li' → c ∈ calls →
      (accessMachine.guard fun _ c => c ∈ calls).allowed li' c ∧
        (accessMachine.step li' c).Ends fun r => SameLayout li r.2 := by
    intro li' c h hc
    have hinside := (Access.inside_congr h).mpr (hin c hc)
    exact ⟨⟨hinside, hc⟩, .of_eq (Access.step_ok h.wf hinside) (Access.result_sameLayout h)⟩
  exact Machine.legal_of_forall hstep ⟨w, rfl, rfl⟩ fun c hc => hc

/-- The bytes that no access writes are kept. -/
theorem run_bytes : (accessMachine.run li calls).Ends fun r =>
    ∀ a, (∀ c ∈ calls, ¬c.Writes li a) →
      Block.byte r.2.itemBase a = Block.byte li.itemBase a := by
  let inv : ListInfo → Prop := fun li' => SameLayout li li' ∧
    ∀ a, (∀ c ∈ calls, ¬c.Writes li a) → Block.byte li'.itemBase a = Block.byte li.itemBase a
  have hinit : inv li := ⟨⟨w, rfl, rfl⟩, fun _ _ => rfl⟩
  rw [← Machine.run_guard (fun _ c => c ∈ calls)]
  refine (Machine.run_inv ?_ hinit (legal_accesses w hin)).mono fun r h => h.2
  rintro li' c ⟨h, hbyte⟩ ⟨hinside, hc⟩
  refine .of_eq (Access.step_ok h.wf hinside) ⟨Access.result_sameLayout h, fun a ha => ?_⟩
  have hkept : ¬c.Writes li' a := by
    unfold Access.Writes
    rw [h.itemSize]
    exact ha c hc
  exact (Access.byte_result hkept).trans (hbyte a ha)

/-- The answers are those of the arrays that start as the links. -/
theorem run_answers (hsep : Separate calls) : (accessMachine.run li calls).Ends fun r =>
    r.1 = (Machine.specRun LinkArrays.step li.link calls).1 := by
  let rel : ListInfo → LinkArrays → Prop := fun li' a => SameLayout li li' ∧
    ∀ c ∈ calls, li'.link c.nextOffset = a c.nextOffset
  have hinit : rel li li.link := ⟨⟨w, rfl, rfl⟩, fun _ _ => rfl⟩
  rw [← Machine.run_guard (fun _ c => c ∈ calls)]
  refine (Machine.run_sim ?_ hinit (legal_accesses w hin)).mono fun r h => h.1
  rintro li' a c ⟨h, hlink⟩ ⟨hinside, hc⟩
  refine .of_eq (Access.step_ok h.wf hinside) ⟨Access.answer_arrays (hlink c hc), ?_⟩
  refine ⟨Access.result_sameLayout h, fun c' hc' => ?_⟩
  exact Access.result_arrays h.wf hinside ((Access.inside_congr h).mpr (hin c' hc')).2
    (hsep c hc c' hc') (hlink c' hc')

end Runs

/-! ## The list operations -/

/-- Only bytes of the fields at offset `o` have changed. -/
def OnlyFields (o : ℕ) (li li' : ListInfo) : Prop :=
  ∀ a, (∀ i, a < i * li.itemSize + o ∨ i * li.itemSize + o + 4 ≤ a) →
    Block.byte li'.itemBase a = Block.byte li.itemBase a

/-- An index that stands for an item, or for the end of a list. -/
def InPool (li : ListInfo) (i : ℕ) : Prop := i ≠ invalidListHead → i < li.itemTotal

theorem Frame.onlyFields {o : ℕ} {li li' : ListInfo} {P : ℕ → Prop} (F : Frame o li li' P) :
    OnlyFields o li li' := fun _ => F.byte

/-- Some link at offset `o` is written. -/
theorem frame_setLink {o : ℕ} {li : ListInfo} (ho : o + 4 ≤ li.itemSize) (i v : ℕ) :
    Frame o li (li.setLink o i v) fun _ => True :=
  (Frame.setLink ho i v).mono fun _ _ => trivial

section Operations

variable {li : ListInfo} (w : li.WF)

include w

theorem frame_linkedUp (i k : ℕ) : Frame li.poolField li (linkedUp li i k) fun _ => True := by
  induction k generalizing li i with
  | zero => exact Frame.refl ..
  | succ k ih => exact (frame_setLink w.poolField_le i (i + 1)).trans (ih w.setLink (i + 1))

theorem frame_initialised : Frame li.poolField li (initialised li) fun _ => True := by
  have hloop := frame_linkedUp (w.withFree (h := 0) (t := li.itemTotal - 1)) 0 li.itemTotal
  refine (((Frame.refl ..).withFree 0 (li.itemTotal - 1)).trans hloop).trans ?_
  refine frame_setLink ?_ (li.itemTotal - 1) invalidListHead
  rw [itemSize_linkedUp]
  exact w.poolField_le

theorem alloc_frame (hh : InPool li li.freeHead) :
    (listAllocItem li).Ends fun r => Frame li.poolField li r.2 fun _ => True := by
  by_cases hne : li.freeHead = invalidListHead
  · unfold listAllocItem
    rw [if_pos hne]
    exact .of_eq rfl (Frame.refl ..)
  · exact .of_eq (listAllocItem_ok w hne (hh hne))
      ((frame_setLink w.poolField_le _ _).withFree _ _)

theorem free_frame {idx : ℕ} (hi : idx < li.itemTotal)
    (ht : li.freeHead ≠ invalidListHead → li.freeTail < li.itemTotal) :
    (listFreeItem li idx).Ends fun li' => Frame li.poolField li li' fun _ => True := by
  by_cases hne : li.freeHead = invalidListHead
  · exact .of_eq (listFreeItem_of_eq w hne hi)
      ((frame_setLink w.poolField_le _ _).withFree _ _)
  · have hw : (li.setLink li.poolField li.freeTail idx).WF := w.setLink
    exact .of_eq (listFreeItem_of_ne w hne (ht hne) hi)
      (((frame_setLink w.poolField_le _ _).trans
        (frame_setLink hw.poolField_le _ _)).withFree _ _)

variable {δ : Type} (isSame : IsSameItem δ) (data : δ) {o : ℕ} (ho : o + 4 ≤ li.itemSize)
  (hlinks : ∀ i < li.itemTotal, InPool li (li.link o i))

include ho hlinks

theorem unlinkLoop_frame {fuel head : ℕ} (hh : head < li.itemTotal) :
    (unlinkLoop isSame li data o fuel head).Safe fun r => Frame o li r.2 fun _ => True := by
  induction fuel generalizing head with
  | zero => exact Outcome.safe_diverge
  | succ fuel ih =>
    rw [unlinkLoop, itemGetNext2_ok w ho hh, Outcome.ok_bind]
    by_cases hne : li.link o head = invalidListHead
    · rw [if_neg (not_not_intro hne)]
      exact Frame.refl ..
    · have hcur := hlinks head hh hne
      rw [if_pos hne]
      cases isSame li (li.link o head) data with
      | true =>
        have hw : (li.setLink o head (li.link o (li.link o head))).WF := w.setLink
        rw [if_pos rfl, itemGetNext2_ok w ho hcur, Outcome.ok_bind, itemSetNext2_ok w ho hh,
          Outcome.ok_bind, itemSetNext2_ok hw ho hcur]
        exact (frame_setLink ho _ _).trans (frame_setLink (by exact ho) _ _)
      | false =>
        rw [if_neg Bool.false_ne_true]
        exact ih hcur

end Operations

section Table

variable {δ : Type} (isSame : IsSameItem δ) (data : δ) {s : Lists} {o b : ℕ}

theorem unlink_frame (w : s.info.WF) (ho : o + 4 ≤ s.info.itemSize)
    (hlinks : ∀ i < s.info.itemTotal, InPool s.info (s.info.link o i)) (hb : b < s.itb.length)
    (hh : InPool s.info (s.itb.getD b invalidListHead)) :
    (indexListUnlink2 isSame s b data o).Safe fun r =>
      Frame o s.info r.2.info fun _ => True := by
  unfold indexListUnlink2
  rw [head_eq hb]
  by_cases hne : s.itb.getD b invalidListHead = invalidListHead
  · simp only [hne, ne_eq, not_true_eq_false, if_false]
    exact Frame.refl ..
  · have hlt := hh hne
    simp only [ne_eq, hne, not_false_eq_true, if_true]
    cases isSame s.info (s.itb.getD b invalidListHead) data with
    | true =>
      rw [if_pos rfl, itemGetNext2_ok w ho hlt, Outcome.ok_bind, itemSetNext2_ok w ho hlt]
      exact frame_setLink ho _ _
    | false =>
      rw [if_neg Bool.false_ne_true]
      exact (unlinkLoop_frame w isSame data ho hlinks hlt).bind fun r hr => hr

theorem doLink_frame (w : s.info.WF) (ho : o + 4 ≤ s.info.itemSize) {i : ℕ}
    (hi : i < s.info.itemTotal) (new : ℕ) :
    (indexListDoLink s (.next (itemGetNextAddr2 s.info i o)) new).Ends fun s' =>
      Frame o s.info s'.info fun _ => True := by
  refine .of_eq (a := { s with info := s.info.setLink o i new }) ?_ (frame_setLink ho i new)
  simp only [indexListDoLink, itemGetNextAddr2_eq w ho hi, Block.store32_ok (w.inside ho hi)]
  rfl

end Table

/-! ## The result -/

/-- The bytes of the pool are arrays of links: accesses to the items end, they are answered by the
arrays if their offsets are equal or apart, and bytes that they do not write are kept. -/
def ArraysOfLinks (li : ListInfo) : Prop :=
  ∀ calls : List Access, (∀ c ∈ calls, c.Inside li) → (accessMachine.run li calls).Ends fun r =>
    (Separate calls → r.1 = (Machine.specRun LinkArrays.step li.link calls).1) ∧
      ∀ a, (∀ c ∈ calls, ¬c.Writes li a) →
        Block.byte r.2.itemBase a = Block.byte li.itemBase a

/-- The operations change no payload byte. They are given items of the pool, and meet no link that
leads out of it. The loop of `list_info_init` is followed as far as its counter is defined. -/
structure PayloadKept (s : Lists) (o : ℕ) : Prop where
  init : 1 ≤ s.info.itemTotal →
    (s.info.itemTotal ≤ intMax →
      (listInfoInit s.info).Ends (OnlyFields s.info.poolField s.info)) ∧
    (∀ li, listInfoInit s.info = .ok li → OnlyFields s.info.poolField s.info li) ∧
    ∀ k, k ≤ s.info.itemTotal → k ≤ intMax → (listInfoInitLoop s.info 0 k).Ends fun r =>
      OnlyFields s.info.poolField s.info r.1
  alloc : InPool s.info s.info.freeHead → (listAllocItem s.info).Ends fun r =>
    OnlyFields s.info.poolField s.info r.2
  free : ∀ idx < s.info.itemTotal,
    (s.info.freeHead ≠ invalidListHead → s.info.freeTail < s.info.itemTotal) →
      (listFreeItem s.info idx).Ends (OnlyFields s.info.poolField s.info)
  doLink : ∀ new,
    (∀ b < s.itb.length, (indexListDoLink s (.idx b) new).Ends fun s' => s'.info = s.info) ∧
    ∀ i < s.info.itemTotal,
      (indexListDoLink s (.next (itemGetNextAddr2 s.info i o)) new).Ends fun s' =>
        OnlyFields o s.info s'.info
  unlink : ∀ {δ : Type} (isSame : IsSameItem δ) (data : δ) b, b < s.itb.length →
    InPool s.info (s.itb.getD b invalidListHead) →
    (∀ i < s.info.itemTotal, InPool s.info (s.info.link o i)) →
      (indexListUnlink2 isSame s b data o).Safe fun r => OnlyFields o s.info r.2.info

section

variable {s : Lists} {o : ℕ} (w : s.info.WF)

include w

theorem arraysOfLinks : ArraysOfLinks s.info := by
  intro calls hin
  obtain ⟨r, hr, hbytes⟩ := run_bytes w hin
  exact .of_eq hr ⟨fun hsep => (run_answers w hin hsep).value hr, hbytes⟩

/-- A run of `list_info_init` that ends has changed link fields only. -/
theorem init_onlyFields {li' : ListInfo} (h1 : 1 ≤ s.info.itemTotal)
    (h : listInfoInit s.info = .ok li') : OnlyFields s.info.poolField s.info li' := by
  by_cases hn : s.info.itemTotal ≤ intMax
  · cases (listInfoInit_ok w h1 hn).symm.trans h
    exact (frame_initialised w).onlyFields
  · cases (listInfoInit_large w (Nat.lt_of_not_le hn)).symm.trans h

theorem payloadKept (ho : o + 4 ≤ s.info.itemSize) : PayloadKept s o where
  init h1 := by
    refine ⟨fun hn => ?_, fun li' => init_onlyFields w h1, fun k hk hmax => ?_⟩
    · exact .of_eq (listInfoInit_ok w h1 hn) (frame_initialised w).onlyFields
    · refine .of_eq (listInfoInitLoop_ok w (i := 0) ?_ ?_) (frame_linkedUp w 0 k).onlyFields
      · omega
      · omega
  alloc hh := (alloc_frame w hh).mono fun _ => Frame.onlyFields
  free idx hi ht := (free_frame w hi ht).mono fun _ => Frame.onlyFields
  doLink new := by
    refine ⟨fun b hb => ?_, fun i hi => ?_⟩
    · exact .of_eq (if_pos hb) rfl
    · exact (doLink_frame w ho hi new).mono fun _ => Frame.onlyFields
  unlink isSame data b hb hh hlinks :=
    (unlink_frame isSame data w ho hlinks hb hh).mono fun _ => Frame.onlyFields

/-- **The pool is an array of links**, and the list operations write links only. -/
theorem pool_arrays (ho : o + 4 ≤ s.info.itemSize) : ArraysOfLinks s.info ∧ PayloadKept s o :=
  ⟨arraysOfLinks w, payloadKept w ho⟩

end

/-- Three items of eight bytes, with the pool's links in the second half and a bucket's in the
first. -/
theorem pool_arrays_sample : ArraysOfLinks twoFields.info ∧ PayloadKept twoFields 0 :=
  pool_arrays ⟨by decide, by decide, by decide⟩ (by decide)

end KernelGadgets.IndexList
