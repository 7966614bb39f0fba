import KernelGadgets.IndexList.KeyedTable

/-!
# Rolling a link back

A client links an item `x` into bucket `b`, goes on working elsewhere in the table, and unlinks `x`
again. Items linked into `b` in between stand behind `x`, so that it is taken out at the head,
inside or at the tail of the chain.

Two runs of the same calls are compared, one with `x` linked and one with `x` in the client's
hands. Their contents differ by `x` alone (`Without`), every call keeps that (`Without.step`), and
the machines answer alike (`Twin.step`). The unlink then makes the contents the same, and contents
determine the memory: the heads, the links and with the payloads every byte (`Owns.sameMemory`).

The match may read the payload of items, not their links (`PayloadOnly`).
-/

namespace KernelGadgets.IndexList

open ListInfo

/-! ## Layout and payloads -/

/-- The same layout and the same payloads. -/
structure Alike (li li' : ListInfo) : Prop where
  itemTotal : li'.itemTotal = li.itemTotal
  itemSize : li'.itemSize = li.itemSize
  nextOffset : li'.nextOffset = li.nextOffset
  payload : ∀ y, li'.payload y = li.payload y

namespace Alike

variable {li li' li'' : ListInfo}

theorem symm (h : Alike li li') : Alike li' li :=
  ⟨h.itemTotal.symm, h.itemSize.symm, h.nextOffset.symm, fun y => (h.payload y).symm⟩

theorem trans (h : Alike li li') (h' : Alike li' li'') : Alike li li'' where
  itemTotal := h'.itemTotal.trans h.itemTotal
  itemSize := h'.itemSize.trans h.itemSize
  nextOffset := h'.nextOffset.trans h.nextOffset
  payload y := (h'.payload y).trans (h.payload y)

theorem of_after {c c' : Client} (w : c.lists.info.WF) (A : After c.lists.info.poolField c c') :
    Alike c.lists.info c'.lists.info :=
  ⟨A.itemTotal, A.itemSize, A.nextOffset, payload_of_after w A⟩

theorem poolField (h : Alike li li') : li'.poolField = li.poolField := by
  unfold ListInfo.poolField; rw [h.nextOffset]

/-- Equal payloads and equal links are equal bytes. -/
theorem itemBase_eq (h : Alike li li') (w : li.WF) (w' : li'.WF)
    (hl : ∀ i < li.itemTotal, li'.link li.poolField i = li.link li.poolField i) :
    li'.itemBase = li.itemBase := by
  have hlen : li'.itemBase.length = li.itemBase.length := by
    rw [w'.size, w.size, h.itemTotal, h.itemSize]
  have hbyte : ∀ i < li.itemTotal, ∀ j < li.itemSize,
      Block.byte li'.itemBase (i * li.itemSize + j) =
        Block.byte li.itemBase (i * li.itemSize + j) := by
    intro i hi j hj
    by_cases ho : j < li.poolField ∨ li.poolField + 4 ≤ j
    · have hpay := congrFun (h.payload i) j
      unfold ListInfo.payload at hpay
      rwa [h.itemSize, h.poolField, if_pos ⟨hj, ho⟩, if_pos ⟨hj, ho⟩] at hpay
    · have hword := hl i hi
      unfold ListInfo.link at hword
      rw [h.itemSize] at hword
      obtain ⟨k, rfl⟩ : ∃ k, j = li.poolField + k := ⟨j - li.poolField, by omega⟩
      rw [← Nat.add_assoc]
      exact Block.byte_eq_of_word_eq hword (by omega)
  apply List.ext_getElem hlen
  intro a ha' ha
  have hsize : 0 < li.itemSize := by
    have := w.field
    omega
  have hi : a / li.itemSize < li.itemTotal := by
    rw [Nat.div_lt_iff_lt_mul hsize, ← w.size]
    exact ha
  have hb := hbyte _ hi _ (Nat.mod_lt a hsize)
  rwa [Nat.div_add_mod', Block.byte, Block.byte, List.getD_eq_getElem _ _ ha',
    List.getD_eq_getElem _ _ ha] at hb

end Alike

/-- Whether an item matches depends on the layout and the payloads. A match that read the links
would change with the link itself. -/
def PayloadOnly {δ : Type} (isSame : IsSameItem δ) : Prop :=
  ∀ {li li' : ListInfo}, Alike li li' → isSame li' = isSame li

/-- A match by key reads nothing but the payload. -/
theorem payloadOnly_sameKey {δ : Type} [DecidableEq δ] (keyOf : (ℕ → UInt8) → δ) :
    PayloadOnly (sameKey keyOf) := by
  intro li li' h
  funext pos data
  unfold sameKey
  rw [h.payload]

/-! ## Contents determine the memory -/

/-- The same heads, the same bytes and the same layout. The tail of an empty free list, which
nothing reads, may differ. -/
structure SameMemory (s s' : Lists) : Prop where
  itb : s'.itb = s.itb
  itemBase : s'.info.itemBase = s.info.itemBase
  itemTotal : s'.info.itemTotal = s.info.itemTotal
  itemSize : s'.info.itemSize = s.info.itemSize
  nextOffset : s'.info.nextOffset = s.info.nextOffset
  freeHead : s'.info.freeHead = s.info.freeHead
  freeTail : s.info.freeHead ≠ invalidListHead → s'.info.freeTail = s.info.freeTail

/-- Clients with the same free list and the same buckets have the same memory, as far as they see
the same payloads. -/
theorem Owns.sameMemory {c c' : Client} {a a' : Contents} (O : Owns c a) (O' : Owns c' a')
    (h : Alike c.lists.info c'.lists.info) (hlen : c'.lists.itb.length = c.lists.itb.length)
    (hfree : a'.free = a.free) (hbk : a'.bk = a.bk) : SameMemory c.lists c'.lists := by
  have R := O.holds.represents
  have R' := O'.holds.represents
  have hf := R'.freeList.chain
  have hb := R'.chain
  rw [h.poolField, hfree] at hf
  rw [h.poolField, hbk] at hb
  refine ⟨?_, h.itemBase_eq R.wf R'.wf ?_, h.itemTotal, h.itemSize, h.nextOffset,
    hf.head_unique R.freeList.chain, fun hne => ?_⟩
  · apply List.ext_getElem hlen
    intro b hb' hb''
    have hhead := (hb b).head_unique (R.chain b)
    rwa [List.getD_eq_getElem _ _ hb', List.getD_eq_getElem _ _ hb''] at hhead
  · intro i hi
    obtain ⟨p, hp⟩ := O.holds.ledger.cover.mp hi
    cases p with
    | free => exact hf.next_unique R.freeList.chain hp
    | bucket b => exact (hb b).next_unique (R.chain b) hp
    | held =>
      -- held there and on no list, the item is held here as well
      have hheld : i ∈ a'.place .held := by
        rw [← h.itemTotal] at hi
        obtain ⟨q, hq⟩ := O'.holds.ledger.cover.mp hi
        cases q with
        | held => exact hq
        | free =>
          have hq : i ∈ a'.free := hq
          rw [hfree] at hq
          exact absurd (O.holds.ledger.once (q := .free) hp hq) (by simp)
        | bucket b =>
          have hq : i ∈ a'.bk b := hq
          rw [hbk] at hq
          exact absurd (O.holds.ledger.once (q := .bucket b) hp hq) (by simp)
      have hp : i ∈ a.held := hp
      have hheld : i ∈ a'.held := hheld
      rw [← O.holds.held] at hp
      rw [← O'.holds.held] at hheld
      have hreset := O'.reset i hheld
      rw [h.poolField] at hreset
      exact hreset.trans (O.reset i hp).symm
  · have hfree' : a.free ≠ [] := fun e => hne (R.freeList.chain.head_eq_nil_iff.mpr e)
    have hlast := List.dropLast_append_getLast hfree'
    exact (R'.freeList.tail (hfree.trans hlast.symm)).trans (R.freeList.tail hlast.symm).symm

/-! ## Two runs -/

/-- The contents `a₂` are `a₁`, but for the item `x` of bucket `b`, which is held. -/
structure Without (b x : ℕ) (a₁ a₂ : Contents) : Prop where
  mem : x ∈ a₁.bk b
  free : a₂.free = a₁.free
  held : a₂.held.Perm (x :: a₁.held)
  bucket : a₂.bk b = (a₁.bk b).erase x
  other : ∀ {b'}, b' ≠ b → a₂.bk b' = a₁.bk b'

section Without

variable {δ : Type} {same : ℕ → δ → Bool} {b x : ℕ} {a₁ a₂ : Contents}

/-- Every link finds a slot, and neither the bucket of `x` is unlinked from nor `x` itself linked or
freed. -/
def Contents.Aside (same : ℕ → δ → Bool) (b x : ℕ) (a : Contents) : Call δ → Prop
  | .alloc => True
  | .link b' data new => (a.bk b').any (same · data) = false ∧ new ≠ x
  | .unlink b' _ => b' ≠ b
  | .free idx => idx ≠ x

namespace Without

theorem bk_eq (h : Without b x a₁ a₂) : a₂.bk = Function.update a₁.bk b ((a₁.bk b).erase x) := by
  funext b'
  by_cases hb : b' = b
  · rw [hb, Function.update_self, h.bucket]
  · rw [Function.update_of_ne hb, h.other hb]

/-- An item other than `x` leaves the hands of both clients. -/
theorem held_erase (h : Without b x a₁ a₂) {y : ℕ} (hy : y ≠ x) :
    (a₂.held.erase y).Perm (x :: a₁.held.erase y) := by
  have he := h.held.erase y
  rwa [List.erase_cons_tail (by simpa using Ne.symm hy)] at he

/-- An item comes into the hands of both. -/
theorem held_cons (h : Without b x a₁ a₂) (y : ℕ) :
    (y :: a₂.held).Perm (x :: y :: a₁.held) :=
  (h.held.cons y).trans (List.Perm.swap x y a₁.held)

/-- The smaller bucket has fewer matches. -/
theorem any_eq_false (h : Without b x a₁ a₂) {b' : ℕ} {data : δ}
    (hany : (a₁.bk b').any (same · data) = false) : (a₂.bk b').any (same · data) = false := by
  rw [List.any_eq_false] at hany ⊢
  intro y hy
  apply hany y
  by_cases hb : b' = b
  · subst hb
    rw [h.bucket] at hy
    exact List.mem_of_mem_erase hy
  · rwa [h.other hb] at hy

/-- Another bucket is replaced by the same list. -/
theorem replace (h : Without b x a₁ a₂) {b' : ℕ} (hb : b' ≠ b) (xs : List ℕ) {held₁ held₂ : List ℕ}
    (hheld : held₂.Perm (x :: held₁)) :
    Without b x { a₁ with held := held₁, bk := Function.update a₁.bk b' xs }
      { a₂ with held := held₂, bk := Function.update a₂.bk b' xs } where
  mem := by
    show x ∈ Function.update a₁.bk b' xs b
    rw [Function.update_of_ne (Ne.symm hb)]
    exact h.mem
  free := h.free
  held := hheld
  bucket := by
    show Function.update a₂.bk b' xs b = (Function.update a₁.bk b' xs b).erase x
    rw [Function.update_of_ne (Ne.symm hb), Function.update_of_ne (Ne.symm hb), h.bucket]
  other {b''} hb'' := by
    show Function.update a₂.bk b' xs b'' = Function.update a₁.bk b' xs b''
    by_cases hbb : b'' = b'
    · rw [hbb, Function.update_self, Function.update_self]
    · rw [Function.update_of_ne hbb, Function.update_of_ne hbb, h.other hb'']

/-- An item is appended to the bucket of `x`: it stands behind `x`. -/
theorem append (h : Without b x a₁ a₂) (y : ℕ) {held₁ held₂ : List ℕ}
    (hheld : held₂.Perm (x :: held₁)) :
    Without b x { a₁ with held := held₁, bk := Function.update a₁.bk b (a₁.bk b ++ [y]) }
      { a₂ with held := held₂, bk := Function.update a₂.bk b (a₂.bk b ++ [y]) } where
  mem := by
    show x ∈ Function.update a₁.bk b (a₁.bk b ++ [y]) b
    rw [Function.update_self]
    exact List.mem_append_left _ h.mem
  free := h.free
  held := hheld
  bucket := by
    show Function.update a₂.bk b (a₂.bk b ++ [y]) b =
      (Function.update a₁.bk b (a₁.bk b ++ [y]) b).erase x
    rw [Function.update_self, Function.update_self, h.bucket, List.erase_append_left _ h.mem]
  other {b'} hb := by
    show Function.update a₂.bk b (a₂.bk b ++ [y]) b' = Function.update a₁.bk b (a₁.bk b ++ [y]) b'
    rw [Function.update_of_ne hb, Function.update_of_ne hb, h.other hb]

/-- **The step lemma of the contents.** A call aside from `x` has the same reply with `x` linked and
with `x` held, and leaves contents that differ by `x` alone. -/
theorem step (h : Without b x a₁ a₂) {call : Call δ} (hcall : a₁.Aside same b x call) :
    (a₂.step same call).1 = (a₁.step same call).1 ∧
      Without b x (a₁.step same call).2 (a₂.step same call).2 := by
  cases call with
  | alloc =>
    rcases hf : a₁.free with _ | ⟨y, ys⟩
    · have hf₂ := h.free.trans hf
      simp only [Contents.step, hf, hf₂]
      exact ⟨trivial, h⟩
    · have hf₂ := h.free.trans hf
      simp only [Contents.step, hf, hf₂]
      exact ⟨trivial, h.mem, rfl, h.held_cons y, h.bucket, h.other⟩
  | free idx =>
    refine ⟨rfl, h.mem, ?_, h.held_erase hcall, h.bucket, h.other⟩
    exact congrArg (· ++ [idx]) h.free
  | link b' data new =>
    obtain ⟨hany, hne⟩ := hcall
    rw [Contents.step_link hany, Contents.step_link (h.any_eq_false hany)]
    refine ⟨rfl, ?_⟩
    by_cases hb : b' = b
    · subst hb
      exact h.append new (h.held_erase hne)
    · rw [h.other hb]
      exact h.replace hb _ (h.held_erase hne)
  | unlink b' data =>
    have hb : b' ≠ b := hcall
    have hsame := h.other hb
    cases hf : (a₁.bk b').find? (same · data) with
    | none =>
      rw [Contents.step_unlink_none hf, Contents.step_unlink_none (hsame ▸ hf)]
      exact ⟨rfl, h⟩
    | some y =>
      rw [Contents.step_unlink_some hf, Contents.step_unlink_some (hsame ▸ hf), hsame]
      exact ⟨rfl, h.replace hb _ (h.held_cons y)⟩

end Without

/-- Only a link into the bucket adds an item to it. -/
theorem Contents.mem_step_bk {a : Contents} {call : Call δ} {y : ℕ} (hcall : a.Aside same b x call)
    (hy : y ∈ (a.step same call).2.bk b) : y ∈ a.bk b ∨ ∃ data, call = .link b data y := by
  cases call with
  | alloc =>
    rw [Contents.step_alloc_bk] at hy
    exact .inl hy
  | free idx => exact .inl hy
  | link b' data new =>
    rw [Contents.step_link hcall.1] at hy
    rcases mem_update hy with ⟨rfl, hy⟩ | ⟨-, hy⟩
    · rcases List.mem_append.mp hy with hy | hy
      · exact .inl hy
      · exact .inr ⟨data, by rw [List.mem_singleton.mp hy]⟩
    · exact .inl hy
  | unlink b' data =>
    have hb : b ≠ b' := Ne.symm hcall
    cases hf : (a.bk b').find? (same · data) with
    | none =>
      rw [Contents.step_unlink_none hf] at hy
      exact .inl hy
    | some z =>
      rw [Contents.step_unlink_some hf] at hy
      refine .inl ?_
      have hy : y ∈ Function.update a.bk b' _ b := hy
      rwa [Function.update_of_ne hb] at hy

end Without

/-! ## The two machines -/

section Twin

variable {δ : Type} (isSame : IsSameItem δ) (b : ℕ) (data : δ)

/-- The calls in between: a link finds a slot, and into bucket `b` goes no item that matches `data`;
no unlink is from `b`. -/
def Aside (c : Client) : Call δ → Prop
  | .alloc => True
  | .link b' data' new => indexListPrelink isSame c.lists b' data' ≠ .ok none ∧
      (b' = b → isSame c.lists.info new data = false)
  | .unlink b' _ => b' ≠ b
  | .free _ => True

instance decidableAside (c : Client) : ∀ call, Decidable (Aside isSame b data c call)
  | .alloc => .isTrue trivial
  | .link _ _ _ => inferInstanceAs (Decidable (¬ _ = _ ∧ (_ → _ = _)))
  | .unlink b' _ => inferInstanceAs (Decidable (b' ≠ b))
  | .free _ => .isTrue trivial

/-- One client has linked `x`, the only match of bucket `b`, which the other one holds. -/
structure Twin (x : ℕ) (c₁ c₂ : Client) (a₁ a₂ : Contents) : Prop where
  linked : Owns c₁ a₁
  held : Owns c₂ a₂
  alike : Alike c₁.lists.info c₂.lists.info
  length : c₂.lists.itb.length = c₁.lists.itb.length
  inTable : b < c₁.lists.itb.length
  without : Without b x a₁ a₂
  only : ∀ y ∈ a₁.bk b, isSame c₁.lists.info y data = true ↔ y = x

variable {isSame b data} {x : ℕ} {c c₁ c₂ : Client} {a a₁ a₂ : Contents}

/-- A prelink finds a slot exactly when nothing in the bucket matches. -/
theorem Owns.prelink_slot (O : Owns c a) {b' : ℕ} (hb : b' < c.lists.itb.length) {data' : δ}
    (h : indexListPrelink isSame c.lists b' data' ≠ .ok none) :
    (a.bk b').any (isSame c.lists.info · data') = false := by
  have hp := O.holds.represents.prelink isSame hb data' (u32OfInt_cInt c.lists.info.nextOffset)
  rw [Bool.eq_false_iff]
  intro hany
  rw [if_pos hany] at hp
  exact h hp

namespace Twin

theorem aside (T : Twin isSame b data x c₁ c₂ a₁ a₂) {call : Call δ} (hcall : clientAllowed c₁ call)
    (haside : Aside isSame b data c₁ call) : a₁.Aside (isSame c₁.lists.info) b x call := by
  have hne : ∀ y ∈ c₁.held, y ≠ x := fun y hy e =>
    (T.linked.holds.loose hy).notLinked b (e ▸ T.without.mem)
  cases call with
  | alloc => trivial
  | link b' data' new => exact ⟨T.linked.prelink_slot hcall.1 haside.1, hne new hcall.2⟩
  | unlink b' data' => exact haside
  | free idx => exact hne idx hcall

theorem allowed (T : Twin isSame b data x c₁ c₂ a₁ a₂) {call : Call δ}
    (hcall : clientAllowed c₁ call) : clientAllowed c₂ call := by
  have hlen := T.length
  have hheld : ∀ y ∈ c₁.held, y ∈ c₂.held := by
    intro y hy
    rw [T.linked.holds.held] at hy
    rw [T.held.holds.held, T.without.held.mem_iff]
    exact List.mem_cons_of_mem _ hy
  cases call with
  | alloc => trivial
  | link b' data' new => exact ⟨hlen ▸ hcall.1, hheld new hcall.2⟩
  | unlink b' data' => exact Nat.lt_of_lt_of_eq hcall hlen.symm
  | free idx => exact hheld idx hcall

/-- **The step lemma.** A call in between has the same reply in both runs. -/
theorem step (hpo : PayloadOnly isSame) (T : Twin isSame b data x c₁ c₂ a₁ a₂) {call : Call δ}
    (hcall : clientAllowed c₁ call) (haside : Aside isSame b data c₁ call) :
    ∃ r c₁' c₂', (clientMachine isSame).step c₁ call = .ok (r, c₁') ∧
      (clientMachine isSame).step c₂ call = .ok (r, c₂') ∧
        ∃ a₁' a₂', Twin isSame b data x c₁' c₂' a₁' a₂' := by
  have hcs := T.aside hcall haside
  obtain ⟨⟨r₁, c₁'⟩, hs₁, hr₁, O₁, A₁⟩ := T.linked.step isSame hcall
  obtain ⟨⟨r₂, c₂'⟩, hs₂, hr₂, O₂, A₂⟩ := T.held.step isSame (T.allowed hcall)
  rw [hpo T.alike] at hr₂ O₂
  obtain ⟨hr, hw⟩ := T.without.step hcs
  have hr : r₂ = r₁ := hr₂.trans (hr.trans hr₁.symm)
  have h₁ := Alike.of_after T.linked.holds.represents.wf A₁
  have h₂ := Alike.of_after T.held.holds.represents.wf A₂
  have hin : b < c₁'.lists.itb.length := Nat.lt_of_lt_of_eq T.inTable A₁.length.symm
  have hlen : c₂'.lists.itb.length = c₁'.lists.itb.length :=
    A₂.length.trans (T.length.trans A₁.length.symm)
  have halike := h₁.symm.trans (T.alike.trans h₂)
  refine ⟨r₁, c₁', c₂', hs₁, hr ▸ hs₂, _, _, O₁, O₂, halike, hlen, hin, hw, ?_⟩
  intro y hy
  rw [hpo h₁]
  rcases Contents.mem_step_bk hcs hy with hy | ⟨data', rfl⟩
  · exact T.only y hy
  · rw [haside.2 rfl]
    exact iff_of_false Bool.false_ne_true hcs.2

/-- Where a prelink finds a slot, the do-link of a matching item held starts such a pair. -/
theorem start (O : Owns c a) (hpo : PayloadOnly isSame) (hb : b < c.lists.itb.length) {slot : Slot}
    (hslot : indexListPrelink isSame c.lists b data = .ok (some slot)) (hx : x ∈ c.held)
    (hmatch : isSame c.lists.info x data = true) :
    ∃ lists, indexListDoLink c.lists slot x = .ok lists ∧
      ∃ a₁, Twin isSame b data x ⟨lists, c.held.erase x⟩ c a₁ a := by
  have hne : indexListPrelink isSame c.lists b data ≠ .ok none := by
    rw [hslot]
    simp
  have hany := O.prelink_slot hb hne
  have hcall : clientAllowed c (.link b data x) := ⟨hb, hx⟩
  obtain ⟨⟨r, c₁⟩, hs, -, O₁, A⟩ := O.step isSame hcall
  -- the step is the prelink, which found the slot, and the do-link
  have hs : (indexListPrelink isSame c.lists b data >>= fun slot => _) = _ := hs
  rw [hslot, Outcome.ok_bind] at hs
  obtain ⟨lists, hd, hs⟩ := Outcome.bind_eq_ok.mp hs
  obtain ⟨-, rfl⟩ := Prod.mk.inj (Outcome.ok.inj hs)
  rw [Contents.step_link hany] at O₁
  have h := Alike.of_after O.holds.represents.wf A
  have hnew : x ∉ a.bk b := (O.holds.loose hx).notLinked b
  have hxa : x ∈ a.held := O.holds.mem_held hx
  have hin : b < lists.itb.length := Nat.lt_of_lt_of_eq hb A.length.symm
  refine ⟨lists, hd, _, O₁, O, h.symm, A.length.symm, hin, ⟨?_, rfl, List.perm_cons_erase hxa, ?_, ?_⟩, ?_⟩
  · show x ∈ Function.update a.bk b (a.bk b ++ [x]) b
    rw [Function.update_self]
    exact List.mem_append_right _ (List.mem_singleton.mpr rfl)
  · show a.bk b = (Function.update a.bk b (a.bk b ++ [x]) b).erase x
    rw [Function.update_self, List.erase_append_right _ hnew, List.erase_cons_head,
      List.append_nil]
  · intro b' hb'
    exact (Function.update_of_ne hb' _ _).symm
  · intro y hy
    have hy : y ∈ Function.update a.bk b (a.bk b ++ [x]) b := hy
    rw [Function.update_self, List.mem_append, List.mem_singleton] at hy
    rw [hpo h]
    rcases hy with hy | rfl
    · have hno := List.any_eq_false.mp hany y hy
      exact iff_of_false hno fun e => hnew (e ▸ hy)
    · exact iff_of_true hmatch rfl

/-- The unlink returns `x` and leaves the memory of the client that had held it all along. -/
theorem finish (T : Twin isSame b data x c₁ c₂ a₁ a₂) : ∃ lists,
    indexListUnlink isSame c₁.lists b data = .ok (x, lists) ∧ SameMemory c₂.lists lists := by
  have hmatch := (T.only x T.without.mem).mpr rfl
  have hfind : (a₁.bk b).find? (isSame c₁.lists.info · data) = some x := by
    cases hf : (a₁.bk b).find? (isSame c₁.lists.info · data) with
    | none => exact absurd hmatch (List.find?_eq_none.mp hf x T.without.mem)
    | some y =>
      have hy := List.mem_of_find?_eq_some hf
      have hm := List.find?_some (p := fun y => isSame c₁.lists.info y data) hf
      rw [(T.only y hy).mp hm]
  have hcall : clientAllowed c₁ (.unlink b data) := T.inTable
  obtain ⟨⟨r, c'⟩, hs, hr, O', A⟩ := T.linked.step isSame hcall
  rw [Contents.step_unlink_some hfind] at hr O'
  obtain ⟨⟨y, lists⟩, hu, hs⟩ := Outcome.bind_eq_ok.mp hs
  obtain ⟨rfl, rfl⟩ := Prod.mk.inj (Outcome.ok.inj hs)
  obtain rfl : y = x := Reply.item.inj hr
  have h := Alike.of_after T.linked.holds.represents.wf A
  have hlen : lists.itb.length = c₂.lists.itb.length := A.length.trans T.length.symm
  exact ⟨lists, hu, T.held.sameMemory O' (T.alike.symm.trans h) hlen T.without.free.symm
    T.without.bk_eq.symm⟩

end Twin

end Twin

/-! ## Reachable states -/

section Writer

variable {δ : Type} (isSame : IsSameItem δ)

/-- A client that uses the library and writes the payload of items it holds. -/
def writerStep (c : Client) : KeyedCall δ → Outcome (Option Reply × Client)
  | .lib call => do
    let (r, c) ← (clientMachine isSame).step c call
    return (some r, c)
  | .write idx j v => do
    let base ← Block.store c.lists.info.itemBase (idx * c.lists.info.itemSize + j) v
    return (none, { c with lists.info.itemBase := base })

def writerAllowed (c : Client) : KeyedCall δ → Prop
  | .lib call => clientAllowed c call
  | .write idx j _ => idx ∈ c.held ∧ j < c.lists.info.itemSize ∧
      (j < c.lists.info.poolField ∨ c.lists.info.poolField + 4 ≤ j)

def writerMachine : Machine Client (KeyedCall δ) (Option Reply) where
  allowed := writerAllowed
  step := writerStep isSame

instance (c : Client) (call : KeyedCall δ) : Decidable ((writerMachine isSame).allowed c call) := by
  rcases call with (_ | _ | _ | _) | _ <;> unfold writerMachine writerAllowed <;> infer_instance

variable {c : Client} {a : Contents}

/-- **The step lemma.** A client that writes payloads keeps owning its items. -/
theorem writer_step (O : Owns c a) {call : KeyedCall δ} (hcall : writerAllowed c call) :
    ((writerMachine isSame).step c call).Ends fun r =>
      (∃ a', Owns r.2 a') ∧ r.2.lists.itb.length = c.lists.itb.length := by
  show (writerStep isSame c call).Ends _
  cases call with
  | lib call =>
    obtain ⟨⟨r, c'⟩, hs, -, O', A⟩ := O.step isSame hcall
    rw [writerStep, hs]
    exact .of_eq rfl ⟨⟨_, O'⟩, A.length⟩
  | write idx j v =>
    obtain ⟨hheld, hj, ha⟩ := hcall
    rw [writerStep, Block.store_ok (O.byte_inside hheld hj)]
    exact .of_eq rfl ⟨⟨a, O.setByte hj ha v⟩, rfl⟩

/-- The run lemma. -/
theorem run_writer (O : Owns c a) {calls : List (KeyedCall δ)}
    (hl : (writerMachine isSame).Legal c calls) : ((writerMachine isSame).run c calls).Ends fun r =>
      (∃ a', Owns r.2 a') ∧ r.2.lists.itb.length = c.lists.itb.length := by
  let inv : Client → Prop := fun c' => (∃ a', Owns c' a') ∧ c'.lists.itb.length = c.lists.itb.length
  have hinv : inv c := ⟨⟨a, O⟩, rfl⟩
  refine Machine.run_inv ?_ hinv hl
  rintro c' call ⟨⟨a', O'⟩, hlen⟩ hcall
  refine (writer_step isSame O' hcall).mono ?_
  rintro ⟨r, c''⟩ ⟨hO, hlen'⟩
  exact ⟨hO, hlen'.trans hlen⟩

/-- **Rolling a link back.** In every state a client reaches, a do-link of a matching item into the
slot of a prelink is undone by the unlink, whatever is linked, unlinked, allocated or freed aside
from it in between. The calls in between have the replies, and the unlink leaves the memory, of the
run of these calls alone. -/
theorem link_rolls_back (hpo : PayloadOnly isSame) {li : ListInfo} {itb : List ℕ} {c₀ : Client}
    (w : li.WF) (h1 : 1 ≤ li.itemTotal) (hn : li.itemTotal ≤ intMax) (h : setUp li itb = .ok c₀)
    {calls : List (KeyedCall δ)} (hl : (writerMachine isSame).Legal c₀ calls)
    {rs : List (Option Reply)} (hr : (writerMachine isSame).run c₀ calls = .ok (rs, c)) {b : ℕ}
    (hb : b < itb.length) {data : δ} {slot : Slot}
    (hslot : indexListPrelink isSame c.lists b data = .ok (some slot)) {x : ℕ} (hx : x ∈ c.held)
    (hmatch : isSame c.lists.info x data = true) :
    ∃ lists, indexListDoLink c.lists slot x = .ok lists ∧
      ∀ ops, ((clientMachine isSame).guard (Aside isSame b data)).Legal ⟨lists, c.held.erase x⟩ ops →
        (clientMachine isSame).Legal c ops ∧ ∃ os c₁ c₂ lists',
          (clientMachine isSame).run ⟨lists, c.held.erase x⟩ ops = .ok (os, c₁) ∧
          (clientMachine isSame).run c ops = .ok (os, c₂) ∧
          indexListUnlink isSame c₁.lists b data = .ok (x, lists') ∧
          SameMemory c₂.lists lists' := by
  obtain ⟨-, -, hlen, -⟩ := setUp_eq w h1 hn h
  obtain ⟨⟨rs', c'⟩, hr', ⟨a, O⟩, hlen'⟩ := run_writer isSame (Owns.setUp w h1 hn h) hl
  obtain ⟨-, rfl⟩ := Prod.mk.inj (Outcome.ok.inj (hr'.symm.trans hr))
  have hbt : b < c'.lists.itb.length := by
    rw [hlen', hlen]
    exact hb
  obtain ⟨lists, hd, a₁, T⟩ := Twin.start O hpo hbt hslot hx hmatch
  refine ⟨lists, hd, fun ops hops => ?_⟩
  let rel : Client → Client → Prop := fun c₁ c₂ => ∃ a₁ a₂, Twin isSame b data x c₁ c₂ a₁ a₂
  have hstep : ∀ c₁ c₂ call, rel c₁ c₂ →
      ((clientMachine isSame).guard (Aside isSame b data)).allowed c₁ call →
      (clientMachine isSame).allowed c₂ call ∧ ∃ r c₁' c₂',
        ((clientMachine isSame).guard (Aside isSame b data)).step c₁ call = .ok (r, c₁') ∧
        (clientMachine isSame).step c₂ call = .ok (r, c₂') ∧ rel c₁' c₂' := by
    rintro c₁ c₂ call ⟨a₁, a₂, T⟩ ⟨hcall, haside⟩
    exact ⟨T.allowed hcall, T.step hpo hcall haside⟩
  have hrel : rel ⟨lists, c'.held.erase x⟩ c' := ⟨a₁, a, T⟩
  obtain ⟨hl₂, os, c₁, c₂, hr₁, hr₂, a₁', a₂', T'⟩ := Machine.run_lockstep hstep hrel hops
  rw [Machine.run_guard] at hr₁
  obtain ⟨lists', hu, hmem⟩ := T'.finish
  exact ⟨hl₂, os, c₁, c₂, lists', hr₁, hr₂, hu, hmem⟩

end Writer

/-- The client of `sampleClient` holding both items, with the keys 42 and 43 in them. -/
def keyedClient : Client where
  lists := ⟨{ sampleInfo with
    itemBase := [42, 7, 7, 7, 255, 255, 255, 255, 43, 7, 7, 7, 255, 255, 255, 255]
    freeHead := invalidListHead
    freeTail := invalidListHead }, [invalidListHead, invalidListHead]⟩
  held := [1, 0]

/-- Item 1 is linked behind item 0, which is then taken out at the head. -/
theorem link_rolls_back_sample : ∃ lists,
    indexListDoLink keyedClient.lists (.idx 0) 0 = .ok lists ∧
      (clientMachine (sameKey (· 0))).Legal keyedClient [.link 0 43 1] ∧ ∃ os c₁ c₂ lists',
        (clientMachine (sameKey (· 0))).run ⟨lists, [1]⟩ [.link 0 43 1] = .ok (os, c₁) ∧
        (clientMachine (sameKey (· 0))).run keyedClient [.link 0 43 1] = .ok (os, c₂) ∧
        indexListUnlink (sameKey (· 0)) c₁.lists 0 42 = .ok (0, lists') ∧
        SameMemory c₂.lists lists' := by
  let calls : List (KeyedCall UInt8) := [.lib .alloc, .lib .alloc, .write 0 0 42, .write 1 0 43]
  have hr : (writerMachine (sameKey (· 0))).run sampleClient calls =
      .ok ([some (.item 0), some (.item 1), none, none], keyedClient) := by decide +kernel
  have hl : (writerMachine (sameKey (· 0))).Legal sampleClient calls := by decide +kernel
  have hslot : indexListPrelink (sameKey (· 0)) keyedClient.lists 0 (42 : UInt8) =
      .ok (some (.idx 0)) := by decide +kernel
  obtain ⟨lists, hd, hops⟩ := link_rolls_back (sameKey (· 0)) (payloadOnly_sameKey (· 0))
    sampleInfo_wf (by decide) (by decide) setUp_sample hl hr (by decide) hslot (x := 0)
    (by decide) (by decide +kernel)
  obtain rfl : lists = { keyedClient.lists with itb := [0, invalidListHead] } :=
    Outcome.ok.inj hd.symm
  exact ⟨_, hd, hops [.link 0 43 1] (by decide +kernel)⟩

end KernelGadgets.IndexList
