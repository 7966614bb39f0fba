import KernelGadgets.Lib.Ledger
import KernelGadgets.Lib.Machine
import KernelGadgets.IndexList.Represents

/-!
# A client of the pool and the table

A client allocates items, links those it holds into buckets, unlinks by a match and frees what it
holds. `clientMachine` runs its calls on the pool and the table; `clientMachine2` does so with the
search functions that take a link field of their own.

`Contents` is what these calls are about: the free list, the items held, the bucket lists. A call
is a change of contents (`Contents.step`), and the code follows it: `Holds o c a` relates a client
`c` to contents `a`, and `step_sim` shows that every call gives the reply of `Contents.step` and
leaves related states, provided the item of a link has its field reset.
-/

namespace KernelGadgets.IndexList

open ListInfo

/-- The lists, and the items the client holds. -/
structure Client where
  lists : Lists
  held : List ℕ
  deriving DecidableEq, Repr

/-- What a client may ask for. A link is a prelink and, where that finds a slot, the do-link of the
item into it. -/
inductive Call (δ : Type) where
  | alloc
  | link (b : ℕ) (data : δ) (new : ℕ)
  | unlink (b : ℕ) (data : δ)
  | free (idx : ℕ)
  deriving DecidableEq, Repr

inductive Reply where
  /-- The index returned by `list_alloc_item` or `index_list_unlink`. -/
  | item (idx : ℕ)
  /-- Whether the prelink found a slot. -/
  | linked (done : Bool)
  | freed
  deriving DecidableEq, Repr

/-- The items held after the library has returned the index `r`. -/
def hold (r : ℕ) (held : List ℕ) : List ℕ := if r = invalidListHead then held else r :: held

@[simp] theorem hold_invalid (held : List ℕ) : hold invalidListHead held = held := if_pos rfl

section Step

variable {δ : Type} (prelink : Lists → ℕ → δ → Outcome (Option Slot))
  (unlink : Lists → ℕ → δ → Outcome (ℕ × Lists))

def clientStep (c : Client) : Call δ → Outcome (Reply × Client)
  | .alloc => do
    let (r, info) ← listAllocItem c.lists.info
    return (.item r, ⟨{ c.lists with info := info }, hold r c.held⟩)
  | .link b data new => do
    let slot ← prelink c.lists b data
    match slot with
    | none => return (.linked false, c)
    | some slot =>
      let lists ← indexListDoLink c.lists slot new
      return (.linked true, ⟨lists, c.held.erase new⟩)
  | .unlink b data => do
    let (r, lists) ← unlink c.lists b data
    return (.item r, ⟨lists, hold r c.held⟩)
  | .free idx => do
    let info ← listFreeItem c.lists.info idx
    return (.freed, ⟨{ c.lists with info := info }, c.held.erase idx⟩)

variable {prelink unlink} {c : Client}

theorem clientStep_alloc {r : ℕ} {info : ListInfo}
    (h : listAllocItem c.lists.info = .ok (r, info)) : clientStep prelink unlink c .alloc =
      .ok (.item r, ⟨{ c.lists with info := info }, hold r c.held⟩) := by
  simp [clientStep, h]

theorem clientStep_link_null {b new : ℕ} {data : δ} (h : prelink c.lists b data = .ok none) :
    clientStep prelink unlink c (.link b data new) = .ok (.linked false, c) := by
  simp [clientStep, h]

theorem clientStep_link {b new : ℕ} {data : δ} {slot : Slot} {lists : Lists}
    (h : prelink c.lists b data = .ok (some slot))
    (hd : indexListDoLink c.lists slot new = .ok lists) :
    clientStep prelink unlink c (.link b data new) =
      .ok (.linked true, ⟨lists, c.held.erase new⟩) := by
  simp [clientStep, h, hd]

theorem clientStep_unlink {b r : ℕ} {data : δ} {lists : Lists}
    (h : unlink c.lists b data = .ok (r, lists)) :
    clientStep prelink unlink c (.unlink b data) = .ok (.item r, ⟨lists, hold r c.held⟩) := by
  simp [clientStep, h]

theorem clientStep_free {idx : ℕ} {info : ListInfo}
    (h : listFreeItem c.lists.info idx = .ok info) : clientStep prelink unlink c (.free idx) =
      .ok (.freed, ⟨{ c.lists with info := info }, c.held.erase idx⟩) := by
  simp [clientStep, h]

/-- The items held after a call with reply `r`. -/
def heldAfter (held : List ℕ) : Call δ → Reply → List ℕ
  | .alloc, .item r => hold r held
  | .unlink _ _, .item r => hold r held
  | .link _ _ new, .linked true => held.erase new
  | .free idx, .freed => held.erase idx
  | _, _ => held

/-- What a client holds decides nothing but what it holds afterwards. -/
theorem clientStep_held {lists : Lists} {held : List ℕ} {call : Call δ} {r : Reply} {c' : Client}
    (h : clientStep prelink unlink ⟨lists, held⟩ call = .ok (r, c')) :
    c'.held = heldAfter held call r ∧ ∀ held', clientStep prelink unlink ⟨lists, held'⟩ call =
      .ok (r, ⟨c'.lists, heldAfter held' call r⟩) := by
  cases call with
  | alloc =>
    obtain ⟨⟨x, info⟩, hx, h⟩ := Outcome.bind_eq_ok.mp h
    obtain ⟨rfl, rfl⟩ := Prod.mk.inj (Outcome.ok.inj h)
    exact ⟨rfl, fun _ => clientStep_alloc hx⟩
  | link b data new =>
    obtain ⟨_ | slot, hx, h⟩ := Outcome.bind_eq_ok.mp h
    · obtain ⟨rfl, rfl⟩ := Prod.mk.inj (Outcome.ok.inj h)
      exact ⟨rfl, fun _ => clientStep_link_null hx⟩
    · obtain ⟨lists', hd, h⟩ := Outcome.bind_eq_ok.mp h
      obtain ⟨rfl, rfl⟩ := Prod.mk.inj (Outcome.ok.inj h)
      exact ⟨rfl, fun _ => clientStep_link hx hd⟩
  | unlink b data =>
    obtain ⟨⟨x, lists'⟩, hx, h⟩ := Outcome.bind_eq_ok.mp h
    obtain ⟨rfl, rfl⟩ := Prod.mk.inj (Outcome.ok.inj h)
    exact ⟨rfl, fun _ => clientStep_unlink hx⟩
  | free idx =>
    obtain ⟨info, hx, h⟩ := Outcome.bind_eq_ok.mp h
    obtain ⟨rfl, rfl⟩ := Prod.mk.inj (Outcome.ok.inj h)
    exact ⟨rfl, fun _ => clientStep_free hx⟩

/-- A client links and frees only items it holds, and names buckets of the table. -/
def clientAllowed (c : Client) : Call δ → Prop
  | .alloc => True
  | .link b _ new => b < c.lists.itb.length ∧ new ∈ c.held
  | .unlink b _ => b < c.lists.itb.length
  | .free idx => idx ∈ c.held

instance (c : Client) : DecidablePred (clientAllowed (δ := δ) c) := fun call => by
  cases call <;> unfold clientAllowed <;> infer_instance

/-- The client that links through the field at `off`, which it passes to the functions with a `2`
as their `int` and `_u32` parameter. -/
def clientMachine2 (isSame : IsSameItem δ) (off : ℕ) : Machine Client (Call δ) Reply where
  allowed := clientAllowed
  step := clientStep (fun s b d => indexListPrelink2 isSame s b d (cInt off))
    (fun s b d => indexListUnlink2 isSame s b d (u32 off))

/-- The client that links through the field of the pool. -/
def clientMachine (isSame : IsSameItem δ) : Machine Client (Call δ) Reply where
  allowed := clientAllowed
  step := clientStep (indexListPrelink isSame) (indexListUnlink isSame)

instance (isSame : IsSameItem δ) (c : Client) (call : Call δ) :
    Decidable ((clientMachine isSame).allowed c call) :=
  inferInstanceAs (Decidable (clientAllowed c call))

instance (isSame : IsSameItem δ) (off : ℕ) (c : Client) (call : Call δ) :
    Decidable ((clientMachine2 isSame off).allowed c call) :=
  inferInstanceAs (Decidable (clientAllowed c call))

end Step

/-! ## Contents -/

/-- What is where: the free list, the items held, the buckets. -/
structure Contents where
  free : List ℕ
  held : List ℕ
  bk : ℕ → List ℕ

/-- Where an item can be. -/
inductive Place where
  | free
  | held
  | bucket (b : ℕ)
  deriving DecidableEq, Repr

namespace Contents

/-- The items at a place. -/
def place (a : Contents) : Place → List ℕ
  | .free => a.free
  | .held => a.held
  | .bucket b => a.bk b

/-- What a call makes of the contents, and its reply; `same i data` is the match. -/
def step {δ : Type} (same : ℕ → δ → Bool) (a : Contents) : Call δ → Reply × Contents
  | .alloc =>
    match a.free with
    | [] => (.item invalidListHead, a)
    | x :: xs => (.item x, { a with free := xs, held := x :: a.held })
  | .link b data new =>
    if (a.bk b).any (same · data) then (.linked false, a)
    else (.linked true, { a with
      held := a.held.erase new, bk := Function.update a.bk b (a.bk b ++ [new]) })
  | .unlink b data =>
    match (a.bk b).find? (same · data) with
    | none => (.item invalidListHead, a)
    | some c => (.item c, { a with
      held := c :: a.held, bk := Function.update a.bk b ((a.bk b).erase c) })
  | .free idx => (.freed, { a with free := a.free ++ [idx], held := a.held.erase idx })

section Step

variable {δ : Type} {same : ℕ → δ → Bool} {a : Contents} {b new : ℕ} {data : δ}

theorem step_link_null (h : (a.bk b).any (same · data) = true) :
    a.step same (.link b data new) = (.linked false, a) := if_pos h

theorem step_link (h : (a.bk b).any (same · data) = false) :
    a.step same (.link b data new) = (.linked true, { a with
      held := a.held.erase new, bk := Function.update a.bk b (a.bk b ++ [new]) }) :=
  if_neg (by rw [h]; exact Bool.false_ne_true)

theorem step_unlink_none (h : (a.bk b).find? (same · data) = none) :
    a.step same (.unlink b data) = (.item invalidListHead, a) := by
  rw [step, h]

theorem step_unlink_some {x : ℕ} (h : (a.bk b).find? (same · data) = some x) :
    a.step same (.unlink b data) = (.item x, { a with
      held := x :: a.held, bk := Function.update a.bk b ((a.bk b).erase x) }) := by
  rw [step, h]

/-- Only links and unlinks change buckets. -/
theorem step_alloc_bk (a : Contents) (same : ℕ → δ → Bool) : (a.step same .alloc).2.bk = a.bk := by
  rw [step]
  cases a.free <;> rfl

end Step

end Contents

/-- The client `c` works on the contents `a`: the lists represent them, and every index of the pool
is in exactly one place. -/
structure Holds (o : ℕ) (c : Client) (a : Contents) : Prop where
  represents : Represents o c.lists a.free a.bk
  held : c.held = a.held
  ledger : Ledger a.place (· < c.lists.info.itemTotal)

namespace Holds

variable {o : ℕ} {c : Client} {a : Contents}

theorem mem_held (H : Holds o c a) {i : ℕ} (hi : i ∈ c.held) : i ∈ a.place .held := by
  rw [H.held] at hi
  exact hi

theorem nodup_held (H : Holds o c a) : c.held.Nodup := by
  rw [H.held]
  exact H.ledger.nodup .held

theorem held_lt (H : Holds o c a) {i : ℕ} (hi : i ∈ c.held) : i < c.lists.info.itemTotal :=
  H.ledger.token (H.mem_held hi)

/-- An item held is on no list. -/
theorem loose (H : Holds o c a) {i : ℕ} (hi : i ∈ c.held) : Loose c.lists a.free a.bk i where
  lt := H.held_lt hi
  notFree := H.ledger.notMem_of_ne (q := .free) (H.mem_held hi) (by simp)
  notLinked b := H.ledger.notMem_of_ne (q := .bucket b) (H.mem_held hi) (by simp)

theorem hold_eq (H : Holds o c a) {x : ℕ} (hx : x < c.lists.info.itemTotal) :
    hold x c.held = x :: a.held := by
  have := H.represents.lt_invalid hx
  rw [hold, if_neg (by omega), H.held]

end Holds

/-- What a call keeps: the layout, the links of the items that stay held, and every byte outside
the link fields. An item that comes into the client's hands has one of its links reset. -/
structure After (o : ℕ) (c c' : Client) : Prop where
  itemTotal : c'.lists.info.itemTotal = c.lists.info.itemTotal
  itemSize : c'.lists.info.itemSize = c.lists.info.itemSize
  nextOffset : c'.lists.info.nextOffset = c.lists.info.nextOffset
  length : c'.lists.itb.length = c.lists.itb.length
  held : ∀ x ∈ c'.held, x ∈ c.held ∧ c'.lists.info.link o x = c.lists.info.link o x ∨
    c'.lists.info.link c.lists.info.poolField x = invalidListHead ∨
    c'.lists.info.link o x = invalidListHead
  byte : ∀ {a}, (∀ i, ∀ q ∈ [c.lists.info.poolField, o], a < i * c.lists.info.itemSize + q ∨
      i * c.lists.info.itemSize + q + 4 ≤ a) →
    Block.byte c'.lists.info.itemBase a = Block.byte c.lists.info.itemBase a

namespace After

variable {o : ℕ} {c c' : Client}

theorem refl (o : ℕ) (c : Client) : After o c c :=
  ⟨rfl, rfl, rfl, rfl, fun _ h => .inl ⟨h, rfl⟩, fun _ => rfl⟩

theorem of_frame {q : ℕ} {touched : ℕ → Prop} (F : Frame q c.lists.info c'.lists.info touched)
    (hq : q ∈ [c.lists.info.poolField, o]) (ho : o + 4 ≤ c.lists.info.itemSize)
    (hlen : c'.lists.itb.length = c.lists.itb.length)
    (hheld : ∀ x ∈ c'.held, x ∈ c.held ∧ ¬ touched x ∨
      c'.lists.info.link c.lists.info.poolField x = invalidListHead ∨
      c'.lists.info.link o x = invalidListHead) : After o c c' where
  itemTotal := F.itemTotal
  itemSize := F.itemSize
  nextOffset := F.nextOffset
  length := hlen
  held x hx := (hheld x hx).imp (fun h => ⟨h.1, F.link ho h.2⟩) id
  byte ha := F.byte fun i => ha i q hq

theorem poolField (h : After o c c') : c'.lists.info.poolField = c.lists.info.poolField := by
  unfold ListInfo.poolField; rw [h.nextOffset]

end After

/-! ## Setting up -/

/-- `list_info_init` and `index_table_init`; the client holds nothing. -/
def setUp (li : ListInfo) (itb : List ℕ) : Outcome Client := do
  let info ← listInfoInit li
  let itb ← indexTableInit itb itb.length
  return ⟨⟨info, itb⟩, []⟩

/-- All items are free. -/
def Contents.initial (n : ℕ) : Contents := ⟨List.range n, [], fun _ => []⟩

theorem ledger_initial (n : ℕ) : Ledger (Contents.initial n).place (· < n) where
  nodup p := by
    rcases p with _ | _ | b
    · exact List.nodup_range
    · exact List.nodup_nil
    · exact List.nodup_nil
  once {p q i} hp hq := by
    rcases p with _ | _ | b
    · rcases q with _ | _ | b
      · rfl
      · exact absurd hq List.not_mem_nil
      · exact absurd hq List.not_mem_nil
    · exact absurd hp List.not_mem_nil
    · exact absurd hp List.not_mem_nil
  cover {i} := by
    constructor
    · intro h
      exact ⟨.free, List.mem_range.mpr h⟩
    · rintro ⟨_ | _ | b, h⟩
      · exact List.mem_range.mp h
      · exact absurd h List.not_mem_nil
      · exact absurd h List.not_mem_nil

section SetUp

variable {li : ListInfo} {itb : List ℕ} {c : Client} (w : li.WF) (h1 : 1 ≤ li.itemTotal)
  (hn : li.itemTotal ≤ intMax) (h : setUp li itb = .ok c)

include w h1 hn h

theorem setUp_eq : c.lists.info = initialised li ∧ c.held = [] ∧
    c.lists.itb.length = itb.length ∧ ∀ b, c.lists.itb.getD b invalidListHead = invalidListHead := by
  unfold setUp at h
  rw [listInfoInit_ok w h1 hn, Outcome.ok_bind, Outcome.bind_eq_ok] at h
  obtain ⟨t, ht, h⟩ := h
  obtain ⟨hlen, hb⟩ := indexTableInit_ok ht
  obtain rfl := Outcome.ok.inj h
  exact ⟨rfl, rfl, hlen, hb⟩

theorem holds_setUp {o : ℕ} (ho : o + 4 ≤ li.itemSize)
    (hs : o = li.poolField ∨ Apart li.poolField o) :
    Holds o c (Contents.initial li.itemTotal) := by
  obtain ⟨hi, hheld, -, hb⟩ := setUp_eq w h1 hn h
  have ht : c.lists.info.itemTotal = li.itemTotal := by rw [hi, itemTotal_initialised]
  refine ⟨⟨?_, ht ▸ hn, ?_, ?_, ?_, ?_, ?_, ?_, ?_, ?_⟩, hheld, ht ▸ ledger_initial _⟩
  · rw [hi]; exact initialised_wf w
  · rw [hi, itemSize_initialised]; exact ho
  · rw [hi, poolField_initialised]; exact hs
  · rw [hi]; exact freeList_initialised w h1 hn
  · intro b
    exact Chain.nil_iff.mpr (hb b)
  · intro _ _ hx
    exact absurd hx List.not_mem_nil
  · intro _
    exact List.nodup_nil
  · intro _ _ hx
    exact absurd hx List.not_mem_nil
  · intro _ _ _ hx
    exact absurd hx List.not_mem_nil

end SetUp

/-- Two items of eight bytes with the link in the second half, over stale memory. -/
def sampleInfo : ListInfo where
  itemBase := List.replicate 16 7
  itemTotal := 2
  itemSize := 8
  nextOffset := 4
  freeHead := 3
  freeTail := 3

/-- An item matches the number five above its index. -/
def sampleSame : IsSameItem ℕ := fun _ pos data => decide (pos + 5 = data)

theorem sampleInfo_wf : sampleInfo.WF := ⟨by decide, by decide, by decide⟩

/-- The client of `sampleInfo` and a table of two buckets after the set-up. -/
def sampleClient : Client where
  lists := ⟨{ sampleInfo with
    itemBase := [7, 7, 7, 7, 1, 0, 0, 0, 7, 7, 7, 7, 255, 255, 255, 255]
    freeHead := 0
    freeTail := 1 }, [invalidListHead, invalidListHead]⟩
  held := []

theorem setUp_sample : setUp sampleInfo [9, 9] = .ok sampleClient := by decide +kernel

/-! ## The calls, one by one -/

section Calls

variable {δ : Type} {o : ℕ} {c : Client} {a : Contents} (H : Holds o c a)

include H

/-- `list_alloc_item` on an empty free list. -/
theorem alloc_none (hf : a.free = []) : listAllocItem c.lists.info =
    .ok (invalidListHead, c.lists.info) :=
  listAllocItem_nil (hf ▸ H.represents.freeList)

/-- `list_alloc_item` hands out the head of the free list. -/
theorem alloc_some {x : ℕ} {xs : List ℕ} (hf : a.free = x :: xs) :
    listAllocItem c.lists.info = .ok (x, allocated c.lists.info x xs) ∧
      Holds o ⟨{ c.lists with info := allocated c.lists.info x xs }, hold x c.held⟩
        { a with free := xs, held := x :: a.held } ∧
      After o c ⟨{ c.lists with info := allocated c.lists.info x xs }, hold x c.held⟩ := by
  have R := H.represents
  rw [hf] at R
  have hx := R.freeList.lt x List.mem_cons_self
  refine ⟨listAllocItem_cons R.wf R.freeList, ⟨R.allocItem, H.hold_eq hx, ?_⟩, ?_⟩
  swap
  · refine .of_frame (frame_allocated R.wf x xs) (by simp) R.field rfl ?_
    intro y hy
    have hy' : y ∈ hold x c.held := hy
    rw [H.hold_eq hx, ← H.held, List.mem_cons] at hy'
    rcases hy' with rfl | hy'
    · refine .inr (.inl ?_)
      rw [link_allocated R.wf hx, Function.update_self]
    · refine .inl ⟨hy', ?_⟩
      rintro rfl
      exact (H.loose hy').notFree (by simp [hf])
  refine H.ledger.move (p := .free) (q := .held) (x := x) (by simp) ?_ ?_ ?_
  · show a.free.Perm (x :: xs)
    rw [hf]
  · exact List.Perm.refl _
  · rintro (_ | _ | b) h1 h2
    · exact absurd rfl h1
    · exact absurd rfl h2
    · rfl

/-- `list_free_item` of an item held. -/
theorem free_ok {idx : ℕ} (hi : idx ∈ c.held) :
    listFreeItem c.lists.info idx = .ok (freed c.lists.info a.free idx) ∧
      Holds o ⟨{ c.lists with info := freed c.lists.info a.free idx }, c.held.erase idx⟩
        { a with free := a.free ++ [idx], held := a.held.erase idx } ∧
      After o c ⟨{ c.lists with info := freed c.lists.info a.free idx }, c.held.erase idx⟩ := by
  have R := H.represents
  have L := H.loose hi
  refine ⟨listFreeItem_ok R.wf R.freeList L.lt, ⟨R.freeItem L, by rw [H.held], ?_⟩, ?_⟩
  swap
  · refine .of_frame (frame_freed R.wf R.freeList idx) (by simp) R.field rfl ?_
    intro y hy
    have hy : y ∈ c.held ∧ y ≠ idx := by
      rw [H.nodup_held.mem_erase_iff] at hy
      exact ⟨hy.2, hy.1⟩
    exact .inl ⟨hy.1, fun h => h.elim (H.loose hy.1).notFree hy.2⟩
  rw [itemTotal_freed]
  refine H.ledger.move (p := .held) (q := .free) (x := idx) (by simp) ?_ ?_ ?_
  · exact List.perm_cons_erase (H.mem_held hi)
  · exact List.perm_append_singleton idx a.free
  · rintro (_ | _ | b) h1 h2
    · exact absurd rfl h2
    · exact absurd rfl h1
    · rfl

/-- A do-link of an item held into the slot of bucket `b`. -/
theorem doLink_ok {b new : ℕ} (hb : b < c.lists.itb.length) (hnew : new ∈ c.held)
    (hreset : c.lists.info.link o new = invalidListHead) :
    indexListDoLink c.lists (Represents.tailSlot c.lists.info o b (a.bk b)) new =
        .ok (Represents.linked c.lists o b (a.bk b) new) ∧
      Holds o ⟨Represents.linked c.lists o b (a.bk b) new, c.held.erase new⟩
        { a with held := a.held.erase new, bk := Function.update a.bk b (a.bk b ++ [new]) } ∧
      After o c ⟨Represents.linked c.lists o b (a.bk b) new, c.held.erase new⟩ := by
  have R := H.represents
  refine ⟨R.doLink_ok hb, ⟨R.doLink hb (H.loose hnew) hreset, by rw [H.held], ?_⟩, ?_⟩
  swap
  · refine .of_frame R.frame_linked (by simp) R.field (by simp) ?_
    intro y hy
    have hy := List.mem_of_mem_erase hy
    exact .inl ⟨hy, (H.loose hy).notLinked b⟩
  rw [(R.frame_linked (b := b) (x := new)).itemTotal]
  refine H.ledger.move (p := .held) (q := .bucket b) (x := new) (by simp) ?_ ?_ ?_
  · exact List.perm_cons_erase (H.mem_held hnew)
  · show (Function.update a.bk b (a.bk b ++ [new]) b).Perm (new :: a.bk b)
    rw [Function.update_self]
    exact List.perm_append_singleton new (a.bk b)
  · rintro (_ | _ | b') h1 h2
    · rfl
    · exact absurd rfl h1
    · exact Function.update_of_ne (fun h => h2 (congrArg Place.bucket h)) _ _

/-- `index_list_unlink2` puts the item it takes out into the client's hands. -/
theorem unlink_ok (isSame : IsSameItem δ) {b : ℕ} (hb : b < c.lists.itb.length) (data : δ) :
    (a.bk b).find? (isSame c.lists.info · data) = none ∧
        indexListUnlink2 isSame c.lists b data o = .ok (invalidListHead, c.lists) ∨
      ∃ x s', (a.bk b).find? (isSame c.lists.info · data) = some x ∧
        indexListUnlink2 isSame c.lists b data o = .ok (x, s') ∧
        Holds o ⟨s', hold x c.held⟩
          { a with held := x :: a.held, bk := Function.update a.bk b ((a.bk b).erase x) } ∧
        After o c ⟨s', hold x c.held⟩ := by
  have R := H.represents
  refine (R.unlink isSame hb data).imp id ?_
  rintro ⟨x, s', hfind, hu, U⟩
  have hx : x ∈ a.bk b := List.mem_of_find?_eq_some hfind
  have hhold := H.hold_eq (R.lt b x hx)
  refine ⟨x, s', hfind, hu, ⟨U.represents, hhold, ?_⟩, ?_⟩
  swap
  · refine .of_frame U.frame (by simp) R.field U.length ?_
    intro y hy
    have hy' : y ∈ hold x c.held := hy
    rw [hhold, ← H.held, List.mem_cons] at hy'
    rcases hy' with rfl | hy'
    · exact .inr (.inr U.reset)
    · exact .inl ⟨hy', (H.loose hy').notLinked b⟩
  rw [U.frame.itemTotal]
  refine H.ledger.move (p := .bucket b) (q := .held) (x := x) (by simp) ?_ ?_ ?_
  · show (a.bk b).Perm (x :: Function.update a.bk b ((a.bk b).erase x) b)
    rw [Function.update_self]
    exact List.perm_cons_erase hx
  · exact List.Perm.refl _
  · rintro (_ | _ | b') h1 h2
    · rfl
    · exact absurd rfl h2
    · exact Function.update_of_ne (fun h => h1 (congrArg Place.bucket h)) _ _

end Calls

/-! ## Every call follows the contents -/

section Sim

variable {δ : Type} (isSame : IsSameItem δ) {c : Client} {a : Contents} {call : Call δ}

/-- The item of a link has its field at `o` reset, unless the bucket has a match. -/
def LinkReset (o : ℕ) (isSame : IsSameItem δ) (c : Client) (a : Contents) : Call δ → Prop
  | .link b data new => (a.bk b).any (isSame c.lists.info · data) = false →
      c.lists.info.link o new = invalidListHead
  | _ => True

/-- **Simulation of a call.** It ends, with the reply and the contents of `Contents.step`. -/
theorem step_sim {off : ℕ} (H : Holds (u32 off) c a) (hcall : clientAllowed c call)
    (hreset : LinkReset (u32 off) isSame c a call) :
    ((clientMachine2 isSame off).step c call).Ends fun r =>
      r.1 = (a.step (isSame c.lists.info) call).1 ∧
        Holds (u32 off) r.2 (a.step (isSame c.lists.info) call).2 ∧ After (u32 off) c r.2 := by
  show (clientStep (fun s b d => indexListPrelink2 isSame s b d (cInt off))
    (fun s b d => indexListUnlink2 isSame s b d (u32 off)) c call).Ends _
  cases call with
  | alloc =>
    rcases hf : a.free with _ | ⟨x, xs⟩
    · refine .of_eq (clientStep_alloc (alloc_none H hf)) ⟨?_, ?_, After.refl _ c⟩
      · simp [Contents.step, hf]
      · simpa [Contents.step, hf] using H
    · obtain ⟨h, H', A⟩ := alloc_some H hf
      refine .of_eq (clientStep_alloc h) ⟨?_, ?_, A⟩
      · simp [Contents.step, hf]
      · simpa [Contents.step, hf] using H'
  | link b data new =>
    obtain ⟨hb, hnew⟩ := hcall
    have h := H.represents.prelink isSame hb data (u32OfInt_cInt off)
    cases hm : (a.bk b).any (isSame c.lists.info · data) with
    | true =>
      rw [hm, if_pos rfl] at h
      rw [Contents.step_link_null hm]
      exact .of_eq (clientStep_link_null h) ⟨rfl, H, After.refl _ c⟩
    | false =>
      obtain ⟨hd, H', A⟩ := doLink_ok H hb hnew (hreset hm)
      rw [hm, if_neg (by simp)] at h
      rw [Contents.step_link hm]
      exact .of_eq (clientStep_link h hd) ⟨rfl, H', A⟩
  | unlink b data =>
    rcases unlink_ok H isSame hcall data with ⟨hfind, h⟩ | ⟨x, s', hfind, h, H', A⟩
    · rw [Contents.step_unlink_none hfind]
      refine .of_eq (clientStep_unlink h) ⟨rfl, ?_, ?_⟩
      · rw [hold_invalid]
        exact H
      · rw [hold_invalid]
        exact After.refl _ c
    · rw [Contents.step_unlink_some hfind]
      exact .of_eq (clientStep_unlink h) ⟨rfl, H', A⟩
  | free idx =>
    obtain ⟨h, H', A⟩ := free_ok H hcall
    exact .of_eq (clientStep_free h) ⟨rfl, H', A⟩

end Sim

end KernelGadgets.IndexList
