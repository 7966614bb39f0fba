import KernelGadgets.Lib.OrderedMap
import KernelGadgets.IndexList.Ownership

/-!
# The table is an insertion-ordered map

Items carry a key in their payload, the bytes outside the link field. A client writes the payload
of items it holds, links an item under its own key and unlinks by key. Each bucket is then an
`OrderedMap` from keys to indices (`Keyed`): a link appends to it and an unlink erases from it.

What is observable follows from the history of links and unlinks alone (`Client.Answers`).
-/

namespace KernelGadgets.IndexList

open ListInfo OrderedMap

/-! ## Payloads and keys -/

/-- The bytes of the item `i` outside the link field. -/
def ListInfo.payload (li : ListInfo) (i j : ℕ) : UInt8 :=
  if j < li.itemSize ∧ (j < li.poolField ∨ li.poolField + 4 ≤ j) then
    Block.byte li.itemBase (i * li.itemSize + j)
  else 0

/-- The pool with one byte of an item changed. -/
def ListInfo.setByte (li : ListInfo) (i j : ℕ) (v : UInt8) : ListInfo :=
  { li with itemBase := li.itemBase.set (i * li.itemSize + j) v }

section Payload

variable {δ : Type} [DecidableEq δ] (keyOf : (ℕ → UInt8) → δ)

/-- The match of a table with keys. -/
def sameKey : IsSameItem δ := fun li pos data => decide (keyOf (li.payload pos) = data)

def Client.key (c : Client) (i : ℕ) : δ := keyOf (c.lists.info.payload i)

/-- A client of a table with keys uses the library and writes to items. -/
inductive KeyedCall (δ : Type) where
  | lib (call : Call δ)
  | write (idx j : ℕ) (v : UInt8)
  deriving DecidableEq, Repr

def keyedStep (c : Client) : KeyedCall δ → Outcome (Option Reply × Client)
  | .lib call => do
    let (r, c) ← (clientMachine (sameKey keyOf)).step c call
    return (some r, c)
  | .write idx j v => do
    let base ← Block.store c.lists.info.itemBase (idx * c.lists.info.itemSize + j) v
    return (none, { c with lists.info.itemBase := base })

/-- An item is linked under its own key, and only the payload of items held is written. -/
def keyedAllowed (c : Client) : KeyedCall δ → Prop
  | .lib call => clientAllowed c call ∧
      match call with
      | .link _ data new => data = c.key keyOf new
      | _ => True
  | .write idx j _ => idx ∈ c.held ∧ j < c.lists.info.itemSize ∧
      (j < c.lists.info.poolField ∨ c.lists.info.poolField + 4 ≤ j)

def keyedMachine : Machine Client (KeyedCall δ) (Option Reply) where
  allowed := keyedAllowed keyOf
  step := keyedStep keyOf

instance (c : Client) (call : KeyedCall δ) : Decidable (keyedAllowed keyOf c call) := by
  rcases call with (_ | _ | _ | _) | _ <;> unfold keyedAllowed <;> infer_instance

instance (c : Client) (call : KeyedCall δ) : Decidable ((keyedMachine keyOf).allowed c call) :=
  inferInstanceAs (Decidable (keyedAllowed keyOf c call))

end Payload

/-- Different bytes of items have different addresses. -/
theorem address_ne {s i i' j j' : ℕ} (hj : j < s) (hj' : j' < s) (h : i ≠ i' ∨ j ≠ j') :
    i * s + j ≠ i' * s + j' := by
  by_cases hi : i = i'
  · subst hi
    have := h.resolve_left (not_not_intro rfl)
    omega
  · have := item_apart s hi
    omega

namespace ListInfo

variable {li : ListInfo} {i j : ℕ} {v : UInt8}

theorem link_setByte {o : ℕ} (hj : j < li.itemSize) (ho : o + 4 ≤ li.itemSize)
    (ha : j < o ∨ o + 4 ≤ j) : (li.setByte i j v).link o = li.link o := by
  funext y
  apply Block.word_congr
  intro k hk
  show Block.byte (li.itemBase.set (i * li.itemSize + j) v) (y * li.itemSize + o + k) =
    Block.byte li.itemBase (y * li.itemSize + o + k)
  have hk' : o + k < li.itemSize := by omega
  have hjk : j ≠ o + k := by omega
  rw [Nat.add_assoc]
  exact Block.byte_set_of_ne _ (address_ne hj hk' (.inr hjk)) v

theorem payload_setByte_of_ne {y : ℕ} (hj : j < li.itemSize) (hy : y ≠ i) :
    (li.setByte i j v).payload y = li.payload y := by
  funext j'
  unfold payload
  by_cases hj' : j' < li.itemSize ∧ (j' < li.poolField ∨ li.poolField + 4 ≤ j')
  · rw [if_pos hj']
    refine (if_pos hj').trans ?_
    exact Block.byte_set_of_ne _ (address_ne hj hj'.1 (.inl (Ne.symm hy))) v
  · rw [if_neg hj']
    exact if_neg hj'

theorem WF.setByte (w : li.WF) : (li.setByte i j v).WF where
  size := by simpa [ListInfo.setByte] using w.size
  field := w.field
  room := w.room

/-- A call of the library keeps every payload. -/
theorem payload_of_after {c c' : Client} (w : c.lists.info.WF)
    (A : After c.lists.info.poolField c c') (y : ℕ) :
    c'.lists.info.payload y = c.lists.info.payload y := by
  have hp := w.poolField_le
  funext j
  unfold payload
  rw [A.itemSize, A.poolField]
  by_cases hj : j < c.lists.info.itemSize ∧
      (j < c.lists.info.poolField ∨ c.lists.info.poolField + 4 ≤ j)
  · rw [if_pos hj, if_pos hj]
    apply A.byte
    intro i q hq
    obtain rfl : q = c.lists.info.poolField := by simpa using hq
    by_cases hiy : i = y
    · subst hiy; omega
    · have := item_apart c.lists.info.itemSize hiy
      omega
  · rw [if_neg hj, if_neg hj]

end ListInfo

/-! ## The table refines a map for each bucket -/

section Keyed

variable {δ : Type} {keyOf : (ℕ → UInt8) → δ} {c : Client} {a : Contents}
  {m : ℕ → OrderedMap δ ℕ}

/-- Bucket `b` is the map `m b` from the keys of its items to their indices. -/
structure Keyed (keyOf : (ℕ → UInt8) → δ) (c : Client) (a : Contents) (m : ℕ → OrderedMap δ ℕ) :
    Prop where
  owns : Owns c a
  entries : ∀ b, (m b).entries = (a.bk b).map fun x => (c.key keyOf x, x)

namespace Keyed

theorem mem_entries (K : Keyed keyOf c a m) {b x : ℕ} {k : δ} :
    (k, x) ∈ (m b).entries ↔ x ∈ a.bk b ∧ c.key keyOf x = k := by
  rw [K.entries, List.mem_map]
  constructor
  · rintro ⟨y, hy, he⟩
    obtain ⟨rfl, rfl⟩ := Prod.mk.inj he
    exact ⟨hy, rfl⟩
  · rintro ⟨hx, rfl⟩
    exact ⟨x, hx, rfl⟩

/-- Within a bucket the key tells the item. -/
theorem key_inj (K : Keyed keyOf c a m) {b x y : ℕ} (hx : x ∈ a.bk b) (hy : y ∈ a.bk b)
    (h : c.key keyOf x = c.key keyOf y) : x = y :=
  entries_inj (K.mem_entries.mpr ⟨hx, rfl⟩) (K.mem_entries.mpr ⟨hy, h.symm⟩)

/-- The keys of the map stay those of the items while the items of buckets keep their payload. -/
theorem congr {c' : Client} {a' : Contents} (K : Keyed keyOf c a m) (O : Owns c' a')
    (hbk : a'.bk = a.bk)
    (hp : ∀ b, ∀ x ∈ a.bk b, c'.lists.info.payload x = c.lists.info.payload x) :
    Keyed keyOf c' a' m where
  owns := O
  entries b := by
    rw [K.entries, hbk]
    apply List.map_congr_left
    intro x hx
    unfold Client.key
    rw [hp b x hx]

/-- One bucket changes, and with it its map. -/
theorem update {c' : Client} {a' : Contents} {b : ℕ} {xs : List ℕ} {m' : OrderedMap δ ℕ}
    (K : Keyed keyOf c a m) (O : Owns c' a') (hbk : a'.bk = Function.update a.bk b xs)
    (hp : ∀ x, c'.lists.info.payload x = c.lists.info.payload x)
    (hm : m'.entries = xs.map fun x => (c.key keyOf x, x)) :
    Keyed keyOf c' a' (Function.update m b m') where
  owns := O
  entries b' := by
    have hkey : (fun x => (c'.key keyOf x, x)) = fun x => (c.key keyOf x, x) := by
      funext x
      unfold Client.key
      rw [hp]
    rw [hkey, hbk]
    by_cases hb : b' = b
    · subst hb
      rw [Function.update_self, Function.update_self, hm]
    · rw [Function.update_of_ne hb, Function.update_of_ne hb, K.entries]

variable [DecidableEq δ]

/-- The search of a bucket is a lookup of its map. -/
theorem find?_eq (K : Keyed keyOf c a m) (b : ℕ) (k : δ) :
    (a.bk b).find? (sameKey keyOf c.lists.info · k) = (m b).get? k := by
  rw [get?, K.entries, List.find?_map, Option.map_map]
  exact Option.map_id'.symm

theorem any_iff (K : Keyed keyOf c a m) (b : ℕ) (k : δ) :
    (a.bk b).any (sameKey keyOf c.lists.info · k) = true ↔ k ∈ (m b).keys := by
  rw [List.any_eq_true, mem_keys]
  apply exists_congr
  intro x
  rw [K.mem_entries]
  exact and_congr_right fun _ => decide_eq_true_iff

/-- Erasing a key from the map is erasing its item from the bucket. -/
theorem erase_entries (K : Keyed keyOf c a m) {b x : ℕ} (hx : x ∈ a.bk b) :
    ((m b).erase (c.key keyOf x)).entries =
      ((a.bk b).erase x).map fun y => (c.key keyOf y, y) := by
  show (m b).entries.filter _ = _
  rw [K.entries, (K.owns.holds.represents.nodup b).erase_eq_filter, List.filter_map]
  refine congrArg (List.map _) (List.filter_congr fun y hy => ?_)
  rw [Bool.eq_iff_iff, bne_iff_ne]
  refine decide_eq_true_iff.trans (not_congr ⟨fun h => K.key_inj hy hx h, ?_⟩)
  exact congrArg (c.key keyOf)

end Keyed

end Keyed

/-! ## Writing a payload -/

section Write

variable {c : Client} {a : Contents} {i j : ℕ}

/-- The bytes of an item held lie in the array. -/
theorem Owns.byte_inside (O : Owns c a) (hi : i ∈ c.held) (hj : j < c.lists.info.itemSize) :
    i * c.lists.info.itemSize + j < c.lists.info.itemBase.length := by
  have h1 : (i + 1) * c.lists.info.itemSize ≤ c.lists.info.itemTotal * c.lists.info.itemSize :=
    Nat.mul_le_mul_right _ (O.holds.held_lt hi)
  rw [Nat.succ_mul] at h1
  rw [O.holds.represents.wf.size]
  omega

/-- A write to a payload changes no link. -/
theorem Owns.setByte (O : Owns c a) (hj : j < c.lists.info.itemSize)
    (ha : j < c.lists.info.poolField ∨ c.lists.info.poolField + 4 ≤ j) (v : UInt8) :
    Owns { c with lists.info := c.lists.info.setByte i j v } a := by
  have R := O.holds.represents
  have hl : (c.lists.info.setByte i j v).link c.lists.info.poolField =
      c.lists.info.link c.lists.info.poolField := link_setByte hj R.field ha
  refine ⟨⟨⟨R.wf.setByte, R.total_le, R.field, R.sameOrApart, ?_, ?_, R.lt, R.nodup, R.notFree,
    R.once⟩, O.holds.held, O.holds.ledger⟩, fun x hx => ?_⟩
  · exact R.freeList.congr rfl rfl rfl fun x _ => congrFun hl x
  · intro b
    show Chain ((c.lists.info.setByte i j v).link c.lists.info.poolField) _ _ _
    rw [hl]
    exact R.chain b
  · exact (congrFun hl x).trans (O.reset x hx)

end Write

/-! ## Histories -/

section History

variable {δ : Type}

/-- What a call, with its answer, does to the map of bucket `b`. -/
def tableEvent (b : ℕ) : KeyedCall δ × Option Reply → Option (Event δ ℕ)
  | (.lib (.link b' k x), some (.linked true)) => if b' = b then some (.put k x) else none
  | (.lib (.unlink b' k), _) => if b' = b then some (.del k) else none
  | _ => none

/-- The links into bucket `b` and the unlinks from it. -/
def tableEvents (b : ℕ) (h : List (KeyedCall δ × Option Reply)) : List (Event δ ℕ) :=
  h.filterMap (tableEvent b)

theorem tableEvents_snoc (b : ℕ) (h : List (KeyedCall δ × Option Reply))
    (e : KeyedCall δ × Option Reply) :
    tableEvents b (h ++ [e]) = tableEvents b h ++ (tableEvent b e).toList := by
  unfold tableEvents
  rw [List.filterMap_append]
  cases h : tableEvent b e <;> simp [h]

variable [DecidableEq δ] {keyOf : (ℕ → UInt8) → δ} {c : Client} {a : Contents}
  {m : ℕ → OrderedMap δ ℕ}

/-- The maps `m'` are `m` after the events `ev`, one at most for each bucket. -/
def Follows (m m' : ℕ → OrderedMap δ ℕ) (ev : ℕ → Option (Event δ ℕ)) : Prop :=
  ∀ b es, (m b).Records es → (m' b).Records (es ++ (ev b).toList)

/-- What a call does to the maps. -/
def mapStep (m : ℕ → OrderedMap δ ℕ) : Call δ → ℕ → OrderedMap δ ℕ
  | .link b k x => Function.update m b ((m b).append k x)
  | .unlink b k => Function.update m b ((m b).erase k)
  | .alloc => m
  | .free _ => m

theorem Follows.refl (m : ℕ → OrderedMap δ ℕ) : Follows m m fun _ => none := by
  intro b es H
  rw [Option.toList_none, List.append_nil]
  exact H

/-- The event of one bucket. -/
theorem Follows.update {b : ℕ} {m' : OrderedMap δ ℕ} {e : Event δ ℕ}
    (h : ∀ es, (m b).Records es → m'.Records (es ++ [e])) :
    Follows m (Function.update m b m') fun b' => if b = b' then some e else none := by
  intro b' es H
  by_cases hb : b = b'
  · subst hb
    simpa using h es H
  · simpa [hb, Ne.symm hb] using H

namespace Keyed

/-- The history of the maps follows the calls and their replies. -/
theorem follows (K : Keyed keyOf c a m) (call : Call δ) : Follows m (mapStep m call)
    fun b => tableEvent b (.lib call, some (a.step (sameKey keyOf c.lists.info) call).1) := by
  cases call with
  | alloc => exact .refl m
  | free idx => exact .refl m
  | unlink b k => exact .update fun es H => H.erase k
  | link b k x =>
    by_cases hm : (a.bk b).any (sameKey keyOf c.lists.info · k) = true
    · have hk := (K.any_iff b k).mp hm
      rw [mapStep, append_of_mem hk, Function.update_eq_self, Contents.step_link_null hm]
      exact .refl m
    · rw [Contents.step_link (Bool.eq_false_iff.mpr hm)]
      exact .update fun es H => H.append fun h => hm ((K.any_iff b k).mpr h)

/-- A call of the library has the answer of the contents and keeps buckets and maps in step. -/
theorem lib_step (K : Keyed keyOf c a m) {call : Call δ} (hcall : keyedAllowed keyOf c (.lib call)) :
    ((clientMachine (sameKey keyOf)).step c call).Ends fun r =>
      r.1 = (a.step (sameKey keyOf c.lists.info) call).1 ∧
        Keyed keyOf r.2 (a.step (sameKey keyOf c.lists.info) call).2 (mapStep m call) ∧
        After c.lists.info.poolField c r.2 := by
  refine (K.owns.step (sameKey keyOf) hcall.1).mono ?_
  rintro ⟨r, c'⟩ ⟨rfl, O, A⟩
  have hp := payload_of_after K.owns.holds.represents.wf A
  refine ⟨rfl, ?_, A⟩
  cases call with
  | alloc =>
    exact K.congr O (a.step_alloc_bk _) fun _ x _ => hp x
  | free idx => exact K.congr O rfl fun _ x _ => hp x
  | link b k x =>
    obtain rfl : k = c.key keyOf x := hcall.2
    have hiff := K.any_iff b (c.key keyOf x)
    by_cases hm : (a.bk b).any (sameKey keyOf c.lists.info · (c.key keyOf x)) = true
    · rw [Contents.step_link_null hm] at O ⊢
      rw [mapStep, append_of_mem (hiff.mp hm), Function.update_eq_self]
      exact K.congr O rfl fun _ x _ => hp x
    · rw [Contents.step_link (Bool.eq_false_iff.mpr hm)] at O ⊢
      refine K.update O rfl hp ?_
      rw [entries_append fun h => hm (hiff.mpr h), K.entries, List.map_append]
      rfl
  | unlink b k =>
    cases hf : (a.bk b).find? (sameKey keyOf c.lists.info · k) with
    | none =>
      rw [Contents.step_unlink_none hf] at O ⊢
      refine K.update O (Function.update_eq_self b a.bk).symm hp ?_
      rw [entries_erase, ← K.entries, List.filter_eq_self]
      rintro ⟨k', x⟩ hx
      rw [K.find?_eq, get?_eq_none] at hf
      exact decide_eq_true fun h => hf x (h ▸ hx)
    | some x =>
      rw [Contents.step_unlink_some hf] at O ⊢
      rw [K.find?_eq, get?_eq_some, K.mem_entries] at hf
      obtain ⟨hx, rfl⟩ := hf
      exact K.update O rfl hp (K.erase_entries hx)

/-- A write to the payload of an item held. -/
theorem write_ok (K : Keyed keyOf c a m) {idx j : ℕ} {v : UInt8}
    (hcall : keyedAllowed keyOf c (.write idx j v)) :
    keyedStep keyOf c (.write idx j v) =
        .ok (none, { c with lists.info := c.lists.info.setByte idx j v }) ∧
      Keyed keyOf { c with lists.info := c.lists.info.setByte idx j v } a m := by
  obtain ⟨hheld, hj, ha⟩ := hcall
  constructor
  · rw [keyedStep, Block.store_ok (K.owns.byte_inside hheld hj)]
    rfl
  · apply K.congr (K.owns.setByte hj ha v) rfl
    intro b x hx
    exact payload_setByte_of_ne hj fun h => (K.owns.holds.loose hheld).notLinked b (h ▸ hx)

/-- **The step lemma.** After every call each bucket is again the map of its history. -/
theorem step (K : Keyed keyOf c a m) {call : KeyedCall δ} (hcall : keyedAllowed keyOf c call) :
    ((keyedMachine keyOf).step c call).Ends fun r =>
      r.2.lists.itb.length = c.lists.itb.length ∧ ∃ a' m', Keyed keyOf r.2 a' m' ∧
        Follows m m' fun b => tableEvent b (call, r.1) := by
  show (keyedStep keyOf c call).Ends _
  cases call with
  | lib call =>
    obtain ⟨⟨r, c'⟩, hs, rfl, K', A⟩ := K.lib_step hcall
    rw [keyedStep, hs]
    exact .of_eq rfl ⟨A.length, _, _, K', K.follows call⟩
  | write idx j v =>
    obtain ⟨hs, K'⟩ := K.write_ok hcall
    exact .of_eq hs ⟨rfl, a, m, K', .refl m⟩

end Keyed

end History

/-! ## Runs -/

section Run

variable {δ : Type} [DecidableEq δ] (keyOf : (ℕ → UInt8) → δ)

/-- The answers about bucket `b` after the links and unlinks `es`: a prelink finds a slot unless a
link of its key is in force, an unlink returns the index linked under its key, and the bucket lists
the links in force in their order, with no key twice. -/
structure Client.Answers (c : Client) (b : ℕ) (es : List (Event δ ℕ)) : Prop where
  prelink : ∀ k, (indexListPrelink (sameKey keyOf) c.lists b k).Ends fun slot =>
    slot = none ↔ ∃ x, InForce es k x
  unlink : ∀ k, (indexListUnlink (sameKey keyOf) c.lists b k).Ends fun r =>
    (∀ x, InForce es k x → r.1 = x) ∧ ((∀ x, ¬ InForce es k x) → r.1 = invalidListHead)
  walk : ∃ xs, Chain c.next invalidListHead (c.lists.itb.getD b invalidListHead) xs ∧
    xs.map (fun x => (c.key keyOf x, x)) = live es ∧ (xs.map (c.key keyOf)).Nodup

variable {keyOf} {c : Client} {a : Contents} {m : ℕ → OrderedMap δ ℕ}

theorem Keyed.answers (K : Keyed keyOf c a m) {b : ℕ} (hb : b < c.lists.itb.length)
    {es : List (Event δ ℕ)} (H : (m b).Records es) : c.Answers keyOf b es where
  prelink k := by
    have R := K.owns.holds.represents
    have h := R.prelink (sameKey keyOf) hb k (u32OfInt_cInt c.lists.info.nextOffset)
    refine .of_eq h ?_
    have hiff : k ∈ (m b).keys ↔ ∃ x, InForce es k x := by
      rw [mem_keys]
      apply exists_congr
      intro x
      rw [← get?_eq_some, H.get?_eq_some_iff]
    rw [← hiff, ← K.any_iff]
    by_cases hm : (a.bk b).any (sameKey keyOf c.lists.info · k) = true
    · exact iff_of_true (if_pos hm) hm
    · rw [if_neg hm]
      exact iff_of_false (Option.some_ne_none _) hm
  unlink k := by
    rcases unlink_ok K.owns.holds (sameKey keyOf) hb k with ⟨hf, hu⟩ | ⟨x, s', hf, hu, -, -⟩
    · rw [K.find?_eq] at hf
      refine .of_eq hu ⟨fun x hx => ?_, fun _ => rfl⟩
      rw [← H.get?_eq_some_iff, hf] at hx
      exact absurd hx.symm (Option.some_ne_none x)
    · rw [K.find?_eq] at hf
      refine .of_eq hu ⟨fun y hy => ?_, fun hn => absurd (H.get?_eq_some_iff.mp hf) (hn x)⟩
      rw [← H.get?_eq_some_iff, hf] at hy
      exact Option.some.inj hy
  walk := by
    refine ⟨a.bk b, K.owns.holds.represents.chain b, (K.entries b).symm.trans H, ?_⟩
    have hnd := (m b).nodup
    rw [K.entries, List.map_map] at hnd
    exact hnd

omit [DecidableEq δ] in
theorem Keyed.setUp {li : ListInfo} {itb : List ℕ} (w : li.WF) (h1 : 1 ≤ li.itemTotal)
    (hn : li.itemTotal ≤ intMax) (h : setUp li itb = .ok c) :
    Keyed keyOf c (Contents.initial li.itemTotal) fun _ => OrderedMap.empty where
  owns := Owns.setUp w h1 hn h
  entries _ := rfl

/-- The run lemma: after every legal sequence of calls each bucket is the map of its history. -/
theorem run_keyed {n : ℕ} (K : Keyed keyOf c a m) (hm : ∀ b, (m b).Records [])
    (hn : c.lists.itb.length = n) {calls : List (KeyedCall δ)}
    (hl : (keyedMachine keyOf).Legal c calls) :
    ((keyedMachine keyOf).run c calls).Ends fun r => r.2.lists.itb.length = n ∧
      ∃ a' m', Keyed keyOf r.2 a' m' ∧ ∀ b, (m' b).Records (tableEvents b (calls.zip r.1)) := by
  let inv : Client → List (KeyedCall δ × Option Reply) → Prop := fun c' h =>
    c'.lists.itb.length = n ∧ ∃ a' m', Keyed keyOf c' a' m' ∧ ∀ b, (m' b).Records (tableEvents b h)
  have hinv : inv c [] := ⟨hn, a, m, K, hm⟩
  refine Machine.run_hist ?_ hinv hl
  rintro c' h call ⟨hlen, a', m', K', hm'⟩ hcall
  refine (K'.step hcall).mono ?_
  rintro ⟨r, c''⟩ ⟨hlen', a'', m'', K'', hF⟩
  refine ⟨hlen'.trans hlen, a'', m'', K'', fun b => ?_⟩
  rw [tableEvents_snoc]
  exact hF b _ (hm' b)

variable (keyOf)

/-- **The table is an insertion-ordered map.** After any sequence of calls by a client that links
items under their own keys, the answers about every bucket are those of its history. -/
theorem table_ordered_map {li : ListInfo} {itb : List ℕ} (w : li.WF) (h1 : 1 ≤ li.itemTotal)
    (hn : li.itemTotal ≤ intMax) (h : IndexList.setUp li itb = .ok c) {calls : List (KeyedCall δ)}
    (hl : (keyedMachine keyOf).Legal c calls) :
    ((keyedMachine keyOf).run c calls).Ends fun r => ∀ b < itb.length,
      r.2.Answers keyOf b (tableEvents b (calls.zip r.1)) := by
  obtain ⟨-, -, hlen, -⟩ := setUp_eq w h1 hn h
  refine (run_keyed (Keyed.setUp w h1 hn h) (fun _ => Records.empty) hlen hl).mono ?_
  rintro ⟨os, c'⟩ ⟨hlen', a', m', K, hm⟩ b hb
  exact K.answers (hlen' ▸ hb) (hm b)

end Run

/-- The first byte of an item as its key: a link, one that finds its key taken, and an unlink. -/
theorem table_ordered_map_sample :
    let calls : List (KeyedCall UInt8) := [.lib .alloc, .lib .alloc, .write 0 0 42, .write 1 0 42,
      .lib (.link 1 42 1), .lib (.link 1 42 0), .write 0 0 43, .lib (.link 1 43 0),
      .lib (.unlink 1 42)]
    ((keyedMachine (· 0)).run sampleClient calls).Ends fun r => ∀ b < 2,
      r.2.Answers (· 0) b (tableEvents b (calls.zip r.1)) :=
  table_ordered_map (· 0) sampleInfo_wf (by decide) (by decide) setUp_sample (by decide +kernel)

end KernelGadgets.IndexList
