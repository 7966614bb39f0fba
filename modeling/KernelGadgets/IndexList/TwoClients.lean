import KernelGadgets.IndexList.KeyedTable

/-!
# Two clients

Two clients share the pool and the table, every library call being one step. A link is two calls,
`index_list_prelink` and `index_list_do_link`, with the slot carried from one to the other; between
them the other client may move.

When it links into the same bucket, or unlinks the item that owns the slot, an item is lost or ends
up on the free list. When it does neither, the slot is still the one a prelink would find (`Pending.Ok`),
so that the do-link acts as a whole link of the keyed table: the two clients are one client that
holds what either of them holds (`Joint`).
-/

namespace KernelGadgets.IndexList

open ListInfo OrderedMap

/-! ## The system -/

inductive Who where
  | one
  | two
  deriving DecidableEq, Repr

def Who.other : Who → Who
  | .one => .two
  | .two => .one

/-- A client between its prelink on bucket `b` and its do-link of `new`. -/
structure Pending where
  b : ℕ
  new : ℕ
  slot : Slot
  deriving DecidableEq, Repr

structure Shared where
  lists : Lists
  held : Who → List ℕ
  pending : Who → Option Pending

inductive SharedCall (δ : Type) where
  /-- Any call but a link, or a write to an item. -/
  | own (w : Who) (call : KeyedCall δ)
  | prelink (w : Who) (b new : ℕ)
  | doLink (w : Who)
  deriving DecidableEq, Repr

/-- What is seen of a step. -/
inductive Seen (δ : Type) where
  | own (reply : Option Reply)
  | slot (found : Bool)
  | linked (b : ℕ) (k : δ) (idx : ℕ)
  deriving DecidableEq, Repr

section System

variable {δ : Type} [DecidableEq δ] (keyOf : (ℕ → UInt8) → δ)

def Shared.key (s : Shared) (i : ℕ) : δ := keyOf (s.lists.info.payload i)

/-- The system as client `w` sees it. -/
def Shared.view (s : Shared) (w : Who) : Client := ⟨s.lists, s.held w⟩

def sharedStep (s : Shared) : SharedCall δ → Outcome (Seen δ × Shared)
  | .own w call => do
    let (r, c) ← keyedStep keyOf (s.view w) call
    return (.own r, { s with lists := c.lists, held := Function.update s.held w c.held })
  | .prelink w b new => do
    let slot ← indexListPrelink (sameKey keyOf) s.lists b (s.key keyOf new)
    return (.slot slot.isSome,
      { s with pending := Function.update s.pending w (slot.map fun slot => ⟨b, new, slot⟩) })
  | .doLink w =>
    match s.pending w with
    | none => .fault
    | some p => do
      let lists ← indexListDoLink s.lists p.slot p.new
      return (.linked p.b (s.key keyOf p.new) p.new, {
        lists := lists
        held := Function.update s.held w ((s.held w).erase p.new)
        pending := Function.update s.pending w none })

def KeyedCall.isLink : KeyedCall δ → Bool
  | .lib (.link ..) => true
  | _ => false

/-- Between a prelink and its do-link a client makes no other call. -/
def sharedAllowed (s : Shared) : SharedCall δ → Prop
  | .own w call => s.pending w = none ∧ call.isLink = false ∧ keyedAllowed keyOf (s.view w) call
  | .prelink w b new => s.pending w = none ∧ b < s.lists.itb.length ∧ new ∈ s.held w
  | .doLink w => s.pending w ≠ none

def sharedMachine : Machine Shared (SharedCall δ) (Seen δ) where
  allowed := sharedAllowed keyOf
  step := sharedStep keyOf

instance (s : Shared) (call : SharedCall δ) : Decidable ((sharedMachine keyOf).allowed s call) := by
  cases call <;> unfold sharedMachine sharedAllowed <;> infer_instance

/-- The step does not disturb the other client's link: it is neither a do-link into the bucket in
which that is pending, nor an unlink from it of the item that owns the slot. -/
def Undisturbed (s : Shared) : SharedCall δ → Prop
  | .own w (.lib (.unlink b k)) => ∀ p ∈ s.pending w.other, p.b = b →
      ∀ y < s.lists.info.itemTotal,
        p.slot = .next (itemGetNextAddr2 s.lists.info y s.lists.info.poolField) →
          s.key keyOf y ≠ k
  | .doLink w => ∀ p ∈ s.pending w, ∀ q ∈ s.pending w.other, q.b ≠ p.b
  | _ => True

instance (s : Shared) (call : SharedCall δ) : Decidable (Undisturbed keyOf s call) := by
  rcases call with ⟨_, (_ | _ | _ | _) | _⟩ | _ | _ <;> unfold Undisturbed <;> infer_instance

end System

/-- The system after the set-up: nothing is held or pending. -/
def Shared.start (c : Client) : Shared := ⟨c.lists, fun _ => [], fun _ => none⟩

/-! ## Seats -/

/-- Where an item can be. -/
inductive Seat where
  | free
  | held (w : Who)
  | bucket (b : ℕ)
  deriving DecidableEq, Repr

/-- Item `i` is at a seat, by the chains in memory. -/
def Shared.At (s : Shared) (i : ℕ) : Seat → Prop
  | .free => (⟨s.lists, []⟩ : Client).At i .free
  | .held w => i ∈ s.held w
  | .bucket b => (⟨s.lists, []⟩ : Client).At i (.bucket b)

/-! ## Histories -/

section History

variable {δ : Type}

/-- What a step, as seen, does to the map of bucket `b`. -/
def sharedEvent (b : ℕ) : SharedCall δ × Seen δ → Option (Event δ ℕ)
  | (.own _ call, .own r) => tableEvent b (call, r)
  | (_, .linked b' k x) => if b' = b then some (.put k x) else none
  | _ => none

/-- The links into bucket `b`, by either client, and the unlinks from it. -/
def sharedEvents (b : ℕ) (h : List (SharedCall δ × Seen δ)) : List (Event δ ℕ) :=
  h.filterMap (sharedEvent b)

theorem sharedEvents_snoc (b : ℕ) (h : List (SharedCall δ × Seen δ)) (e : SharedCall δ × Seen δ) :
    sharedEvents b (h ++ [e]) = sharedEvents b h ++ (sharedEvent b e).toList := by
  unfold sharedEvents
  rw [List.filterMap_append]
  cases h : sharedEvent b e <;> simp [h]

end History

/-! ## Two clients as one -/

section Joint

variable {δ : Type} {keyOf : (ℕ → UInt8) → δ}

/-- A prelink would now find the slot of the pending link. -/
structure Pending.Ok (keyOf : (ℕ → UInt8) → δ) (p : Pending) (s : Shared) (w : Who) (a : Contents)
    (m : ℕ → OrderedMap δ ℕ) : Prop where
  lt : p.b < s.lists.itb.length
  held : p.new ∈ s.held w
  fresh : s.key keyOf p.new ∉ (m p.b).keys
  slot : p.slot = Represents.tailSlot s.lists.info s.lists.info.poolField p.b (a.bk p.b)

/-- The client that holds what either of the two holds works on the keyed table. -/
structure Joint (keyOf : (ℕ → UInt8) → δ) (s : Shared) (held : List ℕ) (a : Contents)
    (m : ℕ → OrderedMap δ ℕ) : Prop where
  keyed : Keyed keyOf ⟨s.lists, held⟩ a m
  held : ∀ w, held.Perm (s.held w ++ s.held w.other)
  pending : ∀ w, ∀ p ∈ s.pending w, p.Ok keyOf s w a m

theorem Who.eq_or_other (w v : Who) : v = w ∨ v = w.other := by
  cases w <;> cases v <;> simp [Who.other]

theorem Who.other_ne (w : Who) : w.other ≠ w := by
  cases w <;> simp [Who.other]

@[simp] theorem Who.other_other (w : Who) : w.other.other = w := by
  cases w <;> rfl

/-- A change of what one client holds. -/
theorem held_update {held' : List ℕ} {h : Who → List ℕ} {hw : List ℕ} {w : Who}
    (hp : held'.Perm (hw ++ h w.other)) (v : Who) :
    held'.Perm (Function.update h w hw v ++ Function.update h w hw v.other) := by
  rcases w.eq_or_other v with rfl | rfl
  · rw [Function.update_self, Function.update_of_ne (Who.other_ne v)]
    exact hp
  · rw [Who.other_other, Function.update_self, Function.update_of_ne (Who.other_ne w)]
    exact hp.trans List.perm_append_comm

theorem heldAfter_perm {held h h' : List ℕ} (hp : held.Perm (h ++ h')) {call : Call δ}
    (hcall : (KeyedCall.lib call).isLink = false) (hfree : ∀ idx, call = .free idx → idx ∈ h)
    (r : Reply) : (heldAfter held call r).Perm (heldAfter h call r ++ h') := by
  have hhold : ∀ x, (hold x held).Perm (hold x h ++ h') := by
    intro x
    unfold hold
    split_ifs
    · exact hp
    · exact hp.cons x
  cases call with
  | link b k x => exact absurd hcall (by simp [KeyedCall.isLink])
  | alloc =>
    cases r with
    | item x => exact hhold x
    | linked _ => exact hp
    | freed => exact hp
  | unlink b k =>
    cases r with
    | item x => exact hhold x
    | linked _ => exact hp
    | freed => exact hp
  | free idx =>
    cases r with
    | item _ => exact hp
    | linked _ => exact hp
    | freed =>
      have := hp.erase idx
      rwa [List.erase_append_left _ (hfree idx rfl)] at this

theorem tailSlot_congr {li li' : ListInfo} {o b : ℕ} {xs ys : List ℕ}
    (hs : li'.itemSize = li.itemSize) (hl : ys.getLast? = xs.getLast?) :
    Represents.tailSlot li' o b ys = Represents.tailSlot li o b xs := by
  unfold Represents.tailSlot itemGetNextAddr2
  rw [hl, hs]

theorem getLast?_erase {xs : List ℕ} {x : ℕ} (hx : x ∈ xs) (hl : xs.getLast? ≠ some x) :
    (xs.erase x).getLast? = xs.getLast? := by
  obtain ⟨ys, y, rfl⟩ : ∃ ys y, xs = ys ++ [y] :=
    ⟨_, _, (List.dropLast_append_getLast (List.ne_nil_of_mem hx)).symm⟩
  have hy : x ≠ y := by
    rintro rfl
    exact hl (by simp)
  have hx : x ∈ ys := by simpa [hy] using hx
  rw [List.erase_append_left _ hx]
  simp

namespace Joint

variable {s : Shared} {held : List ℕ} {a : Contents} {m : ℕ → OrderedMap δ ℕ} {w : Who}

theorem mem_held (J : Joint keyOf s held a m) {x : ℕ} (hx : x ∈ s.held w) : x ∈ held :=
  (J.held w).mem_iff.mpr (List.mem_append_left _ hx)

theorem keyedAllowed (J : Joint keyOf s held a m) {call : KeyedCall δ}
    (h : IndexList.keyedAllowed keyOf (s.view w) call) :
    IndexList.keyedAllowed keyOf ⟨s.lists, held⟩ call := by
  cases call with
  | write idx j v => exact ⟨J.mem_held h.1, h.2⟩
  | lib call =>
    cases call with
    | alloc => exact h
    | link b k x => exact ⟨⟨h.1.1, J.mem_held h.1.2⟩, h.2⟩
    | unlink b k => exact h
    | free idx => exact ⟨J.mem_held h.1, h.2⟩

/-- A pending link of the other client survives a step that keeps its bucket's last item, the keys
of the bucket and the item's own key. -/
theorem pending_kept {s' : Shared} {a' : Contents} {m' : ℕ → OrderedMap δ ℕ} {p : Pending}
    (hok : p.Ok keyOf s w a m) (hlen : s'.lists.itb.length = s.lists.itb.length)
    (hheld : s'.held w = s.held w)
    (hkey : s'.key keyOf p.new = s.key keyOf p.new)
    (hfresh : s.key keyOf p.new ∉ (m p.b).keys → s.key keyOf p.new ∉ (m' p.b).keys)
    (hsize : s'.lists.info.itemSize = s.lists.info.itemSize)
    (hfield : s'.lists.info.poolField = s.lists.info.poolField)
    (hlast : (a'.bk p.b).getLast? = (a.bk p.b).getLast?) : p.Ok keyOf s' w a' m' where
  lt := hlen ▸ hok.lt
  held := hheld ▸ hok.held
  fresh := by
    rw [hkey]
    exact hfresh hok.fresh
  slot := by rw [hok.slot, hfield, tailSlot_congr hsize hlast]

variable [DecidableEq δ]

/-- The item a bucket ends with stays where a call does not take it out. -/
theorem last_kept (J : Joint keyOf s held a m) {call : Call δ} {p : Pending}
    (hcall : (KeyedCall.lib call).isLink = false) (hok : p.Ok keyOf s w.other a m)
    (hu : Undisturbed keyOf s (.own w (.lib call))) (hp : p ∈ s.pending w.other) :
    ((a.step (sameKey keyOf s.lists.info) call).2.bk p.b).getLast? = (a.bk p.b).getLast? := by
  cases call with
  | link b k x => exact absurd hcall (by simp [KeyedCall.isLink])
  | free idx => rfl
  | alloc => rw [a.step_alloc_bk]
  | unlink b k =>
    cases hf : (a.bk b).find? (sameKey keyOf s.lists.info · k) with
    | none => rw [Contents.step_unlink_none hf]
    | some x =>
      rw [Contents.step_unlink_some hf]
      show (Function.update a.bk b ((a.bk b).erase x) p.b).getLast? = _
      by_cases hb : p.b = b
      · subst hb
        have hx := List.mem_of_find?_eq_some hf
        rw [Function.update_self]
        apply getLast?_erase hx
        intro hlast
        -- the owner of the slot would have the key that is unlinked
        refine hu p hp rfl x (J.keyed.owns.holds.represents.lt p.b x hx) ?_ ?_
        · rw [hok.slot, Represents.tailSlot, hlast]
        · have hk := List.find?_some hf
          exact of_decide_eq_true hk
      · rw [Function.update_of_ne hb]

theorem keys_mapStep {call : Call δ} (hcall : (KeyedCall.lib call).isLink = false) {b : ℕ} {k : δ}
    (h : k ∉ (m b).keys) : k ∉ (mapStep m call b).keys := by
  cases call with
  | link b k x => exact absurd hcall (by simp [KeyedCall.isLink])
  | free idx => exact h
  | alloc => exact h
  | unlink b' k' =>
    show k ∉ (Function.update m b' ((m b').erase k') b).keys
    by_cases hb : b = b'
    · subst hb
      rw [Function.update_self]
      intro hk
      exact h ((List.filter_sublist.map _).subset hk)
    · rw [Function.update_of_ne hb]
      exact h

/-- A client's own call. -/
theorem lib_step (J : Joint keyOf s held a m) {call : Call δ}
    (hcall : sharedAllowed keyOf s (.own w (.lib call)))
    (hu : Undisturbed keyOf s (.own w (.lib call))) :
    ∃ r s' held' a', sharedStep keyOf s (.own w (.lib call)) = .ok (.own (some r), s') ∧
      Joint keyOf s' held' a' (mapStep m call) ∧
      s'.lists.info.itemTotal = s.lists.info.itemTotal ∧
      s'.lists.itb.length = s.lists.itb.length ∧
      Follows m (mapStep m call) fun b => tableEvent b (.lib call, some r) := by
  obtain ⟨hnone, hlink, hcall⟩ := hcall
  have K := J.keyed
  obtain ⟨⟨r, c'⟩, hs, rfl, K', A⟩ := K.lib_step (J.keyedAllowed hcall)
  obtain ⟨hheld, hview⟩ := clientStep_held hs
  have hp := payload_of_after K.owns.holds.represents.wf A
  let r := (a.step (sameKey keyOf s.lists.info) call).1
  let s' : Shared := { s with
    lists := c'.lists
    held := Function.update s.held w (heldAfter (s.held w) call r) }
  refine ⟨r, s', c'.held, _, ?_, ⟨K', ?_, ?_⟩, A.itemTotal, A.length, K.follows call⟩
  · have hview := hview (s.held w)
    show (keyedStep keyOf (s.view w) (.lib call) >>= _) = _
    have hk : keyedStep keyOf (s.view w) (.lib call) =
        .ok (some r, ⟨c'.lists, heldAfter (s.held w) call r⟩) := by
      show (clientStep _ _ _ call >>= _) = _
      unfold Shared.view
      rw [hview]
      rfl
    rw [hk]
    rfl
  · have hfree : ∀ idx, call = .free idx → idx ∈ s.held w := by
      rintro idx rfl
      exact hcall.1
    rw [hheld]
    exact held_update (heldAfter_perm (J.held w) hlink hfree r)
  · intro v p hpv
    rcases w.eq_or_other v with rfl | rfl
    · have hpv : p ∈ s.pending v := hpv
      rw [hnone] at hpv
      exact absurd hpv (by simp)
    · have hok := J.pending w.other p hpv
      refine pending_kept hok A.length ?_ ?_ (keys_mapStep hlink) A.itemSize A.poolField
        (J.last_kept hlink hok hu hpv)
      · exact Function.update_of_ne (Who.other_ne w) _ _
      · exact congrArg keyOf (hp p.new)

theorem write_step (J : Joint keyOf s held a m) {idx j : ℕ} {v : UInt8}
    (hcall : sharedAllowed keyOf s (.own w (.write idx j v))) :
    ∃ s', sharedStep keyOf s (.own w (.write idx j v)) = .ok (.own none, s') ∧
      Joint keyOf s' held a m ∧ s'.lists.info.itemTotal = s.lists.info.itemTotal ∧
      s'.lists.itb.length = s.lists.itb.length := by
  obtain ⟨hnone, -, hcall⟩ := hcall
  have K := J.keyed
  obtain ⟨hs, K'⟩ := K.write_ok (J.keyedAllowed hcall)
  have hstore : Block.store s.lists.info.itemBase (idx * s.lists.info.itemSize + j) v =
      .ok (s.lists.info.setByte idx j v).itemBase := by
    obtain ⟨base, hb, h⟩ := Outcome.bind_eq_ok.mp hs
    have h := congrArg (fun c : Option Reply × Client => c.2.lists.info.itemBase)
      (Outcome.ok.inj h)
    exact hb.trans (congrArg Outcome.ok h)
  let s' : Shared := { s with
    lists := { s.lists with info := s.lists.info.setByte idx j v }
    held := Function.update s.held w (s.held w) }
  refine ⟨s', ?_, ⟨K', ?_, ?_⟩, rfl, rfl⟩
  · have hk : keyedStep keyOf (s.view w) (.write idx j v) =
        .ok (none, ⟨s'.lists, s.held w⟩) := by
      show (Block.store s.lists.info.itemBase (idx * s.lists.info.itemSize + j) v >>= _) = _
      rw [hstore]
      rfl
    show (keyedStep keyOf (s.view w) (.write idx j v) >>= _) = _
    rw [hk]
    rfl
  · exact held_update (J.held w)
  · intro u p hpu
    rcases w.eq_or_other u with rfl | rfl
    · have hpu : p ∈ s.pending u := hpu
      rw [hnone] at hpu
      exact absurd hpu (by simp)
    · have hok := J.pending w.other p hpu
      refine pending_kept hok rfl ?_ ?_ id rfl rfl rfl
      · exact Function.update_of_ne (Who.other_ne w) _ _
      · -- the item written is held by the other client
        have hne : p.new ≠ idx := by
          rintro rfl
          have hnd := (J.held w).nodup_iff.mp K.owns.holds.nodup_held
          exact (List.nodup_append.mp hnd).2.2 _ hcall.1 _ hok.held rfl
        exact congrArg keyOf (payload_setByte_of_ne hcall.2.1 hne)

theorem prelink_step (J : Joint keyOf s held a m) {b new : ℕ}
    (hcall : sharedAllowed keyOf s (.prelink w b new)) :
    ∃ found s', sharedStep keyOf s (.prelink w b new) = .ok (.slot found, s') ∧
      Joint keyOf s' held a m ∧ s'.lists = s.lists := by
  obtain ⟨-, hb, hnew⟩ := hcall
  have K := J.keyed
  have h := K.owns.holds.represents.prelink (sameKey keyOf) hb (s.key keyOf new)
    (u32OfInt_cInt s.lists.info.nextOffset)
  have hs : sharedStep keyOf s (.prelink w b new) = _ :=
    congrArg (· >>= _) h
  refine ⟨_, _, hs, ⟨K, J.held, ?_⟩, rfl⟩
  intro v p hp
  rcases w.eq_or_other v with rfl | rfl
  · simp only [Function.update_self, Option.mem_def, Option.map_eq_some_iff] at hp
    obtain ⟨slot, hslot, rfl⟩ := hp
    by_cases hm : (a.bk b).any (sameKey keyOf s.lists.info · (s.key keyOf new)) = true
    · rw [if_pos hm] at hslot
      exact absurd hslot (by simp)
    · rw [if_neg hm] at hslot
      obtain rfl := Option.some.inj hslot
      exact ⟨hb, hnew, fun hk => hm ((K.any_iff b _).mpr hk), rfl⟩
  · have hp : p ∈ s.pending w.other := by
      simpa only [Function.update_of_ne (Who.other_ne w)] using hp
    have hok := J.pending w.other p hp
    exact ⟨hok.lt, hok.held, hok.fresh, hok.slot⟩

/-- A prelink in place of a pending one would return the same slot. -/
theorem prelink_again (J : Joint keyOf s held a m) {p : Pending} (hp : p ∈ s.pending w) :
    ¬ (a.bk p.b).any (sameKey keyOf s.lists.info · (s.key keyOf p.new)) = true ∧
      indexListPrelink (sameKey keyOf) s.lists p.b (s.key keyOf p.new) = .ok (some p.slot) := by
  have hok := J.pending w p hp
  have hany : ¬ (a.bk p.b).any (sameKey keyOf s.lists.info · (s.key keyOf p.new)) = true :=
    fun h => hok.fresh ((J.keyed.any_iff p.b _).mp h)
  have h := J.keyed.owns.holds.represents.prelink (sameKey keyOf) hok.lt (s.key keyOf p.new)
    (u32OfInt_cInt s.lists.info.nextOffset)
  rw [if_neg hany] at h
  refine ⟨hany, ?_⟩
  rw [hok.slot]
  exact h

/-- **A do-link that nothing has disturbed is a whole link.** -/
theorem doLink_step (J : Joint keyOf s held a m) (hcall : sharedAllowed keyOf s (.doLink w))
    (hu : Undisturbed keyOf s (.doLink w)) :
    ∃ b k x s' held' a', sharedStep keyOf s (.doLink w) = .ok (.linked b k x, s') ∧
      Joint keyOf s' held' a' (mapStep m (.link b k x)) ∧
      s'.lists.info.itemTotal = s.lists.info.itemTotal ∧
      s'.lists.itb.length = s.lists.itb.length ∧
      Follows m (mapStep m (.link b k x))
        fun b' => tableEvent b' (.lib (.link b k x), some (.linked true)) := by
  obtain ⟨p, hp⟩ := Option.ne_none_iff_exists'.mp hcall
  have hok := J.pending w p hp
  have K := J.keyed
  have R := K.owns.holds.represents
  have hmem : p.new ∈ held := J.mem_held hok.held
  obtain ⟨hany, hpre⟩ := J.prelink_again hp
  obtain ⟨hd, -, -⟩ := doLink_ok K.owns.holds hok.lt hmem (K.owns.reset p.new hmem)
  rw [← hok.slot] at hd
  have hd : indexListDoLink s.lists p.slot p.new = .ok _ := hd
  have hallow : IndexList.keyedAllowed keyOf ⟨s.lists, held⟩
      (.lib (.link p.b (s.key keyOf p.new) p.new)) := ⟨⟨hok.lt, hmem⟩, rfl⟩
  obtain ⟨⟨r, c'⟩, hs, hr, K', A⟩ := K.lib_step hallow
  have hs' : clientStep (indexListPrelink (sameKey keyOf)) (indexListUnlink (sameKey keyOf))
      ⟨s.lists, held⟩ (.link p.b (s.key keyOf p.new) p.new) = _ := clientStep_link hpre hd
  obtain ⟨rfl, rfl⟩ := Prod.mk.inj (Outcome.ok.inj (hs'.symm.trans hs))
  have hF := K.follows (.link p.b (s.key keyOf p.new) p.new)
  rw [← hr] at hF
  have hbk : ∀ b', b' ≠ p.b → (a.step (sameKey keyOf s.lists.info)
      (.link p.b (s.key keyOf p.new) p.new)).2.bk b' = a.bk b' := by
    intro b' hb'
    rw [Contents.step_link (Bool.eq_false_iff.mpr hany)]
    exact Function.update_of_ne hb' _ _
  refine ⟨p.b, s.key keyOf p.new, p.new, ⟨_, Function.update s.held w ((s.held w).erase p.new),
    Function.update s.pending w none⟩, held.erase p.new, _, ?_, ⟨K', ?_, ?_⟩, A.itemTotal, A.length,
    hF⟩
  · have hp : s.pending w = some p := hp
    rw [sharedStep, hp]
    simp only [hd, Outcome.ok_bind, Outcome.pure_eq]
    rfl
  · refine held_update ?_
    have := (J.held w).erase p.new
    rwa [List.erase_append_left _ hok.held] at this
  · intro v q hq
    rcases w.eq_or_other v with rfl | rfl
    · simp at hq
    · have hq : q ∈ s.pending w.other := by
        simpa only [Function.update_of_ne (Who.other_ne w)] using hq
      have hne := hu p hp q hq
      have hokq := J.pending w.other q hq
      refine pending_kept hokq A.length ?_ ?_ ?_ A.itemSize A.poolField
        (congrArg List.getLast? (hbk q.b hne))
      · exact Function.update_of_ne (Who.other_ne w) _ _
      · exact congrArg keyOf (payload_of_after R.wf A q.new)
      · intro h
        rw [mapStep, Function.update_of_ne hne]
        exact h

/-- **The step lemma.** An undisturbed step keeps the two clients one. -/
theorem step (J : Joint keyOf s held a m) {call : SharedCall δ}
    (hcall : sharedAllowed keyOf s call) (hu : Undisturbed keyOf s call) :
    ((sharedMachine keyOf).step s call).Ends fun r =>
      r.2.lists.info.itemTotal = s.lists.info.itemTotal ∧
        r.2.lists.itb.length = s.lists.itb.length ∧ ∃ held' a' m', Joint keyOf r.2 held' a' m' ∧
          Follows m m' fun b => sharedEvent b (call, r.1) := by
  show (sharedStep keyOf s call).Ends _
  rcases call with ⟨w, call | ⟨idx, j, v⟩⟩ | ⟨w, b, new⟩ | w
  · obtain ⟨r, s', held', a', hs, J', ht, hlen, hF⟩ := J.lib_step hcall hu
    exact .of_eq hs ⟨ht, hlen, held', a', _, J', hF⟩
  · obtain ⟨s', hs, J', ht, hlen⟩ := J.write_step hcall
    exact .of_eq hs ⟨ht, hlen, held, a, m, J', .refl m⟩
  · obtain ⟨found, s', hs, J', hl⟩ := J.prelink_step hcall
    exact .of_eq hs ⟨by rw [hl], by rw [hl], held, a, m, J', .refl m⟩
  · obtain ⟨b, k, x, s', held', a', hs, J', ht, hlen, hF⟩ := J.doLink_step hcall hu
    exact .of_eq hs ⟨ht, hlen, held', a', _, J', hF⟩

/-! ## What the invariant says -/

omit [DecidableEq δ]

/-- A seat, for the two clients as one. -/
def place : Seat → Place
  | .free => .free
  | .held _ => .held
  | .bucket b => .bucket b

theorem eq_free {seat : Seat} (h : Place.free = place seat) : seat = .free := by
  cases seat with
  | free => rfl
  | held w => exact absurd h (by simp [place])
  | bucket b => exact absurd h (by simp [place])

theorem eq_bucket {seat : Seat} {b : ℕ} (h : Place.bucket b = place seat) : seat = .bucket b := by
  cases seat with
  | free => exact absurd h (by simp [place])
  | held w => exact absurd h (by simp [place])
  | bucket b' => rw [Place.bucket.inj h]

theorem mem_place (J : Joint keyOf s held a m) {i : ℕ} {seat : Seat} (h : s.At i seat) :
    i ∈ a.place (place seat) := by
  refine (J.keyed.owns.at_iff (i := i)).mp ?_
  cases seat with
  | free => exact h
  | held w => exact J.mem_held h
  | bucket b => exact h

/-- Every item is at exactly one seat. -/
theorem oneSeat (J : Joint keyOf s held a m) {i : ℕ} (hi : i < s.lists.info.itemTotal) :
    ∃! seat, s.At i seat := by
  have O := J.keyed.owns
  have L := O.holds.ledger
  obtain ⟨p, hp⟩ := L.cover.mp hi
  cases p with
  | free =>
    exact ⟨.free, O.at_iff.mpr hp, fun seat h => eq_free (L.once hp (J.mem_place h))⟩
  | bucket b =>
    exact ⟨.bucket b, O.at_iff.mpr hp, fun seat h => eq_bucket (L.once hp (J.mem_place h))⟩
  | held =>
    have hheld : i ∈ held := O.at_iff.mpr hp
    obtain ⟨w, hw⟩ : ∃ w, i ∈ s.held w := by
      rcases List.mem_append.mp ((J.held .one).mem_iff.mp hheld) with h | h
      · exact ⟨_, h⟩
      · exact ⟨_, h⟩
    refine ⟨.held w, hw, fun seat h => ?_⟩
    have hplace := L.once hp (J.mem_place h)
    cases seat with
    | free => exact absurd hplace (by simp [place])
    | bucket b => exact absurd hplace (by simp [place])
    | held v =>
      rcases w.eq_or_other v with rfl | rfl
      · rfl
      · have hnd := (J.held w).nodup_iff.mp O.holds.nodup_held
        exact absurd rfl ((List.nodup_append.mp hnd).2.2 i hw i h)

/-- `list_alloc_item` hands out items of the free list only. -/
theorem alloc_free (J : Joint keyOf s held a m) : (listAllocItem s.lists.info).Ends fun r =>
    r.1 ≠ invalidListHead →
      r.1 < s.lists.info.itemTotal ∧ ∀ seat, s.At r.1 seat → seat = .free := by
  have H := J.keyed.owns.holds
  rcases hf : a.free with _ | ⟨x, xs⟩
  · exact .of_eq (alloc_none H hf) fun h => absurd rfl h
  · have hx : x ∈ a.place .free := by
      show x ∈ a.free
      rw [hf]
      exact List.mem_cons_self
    refine .of_eq (alloc_some H hf).1 fun _ => ⟨H.ledger.token hx, fun seat h => ?_⟩
    exact eq_free (H.ledger.once hx (J.mem_place h))

end Joint

end Joint

/-! ## Runs -/

section Run

variable {δ : Type} [DecidableEq δ] (keyOf : (ℕ → UInt8) → δ) {li : ListInfo} {itb : List ℕ}
  {c : Client}

omit [DecidableEq δ] in
theorem Joint.start (w : li.WF) (h1 : 1 ≤ li.itemTotal) (hn : li.itemTotal ≤ intMax)
    (h : setUp li itb = .ok c) : Joint keyOf (Shared.start c) [] (Contents.initial li.itemTotal)
      fun _ => OrderedMap.empty := by
  have K : Keyed keyOf c _ _ := Keyed.setUp w h1 hn h
  obtain ⟨-, hheld, -, -⟩ := setUp_eq w h1 hn h
  have hc : c = ⟨c.lists, []⟩ := by rw [← hheld]
  rw [hc] at K
  refine ⟨K, fun w => List.Perm.refl _, fun w p hp => ?_⟩
  exact absurd hp (by simp [Shared.start])

/-- **Two clients that leave each other's links undisturbed.** In every state reached, every item
is at exactly one seat, every bucket is the map of its history, whoever asks, and
`list_alloc_item` hands out free items only. -/
theorem two_clients_partitioned (w : li.WF) (h1 : 1 ≤ li.itemTotal) (hn : li.itemTotal ≤ intMax)
    (h : setUp li itb = .ok c) {calls : List (SharedCall δ)}
    (hl : ((sharedMachine keyOf).guard (Undisturbed keyOf)).Legal (Shared.start c) calls) :
    ((sharedMachine keyOf).run (Shared.start c) calls).Ends fun r =>
      (∀ i < li.itemTotal, ∃! seat, r.2.At i seat) ∧
        (∀ b < itb.length, ∀ w,
          (r.2.view w).Answers keyOf b (sharedEvents b (calls.zip r.1))) ∧
        (listAllocItem r.2.lists.info).Ends fun q => q.1 ≠ invalidListHead →
          q.1 < li.itemTotal ∧ ∀ seat, r.2.At q.1 seat → seat = .free := by
  obtain ⟨hi, -, hlen, -⟩ := setUp_eq w h1 hn h
  have ht : c.lists.info.itemTotal = li.itemTotal := by rw [hi, itemTotal_initialised]
  let inv : Shared → List (SharedCall δ × Seen δ) → Prop := fun s hist =>
    s.lists.info.itemTotal = li.itemTotal ∧ s.lists.itb.length = itb.length ∧
      ∃ held a m, Joint keyOf s held a m ∧ ∀ b, (m b).Records (sharedEvents b hist)
  have hinv : inv (Shared.start c) [] :=
    ⟨ht, hlen, _, _, _, Joint.start keyOf w h1 hn h, fun _ => Records.empty⟩
  rw [← Machine.run_guard (Undisturbed keyOf)]
  refine (Machine.run_hist ?_ hinv hl).mono ?_
  · rintro s hist call ⟨ht, hlen, held, a, m, J, hm⟩ ⟨hcall, hu⟩
    refine (J.step hcall hu).mono ?_
    rintro ⟨r, s'⟩ ⟨ht', hlen', held', a', m', J', hF⟩
    refine ⟨ht'.trans ht, hlen'.trans hlen, held', a', m', J', fun b => ?_⟩
    rw [sharedEvents_snoc]
    exact hF b _ (hm b)
  · rintro ⟨os, s⟩ ⟨ht, hlen, held, a, m, J, hm⟩
    rw [← ht, ← hlen]
    refine ⟨fun i hi => J.oneSeat hi, fun b hb w => ?_, J.alloc_free⟩
    have A := J.keyed.answers hb (hm b)
    exact ⟨A.prelink, A.unlink, A.walk⟩

end Run

/-- The first byte of an item as its key. -/
def byteKey : (ℕ → UInt8) → UInt8 := fun payload => payload 0

/-- Bucket `0` is linked into while client `one` unlinks from bucket `1`. -/
theorem two_clients_partitioned_sample :
    let calls : List (SharedCall UInt8) := [.own .one (.lib .alloc), .own .two (.lib .alloc),
      .own .one (.write 0 0 5), .own .two (.write 1 0 6), .prelink .two 0 1, .prelink .one 1 0,
      .doLink .one, .own .one (.lib (.unlink 1 5)), .doLink .two, .own .one (.lib (.free 0))]
    ((sharedMachine byteKey).run (Shared.start sampleClient) calls).Ends fun r =>
      (∀ i < 2, ∃! seat, r.2.At i seat) ∧
        (∀ b < 2, ∀ w, (r.2.view w).Answers byteKey b (sharedEvents b (calls.zip r.1))) ∧
        (listAllocItem r.2.lists.info).Ends fun q => q.1 ≠ invalidListHead →
          q.1 < 2 ∧ ∀ seat, r.2.At q.1 seat → seat = .free :=
  two_clients_partitioned byteKey sampleInfo_wf (by decide) (by decide) setUp_sample
    (by decide +kernel)

/-! ## Disturbed links -/

/-- Both clients find the same slot, and both use it. -/
def lostCalls : List (SharedCall UInt8) :=
  [.own .one (.lib .alloc), .own .two (.lib .alloc), .own .one (.write 0 0 5),
    .own .two (.write 1 0 6), .prelink .one 0 0, .prelink .two 0 1, .doLink .one, .doLink .two]

/-- The owner of the slot is unlinked and freed before the slot is used. -/
def strayCalls : List (SharedCall UInt8) :=
  [.own .one (.lib .alloc), .own .one (.lib .alloc), .own .one (.write 0 0 5),
    .own .one (.write 1 0 6), .prelink .one 0 0, .doLink .one, .prelink .one 0 1,
    .own .two (.lib (.unlink 0 5)), .own .two (.lib (.free 0)), .doLink .one]

/-- No link is pending after either order of steps. In the first item `0` is nowhere; in the
second item `1`, linked under the key `6` and never unlinked, is on the free list. -/
theorem links_disturbed :
    (sharedMachine byteKey).Legal (Shared.start sampleClient) lostCalls ∧
      (((sharedMachine byteKey).run (Shared.start sampleClient) lostCalls).Ends fun r =>
        (∀ w, r.2.pending w = none) ∧ ∀ seat, ¬ r.2.At 0 seat) ∧
      (sharedMachine byteKey).Legal (Shared.start sampleClient) strayCalls ∧
      ((sharedMachine byteKey).run (Shared.start sampleClient) strayCalls).Ends fun r =>
        (∀ w, r.2.pending w = none) ∧ InForce (sharedEvents 0 (strayCalls.zip r.1)) 6 1 ∧
          r.2.At 1 .free := by
  have hw : ∀ {f : Who → Option Pending}, f .one = none → f .two = none → ∀ w, f w = none :=
    fun h1 h2 w => by cases w <;> assumption
  refine ⟨by decide +kernel, ?_, by decide +kernel, ?_⟩
  · have h : ((sharedMachine byteKey).run (Shared.start sampleClient) lostCalls).Ends fun r =>
        r.2.pending .one = none ∧ r.2.pending .two = none ∧ r.2.held .one = [] ∧
          r.2.held .two = [] ∧ r.2.lists.info.freeHead = invalidListHead ∧
          r.2.lists.itb = [1, invalidListHead] ∧
          (r.2.view .one).next 1 = invalidListHead := by decide +kernel
    refine h.mono ?_
    rintro ⟨os, s⟩ ⟨hp1, hp2, hh1, hh2, hfree, hitb, hnext⟩
    refine ⟨hw hp1 hp2, ?_⟩
    rintro (_ | w | b)
    · rintro ⟨xs, hc, hx⟩
      rw [hc.head_eq_nil_iff.mp hfree] at hx
      exact absurd hx List.not_mem_nil
    · cases w
      · intro h
        exact absurd (hh1 ▸ h : 0 ∈ []) List.not_mem_nil
      · intro h
        exact absurd (hh2 ▸ h : 0 ∈ []) List.not_mem_nil
    · rintro ⟨hb, xs, hc, hx⟩
      have hitb : s.lists.itb = [1, invalidListHead] := hitb
      have hc : Chain (s.view .one).next invalidListHead (s.lists.itb.getD b invalidListHead) xs :=
        hc
      rw [hitb] at hc
      rcases b with _ | _ | b
      · -- item `1` alone
        have hsingle : Chain (s.view .one).next invalidListHead 1 [1] :=
          Chain.single (by decide) hnext
        rw [hc.unique hsingle] at hx
        exact absurd hx (by decide)
      · rw [hc.head_eq_nil_iff.mp rfl] at hx
        exact absurd hx List.not_mem_nil
      · rw [hc.head_eq_nil_iff.mp rfl] at hx
        exact absurd hx List.not_mem_nil
  · have h : ((sharedMachine byteKey).run (Shared.start sampleClient) strayCalls).Ends fun r =>
        r.2.pending .one = none ∧ r.2.pending .two = none ∧
          (6, 1) ∈ live (sharedEvents 0 (strayCalls.zip r.1)) ∧ r.2.lists.info.freeHead = 0 ∧
          (r.2.view .one).next 0 = 1 ∧ (r.2.view .one).next 1 = invalidListHead := by
      decide +kernel
    refine h.mono ?_
    rintro ⟨os, s⟩ ⟨hp1, hp2, hlive, hfree, hn0, hn1⟩
    refine ⟨hw hp1 hp2, mem_live.mp hlive, [0, 1], ?_, by decide⟩
    show Chain (s.view .one).next invalidListHead s.lists.info.freeHead [0, 1]
    rw [show s.lists.info.freeHead = 0 from hfree]
    refine Chain.cons_iff.mpr ⟨rfl, by decide, ?_⟩
    rw [hn0]
    exact Chain.single (by decide) hn1

end KernelGadgets.IndexList
