import KernelGadgets.IndexList.Client

/-!
# Every item in exactly one place

The client of the pool's own link field (`clientMachine`). One `next` field serves the free list
and all buckets; what keeps them apart is that the field of every item held is reset (`Owns.reset`),
so that a link never drags a second item along. `Owns` is preserved by every call (`Owns.step`),
and it gives the partition of the indices over the free chain, the client's hands and the bucket
chains (`Owns.partitioned`).
-/

namespace KernelGadgets.IndexList

open ListInfo

/-- The client works on contents `a` through the pool's field, and that field of every item held is
reset. -/
structure Owns (c : Client) (a : Contents) : Prop where
  holds : Holds c.lists.info.poolField c a
  reset : ∀ x ∈ c.held, c.lists.info.link c.lists.info.poolField x = invalidListHead

/-- With the pool's own offset the functions with a `2` are those without. -/
theorem clientMachine_step {δ : Type} (isSame : IsSameItem δ) (c : Client) (call : Call δ) :
    (clientMachine isSame).step c call =
      (clientMachine2 isSame c.lists.info.nextOffset).step c call := by
  cases call <;> simp only [clientMachine, clientMachine2, clientStep, indexListPrelink,
    indexListUnlink, ListInfo.poolField]

namespace Owns

variable {c : Client} {a : Contents}

theorem linkReset {δ : Type} (O : Owns c a) (isSame : IsSameItem δ) {call : Call δ}
    (hcall : clientAllowed c call) : LinkReset c.lists.info.poolField isSame c a call := by
  cases call with
  | link b data new => exact fun _ => O.reset new hcall.2
  | alloc => trivial
  | unlink b data => trivial
  | free idx => trivial

/-- **The step lemma.** A call ends with the reply of `Contents.step` and keeps `Owns`. -/
theorem step {δ : Type} (O : Owns c a) (isSame : IsSameItem δ) {call : Call δ}
    (hcall : clientAllowed c call) : ((clientMachine isSame).step c call).Ends fun r =>
      r.1 = (a.step (isSame c.lists.info) call).1 ∧
        Owns r.2 (a.step (isSame c.lists.info) call).2 ∧
        After c.lists.info.poolField c r.2 := by
  rw [clientMachine_step]
  refine (step_sim isSame O.holds hcall (O.linkReset isSame hcall)).mono ?_
  rintro ⟨r, c'⟩ ⟨hr, H, A⟩
  refine ⟨hr, ⟨?_, fun x hx => ?_⟩, A⟩
  · rw [A.poolField]; exact H
  · rw [A.poolField]
    rcases A.held x hx with ⟨hxc, he⟩ | he | he
    · exact he.trans (O.reset x hxc)
    · exact he
    · exact he

/-- What every run starts from. -/
theorem setUp {li : ListInfo} {itb : List ℕ} (w : li.WF) (h1 : 1 ≤ li.itemTotal)
    (hn : li.itemTotal ≤ intMax) (h : setUp li itb = .ok c) :
    Owns c (Contents.initial li.itemTotal) := by
  obtain ⟨hi, hheld, -, -⟩ := setUp_eq w h1 hn h
  have hp : c.lists.info.poolField = li.poolField := by rw [hi, poolField_initialised]
  refine ⟨hp ▸ holds_setUp w h1 hn h w.poolField_le (.inl rfl), ?_⟩
  rw [hheld]
  intro x hx
  exact absurd hx List.not_mem_nil

end Owns

/-! ## Places in memory -/

namespace Client

/-- The `next` of each item. -/
def next (c : Client) : ℕ → ℕ := c.lists.info.link c.lists.info.poolField

/-- Item `i` is at a place: on the chain from `free_head`, held, or on the chain of a bucket. -/
def At (c : Client) (i : ℕ) : Place → Prop
  | .free => ∃ xs, Chain c.next invalidListHead c.lists.info.freeHead xs ∧ i ∈ xs
  | .held => i ∈ c.held
  | .bucket b => b < c.lists.itb.length ∧
      ∃ xs, Chain c.next invalidListHead (c.lists.itb.getD b invalidListHead) xs ∧ i ∈ xs

/-- Every index is in exactly one place. Every chain is a list without repetition that ends in
`INVALID_LIST_HEAD`, `free_tail` is the last item of the free chain (`FreeList`), and the `next` of
every item held is reset. -/
structure Partitioned (c : Client) : Prop where
  one : ∀ i < c.lists.info.itemTotal, ∃! p, c.At i p
  free : ∃ xs, FreeList c.lists.info xs
  bucket : ∀ b < c.lists.itb.length, ∃ xs,
    Chain c.next invalidListHead (c.lists.itb.getD b invalidListHead) xs ∧ xs.Nodup ∧
      ∀ x ∈ xs, x < c.lists.info.itemTotal
  held : ∀ i ∈ c.held, c.next i = invalidListHead

/-- An answer of `list_alloc_item`: `INVALID_LIST_HEAD` exactly when every index is held or linked,
else an index that is neither. -/
def AllocSound (c : Client) (reply : Reply) : Prop :=
  ∃ r, reply = .item r ∧
    (r = invalidListHead ↔ ∀ i < c.lists.info.itemTotal, ¬ c.At i .free) ∧
    (r ≠ invalidListHead → r < c.lists.info.itemTotal ∧ c.At r .free ∧ ¬ c.At r .held ∧
      ∀ b, ¬ c.At r (.bucket b))

end Client

namespace Owns

variable {c : Client} {a : Contents}

/-- The places in memory are those of the contents. -/
theorem at_iff (O : Owns c a) {i : ℕ} {p : Place} : c.At i p ↔ i ∈ a.place p := by
  have R := O.holds.represents
  rcases p with _ | _ | b
  · constructor
    · rintro ⟨xs, hc, hi⟩
      rwa [hc.unique R.freeList.chain] at hi
    · intro hi
      exact ⟨a.free, R.freeList.chain, hi⟩
  · show i ∈ c.held ↔ i ∈ a.held
    rw [O.holds.held]
  · constructor
    · rintro ⟨-, xs, hc, hi⟩
      rwa [hc.unique (R.chain b)] at hi
    · refine fun hi => ⟨?_, a.bk b, R.chain b, hi⟩
      by_contra hb
      have hnil := R.chain b
      rw [List.getD_eq_default _ _ (Nat.le_of_not_lt hb)] at hnil
      have hi : i ∈ a.bk b := hi
      rw [hnil.head_eq_nil_iff.mp rfl] at hi
      exact absurd hi List.not_mem_nil

theorem partitioned (O : Owns c a) : c.Partitioned where
  one i hi := by
    simp only [O.at_iff]
    exact O.holds.ledger.existsUnique hi
  free := ⟨a.free, O.holds.represents.freeList⟩
  bucket b _ :=
    ⟨a.bk b, O.holds.represents.chain b, O.holds.represents.nodup b, O.holds.represents.lt b⟩
  held := O.reset

theorem allocSound {δ : Type} (O : Owns c a) (isSame : IsSameItem δ) :
    ((clientMachine isSame).step c .alloc).Ends fun q => c.AllocSound q.1 := by
  have L := O.holds.ledger
  have hcall : clientAllowed c (.alloc : Call δ) := trivial
  refine (O.step isSame hcall).mono ?_
  rintro ⟨reply, c'⟩ ⟨hr, -, -⟩
  have hr : reply = (a.step (isSame c.lists.info) .alloc).1 := hr
  rcases hf : a.free with _ | ⟨x, xs⟩
  · refine ⟨invalidListHead, by simpa [Contents.step, hf] using hr, ?_, fun h => absurd rfl h⟩
    refine ⟨fun _ i _ hi => ?_, fun _ => rfl⟩
    have hi : i ∈ a.free := O.at_iff.mp hi
    rw [hf] at hi
    exact absurd hi List.not_mem_nil
  · have hx : x ∈ a.place .free := by
      show x ∈ a.free
      rw [hf]
      exact List.mem_cons_self
    have hlt := L.token hx
    have hI := O.holds.represents.lt_invalid hlt
    refine ⟨x, by simpa [Contents.step, hf] using hr, ?_, fun _ => ⟨hlt, O.at_iff.mpr hx, ?_, ?_⟩⟩
    · exact ⟨fun h => by omega, fun h => absurd (O.at_iff.mpr hx) (h x hlt)⟩
    · intro h
      exact L.notMem_of_ne hx (by simp) (O.at_iff.mp h)
    · intro b h
      exact L.notMem_of_ne hx (by simp) (O.at_iff.mp h)

end Owns

/-! ## Runs -/

section Run

variable {δ : Type} (isSame : IsSameItem δ) {li : ListInfo} {itb : List ℕ} {c : Client}

/-- The run lemma: after every legal sequence of calls the client owns some contents, and the
layout is that of the start. -/
theorem run_owns {a : Contents} (O : Owns c a) {calls : List (Call δ)}
    (hl : (clientMachine isSame).Legal c calls) :
    ((clientMachine isSame).run c calls).Ends fun r => (∃ a', Owns r.2 a') ∧
      r.2.lists.info.itemTotal = c.lists.info.itemTotal ∧
      r.2.lists.itb.length = c.lists.itb.length := by
  let inv : Client → Prop := fun c' => (∃ a', Owns c' a') ∧
    c'.lists.info.itemTotal = c.lists.info.itemTotal ∧ c'.lists.itb.length = c.lists.itb.length
  have hinv : inv c := ⟨⟨a, O⟩, rfl, rfl⟩
  refine Machine.run_inv ?_ hinv hl
  rintro c' call ⟨⟨a', O'⟩, ht, hlen⟩ hcall
  refine (O'.step isSame hcall).mono ?_
  rintro ⟨r, c''⟩ ⟨-, O'', A⟩
  exact ⟨⟨_, O''⟩, A.itemTotal.trans ht, A.length.trans hlen⟩

/-- **The partition of the pool.** After any sequence of calls by a client that links and frees
only what it holds, every index is in exactly one place, and `list_alloc_item` hands out exactly
the items that are neither held nor linked. No call faults or runs for ever. -/
theorem pool_partitioned (w : li.WF) (h1 : 1 ≤ li.itemTotal) (hn : li.itemTotal ≤ intMax)
    (h : setUp li itb = .ok c) {calls : List (Call δ)}
    (hl : (clientMachine isSame).Legal c calls) :
    ((clientMachine isSame).run c calls).Ends fun r =>
      r.2.lists.info.itemTotal = li.itemTotal ∧ r.2.lists.itb.length = itb.length ∧
        r.2.Partitioned ∧ ((clientMachine isSame).step r.2 .alloc).Ends fun q =>
          r.2.AllocSound q.1 := by
  obtain ⟨hi, -, hlen, -⟩ := setUp_eq w h1 hn h
  refine (run_owns isSame (Owns.setUp w h1 hn h) hl).mono ?_
  rintro ⟨os, c'⟩ ⟨⟨a, O⟩, ht, hlen'⟩
  refine ⟨?_, hlen'.trans hlen, O.partitioned, O.allocSound isSame⟩
  rw [ht, hi, itemTotal_initialised]

end Run

/-- A run on two items and two buckets in which an item is linked, unlinked and freed. -/
theorem pool_partitioned_sample :
    ((clientMachine sampleSame).run sampleClient
        [.alloc, .alloc, .link 0 5 1, .link 0 6 0, .unlink 0 6, .free 0, .alloc]).Ends fun r =>
      r.2.lists.info.itemTotal = 2 ∧ r.2.lists.itb.length = 2 ∧ r.2.Partitioned ∧
        ((clientMachine sampleSame).step r.2 .alloc).Ends fun q => r.2.AllocSound q.1 :=
  pool_partitioned sampleSame sampleInfo_wf (by decide) (by decide) setUp_sample
    (by decide +kernel)

end KernelGadgets.IndexList
