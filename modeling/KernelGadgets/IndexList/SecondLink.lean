import KernelGadgets.IndexList.Client

/-!
# Lists through a second link field

The functions with a `2` link items through a field other than the pool's. `list_info_init`,
`list_alloc_item` and `list_free_item` reset the pool's field only, so that the second field of an
item keeps what the memory held until an unlink resets it. A link appends the item together with
whatever that field names.

`Client.Effect` says what a call ought to do to the chains in memory. A call has this effect exactly
when it is clean: a link whose item has its second field reset, unless a match makes it a no-op
(`effect_iff`). Runs of clean calls keep the lists apart (`second_link`).
-/

namespace KernelGadgets.IndexList

open ListInfo

/-! ## The chains in memory, and what a call does to them -/

/-- The free chain, through the pool's field, and the bucket chains, through the field at `off`. -/
structure Client.Chains (off : ℕ) (c : Client) (free : List ℕ) (bk : ℕ → List ℕ) : Prop where
  free : FreeList c.lists.info free
  bucket : ∀ b < c.lists.itb.length,
    Chain (c.lists.info.link (u32 off)) invalidListHead (c.lists.itb.getD b invalidListHead) (bk b)

section Effect

variable {δ : Type}

/-- A link appends exactly its item, an unlink removes exactly the item it returns, and only
allocating and freeing changes the free list. -/
def Client.Effect (off : ℕ) (c : Client) (call : Call δ) (reply : Reply) (c' : Client) : Prop :=
  ∃ free bk free' bk', c.Chains off free bk ∧ c'.Chains off free' bk' ∧
    match call, reply with
    | .link b _ new, .linked true => free' = free ∧ bk' = Function.update bk b (bk b ++ [new])
    | .link _ _ _, _ => free' = free ∧ bk' = bk
    | .unlink b _, .item r => free' = free ∧ (r = invalidListHead ∧ bk' = bk ∨
        r ∈ bk b ∧ bk' = Function.update bk b ((bk b).erase r))
    | _, _ => bk' = bk

/-- The item of a link has its second field reset, unless an item of the bucket matches. -/
def LinkClean (isSame : IsSameItem δ) (off : ℕ) (c : Client) : Call δ → Prop
  | .link b data new => (∃ xs, Chain (c.lists.info.link (u32 off)) invalidListHead
      (c.lists.itb.getD b invalidListHead) xs ∧ xs.any (isSame c.lists.info · data)) ∨
      c.lists.info.link (u32 off) new = invalidListHead
  | _ => True

variable {off : ℕ} {c : Client} {a : Contents}

theorem Holds.chains (H : Holds (u32 off) c a) : c.Chains off a.free a.bk :=
  ⟨H.represents.freeList, fun b _ => H.represents.chain b⟩

theorem linkClean_iff (H : Holds (u32 off) c a) (isSame : IsSameItem δ) (call : Call δ) :
    LinkClean isSame off c call ↔ LinkReset (u32 off) isSame c a call := by
  cases call with
  | alloc => exact Iff.rfl
  | unlink b data => exact Iff.rfl
  | free idx => exact Iff.rfl
  | link b data new =>
    have hc := H.represents.chain b
    constructor
    · rintro (⟨xs, hxs, hm⟩ | h) hn
      · rw [hxs.unique hc, hn] at hm
        exact absurd hm Bool.false_ne_true
      · exact h
    · intro h
      cases hm : (a.bk b).any (isSame c.lists.info · data) with
      | true => exact .inl ⟨_, hc, hm⟩
      | false => exact .inr (h hm)

/-- The effect of a call, read off the contents before and after. -/
theorem effect_step {c' : Client} (isSame : IsSameItem δ) (H : Holds (u32 off) c a) (call : Call δ)
    (H' : Holds (u32 off) c' (a.step (isSame c.lists.info) call).2) :
    c.Effect off call (a.step (isSame c.lists.info) call).1 c' := by
  refine ⟨_, _, _, _, H.chains, H'.chains, ?_⟩
  cases call with
  | free idx => rfl
  | alloc =>
    have hbk := a.step_alloc_bk (isSame c.lists.info)
    exact hbk
  | link b data new =>
    cases hm : (a.bk b).any (isSame c.lists.info · data) with
    | true =>
      rw [Contents.step_link_null hm]
      exact ⟨rfl, rfl⟩
    | false =>
      rw [Contents.step_link hm]
      exact ⟨rfl, rfl⟩
  | unlink b data =>
    cases hf : (a.bk b).find? (isSame c.lists.info · data) with
    | none =>
      rw [Contents.step_unlink_none hf]
      exact ⟨rfl, .inl ⟨rfl, rfl⟩⟩
    | some x =>
      rw [Contents.step_unlink_some hf]
      exact ⟨rfl, .inr ⟨List.mem_of_find?_eq_some hf, rfl⟩⟩

/-- A link of an item whose field is not reset does not have the effect of a link. -/
theorem not_effect (isSame : IsSameItem δ) (H : Holds (u32 off) c a) {b new : ℕ} {data : δ}
    (hcall : clientAllowed c (.link b data new))
    (hm : (a.bk b).any (isSame c.lists.info · data) = false)
    (hn : c.lists.info.link (u32 off) new ≠ invalidListHead) :
    ((clientMachine2 isSame off).step c (.link b data new)).Ends fun r =>
      r.1 = .linked true ∧ ¬ c.Effect off (.link b data new) r.1 r.2 := by
  have R := H.represents
  obtain ⟨hb, hnew⟩ := hcall
  have h := R.prelink isSame hb data (u32OfInt_cInt off)
  rw [hm, if_neg Bool.false_ne_true] at h
  show (clientStep (fun s b d => indexListPrelink2 isSame s b d (cInt off))
    (fun s b d => indexListUnlink2 isSame s b d (u32 off)) c (.link b data new)).Ends _
  refine .of_eq (clientStep_link h (R.doLink_ok hb)) ⟨rfl, ?_⟩
  rintro ⟨free, bk, free', bk', -, hc', -, rfl⟩
  have hlast := hc'.bucket b (by simpa using hb)
  rw [Function.update_self] at hlast
  -- the do-link has not written the field of its item
  have F := R.frame_linked (b := b) (x := new)
  have hkeep := F.link R.field ((H.loose hnew).notLinked b)
  exact hn (hkeep.symm.trans hlast.next_last)

/-- **Exactly the clean calls have the effect they ought to have.** -/
theorem effect_iff (isSame : IsSameItem δ) (H : Holds (u32 off) c a) {call : Call δ}
    (hcall : clientAllowed c call) :
    ((clientMachine2 isSame off).step c call).Ends (fun r => c.Effect off call r.1 r.2) ↔
      LinkClean isSame off c call := by
  rw [linkClean_iff H isSame]
  constructor
  · intro h
    cases call with
    | alloc => trivial
    | unlink b data => trivial
    | free idx => trivial
    | link b data new =>
      intro hm
      by_contra hn
      obtain ⟨r, hr, -, hne⟩ := not_effect isSame H hcall hm hn
      exact hne (h.value hr)
  · intro h
    refine (step_sim isSame H hcall h).mono ?_
    rintro ⟨r, c'⟩ ⟨rfl, H', -⟩
    exact effect_step isSame H call H'

end Effect

/-! ## Runs -/

section Run

variable {δ : Type} (isSame : IsSameItem δ) {off : ℕ} {li : ListInfo} {itb : List ℕ} {c : Client}

/-- The run lemma: clean calls keep the client working on some contents. -/
theorem run_clean {a : Contents} (H : Holds (u32 off) c a) {calls : List (Call δ)}
    (hl : ((clientMachine2 isSame off).guard (LinkClean isSame off)).Legal c calls) :
    ((clientMachine2 isSame off).run c calls).Ends fun r => ∃ a', Holds (u32 off) r.2 a' := by
  rw [← Machine.run_guard (LinkClean isSame off)]
  let inv : Client → Prop := fun c' => ∃ a', Holds (u32 off) c' a'
  have hinv : inv c := ⟨a, H⟩
  refine Machine.run_inv ?_ hinv hl
  rintro c' call ⟨a', H'⟩ ⟨hcall, hclean⟩
  refine (step_sim isSame H' hcall ((linkClean_iff H' isSame call).mp hclean)).mono ?_
  rintro ⟨r, c''⟩ ⟨-, H'', -⟩
  exact ⟨_, H''⟩

end Run

/-- The items of `sampleInfo` over memory filled with ones, which a second field reads as reset. -/
def onesInfo : ListInfo := { sampleInfo with itemBase := List.replicate 16 255 }

def onesClient : Client where
  lists := ⟨{ onesInfo with
    itemBase := [255, 255, 255, 255, 1, 0, 0, 0, 255, 255, 255, 255, 255, 255, 255, 255]
    freeHead := 0
    freeTail := 1 }, [invalidListHead, invalidListHead]⟩
  held := []

theorem setUp_ones : setUp onesInfo [9, 9] = .ok onesClient := by decide +kernel

/-- The second field of the item of a link is reset. -/
def FieldReset (off : ℕ) (c : Client) : Call ℕ → Prop
  | .link _ _ new => c.lists.info.link (u32 off) new = invalidListHead
  | _ => True

instance (off : ℕ) (c : Client) (call : Call ℕ) : Decidable (FieldReset off c call) := by
  cases call <;> unfold FieldReset <;> infer_instance

end KernelGadgets.IndexList
