import KernelGadgets.IndexList.Client

/-!
# The pool is a queue

A client of the pool alone allocates and frees. Its answers are those of a first-in first-out
queue that starts as `0, 1, …, n - 1`: an allocation takes the front, and a free appends.

`Tracks c q` relates a client to the queue; it is `Holds` with no bucket in use. One call keeps it
(`Tracks.step`), and `pool_fifo` follows for whole runs.
-/

namespace KernelGadgets.IndexList

open ListInfo

/-- The pool, and the items its client holds. -/
structure PoolClient where
  info : ListInfo
  held : List ℕ
  deriving DecidableEq, Repr

inductive PoolCall where
  | alloc
  | free (idx : ℕ)
  deriving DecidableEq, Repr

def poolStep (c : PoolClient) : PoolCall → Outcome (Reply × PoolClient)
  | .alloc => do
    let (r, info) ← listAllocItem c.info
    return (.item r, ⟨info, hold r c.held⟩)
  | .free idx => do
    let info ← listFreeItem c.info idx
    return (.freed, ⟨info, c.held.erase idx⟩)

theorem poolStep_alloc {c : PoolClient} {r : ℕ} {info : ListInfo}
    (h : listAllocItem c.info = .ok (r, info)) :
    poolStep c .alloc = .ok (.item r, ⟨info, hold r c.held⟩) := by
  simp [poolStep, h]

theorem poolStep_free {c : PoolClient} {idx : ℕ} {info : ListInfo}
    (h : listFreeItem c.info idx = .ok info) :
    poolStep c (.free idx) = .ok (.freed, ⟨info, c.held.erase idx⟩) := by
  simp [poolStep, h]

/-- A client frees only items it holds. -/
def poolMachine : Machine PoolClient PoolCall Reply where
  allowed c
    | .alloc => True
    | .free idx => idx ∈ c.held
  step := poolStep

instance (c : PoolClient) (call : PoolCall) : Decidable (poolMachine.allowed c call) := by
  cases call <;> unfold poolMachine <;> infer_instance

/-- The queue: an allocation takes the front, a free appends at the back. -/
def queueStep : List ℕ → PoolCall → Reply × List ℕ
  | [], .alloc => (.item invalidListHead, [])
  | x :: xs, .alloc => (.item x, xs)
  | xs, .free idx => (.freed, xs ++ [idx])

/-! ## The queue by itself -/

section Queue

open Machine (specRun)

theorem specRun_alloc (xs ys : List ℕ) :
    specRun queueStep (xs ++ ys) (List.replicate xs.length .alloc) = (xs.map .item, ys) := by
  induction xs with
  | nil => rfl
  | cons x xs ih =>
    rw [List.length_cons, List.replicate_succ, Machine.specRun_cons, List.cons_append]
    simp only [queueStep, ih, List.map_cons]

theorem specRun_alloc_nil (k : ℕ) : specRun queueStep [] (List.replicate k .alloc) =
    (List.replicate k (.item invalidListHead), []) := by
  induction k with
  | zero => rfl
  | succ k ih =>
    rw [List.replicate_succ, Machine.specRun_cons]
    simp only [queueStep, ih, List.replicate_succ]

theorem specRun_free (xs p : List ℕ) : specRun queueStep xs (p.map .free) =
    (List.replicate p.length .freed, xs ++ p) := by
  induction p generalizing xs with
  | nil => simp
  | cons x p ih =>
    have hq : queueStep xs (.free x) = (.freed, xs ++ [x]) := by cases xs <;> rfl
    rw [List.map_cons, Machine.specRun_cons, hq, ih, List.length_cons, List.replicate_succ,
      List.append_assoc]
    rfl

end Queue

/-! ## The pool tracks the queue -/

/-- The free list of the pool is `q`, and the client holds every other item. -/
def Tracks (c : PoolClient) (q : List ℕ) : Prop :=
  Holds c.info.poolField ⟨⟨c.info, []⟩, c.held⟩ ⟨q, c.held, fun _ => []⟩

namespace Tracks

variable {c : PoolClient} {q : List ℕ}

theorem freeList (T : Tracks c q) : FreeList c.info q := T.represents.freeList

/-- An allocation from the empty queue changes nothing. -/
theorem alloc_nil (T : Tracks c []) :
    poolMachine.step c .alloc = .ok (.item invalidListHead, c) := by
  have h := poolStep_alloc (listAllocItem_nil T.freeList)
  rw [hold_invalid] at h
  exact h

theorem alloc_cons {x : ℕ} {xs : List ℕ} (T : Tracks c (x :: xs)) :
    poolMachine.step c .alloc = .ok (.item x, ⟨allocated c.info x xs, x :: c.held⟩) ∧
      Tracks ⟨allocated c.info x xs, x :: c.held⟩ xs := by
  obtain ⟨h, H, -⟩ := alloc_some T rfl
  have h := poolStep_alloc h
  have hx := T.hold_eq (T.freeList.lt x List.mem_cons_self)
  rw [hx] at h H
  exact ⟨h, H⟩

theorem free {idx : ℕ} (T : Tracks c q) (hi : idx ∈ c.held) :
    poolMachine.step c (.free idx) = .ok (.freed, ⟨freed c.info q idx, c.held.erase idx⟩) ∧
      Tracks ⟨freed c.info q idx, c.held.erase idx⟩ (q ++ [idx]) := by
  obtain ⟨h, H, -⟩ := free_ok T hi
  refine ⟨poolStep_free h, ?_⟩
  unfold Tracks
  rw [poolField_freed]
  exact H

/-- **The step lemma.** A call of the client gets the answer of the queue and keeps it tracked. -/
theorem step (T : Tracks c q) {call : PoolCall} (hcall : poolMachine.allowed c call) :
    (poolMachine.step c call).Ends fun r =>
      r.1 = (queueStep q call).1 ∧ Tracks r.2 (queueStep q call).2 ∧
        r.2.info.itemTotal = c.info.itemTotal := by
  cases call with
  | alloc =>
    rcases q with _ | ⟨x, xs⟩
    · exact .of_eq T.alloc_nil ⟨rfl, T, rfl⟩
    · obtain ⟨h, T'⟩ := T.alloc_cons
      exact .of_eq h ⟨rfl, T', rfl⟩
  | free idx =>
    have hq : queueStep q (.free idx) = (.freed, q ++ [idx]) := by cases q <;> rfl
    obtain ⟨h, T'⟩ := T.free hcall
    rw [hq]
    exact .of_eq h ⟨rfl, T', itemTotal_freed⟩

/-- The pool after `list_info_init`. -/
theorem initial {li : ListInfo} (w : li.WF) (h1 : 1 ≤ li.itemTotal) (hn : li.itemTotal ≤ intMax) :
    Tracks ⟨initialised li, []⟩ (List.range li.itemTotal) := by
  have h : setUp li [] = .ok ⟨⟨initialised li, []⟩, []⟩ := by
    unfold setUp
    rw [listInfoInit_ok w h1 hn]
    rfl
  have H := holds_setUp w h1 hn h w.poolField_le (.inl rfl)
  unfold Tracks
  rw [poolField_initialised]
  exact H

/-- The run lemma: a run gets the answers of the queue. -/
theorem run (T : Tracks c q) {calls : List PoolCall} (hl : poolMachine.Legal c calls) :
    (poolMachine.run c calls).Ends fun r =>
      r.1 = (Machine.specRun queueStep q calls).1 ∧
        Tracks r.2 (Machine.specRun queueStep q calls).2 ∧
        r.2.info.itemTotal = c.info.itemTotal := by
  let rel : PoolClient → List ℕ → Prop := fun c' q' =>
    Tracks c' q' ∧ c'.info.itemTotal = c.info.itemTotal
  have hT : rel c q := ⟨T, rfl⟩
  refine Machine.run_sim ?_ hT hl
  rintro c' q' call ⟨T', ht⟩ hcall
  refine (T'.step hcall).mono ?_
  rintro ⟨r, c''⟩ ⟨hr, T'', ht'⟩
  exact ⟨hr, T'', ht'.trans ht⟩

theorem legal_alloc (T : Tracks c q) (k : ℕ) :
    poolMachine.Legal c (List.replicate k .alloc) := by
  induction k generalizing c q with
  | zero => trivial
  | succ k ih =>
    obtain ⟨⟨r, c'⟩, hs, -, T', -⟩ := T.step (show poolMachine.allowed c .alloc from trivial)
    exact (Machine.legal_cons_of_step hs).mpr ⟨trivial, ih T'⟩

/-- Items held may be freed in any order. -/
theorem legal_free (T : Tracks c q) {p : List ℕ} (hp : p.Nodup) (hheld : ∀ x ∈ p, x ∈ c.held) :
    poolMachine.Legal c (p.map .free) := by
  induction p generalizing c q with
  | nil => trivial
  | cons x p ih =>
    obtain ⟨hx, hp⟩ := List.nodup_cons.mp hp
    have hcall : x ∈ c.held := hheld x List.mem_cons_self
    obtain ⟨hs, T'⟩ := T.free hcall
    refine (Machine.legal_cons_of_step hs).mpr ⟨hcall, ih T' hp fun y hy => ?_⟩
    have hyx : y ≠ x := fun h => hx (h ▸ hy)
    rw [List.mem_erase_of_ne hyx]
    exact hheld y (List.mem_cons_of_mem _ hy)

/-- With an empty free list the client holds the whole pool. -/
theorem held_of_nil (T : Tracks c []) {i : ℕ} (hi : i < c.info.itemTotal) : i ∈ c.held := by
  obtain ⟨p, hp⟩ := T.ledger.cover.mp hi
  rcases p with _ | _ | b
  · exact absurd hp List.not_mem_nil
  · exact hp
  · exact absurd hp List.not_mem_nil

end Tracks

/-! ## Runs -/

/-- All items are allocated, `k` further allocations are tried, the items are freed in the order
`p`, and all are allocated again. -/
def drainAndRefill (n k : ℕ) (p : List ℕ) : List PoolCall :=
  List.replicate n .alloc ++ (List.replicate k .alloc ++ (p.map .free ++ List.replicate n .alloc))

theorem specRun_drainAndRefill {n k : ℕ} {p : List ℕ} (hp : p.length = n) :
    Machine.specRun queueStep (List.range n) (drainAndRefill n k p) =
      ((List.range n).map .item ++ (List.replicate k (.item invalidListHead) ++
        (List.replicate n .freed ++ p.map .item)), []) := by
  have h1 := specRun_alloc (List.range n) []
  have h2 := specRun_alloc p []
  rw [List.append_nil, List.length_range] at h1
  rw [List.append_nil, hp] at h2
  simp only [drainAndRefill, Machine.specRun_append, h1, specRun_alloc_nil, specRun_free, hp,
    List.nil_append, h2]

theorem Tracks.legal_drainAndRefill {c : PoolClient} {n k : ℕ} {p : List ℕ}
    (T : Tracks c (List.range n)) (hn : c.info.itemTotal = n) (hp : p.Perm (List.range n)) :
    poolMachine.Legal c (drainAndRefill n k p) := by
  have h1 := specRun_alloc (List.range n) []
  rw [List.append_nil, List.length_range] at h1
  obtain ⟨⟨_, c1⟩, hr1, -, T1, ht1⟩ := T.run (T.legal_alloc n)
  rw [h1] at T1
  obtain ⟨⟨_, c2⟩, hr2, -, T2, ht2⟩ := T1.run (T1.legal_alloc k)
  rw [specRun_alloc_nil] at T2
  have hfree := T2.legal_free (hp.nodup_iff.mpr List.nodup_range) fun x hx =>
    T2.held_of_nil (by rw [ht2, ht1, hn]; exact List.mem_range.mp (hp.mem_iff.mp hx))
  obtain ⟨⟨_, c3⟩, hr3, -, T3, -⟩ := T2.run hfree
  refine (Machine.legal_append hr1).mpr ⟨T.legal_alloc n, ?_⟩
  refine (Machine.legal_append hr2).mpr ⟨T1.legal_alloc k, ?_⟩
  exact (Machine.legal_append hr3).mpr ⟨hfree, T3.legal_alloc n⟩

/-- **The pool is a queue.** After `list_info_init` every sequence of calls is answered as by the
queue `0, 1, …, n - 1`, and an allocation from the empty queue changes nothing. In particular the
items come back in the order in which a client that had allocated them all has freed them. -/
theorem pool_fifo {li : ListInfo} (w : li.WF) (h1 : 1 ≤ li.itemTotal) (hn : li.itemTotal ≤ intMax) :
    (listInfoInit li).Ends fun info =>
      (∀ calls, poolMachine.Legal ⟨info, []⟩ calls →
        (poolMachine.run ⟨info, []⟩ calls).Ends fun r =>
          r.1 = (Machine.specRun queueStep (List.range li.itemTotal) calls).1 ∧
            FreeList r.2.info (Machine.specRun queueStep (List.range li.itemTotal) calls).2 ∧
            ((Machine.specRun queueStep (List.range li.itemTotal) calls).2 = [] →
              poolMachine.step r.2 .alloc = .ok (.item invalidListHead, r.2))) ∧
      ∀ k p, p.Perm (List.range li.itemTotal) →
        poolMachine.Legal ⟨info, []⟩ (drainAndRefill li.itemTotal k p) ∧
          (poolMachine.run ⟨info, []⟩ (drainAndRefill li.itemTotal k p)).Ends fun r =>
            r.1 = (List.range li.itemTotal).map .item ++
              (List.replicate k (.item invalidListHead) ++
                (List.replicate li.itemTotal .freed ++ p.map .item)) := by
  have T := Tracks.initial w h1 hn
  refine .of_eq (listInfoInit_ok w h1 hn) ⟨fun calls hl => ?_, fun k p hp => ?_⟩
  · refine (T.run hl).mono ?_
    rintro ⟨os, c⟩ ⟨ho, T', -⟩
    refine ⟨ho, T'.freeList, fun he => ?_⟩
    rw [he] at T'
    exact T'.alloc_nil
  · have hl := T.legal_drainAndRefill (k := k) itemTotal_initialised hp
    refine ⟨hl, (T.run hl).mono ?_⟩
    rintro ⟨os, c⟩ ⟨ho, -, -⟩
    rw [specRun_drainAndRefill (by rw [hp.length_eq, List.length_range])] at ho
    exact ho

/-- The pool of two items over stale memory. -/
theorem pool_fifo_sample :
    (listInfoInit sampleInfo).Ends fun info =>
      (∀ calls, poolMachine.Legal ⟨info, []⟩ calls →
        (poolMachine.run ⟨info, []⟩ calls).Ends fun r =>
          r.1 = (Machine.specRun queueStep (List.range 2) calls).1 ∧
            FreeList r.2.info (Machine.specRun queueStep (List.range 2) calls).2 ∧
            ((Machine.specRun queueStep (List.range 2) calls).2 = [] →
              poolMachine.step r.2 .alloc = .ok (.item invalidListHead, r.2))) ∧
      ∀ k p, p.Perm (List.range 2) →
        poolMachine.Legal ⟨info, []⟩ (drainAndRefill 2 k p) ∧
          (poolMachine.run ⟨info, []⟩ (drainAndRefill 2 k p)).Ends fun r =>
            r.1 = (List.range 2).map .item ++ (List.replicate k (.item invalidListHead) ++
              (List.replicate 2 .freed ++ p.map .item)) :=
  pool_fifo sampleInfo_wf (by decide) (by decide)

end KernelGadgets.IndexList
