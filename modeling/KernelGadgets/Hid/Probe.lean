import Mathlib.Data.Multiset.AddSub
import KernelGadgets.Lib.Machine
import KernelGadgets.Lib.Program

/-!
# Probing the RF card

`rf_probe` and `rf_remove` of `rfcard-hid.c` over any outcome of the kernel calls. What a call
acquires is a resource; a release of one that is not live is undefined behaviour, so each is
released at most once in every run without it. The reports that `rf_msg_read` exchanges with the
card, and what `hid_parse` leaves to the HID core, are not resources of the driver.

The test behind `alloc_chrdev_region` is inverted. A probe that stops before it does what it should
(`rfProbe_early`). One that gets there never does: with a region it stops the hardware, frees the
data and returns 0 (`rfProbe_region`), without one it goes on to register a character device, and a
failure from there on unregisters a region that it does not have (`rfProbe_noRegion`).
-/

namespace KernelGadgets.Hid.Card

/-! ## The kernel -/

/-- What the driver acquires: its data, the started hardware, a region of device numbers, a `cdev`,
and the registration of a `cdev`. -/
inductive Res (δ : Type) where
  | data (p : ℕ)
  | hardware (hdev : δ)
  | region (num : ℕ)
  | cdev (p : ℕ)
  | chrdev (p : ℕ)
  deriving DecidableEq

/-- `drvdata` is what `hid_set_drvdata` has stored for a device. -/
structure Kernel (δ : Type) where
  live : Multiset (Res δ)
  next : ℕ
  drvdata : δ → Option ℕ

/-- A return code: 0 for success, or a negative number. -/
abbrev Code := {c : ℤ // c ≤ 0}

/-- What the kernel calls of a probe come to. -/
structure Answers where
  kzalloc : Bool
  hidParse : Code
  hidHwStart : Code
  allocChrdevRegion : Code
  cdevAlloc : Bool
  cdevAdd : Code

variable {δ : Type}

def fresh : Program (Kernel δ) ℕ := fun k => .ok (k.next, { k with next := k.next + 1 })

def hold (r : Res δ) : Program (Kernel δ) Unit := fun k => .ok ((), { k with live := r ::ₘ k.live })

/-- An allocation. -/
def allocate (mk : ℕ → Res δ) (succeeds : Bool) : Program (Kernel δ) (Option ℕ) :=
  if succeeds then do
    let p ← fresh
    hold (mk p)
    return some p
  else return none

/-- A call that acquires `r` if it returns 0. -/
def acquire (r : Res δ) (code : Code) : Program (Kernel δ) ℤ :=
  if code.1 = 0 then do
    hold r
    return 0
  else return code.1

section

variable {k : Kernel δ} {r : Res δ} {code : Code}

theorem allocate_true (mk : ℕ → Res δ) :
    allocate mk true k =
      .ok (some k.next, { k with next := k.next + 1, live := mk k.next ::ₘ k.live }) := rfl

theorem acquire_zero (h : code.1 = 0) :
    acquire r code k = .ok (0, { k with live := r ::ₘ k.live }) := by
  rw [acquire, if_pos h]
  rfl

theorem acquire_ne (h : code.1 ≠ 0) : acquire r code k = .ok (code.1, k) := by
  rw [acquire, if_neg h]
  rfl

end

variable [DecidableEq δ]

def release (r : Res δ) : Program (Kernel δ) Unit := fun k =>
  if r ∈ k.live then .ok ((), { k with live := k.live.erase r }) else .fault

def kzalloc : Bool → Program (Kernel δ) (Option ℕ) := allocate .data

def kfree : Option ℕ → Program (Kernel δ) Unit
  | none => return ()
  | some p => release (.data p)

def hidHwStart (hdev : δ) : Code → Program (Kernel δ) ℤ := acquire (.hardware hdev)

def hidHwStop (hdev : δ) : Program (Kernel δ) Unit := release (.hardware hdev)

/-- The return code, and the device number where there is one. -/
def allocChrdevRegion (code : Code) : Program (Kernel δ) (ℤ × Option ℕ) :=
  if code.1 = 0 then do
    let num ← fresh
    hold (.region num)
    return (0, some num)
  else return (code.1, none)

/-- A device number that was never set belongs to no region. -/
def unregisterChrdevRegion : Option ℕ → Program (Kernel δ) Unit
  | none => Program.fault
  | some num => release (.region num)

def cdevAlloc : Bool → Program (Kernel δ) (Option ℕ) := allocate .cdev

def cdevAdd (cdev : ℕ) : Code → Program (Kernel δ) ℤ := acquire (.chrdev cdev)

/-- The `cdev` and its registration, if it has one. -/
def cdevDel (cdev : ℕ) : Program (Kernel δ) Unit := fun k =>
  release (.cdev cdev) { k with live := k.live.erase (.chrdev cdev) }

def hidGetDrvdata (hdev : δ) : Program (Kernel δ) (Option ℕ) := fun k => .ok (k.drvdata hdev, k)

/-! ## The code -/

def enomem : ℤ := 12

/-- `err_free:` -/
def errFree (sc : ℕ) (ret : ℤ) : Program (Kernel δ) ℤ := do
  kfree (some sc)
  return ret

/-- `err_stop:` -/
def errStop (hdev : δ) (sc : ℕ) (ret : ℤ) : Program (Kernel δ) ℤ := do
  hidHwStop hdev
  errFree sc ret

/-- `err_cdev_num:` -/
def errCdevNum (hdev : δ) (sc : ℕ) (cdevNum : Option ℕ) (ret : ℤ) : Program (Kernel δ) ℤ := do
  unregisterChrdevRegion cdevNum
  errStop hdev sc ret

/-- `err_cdev_del:` -/
def errCdevDel (hdev : δ) (sc : ℕ) (cdevNum : Option ℕ) (cdev : ℕ) (ret : ℤ) :
    Program (Kernel δ) ℤ := do
  cdevDel cdev
  errCdevNum hdev sc cdevNum ret

def rfProbe (hdev : δ) (a : Answers) : Program (Kernel δ) ℤ := do
  match ← kzalloc a.kzalloc with
  | none => return -enomem
  | some sc => do
    let ret := a.hidParse.1
    if ret ≠ 0 then errFree sc ret
    else do
      let ret ← hidHwStart hdev a.hidHwStart
      if ret ≠ 0 then errFree sc ret
      else do
        let (ret, cdevNum) ← allocChrdevRegion a.allocChrdevRegion
        -- `if (!ret)`
        if ret = 0 then errStop hdev sc ret
        else
          match ← cdevAlloc a.cdevAlloc with
          | none => errCdevNum hdev sc cdevNum ret
          | some cdev => do
            let ret ← cdevAdd cdev a.cdevAdd
            if ret < 0 then errCdevDel hdev sc cdevNum cdev ret else return 0

/-- `rf_remove`. The driver data is never set. -/
def rfRemove (hdev : δ) : Program (Kernel δ) Unit := do
  hidHwStop hdev
  let sc ← hidGetDrvdata hdev
  kfree sc

/-! ## One probe -/

/-- Every call succeeds. -/
def Answers.Succeed (a : Answers) : Prop :=
  a.kzalloc = true ∧ a.hidParse.1 = 0 ∧ a.hidHwStart.1 = 0 ∧ a.allocChrdevRegion.1 = 0 ∧
    a.cdevAlloc = true ∧ a.cdevAdd.1 = 0

/-- A call before `alloc_chrdev_region` fails. -/
def Answers.FailsEarly (a : Answers) : Prop :=
  a.kzalloc = false ∨ a.hidParse.1 ≠ 0 ∨ a.hidHwStart.1 ≠ 0

instance : DecidablePred Answers.FailsEarly := fun _ => inferInstanceAs (Decidable (_ ∨ _))

section

variable {hdev : δ} {a : Answers} {k : Kernel δ} {r : Res δ} {rest : Multiset (Res δ)}

theorem release_ok (h : k.live = r ::ₘ rest) :
    release r k = .ok ((), { k with live := rest }) := by
  have hmem : r ∈ k.live := by
    rw [h]
    exact Multiset.mem_cons_self r rest
  rw [release, if_pos hmem, h, Multiset.erase_cons_head]

theorem errFree_ok {sc : ℕ} (ret : ℤ) (h : k.live = .data sc ::ₘ rest) :
    errFree sc ret k = .ok (ret, { k with live := rest }) := by
  rw [errFree, kfree, Program.bind_of_eq (release_ok h)]
  rfl

theorem errStop_ok {sc : ℕ} (ret : ℤ) (h : k.live = .hardware hdev ::ₘ .data sc ::ₘ rest) :
    errStop hdev sc ret k = .ok (ret, { k with live := rest }) := by
  rw [errStop, hidHwStop, Program.bind_of_eq (release_ok h), errFree_ok ret rfl]

theorem cdevDel_cases (cdev : ℕ) (k : Kernel δ) :
    cdevDel cdev k = .fault ∨ ∃ k', cdevDel cdev k = .ok ((), k') := by
  unfold cdevDel release
  split
  · exact .inr ⟨_, rfl⟩
  · exact .inl rfl

/-- A probe that stops before `alloc_chrdev_region` fails and leaves nothing. -/
theorem rfProbe_early (h : a.FailsEarly) (hdev : δ) (k : Kernel δ) :
    (rfProbe hdev a k).Ends fun r => r.1 ≠ 0 ∧ r.2.live = k.live := by
  cases hsc : a.kzalloc with
  | false =>
    have hrun : rfProbe hdev a k = .ok (-enomem, k) := by
      rw [rfProbe, hsc]
      rfl
    exact .of_eq hrun ⟨show -enomem ≠ 0 by decide, rfl⟩
  | true =>
    by_cases hparse : a.hidParse.1 = 0
    · have hstart : a.hidHwStart.1 ≠ 0 := by
        unfold Answers.FailsEarly at h
        simpa [hsc, hparse] using h
      have hrun : rfProbe hdev a k = .ok (a.hidHwStart.1,
          { k with next := k.next + 1, live := k.live }) := by
        rw [rfProbe, hsc, kzalloc, Program.bind_of_eq (allocate_true _)]
        simp only [hparse, ne_eq, not_true_eq_false, if_false, hidHwStart]
        rw [Program.bind_of_eq (acquire_ne hstart), if_pos hstart, errFree_ok _ rfl]
      exact .of_eq hrun ⟨hstart, rfl⟩
    · have hrun : rfProbe hdev a k = .ok (a.hidParse.1,
          { k with next := k.next + 1, live := k.live }) := by
        rw [rfProbe, hsc, kzalloc, Program.bind_of_eq (allocate_true _)]
        simp only [hparse, ne_eq, not_false_eq_true, if_true]
        rw [errFree_ok _ rfl]
      exact .of_eq hrun ⟨hparse, rfl⟩

/-- A probe that gets past `hid_hw_start`. -/
theorem rfProbe_started (h : ¬a.FailsEarly) (hdev : δ) (k : Kernel δ) :
    rfProbe hdev a k = (do
      let (ret, cdevNum) ← allocChrdevRegion a.allocChrdevRegion
      if ret = 0 then errStop hdev k.next ret
      else
        match ← cdevAlloc a.cdevAlloc with
        | none => errCdevNum hdev k.next cdevNum ret
        | some cdev => do
          let ret ← cdevAdd cdev a.cdevAdd
          if ret < 0 then errCdevDel hdev k.next cdevNum cdev ret else return 0 :
        Program (Kernel δ) ℤ)
      { k with next := k.next + 1, live := .hardware hdev ::ₘ .data k.next ::ₘ k.live } := by
  unfold Answers.FailsEarly at h
  simp only [not_or, not_not, Bool.not_eq_false] at h
  obtain ⟨hsc, hparse, hstart⟩ := h
  rw [rfProbe, hsc, kzalloc, Program.bind_of_eq (allocate_true _)]
  simp only [hparse, ne_eq, not_true_eq_false, if_false, hidHwStart]
  rw [Program.bind_of_eq (acquire_zero hstart), if_neg (not_not_intro rfl)]

/-- With a region, the probe undoes the other steps, keeps the region and reports success. -/
theorem rfProbe_region (h : ¬a.FailsEarly) (hregion : a.allocChrdevRegion.1 = 0) (hdev : δ)
    (k : Kernel δ) :
    rfProbe hdev a k =
      .ok (0, { k with next := k.next + 2, live := .region (k.next + 1) ::ₘ k.live }) := by
  have hswap : ∀ r : Res δ, r ::ₘ .hardware hdev ::ₘ .data k.next ::ₘ k.live =
      .hardware hdev ::ₘ .data k.next ::ₘ r ::ₘ k.live := by
    intro r
    rw [Multiset.cons_swap r, Multiset.cons_swap r]
  have halloc : ∀ k : Kernel δ, allocChrdevRegion a.allocChrdevRegion k = .ok ((0, some k.next),
      { k with next := k.next + 1, live := .region k.next ::ₘ k.live }) := by
    intro k
    rw [allocChrdevRegion, if_pos hregion]
    rfl
  rw [rfProbe_started h, Program.bind_of_eq (halloc _)]
  exact errStop_ok 0 (hswap _)

/-- Without a region, what the probe reports is not what it has done: it reports success, or it
unregisters a region that it does not have. -/
theorem rfProbe_noRegion (h : ¬a.FailsEarly) (hregion : a.allocChrdevRegion.1 ≠ 0) (hdev : δ)
    (k : Kernel δ) :
    rfProbe hdev a k = .fault ∨ ∃ k', rfProbe hdev a k = .ok (0, k') := by
  have halloc : ∀ k : Kernel δ, allocChrdevRegion a.allocChrdevRegion k =
      .ok ((a.allocChrdevRegion.1, none), k) := by
    intro k
    rw [allocChrdevRegion, if_neg hregion]
    rfl
  rw [rfProbe_started h, Program.bind_of_eq (halloc _)]
  simp only [if_neg hregion]
  cases a.cdevAlloc with
  | false => exact .inl rfl
  | true =>
    rw [cdevAlloc, Program.bind_of_eq (allocate_true _)]
    by_cases hadd : a.cdevAdd.1 = 0
    · right
      simp only [cdevAdd]
      rw [Program.bind_of_eq (acquire_zero hadd), if_neg (Int.lt_irrefl 0)]
      exact ⟨_, rfl⟩
    · left
      have hneg : a.cdevAdd.1 < 0 := Int.lt_iff_le_and_ne.mpr ⟨a.cdevAdd.2, hadd⟩
      simp only [cdevAdd]
      rw [Program.bind_of_eq (acquire_ne hadd), if_pos hneg, errCdevDel, Program.bind_apply]
      obtain hdel | ⟨k', hdel⟩ := cdevDel_cases (k.next + 1)
        { k with next := k.next + 2,
                 live := .cdev (k.next + 1) ::ₘ .hardware hdev ::ₘ .data k.next ::ₘ k.live }
      · rw [hdel]
        rfl
      · rw [hdel]
        rfl

end

/-! ## Sequences of calls -/

/-- The calls that the HID core makes. -/
inductive Call (δ : Type) where
  | probe (hdev : δ) (a : Answers)
  | remove (hdev : δ)

/-- The kernel, and for every bound device what its probe has acquired. -/
structure System (δ : Type) where
  kernel : Kernel δ
  bound : δ → Option (Multiset (Res δ))

/-- A device whose probe returns 0 is bound until it is removed. -/
def rfCard : Machine (System δ) (Call δ) ℤ where
  allowed s
    | .probe hdev _ => s.bound hdev = none
    | .remove hdev => s.bound hdev ≠ none
  step s
    | .probe hdev a => do
      let (ret, k) ← rfProbe hdev a s.kernel
      return (ret, ⟨k, if ret = 0 then
        Function.update s.bound hdev (some (k.live - s.kernel.live)) else s.bound⟩)
    | .remove hdev => do
      let (_, k) ← rfRemove hdev s.kernel
      return (0, ⟨k, Function.update s.bound hdev none⟩)

/-- What a bound device holds: its data, the hardware, and a region with a character device. -/
def full (hdev : δ) (sc num cdev : ℕ) : Multiset (Res δ) :=
  {.data sc, .hardware hdev, .region num, .cdev cdev, .chrdev cdev}

/-- What a call should do: a probe returns 0 exactly if all its steps succeed, and then has acquired
all of its resources, otherwise none; a removal releases what the probe has acquired. -/
def Meets (s : System δ) : Call δ → ℤ × System δ → Prop
  | .probe hdev a, (ret, t) => (ret = 0 ↔ a.Succeed) ∧
      (ret = 0 → ∃ sc num cdev, t.kernel.live = s.kernel.live + full hdev sc num cdev) ∧
      (ret ≠ 0 → t.kernel.live = s.kernel.live)
  | .remove hdev, (_, t) =>
      ∀ acquired, s.bound hdev = some acquired → t.kernel.live + acquired = s.kernel.live

/-- Nothing is bound. -/
def System.Idle (s : System δ) : Prop := ∀ hdev, s.bound hdev = none

/-- A probe fails before it gets to `alloc_chrdev_region`. -/
def Call.Early : Call δ → Prop
  | .probe _ a => a.FailsEarly
  | .remove _ => True

theorem Answers.FailsEarly.not_succeed {a : Answers} (h : a.FailsEarly) : ¬a.Succeed := by
  rintro ⟨hsc, hparse, hstart, -⟩
  obtain h | h | h := h
  · exact absurd (hsc.symm.trans h) Bool.noConfusion
  · exact h hparse
  · exact h hstart

theorem step_early {s : System δ} {i : Call δ} (hs : s.Idle) (ha : rfCard.allowed s i)
    (hi : i.Early) : (rfCard.step s i).Ends fun r => Meets s i r ∧ r.2.Idle := by
  cases i with
  | remove hdev => exact absurd (hs hdev) ha
  | probe hdev a =>
    obtain ⟨⟨ret, k⟩, hrun, hne, hlive⟩ := rfProbe_early hi hdev s.kernel
    have hstep : rfCard.step s (.probe hdev a) = .ok (ret, ⟨k, s.bound⟩) := by
      show (rfProbe hdev a s.kernel >>= fun r => _) = _
      rw [hrun, Outcome.ok_bind]
      simp only [if_neg hne]
      rfl
    refine .of_eq hstep ⟨⟨?_, fun h => absurd h hne, fun _ => hlive⟩, hs⟩
    exact ⟨fun h => absurd h hne, fun h => absurd h hi.not_succeed⟩

/-- Any other probe does what it should not. -/
theorem early_of_meets {s : System δ} {i : Call δ}
    (h : (rfCard.step s i).Ends (Meets s i)) : i.Early := by
  cases i with
  | remove hdev => trivial
  | probe hdev a =>
    by_contra hearly
    have hearly : ¬a.FailsEarly := hearly
    obtain ⟨⟨ret, t⟩, hstep, hret, hfull, -⟩ := h
    have hstep : (rfProbe hdev a s.kernel >>= fun r => _) = .ok (ret, t) := hstep
    by_cases hregion : a.allocChrdevRegion.1 = 0
    · rw [rfProbe_region hearly hregion, Outcome.ok_bind] at hstep
      cases hstep
      obtain ⟨sc, num, cdev, hlive⟩ := hfull rfl
      have hcard := congrArg Multiset.card hlive
      simp [full] at hcard
    · obtain hfault | ⟨k', hok⟩ := rfProbe_noRegion hearly hregion hdev s.kernel
      · rw [hfault, Outcome.fault_bind] at hstep
        cases hstep
      · rw [hok, Outcome.ok_bind] at hstep
        cases hstep
        exact hregion (hret.mp rfl).2.2.2.1

/-- **Probing.** A sequence of probes and removals does what it should exactly if every probe fails
before it gets to `alloc_chrdev_region`. -/
theorem probes_meet_iff {s : System δ} (hs : s.Idle) {calls : List (Call δ)}
    (hl : rfCard.Legal s calls) :
    rfCard.Always Meets s calls ↔ ∀ hdev a, Call.probe hdev a ∈ calls → a.FailsEarly := by
  rw [Machine.always_iff Call.Early (fun _ _ => step_early)
    (fun _ _ _ _ => early_of_meets) hs hl]
  constructor
  · exact fun h hdev a hmem => h _ hmem
  · intro h i hi
    cases i with
    | probe hdev a => exact h hdev a hi
    | remove hdev => trivial

/-- Nothing is acquired or bound. -/
def System.start (δ : Type) : System δ := ⟨⟨0, 0, fun _ => none⟩, fun _ => none⟩

def Code.success : Code := ⟨0, Int.le_refl 0⟩

def Code.failure : Code := ⟨-5, by decide⟩

/-- Every call succeeds. -/
def succeeding : Answers :=
  { kzalloc := true, hidParse := .success, hidHwStart := .success, allocChrdevRegion := .success,
    cdevAlloc := true, cdevAdd := .success }

/-- Two devices: the hardware of one does not start, the reports of the other do not parse. -/
def failingCalls : List (Call Bool) :=
  [.probe true { succeeding with hidHwStart := .failure },
    .probe false { succeeding with hidParse := .failure }]

theorem probes_meet_iff_sample : rfCard.Always Meets (System.start Bool) failingCalls := by
  have hl : rfCard.Legal (System.start Bool) failingCalls := ⟨rfl, rfl, trivial⟩
  refine (probes_meet_iff (fun _ => rfl) hl).mpr ?_
  intro hdev a h
  simp only [failingCalls, List.mem_cons, Call.probe.injEq, List.not_mem_nil, or_false] at h
  obtain ⟨-, rfl⟩ | ⟨-, rfl⟩ := h
  · decide
  · decide

/-- Where every call succeeds, the probe reports success with the hardware stopped, and the removal
of the device stops it again. -/
theorem probe_stops_hardware :
    rfCard.Legal (System.start Unit) [.probe () succeeding, .remove ()] ∧
      rfCard.run (System.start Unit) [.probe () succeeding, .remove ()] = .fault ∧
      ¬rfCard.Always Meets (System.start Unit) [.probe () succeeding, .remove ()] := by
  refine ⟨⟨rfl, ?_, trivial⟩, rfl, ?_⟩
  · exact Option.some_ne_none _
  · rintro ⟨r, hstep, hmeets, -⟩
    have hearly : succeeding.FailsEarly := early_of_meets ⟨r, hstep, hmeets⟩
    revert hearly
    decide

end KernelGadgets.Hid.Card
