import Mathlib.Data.Int.Notation
import Mathlib.Logic.Function.Basic
import KernelGadgets.Lib.Machine
import KernelGadgets.Cdev.Device

/-!
# File handles and the life of the buffer

All handles of the device share one `buffer` pointer, which every open sets and every release frees.
`fileMachine` takes the handles' calls in any order; `kmalloc` answers with a block that is not
allocated, or with `NULL`. Memory that is not allocated is not accessed: an access to it, and a
second `kfree` of a block, are faults.

As long as no open overlaps another handle, successful or not, the buffer is the one block
allocated while the handle is open, and nothing is left after its release (`buffer_alive`). Two
handles that were open at once free one block twice (`release_release`).
-/

namespace KernelGadgets.Cdev

/-- The memory `kmalloc` gives out, the pointer `buffer` of the device (`none` is `NULL`), and the
open handles. -/
structure Files (η : Type) where
  heap : ℕ → Option Block
  buffer : Option ℕ
  opened : List η

inductive FileCall (η : Type) where
  /-- An open, with the answer of `kmalloc`: an address and what the block there holds. -/
  | opening (h : η) (answer : Option (ℕ × Block))
  | write (h : η) (data : ℕ → UInt8) (count fpos fail : ℕ)
  | read (h : η) (count fpos fail : ℕ)
  | release (h : η)

inductive FileReply where
  | res (value : ℤ)
  | io (io : Io)
  deriving DecidableEq, Repr

/-- `-ENOMEM`. -/
def enomem : ℤ := -12

/-- `kfree`; `kfree(NULL)` does nothing. -/
def kfree (heap : ℕ → Option Block) : Option ℕ → Outcome (ℕ → Option Block)
  | none => .ok heap
  | some p => if (heap p).isSome then .ok (Function.update heap p none) else .fault

section System

variable {η : Type} [DecidableEq η]

/-- The block the buffer points to; to use the pointer when there is none is a fault, also for a copy
of no bytes. -/
def Files.block (s : Files η) : Outcome (ℕ × Block) :=
  match s.buffer with
  | none => .fault
  | some p =>
    match s.heap p with
    | none => .fault
    | some b => .ok (p, b)

def fileStep (s : Files η) : FileCall η → Outcome (FileReply × Files η)
  | .opening _ none => .ok (.res enomem, { s with buffer := none })
  | .opening h (some (p, junk)) => do
    let b ← simpleOpen junk
    return (.res 0, ⟨Function.update s.heap p (some b), some p, h :: s.opened⟩)
  | .write _ data count fpos fail => do
    let (p, b) ← s.block
    let (io, b) ← simpleWrite b data count fpos fail
    return (.io io, { s with heap := Function.update s.heap p (some b) })
  | .read _ count fpos fail => do
    let (_, b) ← s.block
    let io ← simpleRead b count fpos fail
    return (.io io, s)
  | .release h => do
    let heap ← kfree s.heap s.buffer
    return (.res 0, { s with heap := heap, opened := s.opened.erase h })

section Equations

variable {s : Files η} {h : η} {p : ℕ} {b b' : Block} {io : Io} {count fpos fail : ℕ}

omit [DecidableEq η] in
theorem block_ok (hbuf : s.buffer = some p) (hp : s.heap p = some b) : s.block = .ok (p, b) := by
  unfold Files.block
  rw [hbuf]
  simp only [hp]

theorem fileStep_opening {junk : Block} (ho : simpleOpen junk = .ok b) :
    fileStep s (.opening h (some (p, junk))) =
      .ok (.res 0, ⟨Function.update s.heap p (some b), some p, h :: s.opened⟩) := by
  rw [fileStep, ho]
  rfl

theorem fileStep_write {data : ℕ → UInt8} (hb : s.block = .ok (p, b))
    (hw : simpleWrite b data count fpos fail = .ok (io, b')) :
    fileStep s (.write h data count fpos fail) =
      .ok (.io io, { s with heap := Function.update s.heap p (some b') }) := by
  simp only [fileStep, hb, Outcome.ok_bind, hw, Outcome.pure_eq]

theorem fileStep_read (hb : s.block = .ok (p, b)) (hr : simpleRead b count fpos fail = .ok io) :
    fileStep s (.read h count fpos fail) = .ok (.io io, s) := by
  simp only [fileStep, hb, Outcome.ok_bind, hr, Outcome.pure_eq]

theorem fileStep_release {heap : ℕ → Option Block} (hf : kfree s.heap s.buffer = .ok heap) :
    fileStep s (.release h) =
      .ok (.res 0, { s with heap := heap, opened := s.opened.erase h }) := by
  rw [fileStep, hf]
  rfl

end Equations

/-- A handle is opened once and released once; `kmalloc` gives out blocks of the size asked for
that are not allocated. -/
def fileAllowed (s : Files η) : FileCall η → Prop
  | .opening h none => h ∉ s.opened
  | .opening h (some (p, junk)) =>
    h ∉ s.opened ∧ s.heap p = none ∧ junk.length = maxBufferLen
  | .write h _ _ _ _ => h ∈ s.opened
  | .read h _ _ _ => h ∈ s.opened
  | .release h => h ∈ s.opened

def fileMachine : Machine (Files η) (FileCall η) FileReply where
  allowed := fileAllowed
  step := fileStep

instance (s : Files η) (call : FileCall η) : Decidable (fileMachine.allowed s call) := by
  rcases call with ⟨h, _ | ⟨p, junk⟩⟩ | _ | _ | _ <;> unfold fileMachine fileAllowed <;>
    infer_instance

/-- An open, successful or not, finds no other handle open. -/
def Alone (s : Files η) : FileCall η → Prop
  | .opening _ _ => s.opened = []
  | _ => True

instance (s : Files η) (call : FileCall η) : Decidable (Alone s call) := by
  cases call <;> unfold Alone <;> infer_instance

end System

/-- Before the first open: nothing is allocated, and the pointer is whatever it is. -/
def Files.start (η : Type) (buffer : Option ℕ) : Files η := ⟨fun _ => none, buffer, []⟩

/-! ## The life of the buffer -/

section Life

variable {η : Type}

/-- With a handle open the buffer is a live block of `MAX_BUFFER_LEN` bytes; with none open nothing
is allocated. -/
structure Files.Sound (s : Files η) : Prop where
  live : s.opened ≠ [] → ∃ p b, s.buffer = some p ∧ s.heap p = some b ∧ b.length = maxBufferLen
  freed : s.opened = [] → ∀ p, s.heap p = none

/-- One handle at most is open, and the buffer is the only block allocated. -/
inductive Files.Single : Files η → Prop
  | closed {s : Files η} (hopen : s.opened = []) (hheap : ∀ p, s.heap p = none) : Single s
  | opened {s : Files η} {h : η} {p : ℕ} {b : Block} (hopen : s.opened = [h])
      (hbuf : s.buffer = some p) (hp : s.heap p = some b) (hlen : b.length = maxBufferLen)
      (honly : ∀ q, q ≠ p → s.heap q = none) : Single s

namespace Files.Single

variable {s : Files η}

theorem sound (S : s.Single) : s.Sound := by
  cases S with
  | closed hopen hheap => exact ⟨fun h => absurd hopen h, fun _ => hheap⟩
  | opened hopen hbuf hp hlen honly =>
    refine ⟨fun _ => ⟨_, _, hbuf, hp, hlen⟩, fun h => ?_⟩
    rw [hopen] at h
    exact absurd h (List.cons_ne_nil _ _)

variable [DecidableEq η]

/-- **The step lemma.** A call whose open is alone ends, and keeps the single buffer. -/
theorem step (S : s.Single) {call : FileCall η} (hcall : fileAllowed s call) (ha : Alone s call) :
    (fileStep s call).Ends fun r => r.2.Single := by
  cases S with
  | closed hopen hheap =>
    have hno : ∀ h, h ∉ s.opened := fun h => hopen ▸ List.not_mem_nil
    rcases call with ⟨h, _ | ⟨p, junk⟩⟩ | ⟨h, data, count, fpos, fail⟩ | ⟨h, count, fpos, fail⟩ | ⟨h⟩
    · exact .of_eq rfl (.closed hopen hheap)
    · obtain ⟨-, -, hlen⟩ := hcall
      refine .of_eq (fileStep_opening (simpleOpen_ok hlen)) ?_
      refine .opened (by rw [hopen]) rfl (Function.update_self ..) (length_simpleOpen hlen) ?_
      intro q hq
      exact (Function.update_of_ne hq _ _).trans (hheap q)
    · exact absurd hcall (hno h)
    · exact absurd hcall (hno h)
    · exact absurd hcall (hno h)
  | @opened h' p b hopen hbuf hp hlen honly =>
    have hblock := block_ok hbuf hp
    rcases call with ⟨h, answer⟩ | ⟨h, data, count, fpos, fail⟩ | ⟨h, count, fpos, fail⟩ | ⟨h⟩
    · have ha : s.opened = [] := ha
      rw [hopen] at ha
      exact absurd ha (List.cons_ne_nil _ _)
    · refine .of_eq (fileStep_write hblock (simpleWrite_ok hlen data count fpos fail)) ?_
      refine .opened hopen hbuf (Function.update_self ..)
        (length_written hlen (checkPos_add_checkCount count fpos) data fail) fun q hq => ?_
      exact (Function.update_of_ne hq _ _).trans (honly q hq)
    · refine .of_eq (fileStep_read hblock (simpleRead_ok hlen count fpos fail)) ?_
      exact .opened hopen hbuf hp hlen honly
    · obtain rfl : h = h' := by
        have hcall : h ∈ s.opened := hcall
        rw [hopen] at hcall
        exact List.mem_singleton.mp hcall
      have hfree : kfree s.heap s.buffer = .ok (Function.update s.heap p none) := by
        rw [hbuf, kfree, hp]
        rfl
      refine .of_eq (fileStep_release hfree) (.closed ?_ fun q => ?_)
      · show s.opened.erase h = []
        rw [hopen]
        exact List.erase_cons_head ..
      · show Function.update s.heap p none q = none
        by_cases hq : q = p
        · rw [hq, Function.update_self]
        · rw [Function.update_of_ne hq, honly q hq]

end Files.Single

end Life

/-! ## Runs -/

section Run

variable {η : Type} [DecidableEq η]

/-- A call ends, which is to say that it accesses and frees live blocks only; if it is an open that
fails, the buffer other handles use stays as it was. -/
def CallSafe (s : Files η) (call : FileCall η) : Prop :=
  (fileMachine.step s call).Ends fun r => ∀ h, call = .opening h none → s.opened ≠ [] →
    r.2.buffer = s.buffer ∧ r.2.heap = s.heap

/-- **The buffer lives as long as its handle.** As long as no open overlaps another handle, every
call accesses and frees live blocks only, the buffer of an open handle is a live block of
`MAX_BUFFER_LEN` bytes, and with no handle open nothing is allocated. -/
theorem buffer_alive (buffer : Option ℕ) {calls : List (FileCall η)}
    (hl : (fileMachine.guard Alone).Legal (Files.start η buffer) calls) :
    (fileMachine.run (Files.start η buffer) calls).Ends fun r => r.2.Sound ∧
      ∀ call, fileAllowed r.2 call → Alone r.2 call → CallSafe r.2 call := by
  have hstart : (Files.start η buffer).Single := .closed rfl fun _ => rfl
  rw [← Machine.run_guard Alone]
  refine (Machine.run_inv (fun s call S hc => S.step hc.1 hc.2) hstart hl).mono ?_
  rintro ⟨os, s⟩ S
  refine ⟨S.sound, fun call hcall ha => (S.step hcall ha).mono ?_⟩
  rintro r - h rfl hne
  exact absurd ha hne

/-- Two releases in a row: the second frees the block the first has freed. -/
theorem release_release {s t : Files η} {h h' : η} {p : ℕ} {o : FileReply}
    (hbuf : s.buffer = some p) (hs : fileMachine.step s (.release h) = .ok (o, t)) :
    fileMachine.step t (.release h') = .fault := by
  obtain ⟨heap, hf, he⟩ := Outcome.bind_eq_ok.mp hs
  obtain ⟨-, rfl⟩ := Prod.mk.inj (Outcome.ok.inj he)
  rw [hbuf, kfree] at hf
  show (kfree heap s.buffer >>= _) = _
  rw [hbuf, kfree]
  split_ifs at hf with hp
  obtain rfl := Outcome.ok.inj hf
  rw [Function.update_self]
  rfl

end Run

/-- A handle that writes, reads and is released, and a second one whose open fails at first. -/
theorem buffer_alive_sample :
    (fileMachine.run (Files.start ℕ none) [.opening 0 (some (4, List.replicate 32 7)),
        .write 0 (fun _ => 65) 40 30 0, .read 0 40 0 3, .release 0, .opening 1 none,
        .opening 1 (some (4, List.replicate 32 9))]).Ends fun r => r.2.Sound ∧
      ∀ call, fileAllowed r.2 call → Alone r.2 call → CallSafe r.2 call :=
  buffer_alive none (by decide +kernel)

/-- Overlapping handles. Two opens that succeed lose the first block, and the second release frees
the second one again; an open that fails takes the buffer away from the open handle, whose next read
goes through `NULL`. -/
theorem handles_overlap :
    fileMachine.Legal (Files.start ℕ none) [.opening 0 (some (4, List.replicate 32 7)),
        .opening 1 (some (5, List.replicate 32 7)), .release 0, .release 1] ∧
      fileMachine.run (Files.start ℕ none) [.opening 0 (some (4, List.replicate 32 7)),
        .opening 1 (some (5, List.replicate 32 7)), .release 0, .release 1] = .fault ∧
      ((fileMachine.run (Files.start ℕ none) [.opening 0 (some (4, List.replicate 32 7)),
        .opening 1 (some (5, List.replicate 32 7)), .release 0]).Ends fun r =>
          (r.2.heap 4).isSome ∧ r.2.buffer ≠ some 4) ∧
      fileMachine.Legal (Files.start ℕ none) [.opening 0 (some (4, List.replicate 32 7)),
        .opening 1 none, .read 0 32 0 0] ∧
      ((fileMachine.run (Files.start ℕ none) [.opening 0 (some (4, List.replicate 32 7)),
        .opening 1 none]).Ends fun r => r.2.buffer = none) ∧
      fileMachine.run (Files.start ℕ none) [.opening 0 (some (4, List.replicate 32 7)),
        .opening 1 none, .read 0 32 0 0] = .fault := by
  refine ⟨by decide +kernel, rfl, by decide +kernel, by decide +kernel, by decide +kernel, rfl⟩

end KernelGadgets.Cdev
