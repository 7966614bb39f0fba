import KernelGadgets.Lib.Memory
import KernelGadgets.Cdev.Disclosure

/-!
# The buffer of the char device as an array

Reads and writes through one handle, at any offsets, of any sizes and with any parts of the copies
failing, are answered by an array of 32 bytes that starts as `simple_open` left the buffer
(`io_array`). With `DEBUG` this is so exactly if the memory behind the pointer of each write is a
string: what is not has no end for `printk` (`debug_array_iff`).
-/

namespace KernelGadgets.Cdev

/-! ## The array -/

/-- Where a call goes: to its offset, if that is not behind the array, and else to the beginning. -/
def place (fpos : ℕ) : ℕ := if fpos ≤ 32 then fpos else 0

/-- The bytes of the array that a call is about: as many as asked for, if there are so many. -/
def span (count fpos : ℕ) : ℕ := min count (32 - place fpos)

/-- The bytes of its span that a call copies. -/
def copied (count fpos fail : ℕ) : ℕ := span count fpos - min fail (span count fpos)

/-- A call to the array. A write puts the bytes copied at its place, and zeros behind them. -/
def arrayStep (m : Memory) : IoCall → Io × Memory
  | .write data count fpos fail =>
    (⟨copied count fpos fail, [], place fpos⟩, m.overlay (place fpos)
      ((List.range (copied count fpos fail)).map data ++
        List.replicate (span count fpos - copied count fpos fail) 0))
  | .read count fpos fail =>
    (⟨copied count fpos fail, m.range (place fpos) (copied count fpos fail), place fpos⟩, m)

def IoCall.count : IoCall → ℕ
  | write _ count _ _ => count
  | read count _ _ => count

/-- A run is one of the array `m`: its answers, which are bounded by the calls and the array, and
what it leaves in the buffer. -/
structure IsArray (m : Memory) (calls : List IoCall) (r : List Io × Block) : Prop where
  answers : r.1 = (Machine.specRun arrayStep m calls).1
  size : r.2.length = 32
  content : r.2.byte = (Machine.specRun arrayStep m calls).2
  bounds : ∀ p ∈ calls.zip r.1, p.2.ret ≤ min p.1.count 32 ∧ p.2.fpos ≤ 32

/-! ## One call -/

theorem checkPos_eq_place (fpos : ℕ) : checkPos fpos = place fpos := by
  unfold checkPos place
  rw [maxBufferLen]
  split_ifs
  · omega
  · rfl
  · rfl
  · omega

theorem place_le (fpos : ℕ) : place fpos ≤ 32 := by
  unfold place
  split_ifs
  · assumption
  · exact Nat.zero_le 32

theorem checkCount_eq_span (count fpos : ℕ) :
    checkCount count (place fpos) = span count fpos := by
  unfold checkCount span
  rw [maxBufferLen]
  split_ifs
  · omega
  · omega

theorem place_add_span (count fpos : ℕ) : place fpos + span count fpos ≤ 32 := by
  have h := place_le fpos
  unfold span
  omega

theorem copied_le_span (count fpos fail : ℕ) : copied count fpos fail ≤ span count fpos :=
  Nat.sub_le ..

/-- A call of the code is a call to the array. -/
theorem step_array {b : Block} (hb : b.length = 32) (call : IoCall) :
    (ioMachine.step b call).Ends fun r => r.1 = (arrayStep b.byte call).1 ∧
      r.2.length = 32 ∧ r.2.byte = (arrayStep b.byte call).2 := by
  cases call with
  | write data count fpos fail =>
    have hspan : _ ≤ b.length := hb ▸ place_add_span count fpos
    have hzeros : span count fpos - copied count fpos fail = min fail (span count fpos) :=
      Nat.sub_sub_self (Nat.min_le_right ..)
    refine .of_eq (simpleWrite_ok hb data count fpos fail) ?_
    rw [checkPos_eq_place, checkCount_eq_span, arrayStep, hzeros]
    exact ⟨rfl, (length_written_eq hspan data fail).trans hb, byte_written_eq hspan data fail⟩
  | read count fpos fail =>
    have hle := copied_le_span count fpos fail
    have hspan := place_add_span count fpos
    have hread := simpleRead_ok hb count fpos fail
    rw [checkPos_eq_place, checkCount_eq_span, ← copied,
      Block.take_drop_eq_range (show _ ≤ b.length by omega)] at hread
    have hstep : ioMachine.step b (.read count fpos fail) = .ok (_, b) :=
      congrArg (· >>= fun io => Outcome.ok (io, b)) hread
    exact .of_eq hstep ⟨rfl, hb, rfl⟩

/-- What a call returns is bounded by its count and the array, and so is the offset it leaves. -/
theorem arrayStep_le (m : Memory) (call : IoCall) :
    (arrayStep m call).1.ret ≤ min call.count 32 ∧ (arrayStep m call).1.fpos ≤ 32 := by
  have hret : ∀ count fpos fail, copied count fpos fail ≤ min count 32 := by
    intro count fpos fail
    have hle := copied_le_span count fpos fail
    unfold span at hle
    omega
  cases call with
  | write data count fpos fail => exact ⟨hret count fpos fail, place_le fpos⟩
  | read count fpos fail => exact ⟨hret count fpos fail, place_le fpos⟩

/-! ## Runs -/

theorem legal_io (b : Block) (calls : List IoCall) : ioMachine.Legal b calls :=
  Machine.legal_of_allowed (fun _ _ => trivial) b calls

/-- The answers of a run keep to their bounds. -/
theorem run_le {b : Block} (hb : b.length = 32) (calls : List IoCall) :
    (ioMachine.run b calls).Ends fun r => ∀ p ∈ calls.zip r.1,
      p.2.ret ≤ min p.1.count 32 ∧ p.2.fpos ≤ 32 := by
  let inv : Block → List (IoCall × Io) → Prop := fun c h => c.length = 32 ∧
    ∀ p ∈ h, p.2.ret ≤ min p.1.count 32 ∧ p.2.fpos ≤ 32
  have hinit : inv b [] := ⟨hb, fun _ h => absurd h List.not_mem_nil⟩
  refine (Machine.run_hist ?_ hinit (legal_io b calls)).mono fun r h => h.2
  rintro c h call ⟨hc, hh⟩ -
  refine (step_array hc call).mono ?_
  rintro ⟨io, d⟩ ⟨rfl, hd, -⟩
  refine ⟨hd, fun p hp => ?_⟩
  rcases List.mem_append.mp hp with hp | hp
  · exact hh p hp
  · rw [List.mem_singleton.mp hp]
    exact arrayStep_le _ call

/-- **The buffer is an array.** Every sequence of reads and writes ends, as one of the array. -/
theorem io_array {b : Block} (hb : b.length = 32) (calls : List IoCall) :
    (ioMachine.run b calls).Ends (IsArray b.byte calls) := by
  let rel : Block → Memory → Prop := fun c m => c.length = 32 ∧ c.byte = m
  have hinit : rel b b.byte := ⟨hb, rfl⟩
  have hstep : ∀ c m call, rel c m → ioMachine.allowed c call →
      (ioMachine.step c call).Ends fun r =>
        r.1 = (arrayStep m call).1 ∧ rel r.2 (arrayStep m call).2 := by
    rintro c _ call ⟨hc, rfl⟩ -
    exact step_array hc call
  obtain ⟨r, hr, hios, hlen, hbyte⟩ := Machine.run_sim hstep hinit (legal_io b calls)
  exact .of_eq hr ⟨hios, hlen, hbyte, (run_le hb calls).value hr⟩

/-! ## The device with `DEBUG` -/

/-- A call of the user. -/
inductive UserCall where
  | write (buf : UserBuf) (count fpos fail : ℕ)
  | read (count fpos fail : ℕ)

namespace UserCall

/-- The call without what it prints. -/
def io : UserCall → IoCall
  | write buf count fpos fail => .write buf.byte count fpos fail
  | read count fpos fail => .read count fpos fail

/-- What a write is given is a string. -/
def Printable : UserCall → Prop
  | write buf _ _ _ => buf.IsString
  | read .. => True

end UserCall

/-- One handle that reads and writes, with `DEBUG`. -/
def debugMachine : Machine Block UserCall Io where
  allowed _ _ := True
  step b
    | .write buf count fpos fail => simpleWriteDebug b buf count fpos fail
    | .read count fpos fail => do
      let io ← simpleRead b count fpos fail
      return (io, b)

theorem step_debug (b : Block) {call : UserCall} (h : call.Printable) :
    debugMachine.step b call = ioMachine.step b call.io := by
  cases call with
  | write buf count fpos fail =>
    have hprint : printkString buf = .ok _ := if_pos h
    show simpleWriteDebug b buf count fpos fail = simpleWrite b buf.byte count fpos fail
    unfold simpleWriteDebug
    rw [hprint]
    cases simpleWrite b buf.byte count fpos fail <;> rfl
  | read count fpos fail => rfl

theorem step_debug_fault {b : Block} (hb : b.length = 32) {call : UserCall}
    (h : ¬call.Printable) : debugMachine.step b call = .fault := by
  cases call with
  | write buf count fpos fail =>
    have hprint : printkString buf = .fault := if_neg h
    show simpleWriteDebug b buf count fpos fail = .fault
    unfold simpleWriteDebug
    rw [simpleWrite_ok hb, hprint]
    rfl
  | read count fpos fail => exact absurd trivial h

theorem run_debug {calls : List UserCall} (h : ∀ call ∈ calls, call.Printable) :
    ∀ b, debugMachine.run b calls = ioMachine.run b (calls.map UserCall.io) := by
  induction calls with
  | nil => exact fun b => rfl
  | cons call calls ih =>
    obtain ⟨hcall, hcalls⟩ := List.forall_mem_cons.mp h
    intro b
    rw [List.map_cons, Machine.run, Machine.run, step_debug b hcall]
    refine bind_congr ?_
    rintro ⟨io, t⟩
    simp only [ih hcalls]

/-- The first write that is given no string is the end of a run. -/
theorem run_debug_fault {calls : List UserCall} (h : ¬∀ call ∈ calls, call.Printable) :
    ∀ {b : Block}, b.length = 32 → debugMachine.run b calls = .fault := by
  induction calls with
  | nil => exact absurd (fun _ hcall => absurd hcall List.not_mem_nil) h
  | cons call calls ih =>
    intro b hb
    by_cases hcall : call.Printable
    · have hcalls : ¬∀ call ∈ calls, call.Printable := fun hcalls =>
        h (List.forall_mem_cons.mpr ⟨hcall, hcalls⟩)
      obtain ⟨r, hr, -, hlen, -⟩ := step_array hb call.io
      have hstep : debugMachine.step b call = .ok r := (step_debug b hcall).trans hr
      exact (Machine.run_cons_eq_fault hstep).mpr (ih hcalls hlen)
    · rw [Machine.run, step_debug_fault hb hcall]
      rfl

/-- **The buffer is an array, if strings are written.** It starts as `simple_open` leaves it. The
copies of every sequence of reads and writes are those of the array. With `DEBUG` the sequence ends,
as one of the array, exactly if each of its writes is given a string. -/
theorem debug_array_iff {junk : Block} (h : junk.length = maxBufferLen) (calls : List UserCall) :
    (simpleOpen junk).Ends fun b => b.byte = Memory.overlay junk.byte 0 helloWorld ∧
      (ioMachine.run b (calls.map UserCall.io)).Ends (IsArray b.byte (calls.map UserCall.io)) ∧
      ((debugMachine.run b calls).Ends (IsArray b.byte (calls.map UserCall.io)) ↔
        ∀ call ∈ calls, call.Printable) := by
  have hb : (Block.splice junk 0 helloWorld).length = 32 := length_simpleOpen h
  refine .of_eq (simpleOpen_ok h) ⟨Block.byte_splice_eq_overlay (by rw [h]; decide),
    io_array hb _, ?_⟩
  by_cases hcalls : ∀ call ∈ calls, call.Printable
  · rw [run_debug hcalls]
    exact iff_of_true (io_array hb _) hcalls
  · rw [run_debug_fault hcalls hb]
    exact iff_of_false Outcome.not_ends_fault hcalls

/-- Four bytes with no null byte behind them, as far as can be read. -/
def unended : UserBuf := ⟨fun _ => 65, 4⟩

/-- `AB` as a string of three bytes. -/
def ended : UserBuf := ⟨fun i => if i = 2 then 0 else 65, 4⟩

/-- Two bytes of three are written over the default string, and read back with what is around. -/
theorem debug_array_iff_sample : (simpleOpen (List.replicate 32 9)).Ends fun b =>
    (debugMachine.run b [.write ended 3 1 1, .read 5 0 0]).Ends
      (IsArray b.byte [.write ended.byte 3 1 1, .read 5 0 0]) := by
  refine (debug_array_iff (List.length_replicate ..)
    [.write ended 3 1 1, .read 5 0 0]).mono fun b hb => hb.2.2.mpr ?_
  rintro call hcall
  obtain rfl | hcall := List.mem_cons.mp hcall
  · exact ⟨2, by decide, rfl⟩
  · rw [List.mem_singleton.mp hcall]
    trivial

/-- A write of four bytes that end where the memory of the user ends. -/
theorem debug_line_faults : (simpleOpen (List.replicate 32 9)).Ends fun b =>
    debugMachine.run b [.write unended 4 0 0] = .fault ∧
      ¬(debugMachine.run b [.write unended 4 0 0]).Ends
        (IsArray b.byte [.write unended.byte 4 0 0]) := by
  have hb : (Block.splice (List.replicate 32 9) 0 helloWorld).length = 32 := by decide
  have hcall : ¬∀ call ∈ [UserCall.write unended 4 0 0], call.Printable := fun h =>
    absurd (h _ (List.mem_singleton.mpr rfl)) (by
      show ¬unended.IsString
      decide)
  have hrun := run_debug_fault hcall hb
  refine .of_eq (simpleOpen_ok (by decide)) ⟨hrun, ?_⟩
  rw [hrun]
  exact Outcome.not_ends_fault

end KernelGadgets.Cdev
