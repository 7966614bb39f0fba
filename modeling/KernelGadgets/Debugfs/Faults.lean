import KernelGadgets.Lib.Machine
import KernelGadgets.Debugfs.File

/-!
# Writes to the debugfs file that fail

`debugfs_write` copies straight into `hello`. When a part of the copy fails it returns `-EFAULT`
and keeps the offset, but what was copied is in `hello`, with zeros behind it. A sequence of writes
leaves `hello` as the successful ones made it exactly if every failing copy puts what was there
(`failed_writes_iff`).
-/

namespace KernelGadgets.Debugfs

/-- A write through a handle. The offset of the handle is part of the call, so that the calls of a
sequence may come from any number of handles. -/
structure WriteCall where
  data : ℕ → UInt8
  len : ℕ
  pos : ℕ
  fail : ℕ

def fileMachine : Machine Block WriteCall Io where
  allowed _ call := call.len ≤ ssizeMax
  step hello call := debugfsWrite hello call.data call.len call.pos call.fail

/-! ## What failed writes should leave -/

/-- The content after the writes that returned a positive count have put their data at their
offsets. -/
def overlaid (m : Memory) (history : List (WriteCall × Io)) : Memory :=
  history.foldl (fun m p => if 0 < p.2.ret then
    m.overlay p.1.pos ((List.range p.2.ret.toNat).map p.1.data) else m) m

/-- A call that returned `-EFAULT` has left `hello` and its offset as they were. -/
def KeepsOnFault (hello : Block) (call : WriteCall) (r : Io × Block) : Prop :=
  r.1.ret = -efault → r.2 = hello ∧ r.1.pos = call.pos

/-- The writes end, `hello` is overlaid by the successful ones, and the failed ones leave
everything. -/
def FailuresHarmless (hello : Block) (calls : List WriteCall) : Prop :=
  ((fileMachine.run hello calls).Ends fun r =>
    r.2.byte = overlaid hello.byte (calls.zip r.1)) ∧
  fileMachine.Always KeepsOnFault hello calls

/-! ## What they leave -/

namespace WriteCall

/-- The bytes of the request that are copied or not, those that fit behind the offset. -/
def span (call : WriteCall) : ℕ := accepted call.len call.pos

/-- The bytes of the span that the copy leaves. -/
def uncopied (call : WriteCall) : ℕ := min call.fail call.span

/-- What the copy puts at the offset. -/
def source (call : WriteCall) : List UInt8 :=
  (List.range (call.span - call.uncopied)).map call.data ++ List.replicate call.uncopied 0

/-- The copy succeeds, or what it puts at the offset is there already. -/
def Harmless (call : WriteCall) (hello : Block) : Prop :=
  call.uncopied = 0 ∨ Memory.range hello.byte call.pos call.span = call.source

theorem length_source (call : WriteCall) : call.source.length = call.span :=
  Cdev.length_source call.data call.span call.fail

/-- The answer to a call. -/
def answer (call : WriteCall) : Io :=
  if call.uncopied ≠ 0 then ⟨-efault, [], call.pos⟩ else ⟨call.span, [], call.pos + call.span⟩

end WriteCall

section

variable {hello : Block} (h : hello.length = helloLen) {call : WriteCall}
  (hlen : call.len ≤ ssizeMax)

include h hlen

/-- A write overlays `hello` by what the copy puts, whether it succeeds or not. -/
theorem write_ends : (fileMachine.step hello call).Ends fun r => r.1 = call.answer ∧
    r.2.length = helloLen ∧ r.2.byte = Memory.overlay hello.byte call.pos call.source := by
  by_cases hpos : call.pos < helloLen
  · have hfit : call.pos + call.span ≤ hello.length := h ▸ add_accepted_le hpos
    refine .of_eq (debugfsWrite_eq h hlen hpos call.data call.fail) ⟨rfl, ?_, ?_⟩
    · exact (Cdev.length_written_eq hfit call.data call.fail).trans h
    · exact Cdev.byte_written_eq hfit call.data call.fail
  · have hle : helloLen ≤ call.pos := Nat.le_of_not_lt hpos
    have hspan : call.span = 0 := accepted_of_le hle
    have hun : call.uncopied = 0 := by
      unfold WriteCall.uncopied
      rw [hspan, Nat.min_zero]
    have hsource : call.source = [] := by
      rw [← List.length_eq_zero_iff, call.length_source, hspan]
    refine .of_eq (if_pos hle) ⟨?_, h, ?_⟩
    · unfold WriteCall.answer
      rw [if_neg (not_not_intro hun), hspan]
      rfl
    · rw [hsource, Memory.overlay_nil]

end

theorem answer_of_copied {call : WriteCall} (hun : call.uncopied = 0) :
    call.answer = ⟨call.span, [], call.pos + call.span⟩ ∧
      call.source = (List.range call.span).map call.data := by
  constructor
  · unfold WriteCall.answer
    rw [if_neg (not_not_intro hun)]
  · unfold WriteCall.source
    rw [hun, Nat.sub_zero, List.replicate_zero, List.append_nil]

theorem answer_of_uncopied {call : WriteCall} (hun : call.uncopied ≠ 0) :
    call.answer = ⟨-efault, [], call.pos⟩ := if_pos hun

/-- What a copy puts is there already exactly if it changes nothing. -/
theorem overlay_source_iff (m : Memory) (call : WriteCall) :
    m.overlay call.pos call.source = m ↔ m.range call.pos call.span = call.source := by
  rw [Memory.overlay_eq_self_iff, call.length_source]

section

variable {hello : Block} (h : hello.length = helloLen)

include h

/-- A write keeps `hello` on a fault exactly if it is harmless. -/
theorem keepsOnFault_iff {call : WriteCall} {r : Io × Block} (hio : r.1 = call.answer)
    (hlen : r.2.length = helloLen)
    (hbyte : r.2.byte = Memory.overlay hello.byte call.pos call.source) :
    KeepsOnFault hello call r ↔ call.Harmless hello := by
  unfold KeepsOnFault WriteCall.Harmless
  by_cases hun : call.uncopied = 0
  · refine iff_of_true (fun hret => ?_) (.inl hun)
    rw [hio, (answer_of_copied hun).1] at hret
    unfold efault at hret
    simp only at hret
    omega
  · rw [hio, answer_of_uncopied hun, ← overlay_source_iff, ← hbyte]
    constructor
    · intro hkeeps
      rw [(hkeeps rfl).1]
      exact .inr rfl
    · intro hsame _
      exact ⟨Block.eq_of_byte_eq (hlen.trans h.symm) (hsame.resolve_left hun), rfl⟩

omit h in
/-- What a harmless call adds to the history overlays `hello` as the call does. -/
theorem overlaid_snoc {m : Memory} {history : List (WriteCall × Io)} {call : WriteCall}
    (hharmless : call.Harmless hello) (hm : hello.byte = overlaid m history) :
    Memory.overlay hello.byte call.pos call.source =
      overlaid m (history ++ [(call, call.answer)]) := by
  unfold overlaid at hm ⊢
  rw [List.foldl_append, ← hm]
  show _ = if 0 < call.answer.ret then _ else _
  by_cases hun : call.uncopied = 0
  · obtain ⟨hanswer, hsource⟩ := answer_of_copied hun
    rw [hanswer, hsource]
    by_cases hspan : call.span = 0
    · rw [hspan, if_neg (by simp), List.range_zero, List.map_nil, Memory.overlay_nil]
    · rw [if_pos (by simp only; omega)]
      rfl
  · rw [answer_of_uncopied hun, if_neg (show ¬(0 : ℤ) < -efault by decide), overlay_source_iff]
    exact hharmless.resolve_left hun

variable {calls : List WriteCall} (hl : ∀ call ∈ calls, call.len ≤ ssizeMax)

include hl

theorem legal_writes : fileMachine.Legal hello calls := by
  have hstep : ∀ (s : Block) (call : WriteCall), s.length = helloLen → call.len ≤ ssizeMax →
      fileMachine.allowed s call ∧
        (fileMachine.step s call).Ends fun r => r.2.length = helloLen := by
    intro s call hs hlen
    exact ⟨hlen, (write_ends hs hlen).mono fun r hr => hr.2.1⟩
  exact Machine.legal_of_forall hstep h hl

omit hl in
/-- Harmless writes leave `hello` as the successful ones make it. -/
theorem run_overlaid (hgood : (fileMachine.guard fun s call => call.Harmless s).Legal hello calls) :
    (fileMachine.run hello calls).Ends fun r =>
      r.2.byte = overlaid hello.byte (calls.zip r.1) := by
  let inv : Block → List (WriteCall × Io) → Prop := fun s history =>
    s.length = helloLen ∧ s.byte = overlaid hello.byte history
  have hinit : inv hello [] := ⟨h, rfl⟩
  rw [← Machine.run_guard fun (s : Block) (call : WriteCall) => call.Harmless s]
  refine (Machine.run_hist ?_ hinit hgood).mono fun r hr => hr.2
  rintro s history call ⟨hs, hbyte⟩ ⟨hlen, hharmless⟩
  refine (write_ends hs hlen).mono ?_
  rintro ⟨io, t⟩ ⟨rfl, ht, htbyte⟩
  exact ⟨ht, htbyte.trans (overlaid_snoc hharmless hbyte)⟩

/-- **Failed writes leave nothing** in a sequence exactly if every copy that fails puts what is
there already. -/
theorem failed_writes_iff : FailuresHarmless hello calls ↔
    (fileMachine.guard fun s call => call.Harmless s).Legal hello calls := by
  have halways : fileMachine.Always KeepsOnFault hello calls ↔
      (fileMachine.guard fun s call => call.Harmless s).Legal hello calls := by
    have hstep : ∀ (s : Block) (call : WriteCall), s.length = helloLen → call.len ≤ ssizeMax →
        (fileMachine.step s call).Ends fun r =>
          r.2.length = helloLen ∧ (KeepsOnFault s call r ↔ call.Harmless s) := by
      intro s call hs hlen
      refine (write_ends hs hlen).mono ?_
      rintro r ⟨hio, hlen', hbyte⟩
      exact ⟨hlen', keepsOnFault_iff hs hio hlen' hbyte⟩
    exact Machine.always_iff_legal hstep h (legal_writes h hl)
  constructor
  · rintro ⟨-, hkeeps⟩
    exact halways.mp hkeeps
  · intro hgood
    exact ⟨run_overlaid h hgood, halways.mpr hgood⟩

end

/-- The last byte of `hello` is the zero that a failing copy puts there. -/
theorem failed_writes_sample : FailuresHarmless hello [⟨fun _ => 65, 2, 31, 1⟩] :=
  (failed_writes_iff (by decide) (by decide)).mpr
    ⟨⟨show 2 ≤ ssizeMax by decide, .inr (by decide +kernel)⟩, trivial⟩

/-- A copy of two bytes of which one fails: an `A` and a zero are left over the first two. -/
theorem failed_write_leaves : ¬FailuresHarmless hello [⟨fun _ => 65, 2, 0, 1⟩] := by
  rintro ⟨-, ⟨r, hr, hkeeps, -⟩⟩
  have hrun : fileMachine.step hello ⟨fun _ => 65, 2, 0, 1⟩ =
      .ok (⟨-14, [], 0⟩, [65, 0] ++ hello.drop 2) := by decide +kernel
  cases hr.symm.trans hrun
  exact absurd (hkeeps rfl).1 (by decide +kernel)

end KernelGadgets.Debugfs
