import Mathlib.Algebra.GroupWithZero.Nat
import KernelGadgets.Lib.Machine
import KernelGadgets.Debugfs.File

/-!
# Streams through the debugfs file

A reader that goes on where its last read stopped gets the bytes of `hello` from its first offset
on, whatever the sizes of its requests (`ReadsInOrder`). A writer that goes on behind the bytes
that were accepted leaves the same `hello` and the same offset however it cuts its stream
(`stored`). Both for copies that succeed (`stream_cut`).
-/

namespace KernelGadgets.Debugfs

/-! ## A reader and a writer -/

/-- Reads of the given lengths on one handle. The state is the offset. -/
def readMachine (hello : Block) : Machine ℕ ℕ Io where
  allowed _ len := len ≤ ssizeMax
  step pos len := do
    let io ← debugfsRead hello len pos 0
    return (io, io.pos)

/-- `hello`, the offset of a handle, and what its writer has left of its stream. -/
structure Writer where
  hello : Block
  pos : ℕ
  rest : List UInt8
  deriving DecidableEq, Repr

/-- Writes of at most the given lengths on one handle, each behind the bytes that were accepted. -/
def writeMachine : Machine Writer ℕ Io where
  allowed _ len := len ≤ ssizeMax
  step w len := do
    let request := w.rest.take len
    let (io, hello) ← debugfsWrite w.hello (fun k => request.getD k 0) request.length w.pos 0
    return (io, ⟨hello, io.pos, w.rest.drop io.ret.toNat⟩)

/-- The reads from `pos` on deliver `hello` in order and without gap or repetition, each of them
what is behind the reads before it, and from the end on nothing. -/
structure ReadsInOrder (hello : Block) (pos : ℕ) (lens : List ℕ) (ios : List Io) : Prop where
  whole : (ios.map Io.bytes).flatten = (hello.drop pos).take lens.sum
  each : ∀ pre len post, lens = pre ++ len :: post → ∃ io, ios[pre.length]? = some io ∧
    io.bytes = (hello.drop (pos + pre.sum)).take len ∧ io.ret = io.bytes.length
  ended : ∀ pre len post, lens = pre ++ len :: post → helloLen ≤ pos + pre.sum →
    ∃ io, ios[pre.length]? = some io ∧ io.ret = 0

/-- What is left after `n` bytes of the stream were offered. -/
def stored (hello : Block) (pos : ℕ) (stream : List UInt8) (n : ℕ) : Writer :=
  ⟨hello.splice pos (stream.take (accepted n pos)), pos + accepted n pos,
    stream.drop (accepted n pos)⟩

/-! ## One request behind another -/

theorem accepted_add (n n' pos : ℕ) :
    accepted n pos + accepted n' (pos + accepted n pos) = accepted (n + n') pos := by
  unfold accepted
  omega

theorem accepted_of_ge {n pos : ℕ} (h : helloLen - pos ≤ n) : accepted n pos = helloLen - pos :=
  Nat.min_eq_right h

theorem accepted_le (n pos : ℕ) : accepted n pos ≤ n := Nat.min_le_left ..

section

variable {hello : Block} (h : hello.length = helloLen)

include h

/-- An offset behind a request is as good as one behind its accepted part. -/
theorem drop_accepted (n pos k : ℕ) :
    hello.drop (pos + accepted n pos + k) = hello.drop (pos + n + k) := by
  by_cases hle : accepted n pos = n
  · rw [hle]
  · have hend : helloLen ≤ pos + accepted n pos ∧ helloLen ≤ pos + n := by
      unfold accepted at hle ⊢
      omega
    rw [List.drop_eq_nil_of_le (by omega), List.drop_eq_nil_of_le (by omega)]

theorem splice_accepted (n n' pos : ℕ) (stream : List UInt8) (hn : n ≤ stream.length) :
    (hello.splice pos (stream.take (accepted n pos))).splice (pos + accepted n pos)
        ((stream.drop (accepted n pos)).take (accepted n' (pos + accepted n pos))) =
      hello.splice pos (stream.take (accepted (n + n') pos)) := by
  have hle := accepted_le n pos
  by_cases hpos : pos < helloLen
  · have hlen : (stream.take (accepted n pos)).length = accepted n pos := by
      rw [List.length_take]
      omega
    have hfit : pos + accepted n pos ≤ helloLen := add_accepted_le hpos
    have happend := Block.splice_append (b := hello) (d := pos)
      (t := stream.take (accepted n pos)) (by omega)
      ((stream.drop (accepted n pos)).take (accepted n' (pos + accepted n pos)))
    rw [hlen] at happend
    rw [happend, ← accepted_add, List.take_add]
  · have hend : ∀ k, accepted k pos = 0 := fun k => accepted_of_le (Nat.le_of_not_lt hpos)
    rw [hend, Nat.add_zero, hend, hend, List.take_zero, Block.splice_nil]
    simp

/-! ## Reads -/

theorem readMachine_step {len : ℕ} (hlen : len ≤ ssizeMax) (pos : ℕ) :
    (readMachine hello).step pos len =
      .ok (⟨accepted len pos, (hello.drop pos).take len, pos + accepted len pos⟩,
        pos + accepted len pos) := by
  show (debugfsRead hello len pos 0 >>= fun io => .ok (io, io.pos)) = _
  rw [debugfsRead_ok h hlen]
  rfl

omit h in
theorem readsInOrder_nil (pos : ℕ) : ReadsInOrder hello pos [] [] where
  whole := rfl
  each pre len post he := absurd he (by simp)
  ended pre len post he := absurd he (by simp)

/-- One read in front of others that go on where it stops. -/
theorem readsInOrder_cons {len pos : ℕ} {lens : List ℕ} {ios : List Io}
    (R : ReadsInOrder hello (pos + accepted len pos) lens ios) :
    ReadsInOrder hello pos (len :: lens)
      (⟨accepted len pos, (hello.drop pos).take len, pos + accepted len pos⟩ :: ios) where
  whole := by
    have hdrop := drop_accepted h len pos 0
    rw [Nat.add_zero, Nat.add_zero] at hdrop
    rw [List.map_cons, List.flatten_cons, R.whole, hdrop, List.sum_cons, List.take_add,
      List.drop_drop]
  each pre len' post he := by
    rcases pre with _ | ⟨_, pre⟩
    · obtain ⟨rfl, rfl⟩ := List.cons.inj he
      refine ⟨_, rfl, rfl, ?_⟩
      show (accepted len pos : ℤ) = ((hello.drop pos).take len).length
      rw [List.length_take, List.length_drop, h]
      rfl
    · obtain ⟨rfl, rfl⟩ := List.cons.inj he
      obtain ⟨io, hio, hbytes, hret⟩ := R.each pre len' post rfl
      rw [drop_accepted h, Nat.add_assoc, ← List.sum_cons] at hbytes
      exact ⟨io, hio, hbytes, hret⟩
  ended pre len' post he hend := by
    rcases pre with _ | ⟨_, pre⟩
    · obtain ⟨rfl, rfl⟩ := List.cons.inj he
      refine ⟨_, rfl, ?_⟩
      show (accepted len pos : ℤ) = 0
      rw [accepted_of_le (by simpa using hend)]
      rfl
    · obtain ⟨rfl, rfl⟩ := List.cons.inj he
      rw [List.sum_cons] at hend
      refine R.ended pre len' post rfl ?_
      unfold accepted
      omega

theorem run_reads {lens : List ℕ} (hl : ∀ len ∈ lens, len ≤ ssizeMax) (pos : ℕ) :
    ((readMachine hello).run pos lens).Ends fun r =>
      ReadsInOrder hello pos lens r.1 ∧ r.2 = pos + accepted lens.sum pos := by
  induction lens generalizing pos with
  | nil => exact .of_eq rfl ⟨readsInOrder_nil pos, by simp [accepted]⟩
  | cons len lens ih =>
    rw [List.forall_mem_cons] at hl
    obtain ⟨⟨ios, last⟩, hrun, R, rfl⟩ := ih hl.2 (pos + accepted len pos)
    rw [Machine.run_cons_of_step (readMachine_step h hl.1 pos), hrun]
    refine .of_eq rfl ⟨readsInOrder_cons h R, ?_⟩
    rw [List.sum_cons, ← accepted_add, Nat.add_assoc]

/-! ## Writes -/

/-- A request takes its part of the stream. -/
theorem writeMachine_step {len : ℕ} (hlen : len ≤ ssizeMax) (pos : ℕ) (stream : List UInt8) :
    (writeMachine.step ⟨hello, pos, stream⟩ len).Ends fun r =>
      r.2 = stored hello pos stream (min len stream.length) := by
  have hreq : (stream.take len).length = min len stream.length := List.length_take ..
  have hle := accepted_le (min len stream.length) pos
  have hbytes : (List.range (accepted (min len stream.length) pos)).map
      (fun k => (stream.take len).getD k 0) =
        stream.take (accepted (min len stream.length) pos) := by
    rw [Block.map_getD_range (hreq ▸ hle), List.take_take, Nat.min_eq_left (by omega)]
  show (debugfsWrite hello _ (stream.take len).length pos 0 >>= fun r =>
    .ok (r.1, (⟨r.2, r.1.pos, stream.drop r.1.ret.toNat⟩ : Writer))).Ends _
  rw [hreq, debugfsWrite_ok h (Nat.le_trans (Nat.min_le_left ..) hlen), hbytes]
  exact .of_eq rfl rfl

omit h in
/-- What is left of the stream is what was not accepted. -/
theorem min_rest (len total pos : ℕ) (stream : List UInt8) :
    accepted (min len stream.length) pos +
        accepted (min total (stream.drop (accepted (min len stream.length) pos)).length)
          (pos + accepted (min len stream.length) pos) =
      accepted (min (len + total) stream.length) pos := by
  rw [List.length_drop, accepted_add]
  by_cases hfit : min len stream.length ≤ helloLen - pos
  · have hall : accepted (min len stream.length) pos = min len stream.length := Nat.min_eq_left hfit
    have hsum : min len stream.length + min total (stream.length - min len stream.length) =
        min (len + total) stream.length := by omega
    rw [hall, hsum]
  · have hend : helloLen - pos ≤ min len stream.length := by omega
    have hend' : helloLen - pos ≤ min (len + total) stream.length := by omega
    rw [accepted_of_ge (Nat.le_add_right_of_le hend), accepted_of_ge hend']

theorem stored_stored (len total pos : ℕ) (stream : List UInt8) :
    stored (hello.splice pos (stream.take (accepted (min len stream.length) pos)))
        (pos + accepted (min len stream.length) pos)
        (stream.drop (accepted (min len stream.length) pos))
        (min total (stream.drop (accepted (min len stream.length) pos)).length) =
      stored hello pos stream (min (len + total) stream.length) := by
  have hmin := min_rest len total pos stream
  unfold stored
  rw [Writer.mk.injEq]
  refine ⟨?_, ?_, ?_⟩
  · rw [splice_accepted h _ _ _ _ (Nat.min_le_right ..), ← accepted_add, hmin]
  · rw [Nat.add_assoc, hmin]
  · rw [List.drop_drop, hmin]

theorem length_stored (pos n : ℕ) (stream : List UInt8) :
    (stored hello pos stream n).hello.length = helloLen := by
  show (hello.splice pos (stream.take (accepted n pos))).length = helloLen
  by_cases hpos : pos < helloLen
  · have hfit : pos + accepted n pos ≤ helloLen := add_accepted_le hpos
    have hle : (stream.take (accepted n pos)).length ≤ accepted n pos := List.length_take_le ..
    rw [Block.length_splice (by omega), h]
  · rw [accepted_of_le (Nat.le_of_not_lt hpos), List.take_zero, Block.splice_nil, h]

theorem run_writes {lens : List ℕ} (hl : ∀ len ∈ lens, len ≤ ssizeMax) (pos : ℕ)
    (stream : List UInt8) : (writeMachine.run ⟨hello, pos, stream⟩ lens).Ends fun r =>
      r.2 = stored hello pos stream (min lens.sum stream.length) := by
  induction lens generalizing hello pos stream with
  | nil =>
    refine .of_eq rfl ?_
    unfold stored accepted
    rw [List.sum_nil, Nat.zero_min, Nat.zero_min, List.take_zero, Block.splice_nil]
    rfl
  | cons len lens ih =>
    rw [List.forall_mem_cons] at hl
    obtain ⟨⟨io, w⟩, hstep, rfl⟩ := writeMachine_step h hl.1 pos stream
    obtain ⟨⟨ios, w'⟩, hrun, rfl⟩ := ih (length_stored h pos _ stream) hl.2
      (pos + accepted (min len stream.length) pos)
      (stream.drop (accepted (min len stream.length) pos))
    rw [Machine.run_cons_of_step hstep]
    refine .of_eq (congrArg (· >>= fun r => Outcome.ok (io :: r.1, r.2)) hrun) ?_
    rw [List.sum_cons]
    exact stored_stored h len lens.sum pos stream

/-- **Streams and their cuts.** Whatever the sizes of the requests, the reads from an offset on
deliver `hello` in order, and a stream leaves what depends on how many of its bytes were offered
only: the part that fits behind the offset, put there, and the offset behind it. In particular it
leaves the same for all ways of cutting it. -/
theorem stream_cut (pos : ℕ) {lens : List ℕ} (hl : ∀ len ∈ lens, len ≤ ssizeMax) :
    (((readMachine hello).run pos lens).Ends fun r =>
      ReadsInOrder hello pos lens r.1 ∧ r.2 = pos + accepted lens.sum pos) ∧
    (∀ stream, (writeMachine.run ⟨hello, pos, stream⟩ lens).Ends fun r =>
      r.2 = stored hello pos stream (min lens.sum stream.length)) ∧
    ∀ (stream : List UInt8) (lens' : List ℕ), (∀ len ∈ lens', len ≤ ssizeMax) →
      stream.length ≤ lens.sum → stream.length ≤ lens'.sum →
      (writeMachine.run ⟨hello, pos, stream⟩ lens).Ends fun r =>
        (writeMachine.run ⟨hello, pos, stream⟩ lens').Ends fun r' => r.2 = r'.2 := by
  refine ⟨run_reads h hl pos, fun stream => run_writes h hl pos stream, ?_⟩
  intro stream lens' hl' hsum hsum'
  refine (run_writes h hl pos stream).mono fun r hr => ?_
  refine (run_writes h hl' pos stream).mono fun r' hr' => ?_
  rw [hr, hr', Nat.min_eq_right hsum, Nat.min_eq_right hsum']

end

/-- `hello` from its third byte on, in three requests. -/
theorem stream_cut_sample : (((readMachine hello).run 2 [4, 0, 40]).Ends fun r =>
      ReadsInOrder hello 2 [4, 0, 40] r.1 ∧ r.2 = 2 + accepted 44 2) ∧
    (∀ stream, (writeMachine.run ⟨hello, 2, stream⟩ [4, 0, 40]).Ends fun r =>
      r.2 = stored hello 2 stream (min 44 stream.length)) ∧
    ∀ (stream : List UInt8) (lens' : List ℕ), (∀ len ∈ lens', len ≤ ssizeMax) →
      stream.length ≤ 44 → stream.length ≤ lens'.sum →
      (writeMachine.run ⟨hello, 2, stream⟩ [4, 0, 40]).Ends fun r =>
        (writeMachine.run ⟨hello, 2, stream⟩ lens').Ends fun r' => r.2 = r'.2 :=
  stream_cut (by decide) 2 (by decide)

end KernelGadgets.Debugfs
