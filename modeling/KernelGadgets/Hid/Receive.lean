import KernelGadgets.Hid.Driver

/-!
# Receiving into a buffer

`rcv_msg` on a stream of accepted frames, of any length and any mix of `MULTI_MSG` and
`SINGLE_MSG`. A byte written outside the buffer is a fault.

* `Delivery` is a sequence of reports, read one after the other with success; `rcvLoop_run` is the
  run of the loop over reports that ask for another one, on any device.
* `Frame` is a report that `msg_in` accepts, with at most 28 bytes of payload, and `stream` a device
  that hands them over. `rcvMsg_run` follows the loop up to a frame that is reached.
* `guarded_iff`: the buffer is guarded exactly when every frame reached fits in it.
-/

namespace KernelGadgets.Hid

open Block

/-! ## Reports one after the other -/

section Delivery

variable {σ : Type}

/-- The next reports are read with success, and hold these values. -/
def Delivery (D : Hiddev σ) : σ → List (List ℤ) → σ → Prop
  | s, [], s' => s' = s
  | s, values :: reports, s' => ∃ t, Delivers D s values t ∧ Delivery D t reports s'

/-- The payloads of the reports, one behind the other. -/
def joined (reports : List (List ℤ)) : List UInt8 := reports.flatMap payload

theorem delivery_append {D : Hiddev σ} {s s' : σ} {reports more : List (List ℤ)} :
    Delivery D s (reports ++ more) s' ↔ ∃ t, Delivery D s reports t ∧ Delivery D t more s' := by
  induction reports generalizing s with
  | nil => simp [Delivery]
  | cons values reports ih =>
    simp only [List.cons_append, Delivery, ih]
    constructor
    · rintro ⟨t, hv, u, hr, hm⟩
      exact ⟨u, ⟨t, hv, hr⟩, hm⟩
    · rintro ⟨u, ⟨t, hv, hr⟩, hm⟩
      exact ⟨t, hv, u, hr, hm⟩

@[simp] theorem joined_nil : joined [] = [] := rfl

@[simp] theorem joined_cons (values : List ℤ) (reports : List (List ℤ)) :
    joined (values :: reports) = payload values ++ joined reports := List.flatMap_cons

theorem joined_concat (reports : List (List ℤ)) (values : List ℤ) :
    joined (reports ++ [values]) = joined reports ++ payload values := by
  rw [joined, List.flatMap_append, List.flatMap_cons, List.flatMap_nil, List.append_nil]
  rfl

variable {D : Hiddev σ} {s t : σ} {inMsg buf : Block} {reports : List (List ℤ)} {n : ℕ}

/-- **A run of the loop.** Reports that ask for another one are put behind what the buffer holds. -/
theorem rcvLoop_run (hin : inMsg.length = msgMaxLen)
    (hall : ∀ values ∈ reports, Accepted values ∧ Continues values)
    (hD : Delivery D s reports t) (hfit : n + (joined reports).length ≤ buf.length)
    (hint : buf.length ≤ intMax) (count : ℕ) :
    ∃ inMsg', inMsg'.length = msgMaxLen ∧ ∀ fuel,
      rcvLoop D count (reports.length + fuel) s inMsg buf n =
        rcvLoop D count fuel t inMsg' (splice buf n (joined reports))
          ((n + (joined reports).length : ℕ) : ℤ) := by
  induction reports generalizing s inMsg buf n with
  | nil =>
    obtain rfl : t = s := hD
    refine ⟨inMsg, hin, fun fuel => ?_⟩
    rw [joined_nil, splice_nil, List.length_nil, List.length_nil, Nat.zero_add, Nat.add_zero]
  | cons values reports ih =>
    obtain ⟨u, hv, hrest⟩ := hD
    obtain ⟨⟨hacc, hcont⟩, hall⟩ := List.forall_mem_cons.mp hall
    have hsmall : payloadLen values ≤ 28 := by
      have h := hacc.small
      unfold payloadLen
      omega
    rw [joined_cons, List.length_append, length_payload] at hfit ⊢
    have hspliced : (splice buf n (payload values)).length = buf.length :=
      length_splice (by rw [length_payload]; omega)
    have hstruct : (overlay values (payloadLen values + 4) inMsg).length = msgMaxLen := by
      rw [length_overlay values (by rw [hin, msgMaxLen]; omega), hin]
    obtain ⟨inMsg', hin', hrun⟩ := ih hstruct hall hrest (n := n + payloadLen values)
      (by rw [hspliced]; omega) (by rw [hspliced]; exact hint)
    have happ : splice (splice buf n (payload values)) (n + payloadLen values) (joined reports) =
        splice buf n (payload values ++ joined reports) := by
      have h := splice_append (b := buf) (d := n) (t := payload values)
        (by rw [length_payload]; omega) (joined reports)
      rwa [length_payload] at h
    refine ⟨inMsg', hin', fun fuel => ?_⟩
    rw [List.length_cons, Nat.add_right_comm,
      rcvLoop_copies hv hin hacc count _ (by omega) (by omega), if_pos hcont, hrun fuel, happ,
      Nat.add_assoc]

end Delivery

/-! ## Streams -/

/-- A report that is accepted. -/
structure Frame where
  values : List ℤ
  length_eq : values.length = msgMaxLen
  accepted : Accepted values

/-- The state of a device that reports from a stream: the number of reports read, and the last
one. -/
structure Feed where
  next : ℕ
  current : List ℤ
  deriving DecidableEq, Repr

/-- The device that reports the frames of a stream, and fails at its end. -/
def stream (f : ℕ → Option Frame) : Hiddev Feed where
  getReport s := match f s.next with
    | none => (-1, s)
    | some r => (0, { next := s.next + 1, current := r.values })
  getUsages s n := ((0, s.current.take n), s)
  setUsages s _ := (0, s)
  setReport s := (0, s)

/-- `rcv_msg` on a stream, with a buffer of `count` bytes. -/
def receive (f : ℕ → Option Frame) (fuel : ℕ) (inMsg buf : Block) :
    Outcome ((ℤ × Block) × Feed) :=
  rcvMsg (stream f) fuel { next := 0, current := [] } inMsg buf buf.length

/-- The frames before frame `k` all ask for another one. -/
def Reached (f : ℕ → Option Frame) (k : ℕ) : Prop :=
  ∀ j < k, ∃ r, f j = some r ∧ Continues r.values

/-- The payloads of the first `k` frames. -/
def payloads (f : ℕ → Option Frame) : ℕ → List UInt8
  | 0 => []
  | k + 1 => payloads f k ++ match f k with
    | none => []
    | some r => payload r.values

/-- The buffer is guarded: no byte is written outside it, a frame that does not fit is refused, and
a stream of frames with a payload each is read only so far. -/
structure Guarded (f : ℕ → Option Frame) (inMsg buf : Block) : Prop where
  /-- No byte outside the objects is accessed, however long the loop runs. -/
  inside : ∀ fuel, receive f fuel inMsg buf ≠ .fault
  /-- The first frame that does not fit in what is left ends the call without being copied. -/
  refuses : ∀ k, Reached f k → (payloads f k).length ≤ buf.length →
    buf.length < (payloads f (k + 1)).length →
    (receive f (k + 1) inMsg buf).Ends fun r =>
      r.1 = (-1, splice buf 0 (payloads f k)) ∧ r.2.next = k + 1
  /-- With a byte of payload in every frame, at most `count + 1` frames are read. -/
  stops : (∀ k r, f k = some r → 0 < payloadLen r.values) →
    (receive f (buf.length + 1) inMsg buf).Ends fun r => r.2.next ≤ buf.length + 1

/-! ## Frames reached -/

section Stream

variable {f : ℕ → Option Frame} {k : ℕ}

theorem reached_zero : Reached f 0 := fun _ hj => absurd hj (Nat.not_lt_zero _)

theorem reached_succ :
    Reached f (k + 1) ↔ Reached f k ∧ ∃ r, f k = some r ∧ Continues r.values := by
  constructor
  · intro h
    exact ⟨fun j hj => h j (by omega), h k (by omega)⟩
  · rintro ⟨h, hk⟩ j hj
    by_cases hjk : j = k
    · rwa [hjk]
    · exact h j (by omega)

theorem Reached.mono (h : Reached f k) {j : ℕ} (hj : j ≤ k) : Reached f j :=
  fun i hi => h i (by omega)

/-- A frame that is not reached lies behind a last one that is. -/
theorem exists_last {n : ℕ} (h : ¬ Reached f n) : ∃ k < n, Reached f k ∧ ¬ Reached f (k + 1) := by
  induction n with
  | zero => exact absurd reached_zero h
  | succ n ih =>
    by_cases hn : Reached f n
    · exact ⟨n, by omega, hn, h⟩
    · obtain ⟨k, hk, hr⟩ := ih hn
      exact ⟨k, by omega, hr⟩

theorem payloads_none (h : f k = none) : payloads f (k + 1) = payloads f k := by
  rw [payloads, h, List.append_nil]

theorem payloads_some {r : Frame} (h : f k = some r) :
    payloads f (k + 1) = payloads f k ++ payload r.values := by
  rw [payloads, h]

theorem length_payloads_le (f : ℕ → Option Frame) (k : ℕ) :
    (payloads f k).length ≤ (payloads f (k + 1)).length := by
  rw [payloads, List.length_append]
  exact Nat.le_add_right _ _

/-- Frames with a payload each carry at least one byte per frame. -/
theorem le_length_payloads (hpos : ∀ k r, f k = some r → 0 < payloadLen r.values)
    (h : Reached f k) : k ≤ (payloads f k).length := by
  induction k with
  | zero => omega
  | succ k ih =>
    obtain ⟨hk, r, hr, -⟩ := reached_succ.mp h
    have hle := ih hk
    have hlen := hpos k r hr
    rw [payloads_some hr, List.length_append, length_payload]
    omega

theorem stream_delivers {r : Frame} (h : f k = some r) (current : List ℤ) :
    Delivers (stream f) ⟨k, current⟩ r.values ⟨k + 1, r.values⟩ := by
  have htake : r.values.take msgMaxLen = r.values :=
    List.take_of_length_le (Nat.le_of_eq r.length_eq)
  simp only [Delivers, stream, h, htake]
  exact ⟨by omega, 0, by omega, rfl⟩

/-- The frames before one that is reached, as a sequence of reports. -/
theorem Reached.delivery (hk : Reached f k) : ∃ reports current, reports.length = k ∧
    joined reports = payloads f k ∧ (∀ values ∈ reports, Accepted values ∧ Continues values) ∧
      Delivery (stream f) ⟨0, []⟩ reports ⟨k, current⟩ := by
  induction k with
  | zero => exact ⟨[], [], rfl, rfl, fun _ h => absurd h List.not_mem_nil, rfl⟩
  | succ k ih =>
    obtain ⟨hk, r, hr, hc⟩ := reached_succ.mp hk
    obtain ⟨reports, current, hlen, hjoined, hall, hD⟩ := ih hk
    refine ⟨reports ++ [r.values], r.values, ?_, ?_, ?_, ?_⟩
    · rw [List.length_append, hlen, List.length_singleton]
    · rw [joined_concat, hjoined, payloads_some hr]
    · intro values hv
      rcases List.mem_append.mp hv with hv | hv
      · exact hall values hv
      · rw [List.mem_singleton.mp hv]
        exact ⟨r.accepted, hc⟩
    · exact delivery_append.mpr ⟨_, hD, _, stream_delivers hr current, rfl⟩

end Stream

/-! ## The loop on a stream -/

section Loop

variable {f : ℕ → Option Frame} {inMsg buf : Block} (hin : inMsg.length = msgMaxLen)
variable (hbuf : buf.length ≤ intMax)
include hin hbuf

/-- Before a frame that is reached while all frames before it fit, the buffer holds their
payloads. -/
theorem rcvMsg_run {k : ℕ} (hk : Reached f k) (hfit : (payloads f k).length ≤ buf.length) :
    ∃ current inMsg', inMsg'.length = msgMaxLen ∧ ∀ fuel, receive f (k + fuel) inMsg buf =
      rcvLoop (stream f) buf.length fuel ⟨k, current⟩ inMsg' (splice buf 0 (payloads f k))
        (payloads f k).length := by
  obtain ⟨reports, current, rfl, hjoined, hall, hD⟩ := hk.delivery
  rw [← hjoined] at hfit ⊢
  have hfit : 0 + (joined reports).length ≤ buf.length := by omega
  obtain ⟨inMsg', hin', hrun⟩ := rcvLoop_run hin hall hD hfit hbuf buf.length
  rw [Nat.zero_add] at hrun
  exact ⟨current, inMsg', hin', hrun⟩

/-- The call ends at the last frame reached when all fit. -/
theorem receive_ends {k : ℕ} (hk : Reached f k) (hlast : ¬ Reached f (k + 1))
    (hfit : (payloads f (k + 1)).length ≤ buf.length) (fuel : ℕ) :
    (receive f (k + (fuel + 1)) inMsg buf).Ends fun r => r.2.next ≤ k + 1 := by
  obtain ⟨current, inMsg', hin', hrun⟩ :=
    rcvMsg_run hin hbuf hk (Nat.le_trans (length_payloads_le f k) hfit)
  rw [hrun]
  cases hr : f k with
  | none =>
    have hfail : (stream f).getReport ⟨k, current⟩ = (-1, ⟨k, current⟩) := by
      simp only [stream, hr]
    rw [rcvLoop_fails (by rw [hfail]; omega), hfail]
    exact Outcome.Ends.of_eq rfl (Nat.le_succ k)
  | some r =>
    have hlen : (splice buf 0 (payloads f k)).length = buf.length :=
      length_splice (by have := length_payloads_le f k; omega)
    rw [payloads_some hr, List.length_append, length_payload] at hfit
    rw [rcvLoop_copies (stream_delivers hr current) hin' r.accepted _ _
      (by rw [hlen]; omega) (by omega), if_neg fun hc => hlast (reached_succ.mpr ⟨hk, r, hr, hc⟩)]
    exact Outcome.Ends.of_eq rfl (Nat.le_refl _)

/-- The first frame that does not fit is written past the end of the buffer. -/
theorem receive_fault {k : ℕ} (hk : Reached f k) (hfit : (payloads f k).length ≤ buf.length)
    (hover : buf.length < (payloads f (k + 1)).length) :
    receive f (k + 1) inMsg buf = .fault := by
  obtain ⟨current, inMsg', hin', hrun⟩ := rcvMsg_run hin hbuf hk hfit
  cases hr : f k with
  | none =>
    rw [payloads_none hr] at hover
    omega
  | some r =>
    rw [payloads_some hr, List.length_append, length_payload] at hover
    rw [hrun, rcvLoop_overruns (stream_delivers hr current) hin' r.accepted _ _
      (by rw [length_splice (by omega)]; exact hover)]

/-- The loop stays inside the buffer when the frames reached fit. -/
theorem receive_inside (hfits : ∀ k, Reached f k → (payloads f (k + 1)).length ≤ buf.length)
    (fuel : ℕ) : receive f fuel inMsg buf ≠ .fault := by
  by_cases hreach : Reached f fuel
  · have hfit : (payloads f fuel).length ≤ buf.length :=
      Nat.le_trans (length_payloads_le f fuel) (hfits fuel hreach)
    obtain ⟨current, inMsg', -, hrun⟩ := rcvMsg_run hin hbuf hreach hfit
    have h := hrun 0
    rw [Nat.add_zero] at h
    rw [h, rcvLoop]
    simp
  · obtain ⟨k, hk, hkr, hlast⟩ := exists_last hreach
    obtain ⟨r, hr, -⟩ := receive_ends hin hbuf hkr hlast (hfits k hkr) (fuel - k - 1)
    rw [show k + (fuel - k - 1 + 1) = fuel by omega] at hr
    rw [hr]
    simp

/-- Frames with a payload each cannot fit forever. -/
theorem receive_stops (hfits : ∀ k, Reached f k → (payloads f (k + 1)).length ≤ buf.length)
    (hpos : ∀ k r, f k = some r → 0 < payloadLen r.values) :
    (receive f (buf.length + 1) inMsg buf).Ends fun r => r.2.next ≤ buf.length + 1 := by
  have hnot : ¬ Reached f (buf.length + 1) := by
    intro hreach
    have hle := le_length_payloads hpos hreach
    have hfit := hfits _ (hreach.mono (Nat.le_succ _))
    omega
  obtain ⟨k, hk, hkr, hlast⟩ := exists_last hnot
  have hends := receive_ends hin hbuf hkr hlast (hfits k hkr) (buf.length - k)
  rw [show k + (buf.length - k + 1) = buf.length + 1 by omega] at hends
  exact hends.mono fun r hr => by omega

/-- **The buffer of the receiver.** It is guarded exactly when the frames reached fit in it: the
comparison that is to refuse a frame is never true. -/
theorem guarded_iff : Guarded f inMsg buf ↔
    ∀ k, Reached f k → (payloads f (k + 1)).length ≤ buf.length := by
  constructor
  · intro hg k
    induction k with
    | zero =>
      intro hk
      by_contra hover
      exact hg.inside 1 (receive_fault hin hbuf hk (Nat.zero_le _) (by omega))
    | succ k ih =>
      intro hk
      by_contra hover
      have hfit := ih (hk.mono (Nat.le_succ k))
      exact hg.inside (k + 1 + 1) (receive_fault hin hbuf hk hfit (by omega))
  · intro hfits
    refine ⟨receive_inside hin hbuf hfits, ?_, receive_stops hin hbuf hfits⟩
    intro k hk _ hover
    have hfit := hfits k hk
    omega

end Loop

/-- A frame with the payload 1, 2, 3, 4, 5. -/
def sampleFrame (status : UInt8) (hs : status = singleMsg ∨ status = multiMsg) : Frame where
  values := (status.toNat : ℤ) :: 0x55 :: 5 :: 1 :: 2 :: 3 :: 4 :: 5 :: 4 :: List.replicate 23 0
  length_eq := rfl
  accepted := by
    obtain rfl | rfl := hs
    · exact ⟨by decide, by decide, by decide⟩
    · exact ⟨by decide, by decide, by decide⟩

/-- Two frames, the first of which asks for the second. -/
def sampleStream : ℕ → Option Frame
  | 0 => some (sampleFrame multiMsg (.inr rfl))
  | 1 => some (sampleFrame singleMsg (.inl rfl))
  | _ => none

/-- The frames of the sample fit in ten bytes. -/
theorem guarded_sample :
    Guarded sampleStream (List.replicate 32 0xAA) (List.replicate 10 0) := by
  apply (guarded_iff rfl (by decide)).mpr
  intro k hk
  by_cases h2 : k < 2
  · obtain rfl | rfl : k = 0 ∨ k = 1 := by omega
    · decide
    · decide
  · obtain ⟨r, hr, hc⟩ := hk 1 (by omega)
    obtain rfl : sampleFrame singleMsg (.inl rfl) = r := Option.some.inj hr
    exact absurd hc (by decide)

/-- In a buffer of nine bytes the second frame is not refused, but written past the end. -/
theorem not_guarded_nine :
    ¬ Guarded sampleStream (List.replicate 32 0xAA) (List.replicate 9 0) := by
  intro hg
  exact hg.inside 2 (by decide +kernel)

end KernelGadgets.Hid
