import KernelGadgets.Hid.Driver

/-!
# Sending to a loop-back device and receiving again

Every message that `msg_out` hands to the device is a report that `msg_in` reads later, in the same
order and padded with zeros to 32 values. `exchange` is `send_msg` followed by `rcv_msg`; the round
trip is intact exactly for buffers of at most 28 bytes, which is what fits in one message.
-/

namespace KernelGadgets.Hid

open Block

/-- The state of the loop-back device: the values set last, the reports under way, and the report
read last. -/
structure Loop where
  pending : List ℤ
  queue : List (List ℤ)
  current : List ℤ
  deriving DecidableEq, Repr

/-- The device that reports what it is sent. Every call succeeds. -/
def loopBack : Hiddev Loop where
  getReport s := match s.queue with
    | [] => (0, { s with current := [] })
    | r :: rs => (0, { s with queue := rs, current := r })
  getUsages s n := ((0, (s.current ++ List.replicate n 0).take n), s)
  setUsages s values := (0, { s with pending := values })
  setReport s := (0, { s with queue := s.queue ++ [s.pending] })

/-- The device before the first message. -/
def loopStart : Loop := { pending := [], queue := [], current := [] }

/-- Send a buffer and receive into another: the result and the buffer of `rcv_msg`. -/
def exchange (fuel : ℕ) (buf inMsg out : Block) : Outcome ((ℤ × Block) × Loop) := do
  let (_, s) ← sendMsg loopBack fuel loopStart buf buf.length
  rcvMsg loopBack fuel s inMsg out out.length

/-- Receiving undoes sending: the call ends with the number of bytes sent, the bytes are in the
buffer, no report is left, and no access is outside the objects. -/
def RoundTrip (buf inMsg out : Block) : Prop :=
  ∃ fuel, (exchange fuel buf inMsg out).Ends fun r =>
    r.1.1 = buf.length ∧ r.1.2.take buf.length = buf ∧ r.2.queue = []

/-! ## The message on its way -/

/-- The values of the report that `msg_in` gets for it. -/
def padded (values : List ℤ) : List ℤ := (values ++ List.replicate msgMaxLen 0).take msgMaxLen

/-- The zeros behind a message are not seen. -/
theorem getD_padded {values : List ℤ} (h : values.length ≤ msgMaxLen) (i : ℕ) :
    (padded values).getD i 0 = values.getD i 0 := by
  rw [padded, List.take_append, List.take_of_length_le h, List.take_replicate]
  by_cases hi : i < values.length
  · rw [List.getD_append _ _ _ _ hi]
  · have hle : values.length ≤ i := Nat.not_lt.mp hi
    rw [List.getD_append_right _ _ _ _ hle, List.getD_eq_default values 0 hle,
      List.getD_eq_getElem?_getD, List.getElem?_getD_replicate_default_eq]

section Padded

variable {values : List ℤ} (h : values.length ≤ msgMaxLen)
include h

theorem valueBytes_padded (n : ℕ) : valueBytes (padded values) n = valueBytes values n := by
  simp only [valueBytes, getD_padded h]

theorem payloadLen_padded : payloadLen (padded values) = payloadLen values := by
  rw [payloadLen, getD_padded h, payloadLen]

theorem payload_padded : payload (padded values) = payload values := by
  rw [payload, payloadLen_padded h, valueBytes_padded h, payload]

theorem accepted_padded (hacc : Accepted values) : Accepted (padded values) := by
  obtain ⟨hnonneg, hsmall, hvalid⟩ := hacc
  refine ⟨?_, ?_, ?_⟩
  · rwa [getD_padded h]
  · rwa [getD_padded h]
  · rwa [valueBytes_padded h]

end Padded

theorem msgOut_loopBack {m : Block} (h : (byte m 2).toNat + 4 ≤ m.length) (s : Loop) :
    msgOut loopBack s m = .ok (((byte m 2).toNat : ℤ) + 4,
      { s with pending := sentValues m, queue := s.queue ++ [sentValues m] }) := by
  rw [msgOut_eq h]
  rfl

section Valid

variable {m : Block} (hm : m.length = msgMaxLen) (hv : Valid m)
include hm hv

/-- `rcv_msg` puts the one message that is under way into its buffer. -/
theorem rcvMsg_last (hlast : byte m 0 = singleMsg) {s : Loop} (hs : s.queue = [sentValues m])
    {inMsg out : Block} (hin : inMsg.length = msgMaxLen) (ho : (byte m 2).toNat ≤ out.length)
    (fuel : ℕ) :
    (rcvMsg loopBack (fuel + 1) s inMsg out out.length).Ends fun r =>
      r.1 = (((byte m 2).toNat : ℤ), splice out 0 ((m.drop 3).take (byte m 2).toNat)) ∧
        r.2.queue = [] := by
  have hsmall : (byte m 2).toNat ≤ 28 := hv.2.2.1
  have hD : Delivers loopBack s (padded (sentValues m))
      { s with queue := [], current := sentValues m } := by
    simp only [Delivers, loopBack, hs]
    exact ⟨Int.le_refl 0, 0, Int.le_refl 0, rfl⟩
  have hpad : (sentValues m).length ≤ msgMaxLen := by
    rw [length_sentValues hm hv, msgMaxLen]
    omega
  have hlen : payloadLen (padded (sentValues m)) = (byte m 2).toNat := by
    rw [payloadLen_padded hpad, payloadLen_sent hm hv]
  have hstop : ¬ Continues (padded (sentValues m)) := by
    rw [Continues, getD_padded hpad, getD_sentValues hm hv (by omega), ofInt_toNat, hlast]
    decide
  have hstep := rcvLoop_copies hD hin (accepted_padded hpad (accepted_sent hm hv)) out.length fuel
    (by rwa [Nat.zero_add, hlen]) (by rw [hlen]; unfold intMax; omega)
  rw [if_neg hstop, payload_padded hpad, payload_sent hm hv, hlen, Nat.zero_add] at hstep
  exact Outcome.Ends.of_eq hstep ⟨rfl, rfl⟩

end Valid

/-! ## One message there and back -/

section Exchange

variable {buf inMsg out : Block} (h1 : 1 ≤ buf.length)
include h1

/-- `send_msg` hands over a buffer of at most 28 bytes as one message. -/
theorem sendMsg_short (h28 : buf.length ≤ msgMaxLen - 4) (fuel : ℕ) :
    ∃ s, sendMsg loopBack (fuel + 2) loopStart buf buf.length = .ok ((buf.length : ℤ), s) ∧
      s.queue = [sentValues (build outMsgInit singleMsg buf)] := by
  have hlen : (byte (build outMsgInit singleMsg buf) 2).toNat = buf.length := len_build rfl h28
  have hout : msgOut loopBack loopStart (build outMsgInit singleMsg buf) = _ :=
    msgOut_loopBack (by rw [hlen, length_build rfl h28, msgMaxLen] at *; omega) loopStart
  rw [hlen] at hout
  have hneg : ¬ (buf.length : ℤ) + 4 < 0 := by omega
  have hrun := sendMsg_one h1 h28 hout (.inr rfl) fuel
  rw [if_neg hneg] at hrun
  exact ⟨_, hrun, rfl⟩

variable (hin : inMsg.length = msgMaxLen) (ho : buf.length ≤ out.length)
include hin ho

/-- `rcv_msg` puts the message that is under way into its buffer. -/
theorem exchange_short (h28 : buf.length ≤ msgMaxLen - 4) (fuel : ℕ) :
    (exchange (fuel + 2) buf inMsg out).Ends fun r =>
      r.1 = ((buf.length : ℤ), splice out 0 buf) ∧ r.2.queue = [] := by
  have hlen : (byte (build outMsgInit singleMsg buf) 2).toNat = buf.length := len_build rfl h28
  have hm : (build outMsgInit singleMsg buf).length = msgMaxLen := length_build rfl h28
  have hv : Valid (build outMsgInit singleMsg buf) := valid_build rfl h28 (.inl rfl) rfl
  have hlast : byte (build outMsgInit singleMsg buf) 0 = singleMsg := status_build rfl h28
  have hrange : ((build outMsgInit singleMsg buf).drop 3).take buf.length = buf :=
    range_build rfl h28
  obtain ⟨s, hsend, hs⟩ := sendMsg_short h1 h28 fuel
  have hroom : (byte (build outMsgInit singleMsg buf) 2).toNat ≤ out.length := by rwa [hlen]
  have hends := rcvMsg_last hm hv hlast hs hin hroom (fuel + 1)
  rw [hlen, hrange] at hends
  rwa [exchange, hsend, Outcome.ok_bind]

/-- **The round trip.** What is received is what was sent exactly for the buffers that fit in one
message: a longer one makes `send_msg` write past the end of its struct. -/
theorem roundTrip_iff : RoundTrip buf inMsg out ↔ buf.length ≤ msgMaxLen - 4 := by
  constructor
  · rintro ⟨fuel, hends⟩
    by_contra h29
    cases fuel with
    | zero => exact Outcome.not_ends_diverge hends
    | succ fuel =>
      rw [exchange, sendMsg_fault (by omega)] at hends
      exact Outcome.not_ends_fault hends
  · intro h28
    obtain ⟨r, hr, hres, hqueue⟩ := exchange_short h1 hin ho h28 0
    refine ⟨2, r, hr, by rw [hres], ?_, hqueue⟩
    rw [hres, splice, List.take_zero, List.nil_append, List.take_left]

end Exchange

/-- Twenty-eight bytes come back. -/
theorem roundTrip_28 :
    RoundTrip (List.replicate 28 7) (List.replicate 32 0xAA) (List.replicate 30 0) :=
  (roundTrip_iff (by decide) rfl (by decide)).mpr (by decide)

/-- For 29 bytes the check byte is written behind the struct. -/
theorem not_roundTrip_29 :
    ¬ RoundTrip (List.replicate 29 7) (List.replicate 32 0xAA) (List.replicate 30 0) := by
  rintro ⟨fuel, hends⟩
  cases fuel with
  | zero => exact Outcome.not_ends_diverge hends
  | succ fuel =>
    rw [exchange, sendMsg_fault (by decide)] at hends
    exact Outcome.not_ends_fault hends

end KernelGadgets.Hid
