import KernelGadgets.Hid.Driver

/-!
# The messages that are sent

`record D` is the device `D` with a log of the messages that `msg_out` hands to it and of those it
takes. The log does not change what `send_msg` does (`sendMsg_record`). A buffer of at most 28 bytes
is handed over as one well-formed message, whatever the device answers, and a longer one makes
`send_msg` write past the end of its struct before it hands over anything. So both properties of the
messages hold for exactly the buffers of at most 28 bytes (`wellFramed_iff`, `transmits_iff`).
-/

namespace KernelGadgets.Hid

open Block

variable {σ : Type}

/-! ## Recording -/

/-- The values of the messages that `msg_out` has handed to the device, and of those that the device
has taken. -/
structure Log where
  handed : List (List ℤ)
  sent : List (List ℤ)
  deriving DecidableEq

/-- No message. -/
def Log.empty : Log := ⟨[], []⟩

/-- The device with a log. A message is taken when both of its calls succeed. -/
def record (D : Hiddev σ) : Hiddev (σ × Log) where
  getReport s := ((D.getReport s.1).1, ((D.getReport s.1).2, s.2))
  getUsages s n := ((D.getUsages s.1 n).1, ((D.getUsages s.1 n).2, s.2))
  setUsages s values := ((D.setUsages s.1 values).1,
    ((D.setUsages s.1 values).2, { s.2 with handed := s.2.handed ++ [values] }))
  setReport s := ((D.setReport s.1).1, ((D.setReport s.1).2,
    if (D.setReport s.1).1 < 0 then s.2
    else { s.2 with sent := s.2.sent ++ s.2.handed.getLast?.toList }))

/-- A result without the log. -/
def unlogged (r : ℤ × σ × Log) : Outcome (ℤ × σ) := .ok (r.1, r.2.1)

theorem msgOut_record (D : Hiddev σ) (s : σ) (log : Log) (m : Block) :
    msgOut (record D) (s, log) m >>= unlogged = msgOut D s m := by
  unfold msgOut
  cases load m 2 with
  | fault => rfl
  | diverge => rfl
  | ok len =>
    simp only [Outcome.ok_bind]
    cases read m 0 (len.toNat + 4) with
    | fault => rfl
    | diverge => rfl
    | ok bytes =>
      simp only [Outcome.ok_bind, record]
      split
      · rfl
      · split <;> rfl

theorem sendLoop_record (D : Hiddev σ) (buf : Block) (fuel : ℕ) (s : σ) (log : Log)
    (outMsg : Block) (count : ℕ) (msgLen : ℤ) :
    sendLoop (record D) buf fuel (s, log) outMsg count msgLen >>= unlogged =
      sendLoop D buf fuel s outMsg count msgLen := by
  induction fuel generalizing s log outMsg count msgLen with
  | zero => rfl
  | succ fuel ih =>
    unfold sendLoop
    split
    · rfl
    · cases offset msgLen with
      | fault => rfl
      | diverge => rfl
      | ok d =>
        simp only [Outcome.ok_bind]
        cases fillMsg buf outMsg d count with
        | fault => rfl
        | diverge => rfl
        | ok m =>
          simp only [Outcome.ok_bind]
          rw [← msgOut_record D s log m]
          cases msgOut (record D) (s, log) m with
          | fault => rfl
          | diverge => rfl
          | ok r =>
            simp only [Outcome.ok_bind, unlogged]
            split
            · rfl
            · exact ih _ _ _ _ _

/-- Recording does not change what `send_msg` does. -/
theorem sendMsg_record (D : Hiddev σ) (fuel : ℕ) (s : σ) (log : Log) (buf : Block) (count : ℕ) :
    sendMsg (record D) fuel (s, log) buf count >>= unlogged = sendMsg D fuel s buf count :=
  sendLoop_record D buf fuel s log outMsgInit count 0

/-! ## One message -/

section

variable {m buf : Block}

/-- A message is handed over, and taken or not. -/
theorem msgOut_log (hm : m.length = msgMaxLen) (hv : Valid m) (D : Hiddev σ) (s : σ) (log : Log) :
    (∃ res s', msgOut (record D) (s, log) m =
      .ok (res, (s', { log with handed := log.handed ++ [sentValues m] })) ∧ res < 0) ∨
    ∃ s', msgOut (record D) (s, log) m = .ok (((byte m 2).toNat : ℤ) + 4,
      (s', ⟨log.handed ++ [sentValues m], log.sent ++ [sentValues m]⟩)) := by
  have hsmall : (byte m 2).toNat ≤ msgMaxLen - 4 := hv.2.2.1
  have hfit : (byte m 2).toNat + 4 ≤ m.length := by
    rw [hm]
    rw [msgMaxLen] at *
    omega
  rw [msgOut_eq hfit]
  simp only [record]
  split
  · exact .inl ⟨_, _, rfl, ‹_›⟩
  · split
    · exact .inl ⟨_, _, rfl, ‹_›⟩
    · rw [List.getLast?_concat]
      exact .inr ⟨_, rfl⟩

variable (h28 : buf.length ≤ msgMaxLen - 4)
include h28

/-- The message of a short buffer. -/
theorem valid_message : Valid (build outMsgInit singleMsg buf) :=
  valid_build rfl h28 (.inl rfl) rfl

/-- A short buffer is handed over as one message, or as none if it is empty. -/
theorem sendMsg_logged (D : Hiddev σ) (s : σ) (fuel : ℕ) :
    (∃ s', sendMsg (record D) (fuel + 2) (s, .empty) buf buf.length =
      .ok (-1, (s', ⟨[sentValues (build outMsgInit singleMsg buf)], []⟩))) ∨
    (∃ s', sendMsg (record D) (fuel + 2) (s, .empty) buf buf.length =
      .ok ((buf.length : ℤ), (s', ⟨[sentValues (build outMsgInit singleMsg buf)],
        [sentValues (build outMsgInit singleMsg buf)]⟩))) ∨
    buf = [] ∧ sendMsg (record D) (fuel + 2) (s, .empty) buf buf.length =
      .ok (0, (s, .empty)) := by
  by_cases h0 : buf.length = 0
  · obtain rfl := List.length_eq_zero_iff.mp h0
    exact .inr (.inr ⟨rfl, rfl⟩)
  · have h1 : 1 ≤ buf.length := Nat.one_le_iff_ne_zero.mpr h0
    have hlen : (byte (build outMsgInit singleMsg buf) 2).toNat = buf.length := len_build rfl h28
    obtain ⟨res, s', hout, hneg⟩ | ⟨s', hout⟩ :=
      msgOut_log (length_build rfl h28) (valid_message h28) D s .empty
    · have hrun := sendMsg_one h1 h28 hout (.inl hneg) fuel
      rw [if_pos hneg] at hrun
      exact .inl ⟨s', hrun⟩
    · rw [hlen] at hout
      have hneg : ¬ (buf.length : ℤ) + 4 < 0 := by omega
      have hrun := sendMsg_one h1 h28 hout (.inr rfl) fuel
      rw [if_neg hneg] at hrun
      exact .inr (.inl ⟨s', hrun⟩)

end

/-! ## Well-formed messages -/

/-- What is handed over is a message of at most 32 bytes that `check_msg` accepts. -/
def Framed (values : List ℤ) : Prop :=
  values.length ≤ msgMaxLen ∧ checkMsg (valueBytes values msgMaxLen) = .ok 0

/-- `send_msg` on the buffer stays in its struct, and every message it hands over is well formed. -/
def WellFramed (D : Hiddev σ) (s : σ) (buf : Block) : Prop :=
  ∃ bound, ∀ fuel, bound ≤ fuel →
    (sendMsg (record D) fuel (s, .empty) buf buf.length).Ends fun r =>
      ∀ values ∈ r.2.2.handed, Framed values

theorem framed_sent {m : Block} (hm : m.length = msgMaxLen) (hv : Valid m) :
    Framed (sentValues m) := by
  have hsmall : (byte m 2).toNat ≤ msgMaxLen - 4 := hv.2.2.1
  refine ⟨?_, ?_⟩
  · rw [length_sentValues hm hv]
    rw [msgMaxLen] at *
    omega
  · rw [checkMsg_eq (length_valueBytes _ _), if_pos (accepted_sent hm hv).valid]

/-- A property of the runs of `send_msg` fails for every longer buffer. -/
theorem le_of_ends {D : Hiddev σ} {s : σ} {buf : Block} {P : ℤ × σ → Prop} {bound : ℕ}
    (h : ∀ fuel, bound ≤ fuel → (sendMsg D fuel s buf buf.length).Ends P) :
    buf.length ≤ msgMaxLen - 4 := by
  by_contra h28
  have hends := h (bound + 1) (Nat.le_succ bound)
  rw [sendMsg_fault (Nat.lt_of_not_le h28)] at hends
  exact Outcome.not_ends_fault hends

/-- The runs of `send_msg` are those with a log. -/
def Recorded (D : Hiddev σ) (s : σ) (buf : Block) : Prop :=
  ∀ fuel, sendMsg (record D) fuel (s, .empty) buf buf.length >>= unlogged =
    sendMsg D fuel s buf buf.length

/-- **Framing.** For every device, `send_msg` stays in its struct and hands over well-formed
messages exactly for the buffers of at most 28 bytes. -/
theorem wellFramed_iff (D : Hiddev σ) (s : σ) (buf : Block) :
    Recorded D s buf ∧ (WellFramed D s buf ↔ buf.length ≤ msgMaxLen - 4) := by
  refine ⟨fun fuel => sendMsg_record D fuel s .empty buf buf.length, ?_⟩
  constructor
  · rintro ⟨bound, h⟩
    exact le_of_ends h
  · intro h28
    have hframed : Framed (sentValues (build outMsgInit singleMsg buf)) :=
      framed_sent (length_build rfl h28) (valid_message h28)
    refine ⟨2, fun fuel hfuel => ?_⟩
    obtain ⟨fuel, rfl⟩ := Nat.exists_eq_add_of_le' hfuel
    obtain ⟨s', hrun⟩ | ⟨s', hrun⟩ | ⟨-, hrun⟩ := sendMsg_logged h28 D s fuel
    · exact .of_eq hrun (by simpa using hframed)
    · exact .of_eq hrun (by simpa using hframed)
    · exact .of_eq hrun fun values h => absurd h List.not_mem_nil

/-- A device whose calls all succeed. -/
def willing : Hiddev Unit where
  getReport s := (0, s)
  getUsages s _ := ((0, []), s)
  setUsages s _ := (0, s)
  setReport s := (0, s)

/-- The check byte of 29 bytes is written behind the struct. -/
theorem not_wellFramed_29 : ¬WellFramed willing () (List.replicate 29 7) := by
  rintro ⟨bound, h⟩
  exact absurd (le_of_ends h) (by decide)

/-! ## The whole buffer -/

/-- The status byte of a message that is handed over. -/
def status (values : List ℤ) : UInt8 := UInt8.ofInt (values.getD 0 0)

/-- All messages but the last announce another one. -/
def Marked (sent : List (List ℤ)) : Prop :=
  ∀ before last, sent = before ++ [last] →
    status last = singleMsg ∧ ∀ values ∈ before, status values = multiMsg

/-- `send_msg` ends. If every message it hands over is taken, they carry the buffer and their number
of bytes is returned; otherwise -1 is returned, and the messages that were taken carry a part of the
buffer from its beginning. -/
def Transmits (D : Hiddev σ) (s : σ) (buf : Block) : Prop :=
  ∃ bound, ∀ fuel, bound ≤ fuel →
    (sendMsg (record D) fuel (s, .empty) buf buf.length).Ends fun r =>
      (r.2.2.sent = r.2.2.handed → r.1 = buf.length ∧ r.2.2.sent.flatMap payload = buf ∧
        Marked r.2.2.sent) ∧
      (r.2.2.sent ≠ r.2.2.handed → r.1 = -1 ∧ r.2.2.sent.flatMap payload <+: buf)

theorem marked_nil : Marked [] := by
  intro before last h
  simp at h

theorem marked_singleton {values : List ℤ} (h : status values = singleMsg) : Marked [values] := by
  intro before last heq
  have hlen := congrArg List.length heq
  simp only [List.length_singleton, List.length_append] at hlen
  obtain rfl : before = [] := List.length_eq_zero_iff.mp (by omega)
  cases heq
  exact ⟨h, fun _ hmem => absurd hmem List.not_mem_nil⟩

/-- **Transmission.** For every device, `send_msg` transmits exactly the buffers of at most 28
bytes. -/
theorem transmits_iff (D : Hiddev σ) (s : σ) (buf : Block) :
    Recorded D s buf ∧ (Transmits D s buf ↔ buf.length ≤ msgMaxLen - 4) := by
  refine ⟨fun fuel => sendMsg_record D fuel s .empty buf buf.length, ?_⟩
  constructor
  · rintro ⟨bound, h⟩
    exact le_of_ends h
  · intro h28
    have hm : (build outMsgInit singleMsg buf).length = msgMaxLen := length_build rfl h28
    have hv := valid_message h28
    have hlen : (byte (build outMsgInit singleMsg buf) 2).toNat = buf.length := len_build rfl h28
    have hpayload : payload (sentValues (build outMsgInit singleMsg buf)) = buf := by
      rw [payload_sent hm hv, hlen, range_build rfl h28]
    have hstatus : status (sentValues (build outMsgInit singleMsg buf)) = singleMsg := by
      rw [status, getD_sentValues hm hv (by omega), ofInt_toNat, status_build rfl h28]
    refine ⟨2, fun fuel hfuel => ?_⟩
    obtain ⟨fuel, rfl⟩ := Nat.exists_eq_add_of_le' hfuel
    obtain ⟨s', hrun⟩ | ⟨s', hrun⟩ | ⟨rfl, hrun⟩ := sendMsg_logged h28 D s fuel
    · refine .of_eq hrun ⟨fun h => ?_, fun _ => ⟨rfl, List.nil_prefix⟩⟩
      cases h
    · refine .of_eq hrun ⟨fun _ => ⟨rfl, ?_, marked_singleton hstatus⟩, fun h => absurd rfl h⟩
      rw [List.flatMap_singleton, hpayload]
    · exact .of_eq hrun ⟨fun _ => ⟨rfl, rfl, marked_nil⟩, fun h => absurd rfl h⟩

/-- Of 100 bytes nothing is transmitted: the first payload is written past the end of the
struct. -/
theorem not_transmits_100 : ¬Transmits willing () (List.replicate 100 7) := by
  rintro ⟨bound, h⟩
  exact absurd (le_of_ends h) (by decide)

end KernelGadgets.Hid
