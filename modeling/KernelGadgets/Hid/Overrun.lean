import KernelGadgets.Hid.Session

/-!
# Sessions that overrun a buffer

`send_data` takes the size of the buffer that is received into, but never compares it with what
comes in. That is up to the card: whatever the caller does, a session stays in its objects as long
as the reports that are fetched fit, and leaves them in the first call where they do not
(`session_fault_iff`).
-/

namespace KernelGadgets.Hid

open Block

variable {κ : Type}

/-- What the caller can see to: the request fits in one message, the size of the buffer in an `int`,
and the loops are granted their rounds. -/
structure Call.Sends (C : Card κ) (a : Remote κ) (c : Call) : Prop where
  request : ∀ buf n, toSend c.sendBuffer c.sendLen = some (buf, n) → n ≤ buf.length ∧ n ≤ 28
  size : ∀ buf n, toReceive c.rcvBuffer c.rcvLen = some (buf, n) → buf.length ≤ intMax
  struct : c.inMsg.length = msgMaxLen
  fuel : (C.sent a c).2.pending.length + 2 ≤ c.fuel

/-- More comes in than there is room for. -/
def Call.Overruns (C : Card κ) (a : Remote κ) (c : Call) : Prop :=
  ∃ buf n, toReceive c.rcvBuffer c.rcvLen = some (buf, n) ∧
    buf.length < (fetch (C.sent a c).2.pending (C.sent a c).2.countdown).bytes.length

/-- The side of the card when call `c` of a session begins, `calls` being those before it. -/
def Card.before (C : Card κ) (a : Remote κ) (calls : List Call) (c : Call) : Remote κ :=
  { (Machine.specRun C.answer a calls).2 with countdown := c.countdown }

/-! ## One call -/

section

variable (C : Card κ) {a : Remote κ} {c : Call}

theorem Call.Sends.fits {C : Card κ} (hc : c.Sends C a) (h : ¬c.Overruns C a) : c.Fits C a where
  request := hc.request
  room buf n hrcv := ⟨hc.size buf n hrcv, Nat.not_lt.mp fun hlt => h ⟨buf, n, hrcv, hlt⟩⟩
  struct := hc.struct
  fuel := hc.fuel

/-- After a request that fails nothing comes in. -/
theorem fetch_sent_fails (h : (C.sent a c).1 < 0) :
    (fetch (C.sent a c).2.pending (C.sent a c).2.countdown).bytes = [] := by
  have hstop : ∀ fs, (fetch fs (some 0)).bytes = [] := by
    intro fs
    cases fs <;> rfl
  revert h
  unfold Card.sent
  cases c.request with
  | none => exact fun h => absurd h (Int.lt_irrefl 0)
  | some request =>
    obtain ⟨card, pending, countdown⟩ := a
    obtain _ | _ | _ | n := countdown
    · exact fun h => absurd h (Int.not_lt.mpr (Int.natCast_nonneg _))
    · exact fun _ => hstop pending
    · exact fun _ => hstop pending
    · exact fun h => absurd h (Int.not_lt.mpr (Int.natCast_nonneg _))

theorem rcvLoop_link_overruns (count : ℕ) (pending : List Frame) : ∀ {s : Link κ}
    {inMsg buf : Block} {n : ℕ} (fuel : ℕ), s.pending = pending → inMsg.length = msgMaxLen →
    n ≤ buf.length → buf.length < n + (fetch pending s.countdown).bytes.length →
    buf.length ≤ intMax → pending.length < fuel →
    rcvLoop C.link count fuel s inMsg buf n = .fault := by
  induction pending with
  | nil =>
    intro s inMsg buf n fuel _ _ hn hover _ _
    rw [fetch, List.length_nil] at hover
    omega
  | cons f fs ih =>
    intro s inMsg buf n fuel hs hin hn hover hint hfuel
    obtain ⟨fuel, rfl⟩ := Nat.exists_eq_add_of_le' (Nat.zero_lt_of_lt hfuel)
    by_cases h0 : s.countdown = some 0
    · rw [h0, fetch, List.length_nil] at hover
      omega
    by_cases h1 : s.countdown = some 1
    · rw [h1, fetch, List.length_nil] at hover
      omega
    obtain ⟨s', hD, hs'⟩ := link_delivers C hs h0 h1
    have hpending : s'.pending = fs := congrArg Remote.pending hs'
    have hcountdown : s'.countdown = after 2 s.countdown := congrArg Remote.countdown hs'
    rw [fetch_cons h0 h1] at hover
    -- the first report that does not fit is the one that is copied past the end
    by_cases hfit : n + payloadLen f.values ≤ buf.length
    · by_cases hc : Continues f.values
      · rw [if_pos hc] at hover
        simp only [List.length_append, length_payload] at hover
        have hlen : (splice buf n (payload f.values)).length = buf.length :=
          length_splice (by rw [length_payload]; exact hfit)
        have hstruct : (overlay f.values (payloadLen f.values + 4) inMsg).length = msgMaxLen := by
          have hsmall := f.accepted.small
          rw [length_overlay _ (by rw [hin, msgMaxLen, payloadLen]; omega), hin]
        rw [rcvLoop_copies hD hin f.accepted _ _ hfit (Nat.le_trans hfit hint), if_pos hc]
        refine ih fuel hpending hstruct ?_ ?_ ?_ ?_
        · rw [hlen]
          exact hfit
        · rw [hlen, hcountdown]
          omega
        · rw [hlen]
          exact hint
        · rw [List.length_cons] at hfuel
          omega
      · rw [if_neg hc] at hover
        simp only [length_payload] at hover
        omega
    · exact rcvLoop_overruns hD hin f.accepted _ _ (Nat.lt_of_not_le hfit)

theorem sendData_overruns {s : Link κ} (hc : c.Sends C s.toRemote)
    (h : c.Overruns C s.toRemote) :
    sendData C.link c.fuel s c.inMsg c.sendBuffer c.sendLen c.rcvBuffer c.rcvLen = .fault := by
  obtain ⟨buf, n, hrcv, hover⟩ := h
  have hres : ¬(C.sent s.toRemote c).1 < 0 := by
    intro hneg
    rw [fetch_sent_fails C hneg] at hover
    exact absurd hover (Nat.not_lt_zero _)
  have hfuel := hc.fuel
  obtain ⟨s₁, hsent, hs₁⟩ := sendPart_link C hc.request (Nat.le_trans (Nat.le_add_left 2 _) hfuel)
  rw [← hs₁] at hover hfuel
  have hrun := rcvLoop_link_overruns C n s₁.pending (s := s₁) (n := 0) c.fuel rfl hc.struct
    (Nat.zero_le buf.length) (by rw [Nat.zero_add]; exact hover) (hc.size buf n hrcv) (by omega)
  unfold sendData
  rw [hsent, Outcome.ok_bind]
  simp only [if_neg hres]
  unfold rcvPart
  rw [hrcv]
  show rcvMsg C.link c.fuel s₁ c.inMsg buf n >>= _ = _
  rw [rcvMsg, show (0 : ℤ) = ((0 : ℕ) : ℤ) from rfl, hrun]
  rfl

end

/-! ## Sessions -/

theorem before_cons (C : Card κ) (a : Remote κ) (c : Call) (calls : List Call) (d : Call) :
    C.before a (c :: calls) d = C.before (C.answer a c).2 calls d := by
  unfold Card.before
  rw [Machine.specRun_cons]

/-- **Sessions that overrun a buffer.** A session leaves its objects exactly if in one of its calls
more comes in than the buffer has room for, however the calls before it went. -/
theorem session_fault_iff (C : Card κ) {calls : List Call} : ∀ {s : Link κ},
    (∀ (k : ℕ) (c : Call), calls[k]? = some c →
      c.Sends C (C.before s.toRemote (calls.take k) c)) →
    ((session C).run s calls = .fault ↔ ∃ (k : ℕ) (c : Call), calls[k]? = some c ∧
      c.Overruns C (C.before s.toRemote (calls.take k) c)) := by
  induction calls with
  | nil =>
    intro s _
    refine ⟨nofun, ?_⟩
    rintro ⟨k, c, hk, -⟩
    rw [List.getElem?_nil] at hk
    cases hk
  | cons c calls ih =>
    intro s hall
    have hc : c.Sends C { s.toRemote with countdown := c.countdown } := hall 0 c rfl
    by_cases ho : c.Overruns C { s.toRemote with countdown := c.countdown }
    · refine ⟨fun _ => ⟨0, c, rfl, ho⟩, fun _ => ?_⟩
      have hstep : (session C).step s c = .fault :=
        sendData_overruns C (s := { s with countdown := c.countdown }) hc ho
      rw [Machine.run, hstep]
      rfl
    · obtain ⟨s', hstep, hs'⟩ :=
        sendData_link C (hc.fits ho) (s := { s with countdown := c.countdown })
      have hnext : ∀ k d, C.before s.toRemote ((c :: calls).take (k + 1)) d =
          C.before s'.toRemote (calls.take k) d := by
        intro k d
        rw [List.take_succ_cons, before_cons, hs']
        rfl
      have hrest : ∀ (k : ℕ) (d : Call), calls[k]? = some d →
          d.Sends C (C.before s'.toRemote (calls.take k) d) := by
        intro k d hd
        rw [← hnext]
        exact hall (k + 1) d hd
      rw [Machine.run_cons_eq_fault hstep, ih hrest]
      constructor
      · rintro ⟨k, d, hd, h⟩
        exact ⟨k + 1, d, hd, (hnext k d).symm ▸ h⟩
      · rintro ⟨k, d, hd, h⟩
        cases k with
        | zero =>
          obtain rfl : c = d := Option.some.inj hd
          exact absurd h ho
        | succ k => exact ⟨k, d, hd, hnext k d ▸ h⟩

/-- The caller says that there are 32 bytes, but there are eight. -/
def askEight : Call := { askFive none with rcvBuffer := some (List.replicate 8 0), rcvLen := 32 }

/-- The first answer of ten bytes fits, the second does not. -/
theorem session_fault_iff_sample :
    (session fiveCard).run (fiveStart []) [askFive none, askEight] = .fault := by
  have hsends : ∀ (k : ℕ) (c : Call), [askFive none, askEight][k]? = some c →
      c.Sends fiveCard (fiveCard.before (fiveStart []).toRemote
        ([askFive none, askEight].take k) c) := by
    intro k c hk
    obtain _ | _ | k := k
    · cases hk
      refine ⟨?_, ?_, rfl, by decide⟩
      · rintro _ _ ⟨⟩
        decide
      · rintro _ _ ⟨⟩
        decide
    · cases hk
      refine ⟨?_, ?_, rfl, by decide⟩
      · rintro _ _ ⟨⟩
        decide
      · rintro _ _ ⟨⟩
        decide
    · cases hk
  exact (session_fault_iff fiveCard hsends).mpr ⟨1, askEight, rfl, _, _, rfl, by decide⟩

end KernelGadgets.Hid
