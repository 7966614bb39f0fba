import KernelGadgets.Hid.Reassembly
import KernelGadgets.Lib.Machine

/-!
# Sessions with the card

`send_data` of `hidcom.c` sends a request and receives the answer. The card is any machine that
meets the values of a message with reports. `Card.link` is the device in between: it keeps the
reports in order until they are fetched, and any one of its calls may fail.

`Card.exchange` is what a call comes to in terms of requests and reports, without messages, check
bytes and device calls. Every session is one of these exchanges (`session_refines`), if what comes
in fits in the buffers (`Call.Fits`).
-/

namespace KernelGadgets.Hid

open Block

variable {σ κ : Type}

/-! ## The code -/

/-- `send_buffer && send_len`: the bytes that are sent, if any. A null pointer is `none`. -/
def toSend : Option Block → ℕ → Option (Block × ℕ)
  | some buf, n + 1 => some (buf, n + 1)
  | _, _ => none

/-- `rcv_buffer && rcv_len` -/
def toReceive : Option Block → ℕ → Option (Block × ℕ) := toSend

/-- The first half of `send_data`. -/
def sendPart (D : Hiddev σ) (fuel : ℕ) (s : σ) (sendBuffer : Option Block) (sendLen : ℕ) :
    Outcome (ℤ × σ) :=
  match toSend sendBuffer sendLen with
  | some (buf, n) => sendMsg D fuel s buf n
  | none => .ok (0, s)

/-- The second half of `send_data`, with the result of the first one. -/
def rcvPart (D : Hiddev σ) (fuel : ℕ) (s : σ) (inMsg : Block) (rcvBuffer : Option Block)
    (rcvLen : ℕ) (res : ℤ) : Outcome ((ℤ × Option Block) × σ) :=
  match toReceive rcvBuffer rcvLen with
  | some (buf, n) => do
    let ((res, buf), s) ← rcvMsg D fuel s inMsg buf n
    return ((res, some buf), s)
  | none => .ok ((res, rcvBuffer), s)

/-- `send_data`: its result, and the buffer that is received into. -/
def sendData (D : Hiddev σ) (fuel : ℕ) (s : σ) (inMsg : Block) (sendBuffer : Option Block)
    (sendLen : ℕ) (rcvBuffer : Option Block) (rcvLen : ℕ) : Outcome ((ℤ × Option Block) × σ) := do
  let (res, s) ← sendPart D fuel s sendBuffer sendLen
  if res < 0 then return ((res, rcvBuffer), s)
  else rcvPart D fuel s inMsg rcvBuffer rcvLen res

/-! ## The device -/

/-- A card: the reports with which it meets the values of a message, and its next state. -/
abbrev Card (κ : Type) := κ → List ℤ → List Frame × κ

/-- The side of the card: its state, the reports that are not fetched yet, and how many calls
succeed before one fails. -/
structure Remote (κ : Type) where
  card : κ
  pending : List Frame
  countdown : Option ℕ

/-- The state of the device: also the values that were set, and the report read last. -/
structure Link (κ : Type) extends Remote κ where
  values : List ℤ
  current : List ℤ

/-- The countdown after `n` calls that succeed. -/
def after (n : ℕ) (t : Option ℕ) : Option ℕ := t.map (· - n)

/-- The device in front of a card. -/
def Card.link (C : Card κ) : Hiddev (Link κ) where
  setUsages s values :=
    if s.countdown = some 0 then (-1, s)
    else (0, { s with countdown := after 1 s.countdown, values := values })
  setReport s :=
    if s.countdown = some 0 then (-1, s)
    else (0, { s with
      countdown := after 1 s.countdown
      card := (C s.card s.values).2
      pending := s.pending ++ (C s.card s.values).1 })
  getReport s := match s.pending with
    | [] => (-1, s)
    | f :: fs =>
      if s.countdown = some 0 then (-1, s)
      else (0, { s with countdown := after 1 s.countdown, pending := fs, current := f.values })
  getUsages s n :=
    if s.countdown = some 0 then ((-1, []), s)
    else ((0, s.current.take n), { s with countdown := after 1 s.countdown })

/-! ## What an exchange comes to -/

/-- The values of the message of a request. -/
def frameOf (request : List UInt8) : List ℤ := sentValues (build outMsgInit singleMsg request)

/-- What is fetched: whether the last report of an answer was among it, the payloads, and what is
left. -/
structure Fetched where
  whole : Bool
  bytes : List UInt8
  rest : List Frame
  countdown : Option ℕ

/-- Two calls for every report, up to the one that is marked as the last. -/
def fetch : List Frame → Option ℕ → Fetched
  | [], t => ⟨false, [], [], t⟩
  | f :: fs, some 0 => ⟨false, [], f :: fs, some 0⟩
  | _ :: fs, some 1 => ⟨false, [], fs, some 0⟩
  | f :: fs, t =>
    if Continues f.values then
      let r := fetch fs (after 2 t)
      { r with bytes := payload f.values ++ r.bytes }
    else ⟨true, payload f.values, fs, after 2 t⟩

/-- A request reaches the card after two calls. -/
def Card.take (C : Card κ) (a : Remote κ) (request : List UInt8) : ℤ × Remote κ :=
  match a.countdown with
  | some 0 => (-1, a)
  | some 1 => (-1, { a with countdown := some 0 })
  | t => (request.length, ⟨(C a.card (frameOf request)).2,
      a.pending ++ (C a.card (frameOf request)).1, after 2 t⟩)

/-- A call of `send_data`, with what is granted to its loops, the content of its uninitialised
struct, and the number of device calls that succeed before one fails. -/
structure Call where
  fuel : ℕ
  inMsg : Block
  sendBuffer : Option Block
  sendLen : ℕ
  rcvBuffer : Option Block
  rcvLen : ℕ
  countdown : Option ℕ

/-- The request of a call. -/
def Call.request (c : Call) : Option (List UInt8) :=
  (toSend c.sendBuffer c.sendLen).map fun b => b.1.take b.2

/-- The part of a call in which the request is sent. -/
def Card.sent (C : Card κ) (a : Remote κ) (c : Call) : ℤ × Remote κ :=
  match c.request with
  | some request => C.take a request
  | none => (0, a)

/-- The part of a call in which the answer is fetched. -/
def received (res : ℤ) (a : Remote κ) (c : Call) : (ℤ × Option Block) × Remote κ :=
  if res < 0 then ((res, c.rcvBuffer), a)
  else match toReceive c.rcvBuffer c.rcvLen with
    | some (buf, _) =>
      let r := fetch a.pending a.countdown
      ((if r.whole then r.bytes.length else -1, some (r.bytes ++ buf.drop r.bytes.length)),
        { a with pending := r.rest, countdown := r.countdown })
    | none => ((res, c.rcvBuffer), a)

/-- **What a call comes to**, in terms of requests and reports. -/
def Card.exchange (C : Card κ) (a : Remote κ) (c : Call) : (ℤ × Option Block) × Remote κ :=
  received (C.sent a c).1 (C.sent a c).2 c

/-- What the caller has to see to: the request fits in one message, the buffer is large enough for
what comes in, and the loops are granted their rounds. -/
structure Call.Fits (C : Card κ) (a : Remote κ) (c : Call) : Prop where
  request : ∀ buf n, toSend c.sendBuffer c.sendLen = some (buf, n) → n ≤ buf.length ∧ n ≤ 28
  room : ∀ buf n, toReceive c.rcvBuffer c.rcvLen = some (buf, n) → buf.length ≤ intMax ∧
    (fetch (C.sent a c).2.pending (C.sent a c).2.countdown).bytes.length ≤ buf.length
  struct : c.inMsg.length = msgMaxLen
  fuel : (C.sent a c).2.pending.length + 2 ≤ c.fuel

/-- The calls of `send_data` in a session. -/
def session (C : Card κ) : Machine (Link κ) Call (ℤ × Option Block) where
  allowed s c := c.Fits C { s.toRemote with countdown := c.countdown }
  step s c := sendData C.link c.fuel { s with countdown := c.countdown } c.inMsg c.sendBuffer
    c.sendLen c.rcvBuffer c.rcvLen

/-- The exchanges of a session. -/
def Card.answer (C : Card κ) (a : Remote κ) (c : Call) : (ℤ × Option Block) × Remote κ :=
  C.exchange { a with countdown := c.countdown } c

/-! ## Sending -/

/-- `send_msg` sends the first bytes of a buffer in one message. -/
theorem sendMsg_take {D : Hiddev σ} {s s' : σ} {res : ℤ} {buf : Block} {n : ℕ} (h1 : 1 ≤ n)
    (hn : n ≤ buf.length) (h28 : n ≤ 28)
    (hout : msgOut D s (build outMsgInit singleMsg (buf.take n)) = .ok (res, s'))
    (hres : res < 0 ∨ res = n + 4) (fuel : ℕ) :
    sendMsg D (fuel + 2) s buf n = .ok (if res < 0 then -1 else (n : ℤ), s') := by
  have hfill : fillMsg buf outMsgInit 0 n = .ok (build outMsgInit singleMsg (buf.take n)) := by
    rw [fillMsg_eq rfl (by rw [msgMaxLen]; omega) (by omega), List.drop_zero]
  rw [sendMsg, sendLoop, if_neg (by omega)]
  simp only [show offset 0 = .ok 0 from rfl, hfill, hout, Outcome.ok_bind]
  by_cases hneg : res < 0
  · rw [if_pos hneg, if_pos hneg]
    rfl
  · obtain rfl := hres.resolve_left hneg
    have hlen : (n : ℤ) + 4 - 4 = n := by omega
    have hleft : sizeT ((n : ℤ) - n) = 0 := by
      rw [Int.sub_self]
      rfl
    rw [if_neg hneg, if_neg hneg, hlen, hleft]
    rfl

section

variable (C : Card κ) {s : Link κ}

/-- `msg_out` on the device in front of the card. -/
theorem msgOut_link {request : List UInt8} (h28 : request.length ≤ 28) :
    ∃ s', msgOut C.link s (build outMsgInit singleMsg request) =
        .ok (if (C.take s.toRemote request).1 < 0 then -1 else (request.length : ℤ) + 4, s') ∧
      s'.toRemote = (C.take s.toRemote request).2 := by
  have hlen : (byte (build outMsgInit singleMsg request) 2).toNat = request.length :=
    len_build rfl h28
  have hfit : (byte (build outMsgInit singleMsg request) 2).toNat + 4 ≤
      (build outMsgInit singleMsg request).length := by
    rw [hlen, length_build rfl h28, msgMaxLen]
    omega
  rw [msgOut_eq hfit, hlen]
  obtain ⟨⟨card, pending, countdown⟩, values, current⟩ := s
  obtain _ | _ | _ | n := countdown
  · exact ⟨_, rfl, rfl⟩
  · exact ⟨_, rfl, rfl⟩
  · exact ⟨_, rfl, rfl⟩
  · exact ⟨_, rfl, rfl⟩

theorem take_res (C : Card κ) (a : Remote κ) (request : List UInt8) :
    (C.take a request).1 = -1 ∨ (C.take a request).1 = request.length := by
  obtain ⟨card, pending, countdown⟩ := a
  obtain _ | _ | _ | n := countdown
  · exact .inr rfl
  · exact .inl rfl
  · exact .inl rfl
  · exact .inr rfl

theorem sendMsg_link {buf : Block} {n : ℕ} (h1 : 1 ≤ n) (hn : n ≤ buf.length) (h28 : n ≤ 28)
    (fuel : ℕ) : ∃ s', sendMsg C.link (fuel + 2) s buf n =
        .ok ((C.take s.toRemote (buf.take n)).1, s') ∧
      s'.toRemote = (C.take s.toRemote (buf.take n)).2 := by
  have hlen : (buf.take n).length = n := by
    rw [List.length_take]
    omega
  have hsmall : (buf.take n).length ≤ 28 := by omega
  obtain ⟨s', hout, hremote⟩ := msgOut_link C (s := s) hsmall
  rw [hlen] at hout
  refine ⟨s', ?_, hremote⟩
  rw [sendMsg_take h1 hn h28 hout (by split <;> omega)]
  obtain hres | hres := take_res C s.toRemote (buf.take n)
  · rw [hres]
    rfl
  · rw [hres, hlen, if_neg (show ¬(n : ℤ) < 0 by omega), if_neg (by omega)]

end

/-! ## Receiving -/

section

variable (C : Card κ)

/-- A report that is pending is read with two calls. -/
theorem link_delivers {s : Link κ} {f : Frame} {fs : List Frame} (hs : s.pending = f :: fs)
    (h0 : s.countdown ≠ some 0) (h1 : s.countdown ≠ some 1) :
    ∃ s', Delivers C.link s f.values s' ∧
      s'.toRemote = { s.toRemote with pending := fs, countdown := after 2 s.countdown } := by
  have htake : f.values.take msgMaxLen = f.values :=
    List.take_of_length_le (Nat.le_of_eq f.length_eq)
  obtain ⟨⟨card, pending, countdown⟩, values, current⟩ := s
  obtain rfl : pending = f :: fs := hs
  have h1' : after 1 countdown ≠ some 0 := by
    cases countdown with
    | none => exact nofun
    | some n =>
      intro h
      have hn : n - 1 = 0 := Option.some.inj h
      obtain rfl | rfl : n = 0 ∨ n = 1 := by omega
      · exact h0 rfl
      · exact h1 rfl
  have h2 : after 1 (after 1 countdown) = after 2 countdown := by
    cases countdown with
    | none => rfl
    | some n => rfl
  refine ⟨⟨⟨card, fs, after 1 (after 1 countdown)⟩, values, f.values⟩, ?_, ?_⟩
  · simp only [Delivers, Card.link, if_neg h0, if_neg h1', htake]
    exact ⟨Int.le_refl 0, 0, Int.le_refl 0, rfl⟩
  · rw [h2]

theorem fetch_cons {f : Frame} {fs : List Frame} {t : Option ℕ} (h0 : t ≠ some 0)
    (h1 : t ≠ some 1) :
    fetch (f :: fs) t =
      if Continues f.values then
        { fetch fs (after 2 t) with bytes := payload f.values ++ (fetch fs (after 2 t)).bytes }
      else ⟨true, payload f.values, fs, after 2 t⟩ := by
  obtain _ | _ | _ | n := t
  · rfl
  · exact absurd rfl h0
  · exact absurd rfl h1
  · rfl

theorem rcvLoop_link (count : ℕ) (pending : List Frame) : ∀ {s : Link κ} {inMsg buf : Block} {n : ℕ}
    (fuel : ℕ), s.pending = pending → inMsg.length = msgMaxLen →
    n + (fetch pending s.countdown).bytes.length ≤ buf.length → buf.length ≤ intMax →
    pending.length < fuel →
    ∃ s', rcvLoop C.link count fuel s inMsg buf n =
        .ok ((if (fetch pending s.countdown).whole then
            ((n + (fetch pending s.countdown).bytes.length : ℕ) : ℤ) else -1,
          splice buf n (fetch pending s.countdown).bytes), s') ∧
      s'.toRemote = { s.toRemote with
        pending := (fetch pending s.countdown).rest
        countdown := (fetch pending s.countdown).countdown } := by
  induction pending with
  | nil =>
    intro s inMsg buf n fuel hs _ _ _ hfuel
    obtain ⟨fuel, rfl⟩ := Nat.exists_eq_add_of_le' hfuel
    have hfail : C.link.getReport s = (-1, s) := by
      simp only [Card.link, hs]
    refine ⟨s, ?_, ?_⟩
    · rw [fetch, splice_nil]
      refine (rcvLoop_fails (by rw [hfail]; omega) _ _ _ _ _).trans ?_
      rw [hfail]
      rfl
    · rw [fetch, ← hs]
  | cons f fs ih =>
    intro s inMsg buf n fuel hs hin hfit hint hfuel
    obtain ⟨fuel, rfl⟩ := Nat.exists_eq_add_of_le' (Nat.zero_lt_of_lt hfuel)
    by_cases h0 : s.countdown = some 0
    · have hb : Breaks C.link s s := by
        have hfail : C.link.getReport s = (-1, s) := by
          simp only [Card.link, hs, h0]
          rfl
        have h := Breaks.report (D := C.link) (s := s) (by rw [hfail]; omega)
        rwa [hfail] at h
      refine ⟨s, ?_, ?_⟩
      · rw [h0, fetch, splice_nil]
        exact rcvLoop_breaks hin hb _ _ _ _
      · rw [h0, fetch, ← hs, ← h0]
    by_cases h1 : s.countdown = some 1
    · have hb : Breaks C.link s
          { s with countdown := some 0, pending := fs, current := f.values } := by
        have hread : C.link.getReport s =
            (0, { s with countdown := some 0, pending := fs, current := f.values }) := by
          simp only [Card.link, hs, h1]
          rfl
        have hfail : C.link.getUsages (C.link.getReport s).2 msgMaxLen = ((-1, []),
            { s with countdown := some 0, pending := fs, current := f.values }) := by
          rw [hread]
          rfl
        have hres : 0 ≤ (C.link.getReport s).1 := Int.le_of_eq (congrArg Prod.fst hread).symm
        exact Breaks.usages hres hfail (by omega)
      refine ⟨{ s with countdown := some 0, pending := fs, current := f.values }, ?_, ?_⟩
      · rw [h1, fetch, splice_nil]
        exact rcvLoop_breaks hin hb _ _ _ _
      · rw [h1, fetch]
    · obtain ⟨s', hD, hs'⟩ := link_delivers C hs h0 h1
      have hpending : s'.pending = fs := congrArg Remote.pending hs'
      have hcountdown : s'.countdown = after 2 s.countdown := congrArg Remote.countdown hs'
      rw [fetch_cons h0 h1] at hfit ⊢
      by_cases hc : Continues f.values
      · rw [if_pos hc] at hfit ⊢
        simp only [List.length_append, length_payload] at hfit ⊢
        have hlen : (splice buf n (payload f.values)).length = buf.length :=
          length_splice (by rw [length_payload]; omega)
        have hstruct : (overlay f.values (payloadLen f.values + 4) inMsg).length = msgMaxLen := by
          have hsmall := f.accepted.small
          rw [length_overlay _ (by rw [hin, msgMaxLen, payloadLen]; omega), hin]
        have happ := splice_append (b := buf) (d := n) (t := payload f.values)
          (by rw [length_payload]; omega) (fetch fs (after 2 s.countdown)).bytes
        rw [length_payload] at happ
        have hrest : n + payloadLen f.values + (fetch fs s'.countdown).bytes.length ≤
            (splice buf n (payload f.values)).length := by
          rw [hcountdown, hlen]
          omega
        obtain ⟨s'', hrun, hs''⟩ := ih fuel hpending hstruct hrest (by rw [hlen]; exact hint)
          (by rw [List.length_cons] at hfuel; omega)
        rw [hcountdown] at hrun hs''
        refine ⟨s'', ?_, ?_⟩
        · rw [rcvLoop_copies hD hin f.accepted _ _ (by omega) (by omega), if_pos hc, hrun, happ,
            Nat.add_assoc]
        · rw [hs'', hs']
      · rw [if_neg hc] at hfit ⊢
        simp only [length_payload] at hfit ⊢
        refine ⟨s', ?_, hs'⟩
        rw [rcvLoop_copies hD hin f.accepted _ _ (by omega) (by omega), if_neg hc]
        rfl

end

/-! ## Sessions -/

section

variable (C : Card κ)

theorem toSend_eq_some {buffer : Option Block} {len n : ℕ} {buf : Block}
    (h : toSend buffer len = some (buf, n)) : buffer = some buf ∧ 1 ≤ n := by
  cases buffer with
  | none => cases h
  | some _ =>
    cases len with
    | zero => cases h
    | succ len =>
      cases h
      exact ⟨rfl, Nat.le_add_left 1 len⟩

theorem sendPart_link {s : Link κ} {c : Call}
    (hrequest : ∀ buf n, toSend c.sendBuffer c.sendLen = some (buf, n) → n ≤ buf.length ∧ n ≤ 28)
    (hfuel : 2 ≤ c.fuel) : ∃ s', sendPart C.link c.fuel s c.sendBuffer c.sendLen =
        .ok ((C.sent s.toRemote c).1, s') ∧
      s'.toRemote = (C.sent s.toRemote c).2 := by
  obtain ⟨fuel, hfuel⟩ := Nat.exists_eq_add_of_le' hfuel
  unfold sendPart Card.sent Call.request
  cases hsend : toSend c.sendBuffer c.sendLen with
  | none => exact ⟨s, rfl, rfl⟩
  | some b =>
    obtain ⟨buf, n⟩ := b
    obtain ⟨hn, h28⟩ := hrequest buf n hsend
    rw [hfuel]
    exact sendMsg_link C (toSend_eq_some hsend).2 hn h28 fuel

/-- `send_data` on the device in front of the card. -/
theorem sendData_link {s : Link κ} {c : Call} (hc : c.Fits C s.toRemote) :
    ∃ s', sendData C.link c.fuel s c.inMsg c.sendBuffer c.sendLen c.rcvBuffer c.rcvLen =
        .ok ((C.exchange s.toRemote c).1, s') ∧
      s'.toRemote = (C.exchange s.toRemote c).2 := by
  obtain ⟨s₁, hsent, hs₁⟩ := sendPart_link C hc.request
    (Nat.le_trans (Nat.le_add_left 2 _) hc.fuel)
  unfold sendData
  rw [hsent, Outcome.ok_bind]
  unfold Card.exchange received
  rw [← hs₁]
  dsimp only
  by_cases hneg : (C.sent s.toRemote c).1 < 0
  · rw [if_pos hneg, if_pos hneg]
    exact ⟨s₁, rfl, rfl⟩
  · rw [if_neg hneg, if_neg hneg]
    unfold rcvPart
    cases hrcv : toReceive c.rcvBuffer c.rcvLen with
    | none => exact ⟨s₁, rfl, rfl⟩
    | some b =>
      obtain ⟨buf, n⟩ := b
      obtain ⟨hint, hroom⟩ := hc.room buf n hrcv
      have hfuel := hc.fuel
      rw [← hs₁] at hroom hfuel
      have hroom : 0 + (fetch s₁.pending s₁.countdown).bytes.length ≤ buf.length := by omega
      obtain ⟨s', hrun, hs'⟩ := rcvLoop_link C n s₁.pending c.fuel rfl hc.struct hroom hint
        (by omega)
      refine ⟨s', ?_, hs'⟩
      rw [splice_zero, Nat.zero_add] at hrun
      show rcvMsg C.link c.fuel s₁ c.inMsg buf n >>= _ = _
      rw [rcvMsg, show (0 : ℤ) = ((0 : ℕ) : ℤ) from rfl, hrun]
      rfl

/-- One call of a session. -/
theorem session_step (s : Link κ) (a : Remote κ) (c : Call) (ha : s.toRemote = a)
    (hc : (session C).allowed s c) : ((session C).step s c).Ends fun r =>
      r.1 = (C.answer a c).1 ∧ r.2.toRemote = (C.answer a c).2 := by
  subst ha
  obtain ⟨s', hrun, hs'⟩ := sendData_link C (s := { s with countdown := c.countdown }) hc
  exact Outcome.Ends.of_eq hrun ⟨rfl, hs'⟩

/-- **Sessions.** Every session of `send_data` calls is one of requests and reports. -/
theorem session_refines {s : Link κ} {calls : List Call} (hl : (session C).Legal s calls) :
    ((session C).run s calls).Ends fun r =>
      r.1 = (Machine.specRun C.answer s.toRemote calls).1 ∧
        r.2.toRemote = (Machine.specRun C.answer s.toRemote calls).2 :=
  Machine.run_sim (session_step C) rfl hl

end

/-- The calls of a session fit, one after the other. -/
def FitAll (C : Card κ) : Remote κ → List Call → Prop
  | _, [] => True
  | a, c :: calls => c.Fits C { a with countdown := c.countdown } ∧ FitAll C (C.answer a c).2 calls

theorem legal_of_fitAll (C : Card κ) {calls : List Call} : ∀ {s : Link κ},
    FitAll C s.toRemote calls → (session C).Legal s calls := by
  induction calls with
  | nil => exact fun _ => trivial
  | cons c calls ih =>
    intro s h
    obtain ⟨hc, hcalls⟩ := h
    obtain ⟨s', hrun, hs'⟩ := sendData_link C hc (s := { s with countdown := c.countdown })
    have hnext : s'.toRemote = (C.answer s.toRemote c).2 := hs'
    rw [← hnext] at hcalls
    exact (Machine.legal_cons_of_step hrun).mpr ⟨hc, ih hcalls⟩

/-- A card that answers with two reports of five bytes, and counts the messages. -/
def fiveCard : Card ℕ := fun k _ => ((sampleStream 0).toList ++ (sampleStream 1).toList, k + 1)

/-- A request of one byte. -/
def askFive (t : Option ℕ) : Call where
  fuel := 8
  inMsg := List.replicate 32 0xAA
  sendBuffer := some [0x00, 0xff]
  sendLen := 1
  rcvBuffer := some (List.replicate 12 0)
  rcvLen := 12
  countdown := t

theorem askFive_fits {t : Option ℕ} {a : Remote ℕ}
    (h : (fiveCard.sent a (askFive t)).2.pending.length + 2 ≤ 8 ∧
      (fetch (fiveCard.sent a (askFive t)).2.pending
        (fiveCard.sent a (askFive t)).2.countdown).bytes.length ≤ 12) :
    (askFive t).Fits fiveCard a := by
  refine ⟨?_, ?_, rfl, h.1⟩
  · rintro _ _ ⟨⟩
    decide
  · rintro _ _ ⟨⟩
    exact ⟨by decide, h.2⟩

/-- The device before the first request. -/
def fiveStart (pending : List Frame) : Link ℕ := ⟨⟨0, pending, none⟩, [], []⟩

theorem session_refines_sample : ((session fiveCard).run (fiveStart [])
    [askFive (some 3), askFive none]).Ends fun r =>
      r.1 = [(-1, some (List.replicate 12 0)),
        (5, some [1, 2, 3, 4, 5, 0, 0, 0, 0, 0, 0, 0])] := by
  have hl : (session fiveCard).Legal (fiveStart []) [askFive (some 3), askFive none] :=
    legal_of_fitAll fiveCard ⟨askFive_fits (by decide), askFive_fits (by decide), trivial⟩
  exact (session_refines fiveCard hl).mono fun r hr => hr.1.trans (by decide)

end KernelGadgets.Hid
