import KernelGadgets.Hid.Message
import KernelGadgets.Lib.CInt

/-!
# Sending and receiving messages

`msg_in`, `rcv_msg`, `msg_out` and `send_msg` of `hidcom.c` over an arbitrary device, which is what
the four `ioctl` calls do. A loop of `rcv_msg` or `send_msg` is granted a number of iterations.

* `Delivers` says that the next report is read, and gives its values.
* `msgIn_overlay` and `msgIn_overruns` are what `msg_in` does with a report, and `msgIn_eq` what it
  makes of one whose length byte is in range; `rcvLoop_copies` and `rcvLoop_overruns` are what an
  accepted report does to the receiver.
* `fillMsg_eq` and `fillMsg_fault` are what the sender makes of up to 28 bytes and of more.
-/

namespace KernelGadgets.Hid

open Block

/-- The device behind the file descriptor: the result of each `ioctl`, with the values it hands
over in `values`. -/
structure Hiddev (σ : Type) where
  /-- `HIDIOCGREPORT` -/
  getReport : σ → ℤ × σ
  /-- `HIDIOCGUSAGES`, for a number of values. -/
  getUsages : σ → ℕ → (ℤ × List ℤ) × σ
  /-- `HIDIOCSUSAGES` -/
  setUsages : σ → List ℤ → ℤ × σ
  /-- `HIDIOCSREPORT` -/
  setReport : σ → ℤ × σ

/-- `HID_MAX_MULTI_USAGES`: the size of the array `values`. -/
def maxMultiUsages : ℕ := 1024

/-- `ref_multi_i.values[i]`; what the call does not fill is zero. -/
def readValue (values : List ℤ) (i : ℕ) : Outcome ℤ :=
  if i < maxMultiUsages then .ok (values.getD i 0) else .fault

variable {σ : Type}

/-! ## Receiving -/

/-- The copy loop of `msg_in`: `k` values from index `i` on. -/
def msgInLoop (values : List ℤ) : ℕ → ℕ → Block → Outcome Block
  | 0, _, buf => .ok buf
  | k + 1, i, buf => do
    let v ← readValue values i
    let buf ← store buf i (UInt8.ofInt v)
    msgInLoop values k (i + 1) buf

/-- `msg_in`: the number of bytes received, with the struct after the call. -/
def msgIn (D : Hiddev σ) (s : σ) (buf : Block) : Outcome ((ℤ × Block) × σ) :=
  let (res, s) := D.getReport s
  if res < 0 then .ok ((res, buf), s) else
  let ((res, values), s) := D.getUsages s msgMaxLen
  if res < 0 then .ok ((res, buf), s) else do
  let v ← readValue values 2
  let msgLen ← addInt v 4
  let buf ← msgInLoop values msgLen.toNat 0 buf
  let bad ← checkMsg buf
  if bad ≠ 0 then return ((-1, buf), s) else return ((msgLen, buf), s)

/-- The loop of `rcv_msg`. The comparison that is to stop an overflow is made on `size_t`. -/
def rcvLoop (D : Hiddev σ) (count : ℕ) :
    ℕ → σ → Block → Block → ℤ → Outcome ((ℤ × Block) × σ)
  | 0, _, _, _, _ => .diverge
  | fuel + 1, s, inMsg, buf, msgLen => do
    let ((res, inMsg), s) ← msgIn D s inMsg
    if res < 0 then return ((-1, buf), s)
    else if sizeT (count - msgLen - res + 4) < 0 then return ((-1, buf), s)
    else
      let d ← offset msgLen
      let buf ← memcpy buf d inMsg 3 (sizeT (res - 4))
      let msgLen ← addInt msgLen (res - 4)
      let status ← load inMsg 0
      if status = multiMsg then rcvLoop D count fuel s inMsg buf msgLen
      else return ((msgLen, buf), s)

/-- `rcv_msg`: the number of bytes received, with the buffer after the call. The struct `in_msg` on
its stack is not initialised. -/
def rcvMsg (D : Hiddev σ) (fuel : ℕ) (s : σ) (inMsg buf : Block) (count : ℕ) :
    Outcome ((ℤ × Block) × σ) :=
  rcvLoop D count fuel s inMsg buf 0

/-! ## Sending -/

/-- `msg_out`: the number of bytes sent. -/
def msgOut (D : Hiddev σ) (s : σ) (buf : Block) : Outcome (ℤ × σ) := do
  let len ← load buf 2
  let msgLen := len.toNat + 4
  let bytes ← read buf 0 msgLen
  let (res, s) := D.setUsages s (bytes.map fun b => (b.toNat : ℤ))
  if res < 0 then return (res, s) else
  let (res, s) := D.setReport s
  if res < 0 then return (res, s) else return ((msgLen : ℤ), s)

/-- The struct that `send_msg` fills for the `count` bytes that are left from offset `d` on. -/
def fillMsg (buf outMsg : Block) (d count : ℕ) : Outcome Block :=
  if count ≤ maxDatasize then do
    let outMsg ← store outMsg 0 singleMsg
    let outMsg ← store outMsg 2 (UInt8.ofNat count)
    let outMsg ← memcpy outMsg 3 buf d count
    let check ← getCheckByte outMsg
    store outMsg (2 + (count + 1)) check
  else do
    let outMsg ← store outMsg 2 (UInt8.ofNat maxDatasize)
    let outMsg ← memcpy outMsg 3 buf d maxDatasize
    let check ← getCheckByte outMsg
    store outMsg (2 + (count + 1)) check

/-- The loop of `send_msg`. `msgLen` is the payload of the last message, and the offset into the
buffer at which the next one begins. -/
def sendLoop (D : Hiddev σ) (buf : Block) : ℕ → σ → Block → ℕ → ℤ → Outcome (ℤ × σ)
  | 0, _, _, _, _ => .diverge
  | fuel + 1, s, outMsg, count, msgLen =>
    if count = 0 then .ok (msgLen, s) else do
    let d ← offset msgLen
    let outMsg ← fillMsg buf outMsg d count
    let (res, s) ← msgOut D s outMsg
    if res < 0 then return (-1, s) else
    let msgLen := res - 4
    sendLoop D buf fuel s outMsg (sizeT (count - msgLen)) msgLen

/-- `out_msg` as `send_msg` initialises it. -/
def outMsgInit : Block := multiMsg :: startFlag :: List.replicate 30 0

/-- `send_msg` -/
def sendMsg (D : Hiddev σ) (fuel : ℕ) (s : σ) (buf : Block) (count : ℕ) : Outcome (ℤ × σ) :=
  sendLoop D buf fuel s outMsgInit count 0

/-! ## The values of a report -/

/-- The first `n` values as bytes. -/
def valueBytes (values : List ℤ) (n : ℕ) : List UInt8 :=
  (List.range n).map fun i => UInt8.ofInt (values.getD i 0)

/-- A struct after the first `n` values are copied over it. -/
def overlay (values : List ℤ) (n : ℕ) (buf : Block) : Block :=
  valueBytes values n ++ buf.drop n

/-- The length of the payload that a report announces. -/
def payloadLen (values : List ℤ) : ℕ := (values.getD 2 0).toNat

/-- The payload of a report. -/
def payload (values : List ℤ) : List UInt8 :=
  ((valueBytes values (payloadLen values + 4)).drop 3).take (payloadLen values)

@[simp] theorem length_valueBytes (values : List ℤ) (n : ℕ) : (valueBytes values n).length = n := by
  simp [valueBytes]

theorem valueBytes_succ (values : List ℤ) (n : ℕ) :
    valueBytes values (n + 1) = valueBytes values n ++ [UInt8.ofInt (values.getD n 0)] := by
  simp [valueBytes, List.range_succ]

@[simp] theorem length_payload (values : List ℤ) : (payload values).length = payloadLen values := by
  simp [payload]

theorem length_overlay (values : List ℤ) {n : ℕ} {buf : Block} (h : n ≤ buf.length) :
    (overlay values n buf).length = buf.length := by
  simp [overlay]
  omega

theorem byte_valueBytes (values : List ℤ) {n i : ℕ} (h : i < n) :
    byte (valueBytes values n) i = UInt8.ofInt (values.getD i 0) := by
  simp [byte, valueBytes, List.getD_eq_getElem?_getD, h]

theorem byte_overlay (values : List ℤ) {n i : ℕ} (h : i < n) (buf : Block) :
    byte (overlay values n buf) i = UInt8.ofInt (values.getD i 0) := by
  rw [← byte_valueBytes values h, overlay, byte, List.getD_append _ _ _ _ (by simpa using h), byte]

theorem overlay_set (values : List ℤ) {n : ℕ} {buf : Block} (h : n < buf.length) :
    (overlay values n buf).set n (UInt8.ofInt (values.getD n 0)) = overlay values (n + 1) buf := by
  rw [overlay, overlay, List.set_append_right _ _ (by simp), length_valueBytes, Nat.sub_self,
    List.drop_eq_getElem_cons h, List.set_cons_zero, valueBytes_succ, List.append_assoc,
    List.singleton_append]

theorem msgInLoop_eq (values : List ℤ) {buf : Block} (hbuf : buf.length ≤ maxMultiUsages) (k i : ℕ)
    (h : i + k ≤ buf.length) :
    msgInLoop values k i (overlay values i buf) = .ok (overlay values (i + k) buf) := by
  induction k generalizing i with
  | zero => rfl
  | succ k ih =>
    have hlen : (overlay values i buf).length = buf.length := length_overlay values (by omega)
    rw [msgInLoop, readValue, if_pos (by omega), Outcome.ok_bind, store_ok (by omega),
      Outcome.ok_bind, overlay_set values (by omega), ih (i + 1) (by omega),
      show i + (k + 1) = i + 1 + k by omega]

/-- A copy that is longer than the struct leaves it. -/
theorem msgInLoop_fault (values : List ℤ) {k i : ℕ} {buf : Block} (hi : i ≤ buf.length)
    (h : buf.length < i + k) : msgInLoop values k i buf = .fault := by
  induction k generalizing i buf with
  | zero => omega
  | succ k ih =>
    rw [msgInLoop, readValue]
    split
    · by_cases hlt : i < buf.length
      · rw [Outcome.ok_bind, store_ok hlt, Outcome.ok_bind]
        exact ih (by rw [List.length_set]; omega) (by rw [List.length_set]; omega)
      · rw [Outcome.ok_bind, store_fault (by omega)]
        rfl
    · rfl

/-! ## What a report does to the receiver -/

/-- The values have the form of a message, with a payload of at most 28 bytes. -/
structure Accepted (values : List ℤ) : Prop where
  nonneg : 0 ≤ values.getD 2 0
  small : values.getD 2 0 ≤ 28
  valid : Valid (valueBytes values msgMaxLen)

/-- The report asks for another one. -/
def Continues (values : List ℤ) : Prop := UInt8.ofInt (values.getD 0 0) = multiMsg

instance : DecidablePred Continues := fun _ => inferInstanceAs (Decidable (_ = _))

/-- The next report is read with success, and holds these values. -/
def Delivers (D : Hiddev σ) (s : σ) (values : List ℤ) (s' : σ) : Prop :=
  0 ≤ (D.getReport s).1 ∧ ∃ q, 0 ≤ q ∧ D.getUsages (D.getReport s).2 msgMaxLen = ((q, values), s')

theorem len_values {values : List ℤ} (h0 : 0 ≤ values.getD 2 0) (h28 : values.getD 2 0 ≤ 28) :
    (UInt8.ofInt (values.getD 2 0)).toNat = payloadLen values := by
  rw [UInt8.ofInt, UInt8.toNat_ofNat', payloadLen]
  omega

section Receive

variable {D : Hiddev σ} {s s' : σ} {values : List ℤ} {inMsg buf : Block}
variable (hD : Delivers D s values s') (hin : inMsg.length = msgMaxLen)
include hD hin

/-- A report is copied over the struct as far as its length byte says, and then the struct is
checked. -/
theorem msgIn_overlay (hint : -(intMax : ℤ) - 1 ≤ values.getD 2 0) (h28 : values.getD 2 0 ≤ 28) :
    msgIn D s inMsg = .ok ((if Valid (overlay values (values.getD 2 0 + 4).toNat inMsg) then
      values.getD 2 0 + 4 else -1, overlay values (values.getD 2 0 + 4).toNat inMsg), s') := by
  obtain ⟨hr, q, hq, hu⟩ := hD
  have hn : (values.getD 2 0 + 4).toNat ≤ inMsg.length := by rw [hin, msgMaxLen]; omega
  have hadd : addInt (values.getD 2 0) 4 = .ok (values.getD 2 0 + 4) :=
    if_pos ⟨by omega, by rw [intMax]; omega⟩
  have hloop : msgInLoop values (values.getD 2 0 + 4).toNat 0 inMsg =
      .ok (overlay values (values.getD 2 0 + 4).toNat inMsg) := by
    have h : msgInLoop values (values.getD 2 0 + 4).toNat 0 (overlay values 0 inMsg) = _ :=
      msgInLoop_eq values (by rw [hin]; decide) _ _ (by rwa [Nat.zero_add])
    rwa [Nat.zero_add] at h
  have hread : readValue values 2 = .ok (values.getD 2 0) := rfl
  unfold msgIn
  simp only [if_neg (Int.not_lt.mpr hr), hu, if_neg (Int.not_lt.mpr hq), hread, Outcome.ok_bind,
    hadd, hloop, checkMsg_eq ((length_overlay values hn).trans hin)]
  split
  · rw [if_neg (by omega)]
    rfl
  · rw [if_pos (by omega)]
    rfl

/-- A report whose length byte is too large is copied past the end of the struct. -/
theorem msgIn_overruns (h29 : 29 ≤ values.getD 2 0) : msgIn D s inMsg = .fault := by
  obtain ⟨hr, q, hq, hu⟩ := hD
  have hloop : msgInLoop values (values.getD 2 0 + 4).toNat 0 inMsg = .fault :=
    msgInLoop_fault values (Nat.zero_le _) (by rw [hin, msgMaxLen]; omega)
  have hread : readValue values 2 = .ok (values.getD 2 0) := rfl
  unfold msgIn
  simp only [if_neg (Int.not_lt.mpr hr), hu, if_neg (Int.not_lt.mpr hq), hread, Outcome.ok_bind,
    addInt]
  split
  · rw [Outcome.ok_bind, hloop]
    rfl
  · rfl

/-- **One report.** A report whose length byte is in range is copied over the struct, and accepted
when its own bytes are a valid message. -/
theorem msgIn_eq (h0 : 0 ≤ values.getD 2 0) (h28 : values.getD 2 0 ≤ 28) :
    msgIn D s inMsg = .ok ((if Valid (valueBytes values msgMaxLen) then payloadLen values + 4
      else -1, overlay values (payloadLen values + 4) inMsg), s') := by
  have hn : (values.getD 2 0 + 4).toNat = payloadLen values + 4 := by unfold payloadLen; omega
  have hres : values.getD 2 0 + 4 = payloadLen values + 4 := by unfold payloadLen; omega
  have hvalid : Valid (overlay values (payloadLen values + 4) inMsg) ↔
      Valid (valueBytes values msgMaxLen) := by
    apply valid_congr
    intro i hi
    rw [byte_valueBytes values (by decide), len_values h0 h28] at hi
    have hpl : payloadLen values ≤ 28 := by unfold payloadLen; omega
    rw [byte_overlay values hi, byte_valueBytes values (by rw [msgMaxLen]; omega)]
  rw [msgIn_overlay hD hin (by omega) h28, hn, hres]
  simp only [hvalid]

/-- The part of a round of `rcv_msg` that comes before the copy: the comparison never holds. -/
theorem rcvLoop_accepted (hacc : Accepted values) (count fuel n : ℕ) :
    rcvLoop D count (fuel + 1) s inMsg buf n = (do
      let buf ← copyTo buf n (payload values)
      let msgLen ← addInt n (payloadLen values)
      if Continues values then
        rcvLoop D count fuel s' (overlay values (payloadLen values + 4) inMsg) buf msgLen
      else return ((msgLen, buf), s')) := by
  have hpl : payloadLen values ≤ 28 := by
    have h := hacc.small
    unfold payloadLen
    omega
  have hlen : (overlay values (payloadLen values + 4) inMsg).length = inMsg.length :=
    length_overlay values (by rw [hin, msgMaxLen]; omega)
  have hread : read (overlay values (payloadLen values + 4) inMsg) 3 (payloadLen values) =
      .ok (payload values) := by
    rw [read_ok (by rw [hlen, hin, msgMaxLen]; omega), payload, overlay,
      List.drop_append_of_le_length (by simp), List.take_append_of_le_length (by simp)]
  have hstatus : load (overlay values (payloadLen values + 4) inMsg) 0 =
      .ok (UInt8.ofInt (values.getD 0 0)) := by
    rw [load_ok (by rw [hlen, hin]; decide), byte_overlay values (by omega)]
  have hsub : (payloadLen values : ℤ) + 4 - 4 = payloadLen values := by omega
  rw [rcvLoop, msgIn_eq hD hin hacc.nonneg hacc.small, if_pos hacc.valid]
  simp only [Outcome.ok_bind, if_neg (show ¬ (payloadLen values : ℤ) + 4 < 0 by omega),
    if_neg (Nat.not_lt_zero _), offset_natCast, hsub,
    sizeT_natCast (show payloadLen values < 2 ^ 64 by omega), memcpy, hread, hstatus]
  rfl

/-- A payload that fits is put behind the others. -/
theorem rcvLoop_copies (hacc : Accepted values) (count fuel : ℕ) {n : ℕ}
    (hfit : n + payloadLen values ≤ buf.length) (hint : n + payloadLen values ≤ intMax) :
    rcvLoop D count (fuel + 1) s inMsg buf n =
      if Continues values then
        rcvLoop D count fuel s' (overlay values (payloadLen values + 4) inMsg)
          (splice buf n (payload values)) ((n + payloadLen values : ℕ) : ℤ)
      else .ok ((((n + payloadLen values : ℕ) : ℤ), splice buf n (payload values)), s') := by
  rw [rcvLoop_accepted hD hin hacc, copyTo_ok (by rwa [length_payload]), Outcome.ok_bind,
    addInt_ok (by omega) (by omega), Outcome.ok_bind, Int.natCast_add]
  rfl

/-- A payload that does not fit is written past the end of the buffer. -/
theorem rcvLoop_overruns (hacc : Accepted values) (count fuel : ℕ) {n : ℕ}
    (hover : buf.length < n + payloadLen values) :
    rcvLoop D count (fuel + 1) s inMsg buf n = .fault := by
  rw [rcvLoop_accepted hD hin hacc, copyTo_fault (by rwa [length_payload])]
  rfl

end Receive

/-- When no report can be read, the call fails and the buffer is left as it is. -/
theorem rcvLoop_fails {D : Hiddev σ} {s : σ} (hD : (D.getReport s).1 < 0) (count fuel : ℕ)
    (inMsg buf : Block) (n : ℤ) :
    rcvLoop D count (fuel + 1) s inMsg buf n = .ok ((-1, buf), (D.getReport s).2) := by
  rw [rcvLoop, msgIn]
  simp only [if_pos hD, Outcome.ok_bind]
  rfl

/-! ## What the sender puts into a message -/

section Send

variable {buf outMsg : Block} (hm : outMsg.length = msgMaxLen) {d count : ℕ}
include hm

/-- Up to 29 bytes the payload fits behind the length byte. -/
theorem fillMsg_fill (h29 : count + 3 ≤ msgMaxLen) (hd : d + count ≤ buf.length) :
    fillMsg buf outMsg d count =
      store (fill outMsg singleMsg ((buf.drop d).take count)) (2 + (count + 1))
        (parity (fill outMsg singleMsg ((buf.drop d).take count)) (count + 1)) := by
  have hlen : ((buf.drop d).take count).length = count := by
    rw [List.length_take, List.length_drop]
    omega
  have hcheck : getCheckByte (fill outMsg singleMsg ((buf.drop d).take count)) = _ :=
    getCheckByte_fill hm (by rwa [hlen])
  rw [hlen, fill, hlen] at hcheck
  rw [msgMaxLen] at *
  rw [fillMsg, if_pos (by rw [maxDatasize]; omega), store_ok (by omega), Outcome.ok_bind,
    store_ok (by simp; omega), Outcome.ok_bind, memcpy_ok hd (by simp; omega), Outcome.ok_bind,
    hcheck, Outcome.ok_bind, fill, hlen]

/-- Up to 28 bytes are put into the struct with their check byte. -/
theorem fillMsg_eq (h28 : count ≤ msgMaxLen - 4) (hd : d + count ≤ buf.length) :
    fillMsg buf outMsg d count = .ok (build outMsg singleMsg ((buf.drop d).take count)) := by
  have hlen : ((buf.drop d).take count).length = count := by
    rw [List.length_take, List.length_drop]
    omega
  have h29 : count + 3 ≤ msgMaxLen := by rw [msgMaxLen] at *; omega
  have hfill : (fill outMsg singleMsg ((buf.drop d).take count)).length = msgMaxLen :=
    length_fill hm (by rwa [hlen])
  rw [fillMsg_fill hm h29 hd, store_ok (by rw [hfill, msgMaxLen] at *; omega), build, hlen]

/-- From 29 bytes on the check byte or the payload is written past the end of the struct. -/
theorem fillMsg_fault (h28 : msgMaxLen - 4 < count) (hd : d + count ≤ buf.length) :
    fillMsg buf outMsg d count = .fault := by
  by_cases h29 : count + 3 ≤ msgMaxLen
  · have hlen : ((buf.drop d).take count).length = count := by
      rw [List.length_take, List.length_drop]
      omega
    have hfill : (fill outMsg singleMsg ((buf.drop d).take count)).length = msgMaxLen :=
      length_fill hm (by rwa [hlen])
    rw [fillMsg_fill hm h29 hd, store_fault (by rw [hfill, msgMaxLen] at *; omega)]
  · rw [msgMaxLen] at *
    rw [fillMsg]
    split_ifs with hsmall
    · rw [store_ok (by omega), Outcome.ok_bind, store_ok (by simp; omega), Outcome.ok_bind,
        memcpy_fault (.inr (by simp; omega))]
      rfl
    · rw [store_ok (by omega), Outcome.ok_bind,
        memcpy_fault (.inr (by simp [maxDatasize]; omega))]
      rfl

omit hm

/-- `send_msg` leaves its struct on a buffer of more than 28 bytes. -/
theorem sendMsg_fault {D : Hiddev σ} (h29 : msgMaxLen - 4 < buf.length) (fuel : ℕ) (s : σ) :
    sendMsg D (fuel + 1) s buf buf.length = .fault := by
  have hfill : fillMsg buf outMsgInit 0 buf.length = .fault :=
    fillMsg_fault rfl h29 (by omega)
  rw [sendMsg, sendLoop, if_neg (by rw [msgMaxLen] at h29; omega)]
  simp only [show offset 0 = .ok 0 from rfl, hfill, Outcome.ok_bind]
  rfl

end Send

/-! ## A message that is handed over -/

/-- The values of a message that `msg_out` hands over. -/
def sentValues (m : Block) : List ℤ :=
  (m.take ((byte m 2).toNat + 4)).map fun b => (b.toNat : ℤ)

theorem ofInt_toNat (b : UInt8) : UInt8.ofInt (b.toNat : ℤ) = b := by
  have h := b.toNat_lt
  apply UInt8.toNat_inj.mp
  rw [UInt8.ofInt, UInt8.toNat_ofNat']
  omega

/-- What `msg_out` does with a message. -/
theorem msgOut_eq {m : Block} (h : (byte m 2).toNat + 4 ≤ m.length) (D : Hiddev σ) (s : σ) :
    msgOut D s m =
      if (D.setUsages s (sentValues m)).1 < 0 then .ok (D.setUsages s (sentValues m))
      else if (D.setReport (D.setUsages s (sentValues m)).2).1 < 0 then
        .ok (D.setReport (D.setUsages s (sentValues m)).2)
      else .ok (((byte m 2).toNat : ℤ) + 4, (D.setReport (D.setUsages s (sentValues m)).2).2) := by
  have hread : read m 0 ((byte m 2).toNat + 4) = .ok (m.take ((byte m 2).toNat + 4)) :=
    read_ok (by omega)
  rw [msgOut, load_ok (by omega), Outcome.ok_bind]
  simp only [hread]
  rfl

section Valid

variable {m : Block} (hm : m.length = msgMaxLen) (hv : Valid m)
include hm hv

theorem length_sentValues : (sentValues m).length = (byte m 2).toNat + 4 := by
  have hsmall : (byte m 2).toNat ≤ msgMaxLen - 4 := hv.2.2.1
  rw [sentValues, List.length_map, List.length_take, hm]
  rw [msgMaxLen] at *
  omega

theorem getD_sentValues {i : ℕ} (h : i < (byte m 2).toNat + 4) :
    (sentValues m).getD i 0 = ((byte m i).toNat : ℤ) := by
  have hsmall : (byte m 2).toNat ≤ msgMaxLen - 4 := hv.2.2.1
  rw [msgMaxLen] at hm hsmall
  rw [sentValues, List.getD_eq_getElem?_getD, List.getElem?_map, List.getElem?_take_of_lt h,
    List.getElem?_eq_getElem (by omega), byte, List.getD_eq_getElem?_getD,
    List.getElem?_eq_getElem (by omega)]
  rfl

theorem payloadLen_sent : payloadLen (sentValues m) = (byte m 2).toNat := by
  rw [payloadLen, getD_sentValues hm hv (by omega)]
  rfl

theorem byte_sent {i n : ℕ} (h : i < (byte m 2).toNat + 4) (hn : i < n) :
    byte (valueBytes (sentValues m) n) i = byte m i := by
  rw [byte_valueBytes _ hn, getD_sentValues hm hv h, ofInt_toNat]

/-- The report of a valid message is accepted. -/
theorem accepted_sent : Accepted (sentValues m) := by
  have hsmall : (byte m 2).toNat ≤ 28 := hv.2.2.1
  have hlen : (sentValues m).getD 2 0 = ((byte m 2).toNat : ℤ) := getD_sentValues hm hv (by omega)
  refine ⟨by omega, by omega, (valid_congr fun i hi => ?_).mpr hv⟩
  exact byte_sent hm hv hi (by rw [msgMaxLen]; omega)

theorem payload_sent : payload (sentValues m) = (m.drop 3).take (byte m 2).toNat := by
  have hsmall : (byte m 2).toNat ≤ 28 := hv.2.2.1
  rw [payload, payloadLen_sent hm hv,
    range_eq_iff (by simp; omega) (by rw [hm, msgMaxLen]; omega)]
  intro i _ hi
  exact byte_sent hm hv (by omega) (by omega)

end Valid

/-! ## The message of a short buffer -/

section Build

variable {m buf : Block} {status : UInt8} (hm : m.length = msgMaxLen)
  (h28 : buf.length ≤ msgMaxLen - 4)
include hm h28

theorem status_build : byte (build m status buf) 0 = status := by
  have h29 : buf.length + 3 ≤ msgMaxLen := by rw [msgMaxLen] at *; omega
  rw [byte_build (by omega), byte_fill hm h29 (by omega), if_pos rfl]

theorem range_build : ((build m status buf).drop 3).take buf.length = buf := by
  have h29 : buf.length + 3 ≤ msgMaxLen := by rw [msgMaxLen] at *; omega
  apply range_eq (by rw [length_build hm h28]; omega)
  intro i hi
  rw [byte_build (by omega), byte_fill hm h29 (by omega), if_neg (by omega), if_neg (by omega),
    if_neg (by omega), Nat.add_sub_cancel_left]

end Build

/-- `send_msg` makes one message of a short buffer, and is done with it. -/
theorem sendMsg_one {D : Hiddev σ} {s s' : σ} {res : ℤ} {buf : Block} (h1 : 1 ≤ buf.length)
    (h28 : buf.length ≤ msgMaxLen - 4)
    (hout : msgOut D s (build outMsgInit singleMsg buf) = .ok (res, s'))
    (hres : res < 0 ∨ res = buf.length + 4) (fuel : ℕ) :
    sendMsg D (fuel + 2) s buf buf.length =
      .ok (if res < 0 then -1 else (buf.length : ℤ), s') := by
  have hfill : fillMsg buf outMsgInit 0 buf.length = .ok (build outMsgInit singleMsg buf) := by
    rw [fillMsg_eq rfl h28 (by omega), List.drop_zero, List.take_length]
  rw [sendMsg, sendLoop, if_neg (by omega)]
  simp only [show offset 0 = .ok 0 from rfl, hfill, hout, Outcome.ok_bind]
  by_cases hneg : res < 0
  · rw [if_pos hneg, if_pos hneg]
    rfl
  · obtain rfl := hres.resolve_left hneg
    have hlen : (buf.length : ℤ) + 4 - 4 = buf.length := by omega
    have hleft : sizeT ((buf.length : ℤ) - buf.length) = 0 := by
      rw [Int.sub_self]
      rfl
    rw [if_neg hneg, if_neg hneg, hlen, hleft]
    rfl

end KernelGadgets.Hid
