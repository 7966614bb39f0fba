import KernelGadgets.Lib.Block

/-!
# Messages of the RF card

`struct msg` of `hidcom.c` and its check byte. The struct is a block of 32 bytes: `data_status` is
byte 0, `start_flag` byte 1, and the union of `len` and `value` begins at byte 2, so `value[i]` is
byte `2 + i` and `value[0]` is `len`. An index of `value` from 30 on is outside the struct.

* `checkMsg` and `getCheckByte` are the functions of the source, with the one loop they share.
* `Valid` says what `checkMsg` accepts; it only looks at the first `len + 4` bytes.
* `build` is a struct filled in place with a status, a payload and its check byte.
-/

namespace KernelGadgets.Hid

open Block

/-- `MSG_MAX_LEN`: the size of the struct and of a report. -/
def msgMaxLen : ℕ := 32

/-- `MAX_DATASIZE`: the size of the array `value`. -/
def maxDatasize : ℕ := 30

/-- `SINGLE_MSG`: the message ends with this struct. -/
def singleMsg : UInt8 := 0x02

/-- `MULTI_MSG`: more structs follow. -/
def multiMsg : UInt8 := 0x82

/-- `START_FLAG` -/
def startFlag : UInt8 := 0x55

/-! ## The functions -/

/-- `check ^= value[i]` for `k` bytes of `value` from index `i` on. The source counts in an
`unsigned char`, which does not wrap: index 30 is outside the struct. -/
def xorLoop (msg : Block) : ℕ → ℕ → UInt8 → Outcome UInt8
  | 0, _, check => .ok check
  | k + 1, i, check => do
    let v ← load msg (2 + i)
    xorLoop msg k (i + 1) (check ^^^ v)

/-- `check_msg`: 0 when the format and the check byte are right, 1 when not. -/
def checkMsg (msg : Block) : Outcome ℕ := do
  let status ← load msg 0
  let start ← load msg 1
  let len ← load msg 2
  if (status = singleMsg ∨ status = multiMsg) ∧ start = startFlag ∧
      len.toNat ≤ msgMaxLen - 4 then
    let check ← xorLoop msg (len.toNat + 1) 0 0
    let last ← load msg (2 + (len.toNat + 1))
    if check = last then return 0 else return 1
  else return 1

/-- `get_check_byte`: the XOR of the length byte and the payload. -/
def getCheckByte (msg : Block) : Outcome UInt8 := do
  let len ← load msg 2
  xorLoop msg (len.toNat + 1) 0 0

/-! ## The check byte -/

/-- The XOR of the first `k` bytes of `value`. -/
def parity (msg : Block) : ℕ → UInt8
  | 0 => 0
  | k + 1 => parity msg k ^^^ byte msg (2 + k)

theorem parity_congr {m m' : Block} {k : ℕ} (h : ∀ i < k, byte m' (2 + i) = byte m (2 + i)) :
    parity m' k = parity m k := by
  induction k with
  | zero => rfl
  | succ k ih =>
    rw [parity, parity, ih fun i hi => h i (by omega), h k (by omega)]

theorem xorLoop_eq {m : Block} (k i : ℕ) (h : 2 + i + k ≤ m.length) :
    xorLoop m k i (parity m i) = .ok (parity m (i + k)) := by
  induction k generalizing i with
  | zero => rfl
  | succ k ih =>
    rw [xorLoop, load_ok (by omega), Outcome.ok_bind]
    have hrest := ih (i + 1) (by omega)
    rw [parity] at hrest
    rw [hrest, show i + (k + 1) = i + 1 + k by omega]

theorem getCheckByte_eq {m : Block} (h : (byte m 2).toNat + 3 ≤ m.length) :
    getCheckByte m = .ok (parity m ((byte m 2).toNat + 1)) := by
  rw [getCheckByte, load_ok (by omega), Outcome.ok_bind]
  have hloop : xorLoop m ((byte m 2).toNat + 1) 0 (parity m 0) = _ :=
    xorLoop_eq _ _ (by omega)
  rwa [Nat.zero_add] at hloop

/-! ## Valid messages -/

/-- The status, the start flag, the length and the check byte are right. -/
def Valid (m : Block) : Prop :=
  (byte m 0 = singleMsg ∨ byte m 0 = multiMsg) ∧ byte m 1 = startFlag ∧
    (byte m 2).toNat ≤ msgMaxLen - 4 ∧
    parity m ((byte m 2).toNat + 1) = byte m (2 + ((byte m 2).toNat + 1))

instance : DecidablePred Valid := fun _ => inferInstanceAs (Decidable (_ ∧ _))

/-- A message is its first `len + 4` bytes. -/
theorem valid_congr {m m' : Block} (h : ∀ i < (byte m 2).toNat + 4, byte m' i = byte m i) :
    Valid m' ↔ Valid m := by
  have hpar : parity m' ((byte m 2).toNat + 1) = parity m ((byte m 2).toNat + 1) :=
    parity_congr fun i hi => h (2 + i) (by omega)
  unfold Valid
  rw [h 0 (by omega), h 1 (by omega), h 2 (by omega), hpar, h _ (by omega)]

/-- `check_msg` accepts the valid messages and stays inside the struct. -/
theorem checkMsg_eq {m : Block} (h : m.length = msgMaxLen) :
    checkMsg m = .ok (if Valid m then 0 else 1) := by
  rw [msgMaxLen] at h
  rw [checkMsg, load_ok (by omega), load_ok (by omega), load_ok (by omega)]
  simp only [Outcome.ok_bind]
  by_cases hhead : (byte m 0 = singleMsg ∨ byte m 0 = multiMsg) ∧ byte m 1 = startFlag ∧
      (byte m 2).toNat ≤ msgMaxLen - 4
  · have hlen : (byte m 2).toNat ≤ 28 := hhead.2.2
    have hloop : xorLoop m ((byte m 2).toNat + 1) 0 (parity m 0) = _ :=
    xorLoop_eq _ _ (by omega)
    rw [Nat.zero_add] at hloop
    rw [if_pos hhead, show (0 : UInt8) = parity m 0 from rfl, hloop, Outcome.ok_bind,
      load_ok (by omega), Outcome.ok_bind]
    by_cases hcheck : parity m ((byte m 2).toNat + 1) = byte m (2 + ((byte m 2).toNat + 1))
    · rw [if_pos hcheck, if_pos ⟨hhead.1, hhead.2.1, hhead.2.2, hcheck⟩]
      rfl
    · rw [if_neg hcheck, if_neg fun hv => hcheck hv.2.2.2]
      rfl
  · rw [if_neg hhead, if_neg fun hv => hhead ⟨hv.1, hv.2.1, hv.2.2.1⟩]
    rfl

/-! ## Building a message in place -/

/-- The struct after its status, length byte and payload are written. -/
def fill (m : Block) (status : UInt8) (payload : List UInt8) : Block :=
  splice ((m.set 0 status).set 2 (UInt8.ofNat payload.length)) 3 payload

/-- The struct after the check byte is written behind the payload. -/
def build (m : Block) (status : UInt8) (payload : List UInt8) : Block :=
  (fill m status payload).set (2 + (payload.length + 1))
    (parity (fill m status payload) (payload.length + 1))

section Fill

variable {m : Block} {status : UInt8} {payload : List UInt8}
variable (hm : m.length = msgMaxLen) (hp : payload.length + 3 ≤ msgMaxLen)
include hm hp

theorem length_fill : (fill m status payload).length = msgMaxLen := by
  rw [msgMaxLen] at *
  rw [fill, length_splice (by simp; omega)]
  simpa using hm

theorem byte_fill {i : ℕ} (hi : i < payload.length + 3) :
    byte (fill m status payload) i =
      if i = 0 then status else if i = 1 then byte m 1 else
      if i = 2 then UInt8.ofNat payload.length else payload.getD (i - 3) 0 := by
  rw [msgMaxLen] at *
  rw [fill, byte_splice (by simp; omega)]
  by_cases h3 : 3 ≤ i
  · rw [if_pos ⟨h3, by omega⟩, if_neg (by omega), if_neg (by omega), if_neg (by omega)]
  · rw [if_neg (by omega)]
    obtain rfl | rfl | rfl : i = 0 ∨ i = 1 ∨ i = 2 := by omega
    · rw [byte_set_of_ne _ (by omega), byte_set_self (by omega), if_pos rfl]
    · rw [byte_set_of_ne _ (by omega), byte_set_of_ne _ (by omega), if_neg (by omega), if_pos rfl]
    · rw [byte_set_self (by simp; omega), if_neg (by omega), if_neg (by omega), if_pos rfl]

theorem len_fill : (byte (fill m status payload) 2).toNat = payload.length := by
  rw [byte_fill hm hp (by omega), if_neg (by omega), if_neg (by omega), if_pos rfl,
    UInt8.toNat_ofNat']
  rw [msgMaxLen] at hp
  omega

theorem getCheckByte_fill : getCheckByte (fill m status payload) =
    .ok (parity (fill m status payload) (payload.length + 1)) := by
  have hlen : (byte (fill m status payload) 2).toNat = payload.length := len_fill hm hp
  rw [getCheckByte_eq (by rw [hlen, length_fill hm hp]; exact hp), hlen]

end Fill

section Build

variable {m : Block} {status : UInt8} {payload : List UInt8}

/-- Before the check byte, filling and building are the same. -/
theorem byte_build {i : ℕ} (hi : i < payload.length + 3) :
    byte (build m status payload) i = byte (fill m status payload) i :=
  byte_set_of_ne _ (by omega) _

variable (hm : m.length = msgMaxLen) (hp : payload.length ≤ msgMaxLen - 4)
include hm hp

theorem length_build : (build m status payload).length = msgMaxLen := by
  rw [build, List.length_set, length_fill hm (by rw [msgMaxLen] at *; omega)]

theorem len_build : (byte (build m status payload) 2).toNat = payload.length := by
  rw [byte_build (by omega), len_fill hm (by rw [msgMaxLen] at *; omega)]

/-- A struct that is built is valid. -/
theorem valid_build (hs : status = singleMsg ∨ status = multiMsg) (hstart : byte m 1 = startFlag) :
    Valid (build m status payload) := by
  have hp3 : payload.length + 3 ≤ msgMaxLen := by rw [msgMaxLen] at *; omega
  have hlen : (byte (build m status payload) 2).toNat = payload.length := len_build hm hp
  refine ⟨?_, ?_, by rw [hlen]; exact hp, ?_⟩
  · rwa [byte_build (by omega), byte_fill hm hp3 (by omega), if_pos rfl]
  · rwa [byte_build (by omega), byte_fill hm hp3 (by omega), if_neg (by omega), if_pos rfl]
  · have hpar : parity (build m status payload) (payload.length + 1) =
        parity (fill m status payload) (payload.length + 1) :=
      parity_congr fun i hi => byte_build (by omega)
    have hin : 2 + (payload.length + 1) < (fill m status payload).length := by
      rw [length_fill hm hp3]
      rw [msgMaxLen] at *
      omega
    rw [hlen, hpar, build, byte_set_self hin]

end Build

end KernelGadgets.Hid
