import KernelGadgets.Hid.Driver

/-!
# Receiving from any device

`msg_in` takes the length of a message from the third value of the reply before it checks anything.
It does what it should for every previous content of the struct if a call fails, if the length is
from 0 to 28, if it is -1 (the length byte is 255 then), and if it is -5 or less (the result is
negative then). From 29 on it writes past the end of the struct, and with a length from -4 to -2 it
checks what an earlier message has left in the struct. `msgIn_robust_iff` has the exact condition.
-/

namespace KernelGadgets.Hid

open Block

variable {σ : Type}

/-- A usage value of type `__s32`. -/
def IsS32 (v : ℤ) : Prop := -(intMax : ℤ) - 1 ≤ v ∧ v ≤ intMax

instance : DecidablePred IsS32 := fun _ => inferInstanceAs (Decidable (_ ∧ _))

theorem isS32_getD {values : List ℤ} (h : ∀ v ∈ values, IsS32 v) (i : ℕ) :
    IsS32 (values.getD i 0) := by
  by_cases hi : i < values.length
  · rw [List.getD_eq_getElem _ _ hi]
    exact h _ (List.getElem_mem hi)
  · rw [List.getD_eq_default _ _ (Nat.not_lt.mp hi)]
    decide

/-- The values of the reply. -/
def replyValues (D : Hiddev σ) (s : σ) : List ℤ :=
  (D.getUsages (D.getReport s).2 msgMaxLen).1.2

/-- One of the two calls fails. -/
def CallFails (D : Hiddev σ) (s : σ) : Prop :=
  (D.getReport s).1 < 0 ∨ (D.getUsages (D.getReport s).2 msgMaxLen).1.1 < 0

/-- `msg_in` stays in the struct and in the values. A result that is not negative is the length of a
message in the struct that `check_msg` accepts, with bytes that are all from the reply. -/
def Robust (D : Hiddev σ) (s : σ) (buf : Block) : Prop :=
  (msgIn D s buf).Ends fun r => 0 ≤ r.1.1 →
    ¬CallFails D s ∧ checkMsg r.1.2 = .ok 0 ∧
      (∀ i < (byte r.1.2 2).toNat + 4, byte r.1.2 i = UInt8.ofInt ((replyValues D s).getD i 0)) ∧
      r.1.1 = (byte r.1.2 2).toNat + 4 ∧ 4 ≤ r.1.1 ∧ r.1.1 ≤ 32

/-- The replies that `msg_in` handles: with a length from -4 to -2, the struct must not hold a valid
message after the first values are copied over it. -/
def Harmless (values : List ℤ) (buf : Block) : Prop :=
  values.getD 2 0 ≤ 28 ∧ (-4 ≤ values.getD 2 0 → values.getD 2 0 ≤ -2 →
    ¬Valid (overlay values (values.getD 2 0 + 4).toNat buf))

section

variable {D : Hiddev σ} {s : σ} {buf : Block}

theorem msgIn_callFails (h : CallFails D s) (buf : Block) :
    (msgIn D s buf).Ends fun r => r.1.1 < 0 := by
  unfold msgIn
  by_cases hr : (D.getReport s).1 < 0
  · simp only [if_pos hr]
    exact .of_eq rfl hr
  · have hu := h.resolve_left hr
    simp only [if_neg hr, if_pos hu]
    exact .of_eq rfl hu

theorem delivers_reply (h : ¬CallFails D s) :
    Delivers D s (replyValues D s) (D.getUsages (D.getReport s).2 msgMaxLen).2 := by
  obtain ⟨hr, hu⟩ := not_or.mp h
  exact ⟨Int.not_lt.mp hr, _, Int.not_lt.mp hu, rfl⟩

variable {values : List ℤ} (hbuf : buf.length = msgMaxLen)

/-- With the length -1 the length byte is 255. -/
theorem not_valid_overlay (h : values.getD 2 0 = -1) :
    ¬Valid (overlay values (values.getD 2 0 + 4).toNat buf) := by
  rintro ⟨-, -, hlen, -⟩
  rw [byte_overlay values (by omega), h] at hlen
  revert hlen
  decide

theorem len_overlay (h0 : 0 ≤ values.getD 2 0) (h28 : values.getD 2 0 ≤ 28) (buf : Block) :
    (byte (overlay values (values.getD 2 0 + 4).toNat buf) 2).toNat + 4 =
      (values.getD 2 0 + 4).toNat := by
  rw [byte_overlay values (by omega), len_values h0 h28, payloadLen]
  omega

include hbuf

/-- `msg_in` on a reply with a length of at most 28. -/
theorem robust_iff_of_le (hfails : ¬CallFails D s)
    (hint : -(intMax : ℤ) - 1 ≤ (replyValues D s).getD 2 0)
    (h28 : (replyValues D s).getD 2 0 ≤ 28) :
    Robust D s buf ↔ Harmless (replyValues D s) buf := by
  have hrun := msgIn_overlay (delivers_reply hfails) hbuf hint h28
  rw [Robust, hrun, Outcome.ends_ok, Harmless]
  generalize hv : replyValues D s = values at *
  by_cases hvalid : Valid (overlay values (values.getD 2 0 + 4).toNat buf)
  · simp only [if_pos hvalid]
    have hm1 : values.getD 2 0 ≠ -1 := fun h => not_valid_overlay h hvalid
    by_cases h0 : 0 ≤ values.getD 2 0
    · have hlen := len_overlay h0 h28 buf
      have hover : (overlay values (values.getD 2 0 + 4).toNat buf).length = msgMaxLen :=
        (length_overlay values (by rw [hbuf, msgMaxLen]; omega)).trans hbuf
      refine ⟨fun _ => ⟨h28, fun _ h => by omega⟩, fun _ _ => ⟨hfails, ?_, ?_, ?_, ?_, ?_⟩⟩
      · rw [checkMsg_eq hover, if_pos hvalid]
      · intro i hi
        rw [hlen] at hi
        exact byte_overlay values hi buf
      · omega
      · omega
      · omega
    · constructor
      · intro h
        refine ⟨h28, fun h4 _ => ?_⟩
        obtain ⟨-, -, -, -, hle, -⟩ := h (by omega)
        omega
      · rintro ⟨-, h⟩ hres
        exact absurd hvalid (h (by omega) (by omega))
  · simp only [if_neg hvalid]
    exact ⟨fun _ => ⟨h28, fun _ _ => hvalid⟩, fun _ h => absurd h (by decide)⟩

/-- **Robustness.** On a reply of signed 32-bit values, `msg_in` does what it should exactly if a
call fails or the reply is harmless for the content of the struct. -/
theorem msgIn_robust_iff (h32 : ∀ v ∈ replyValues D s, IsS32 v) :
    Robust D s buf ↔ CallFails D s ∨ Harmless (replyValues D s) buf := by
  by_cases hfails : CallFails D s
  · refine ⟨fun _ => .inl hfails, fun _ => ?_⟩
    exact (msgIn_callFails hfails buf).mono fun r hneg h0 => absurd h0 (by omega)
  · have hD := delivers_reply hfails
    rw [or_iff_right hfails]
    obtain ⟨hmin, -⟩ := isS32_getD h32 2
    by_cases h28 : (replyValues D s).getD 2 0 ≤ 28
    · exact robust_iff_of_le hbuf hfails hmin h28
    · refine iff_of_false ?_ fun h => h28 h.1
      rw [Robust, msgIn_overruns hD hbuf (by omega)]
      exact Outcome.not_ends_fault

end

/-- A device that has this reply, and takes nothing. -/
def replying (values : List ℤ) : Hiddev Unit where
  getReport s := (0, s)
  getUsages s _ := ((0, values), s)
  setUsages s _ := (-1, s)
  setReport s := (-1, s)

/-- The struct after an empty message was received. -/
def emptyMessage : Block := singleMsg :: startFlag :: List.replicate 30 0

/-- A message with two bytes is received over what an empty one has left. -/
theorem msgIn_robust_iff_sample :
    Robust (replying [0x82, 0x55, 2, 7, 9, 12]) () emptyMessage :=
  (msgIn_robust_iff (D := replying [0x82, 0x55, 2, 7, 9, 12]) rfl (by decide)).mpr
    (.inr ⟨by decide, fun _ h => absurd h (by decide)⟩)

/-- With the length 29 a byte is written behind the struct; with the length -4 the message that the
struct still holds is accepted again, as one of 0 bytes. -/
theorem msgIn_not_robust :
    ¬Robust (replying [0x02, 0x55, 29]) () emptyMessage ∧
      ¬Robust (replying [0x02, 0x55, -4]) () emptyMessage := by
  constructor
  · have hD : Delivers (replying [0x02, 0x55, 29]) () [0x02, 0x55, 29] () :=
      ⟨Int.le_refl 0, 0, Int.le_refl 0, rfl⟩
    rw [Robust, msgIn_overruns hD rfl (by decide)]
    exact Outcome.not_ends_fault
  · have hrun : msgIn (replying [0x02, 0x55, -4]) () emptyMessage =
        .ok ((0, emptyMessage), ()) := by decide
    rw [Robust, hrun, Outcome.ends_ok]
    intro h
    obtain ⟨-, -, -, -, hle, -⟩ := h (Int.le_refl 0)
    exact absurd hle (by decide)

end KernelGadgets.Hid
