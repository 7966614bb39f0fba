import KernelGadgets.Hid.Receive

/-!
# A message in several reports

`rcv_msg` on any device that hands over accepted reports one after the other. The struct on its
stack is filled anew by each report and keeps the rest of the one before.

`reassembles`: the payloads of a whole message are put behind each other, and a sequence that breaks
off (`Breaks`) leaves the payloads before the break.
-/

namespace KernelGadgets.Hid

open Block

variable {σ : Type}

/-- The report is marked as the last one of its message. -/
def IsLast (values : List ℤ) : Prop := UInt8.ofInt (values.getD 0 0) = singleMsg

/-- The next report is not read, or not accepted: an `ioctl` fails, or the values have a length byte
in range and are not a valid message. `s'` is the device after that. -/
inductive Breaks (D : Hiddev σ) (s : σ) : σ → Prop where
  | report : (D.getReport s).1 < 0 → Breaks D s (D.getReport s).2
  | usages {q : ℤ} {values : List ℤ} {s' : σ} : 0 ≤ (D.getReport s).1 →
      D.getUsages (D.getReport s).2 msgMaxLen = ((q, values), s') → q < 0 → Breaks D s s'
  | check {values : List ℤ} {s' : σ} : Delivers D s values s' → 0 ≤ values.getD 2 0 →
      values.getD 2 0 ≤ 28 → ¬ Valid (valueBytes values msgMaxLen) → Breaks D s s'

/-- What the receiver makes of a sequence of reports. -/
structure Reassembles (D : Hiddev σ) (s : σ) (inMsg buf : Block) : Prop where
  /-- A whole message: its payloads, and nothing else, are put into the buffer. -/
  whole : ∀ init last s', (∀ values ∈ init, Accepted values ∧ Continues values) →
    Accepted last → IsLast last → Delivery D s (init ++ [last]) s' →
    (joined (init ++ [last])).length ≤ buf.length → ∀ fuel,
      rcvMsg D (init.length + (fuel + 1)) s inMsg buf buf.length =
        .ok ((((joined (init ++ [last])).length : ℤ),
          joined (init ++ [last]) ++ buf.drop (joined (init ++ [last])).length), s')
  /-- A sequence that breaks off: the call fails behind the payloads before the break. -/
  broken : ∀ init t s', (∀ values ∈ init, Accepted values ∧ Continues values) →
    Delivery D s init t → Breaks D t s' → (joined init).length ≤ buf.length → ∀ fuel,
      rcvMsg D (init.length + (fuel + 1)) s inMsg buf buf.length =
        .ok ((-1, joined init ++ buf.drop (joined init).length), s')

/-! ## The loop -/

theorem IsLast.not_continues {values : List ℤ} (h : IsLast values) : ¬ Continues values := by
  unfold IsLast at h
  rw [Continues, h]
  decide

section Loop

variable {D : Hiddev σ} {s s' : σ} {inMsg : Block} (hin : inMsg.length = msgMaxLen)
include hin

/-- `msg_in` refuses a report that breaks the sequence. -/
theorem msgIn_breaks (hb : Breaks D s s') :
    ∃ res inMsg', res < 0 ∧ msgIn D s inMsg = .ok ((res, inMsg'), s') := by
  cases hb with
  | report hr =>
    refine ⟨(D.getReport s).1, inMsg, hr, ?_⟩
    rw [msgIn]
    simp only [if_pos hr]
  | usages hr hu hq =>
    refine ⟨_, inMsg, hq, ?_⟩
    rw [msgIn]
    simp only [if_neg (Int.not_lt.mpr hr), hu, if_pos hq]
  | check hd h0 h28 hv =>
    have hmsg := msgIn_eq hd hin h0 h28
    rw [if_neg hv] at hmsg
    exact ⟨-1, _, by omega, hmsg⟩

/-- The call fails on such a report, and leaves the buffer as it is. -/
theorem rcvLoop_breaks (hb : Breaks D s s') (count fuel : ℕ) (buf : Block) (n : ℤ) :
    rcvLoop D count (fuel + 1) s inMsg buf n = .ok ((-1, buf), s') := by
  obtain ⟨res, inMsg', hres, hmsg⟩ := msgIn_breaks hin hb
  rw [rcvLoop, hmsg]
  simp only [Outcome.ok_bind, if_pos hres]
  rfl

end Loop

theorem splice_zero (buf : Block) (src : List UInt8) :
    splice buf 0 src = src ++ buf.drop src.length := by
  rw [splice, List.take_zero, List.nil_append, Nat.zero_add]

section Call

variable {D : Hiddev σ} {s s' : σ} {inMsg buf : Block} (hin : inMsg.length = msgMaxLen)
  (hbuf : buf.length ≤ intMax) {init : List (List ℤ)}
  (hinit : ∀ values ∈ init, Accepted values ∧ Continues values)
include hin hbuf hinit

theorem rcvMsg_whole {last : List ℤ} (hacc : Accepted last) (hend : ¬Continues last)
    (hD : Delivery D s (init ++ [last]) s')
    (hfit : (joined (init ++ [last])).length ≤ buf.length) (fuel : ℕ) :
    rcvMsg D (init.length + (fuel + 1)) s inMsg buf buf.length =
      .ok ((((joined (init ++ [last])).length : ℤ),
        joined (init ++ [last]) ++ buf.drop (joined (init ++ [last])).length), s') := by
  obtain ⟨t, hDinit, u, hDlast, rfl⟩ := delivery_append.mp hD
  rw [joined_concat, List.length_append, length_payload] at hfit ⊢
  obtain ⟨inMsg', hin', hrun⟩ := rcvLoop_run hin hinit hDinit
    (show 0 + (joined init).length ≤ buf.length by omega) hbuf buf.length
  have hspliced : (splice buf 0 (joined init)).length = buf.length := length_splice (by omega)
  have happ := splice_append (b := buf) (d := 0) (t := joined init) (by omega) (payload last)
  have hrun := hrun (fuel + 1)
  rw [Nat.zero_add] at hrun happ
  rw [rcvMsg, show (0 : ℤ) = ((0 : ℕ) : ℤ) from rfl, hrun,
    rcvLoop_copies hDlast hin' hacc _ _ (by rw [hspliced]; omega) (by omega),
    if_neg hend, happ, splice_zero, List.length_append, length_payload]

theorem rcvMsg_broken {t : σ} (hD : Delivery D s init t) (hb : Breaks D t s')
    (hfit : (joined init).length ≤ buf.length) (fuel : ℕ) :
    rcvMsg D (init.length + (fuel + 1)) s inMsg buf buf.length =
      .ok ((-1, joined init ++ buf.drop (joined init).length), s') := by
  obtain ⟨inMsg', hin', hrun⟩ := rcvLoop_run hin hinit hD
    (show 0 + (joined init).length ≤ buf.length by omega) hbuf buf.length
  rw [rcvMsg, show (0 : ℤ) = ((0 : ℕ) : ℤ) from rfl, hrun (fuel + 1),
    rcvLoop_breaks hin' hb, splice_zero]

end Call

/-- **Reassembly is exact.** For every device, a message in any number of reports is put together
from their payloads; these reports and no others are read, and the rest of the buffer is kept. If an
`ioctl` fails or a report is not valid, the call fails behind the payloads before it. -/
theorem reassembles (D : Hiddev σ) (s : σ) {inMsg buf : Block} (hin : inMsg.length = msgMaxLen)
    (hbuf : buf.length ≤ intMax) : Reassembles D s inMsg buf where
  whole _ _ _ hinit hacc hend hD hfit fuel :=
    rcvMsg_whole hin hbuf hinit hacc hend.not_continues hD hfit fuel
  broken _ _ _ hinit hD hb hfit fuel := rcvMsg_broken hin hbuf hinit hD hb hfit fuel

/-- The two frames of the sample stream. -/
theorem reassembles_sample : rcvMsg (stream sampleStream) 2 ⟨0, []⟩ (List.replicate 32 0xAA)
    (List.replicate 12 0) 12 = .ok ((10, [1, 2, 3, 4, 5, 1, 2, 3, 4, 5, 0, 0]),
      ⟨2, (sampleFrame singleMsg (.inl rfl)).values⟩) := by
  have hfirst := stream_delivers (f := sampleStream) (k := 0)
    (r := sampleFrame multiMsg (.inr rfl)) rfl []
  have hsecond := stream_delivers (f := sampleStream) (k := 1)
    (r := sampleFrame singleMsg (.inl rfl)) rfl (sampleFrame multiMsg (.inr rfl)).values
  have hinit : ∀ values ∈ [(sampleFrame multiMsg (.inr rfl)).values],
      Accepted values ∧ Continues values := by
    intro values hvalues
    rw [List.mem_singleton.mp hvalues]
    exact ⟨(sampleFrame multiMsg (.inr rfl)).accepted, by decide⟩
  have hlast : IsLast (sampleFrame singleMsg (.inl rfl)).values := by
    unfold IsLast
    decide
  have hin : (List.replicate 32 0xAA : Block).length = msgMaxLen := rfl
  have hbuf : (List.replicate 12 0 : Block).length ≤ intMax := by decide
  exact (reassembles (stream sampleStream) ⟨0, []⟩ hin hbuf).whole _ _ _ hinit
    (sampleFrame singleMsg (.inl rfl)).accepted hlast ⟨_, hfirst, _, hsecond, rfl⟩
    (by decide +kernel) 0

end KernelGadgets.Hid
