import KernelGadgets.Hid.Answers

/-!
# What is printed on the way

The file is compiled with `DEBUG`: `msg_out` prints a message before it hands it over, and `msg_in`
a report once it has it. `printing D` is the device `D` beside the lines that are printed. On it
`msg_out` and `msg_in` are the functions with their lines, `msgOutDebug` and `msgInDebug`
(`prints`), and so are the functions that call them.
-/

namespace KernelGadgets.Hid

open Block

variable {σ κ : Type}

/-! ## The code -/

/-- What is printed, by `msg_out`, by `msg_in` and by `main`. -/
inductive Line where
  | msgOut (values : List ℤ)
  | msgIn (values : List ℤ)
  | cantFindDevice
  | sendDataError
  | debug (bytes : List UInt8)
  deriving DecidableEq

def print (line : Line) (s : σ × List Line) : σ × List Line := (s.1, s.2 ++ [line])

/-- The loop that prints the first `n` values. -/
def shown (values : List ℤ) (n : ℕ) : List ℤ := (List.range n).map fun i => values.getD i 0

/-- `msg_out` with `DEBUG`. -/
def msgOutDebug (D : Hiddev σ) (s : σ × List Line) (buf : Block) :
    Outcome (ℤ × σ × List Line) := do
  let len ← load buf 2
  let msgLen := len.toNat + 4
  let bytes ← read buf 0 msgLen
  let s := print (.msgOut (bytes.map fun b => (b.toNat : ℤ))) s
  let (res, t) := D.setUsages s.1 (bytes.map fun b => (b.toNat : ℤ))
  if res < 0 then return (res, (t, s.2)) else
  let (res, t) := D.setReport t
  if res < 0 then return (res, (t, s.2)) else return ((msgLen : ℤ), (t, s.2))

/-- `msg_in` with `DEBUG`. -/
def msgInDebug (D : Hiddev σ) (s : σ × List Line) (buf : Block) :
    Outcome ((ℤ × Block) × σ × List Line) :=
  let (res, t) := D.getReport s.1
  if res < 0 then .ok ((res, buf), (t, s.2)) else
  let ((res, values), t) := D.getUsages t msgMaxLen
  if res < 0 then .ok ((res, buf), (t, s.2)) else do
  let v ← readValue values 2
  let msgLen ← addInt v 4
  let buf ← msgInLoop values msgLen.toNat 0 buf
  let s := print (.msgIn (shown values msgLen.toNat)) (t, s.2)
  let bad ← checkMsg buf
  if bad ≠ 0 then return ((-1, buf), s) else return ((msgLen, buf), s)

/-- The device beside the lines. -/
def printing (D : Hiddev σ) : Hiddev (σ × List Line) where
  getReport s := ((D.getReport s.1).1, ((D.getReport s.1).2, s.2))
  getUsages s n :=
    let r := D.getUsages s.1 n
    (r.1, if r.1.1 < 0 then (r.2, s.2)
      else print (.msgIn (shown r.1.2 (r.1.2.getD 2 0 + 4).toNat)) (r.2, s.2))
  setUsages s values := ((D.setUsages s.1 values).1,
    print (.msgOut values) ((D.setUsages s.1 values).2, s.2))
  setReport s := ((D.setReport s.1).1, ((D.setReport s.1).2, s.2))

/-! ## The functions with their lines -/

/-- Beside the device `msg_out` is the function with its line. -/
theorem msgOut_printing (D : Hiddev σ) (s : σ × List Line) (buf : Block) :
    msgOut (printing D) s buf = msgOutDebug D s buf := by
  unfold msgOut msgOutDebug
  cases load buf 2 with
  | fault => rfl
  | diverge => rfl
  | ok len =>
    simp only [Outcome.ok_bind]
    cases read buf 0 (len.toNat + 4) with
    | fault => rfl
    | diverge => rfl
    | ok bytes => rfl

/-- Beside the device `msg_in` is the function with its line. -/
theorem msgIn_printing (D : Hiddev σ) (s : σ × List Line) (buf : Block) :
    msgIn (printing D) s buf = msgInDebug D s buf := by
  unfold msgIn msgInDebug
  simp only [printing]
  split
  · rfl
  by_cases hres : (D.getUsages (D.getReport s.1).2 msgMaxLen).1.1 < 0
  · rw [if_pos hres, if_pos hres, if_pos hres]
  rw [if_neg hres, if_neg hres, if_neg hres]
  have hread : ∀ values, readValue values 2 = .ok (values.getD 2 0) := fun _ => rfl
  rw [hread, Outcome.ok_bind, Outcome.ok_bind]
  by_cases hadd : -(intMax : ℤ) - 1 ≤
      (D.getUsages (D.getReport s.1).2 msgMaxLen).1.2.getD 2 0 + 4 ∧
      (D.getUsages (D.getReport s.1).2 msgMaxLen).1.2.getD 2 0 + 4 ≤ intMax
  · rw [addInt, if_pos hadd]
    rfl
  · rw [addInt, if_neg hadd]
    rfl

/-- On the device beside the lines `msg_out` and `msg_in` are the functions with `DEBUG`. -/
def Prints (D : Hiddev σ) : Prop := ∀ s buf,
  msgOut (printing D) s buf = msgOutDebug D s buf ∧ msgIn (printing D) s buf = msgInDebug D s buf

theorem prints (D : Hiddev σ) : Prints D := fun s buf =>
  ⟨msgOut_printing D s buf, msgIn_printing D s buf⟩

/-! ## Calls of any device -/

section

variable {D : Hiddev σ} {s s' : σ} {lines : List Line}

/-- A message is printed, whatever becomes of it. -/
theorem msgOut_prints {m : Block} {res : ℤ} (hfit : (byte m 2).toNat + 4 ≤ m.length)
    (h : msgOut D s m = .ok (res, s')) : msgOut (printing D) (s, lines) m =
      .ok (res, (s', lines ++ [.msgOut (sentValues m)])) := by
  let printed (r : ℤ × σ) : Outcome (ℤ × σ × List Line) :=
    .ok (r.1, (r.2, lines ++ [.msgOut (sentValues m)]))
  rw [msgOut_eq hfit] at h ⊢
  by_cases hset : (D.setUsages s (sentValues m)).1 < 0
  · rw [if_pos hset] at h
    exact (if_pos hset).trans (congrArg printed (Outcome.ok.inj h))
  · rw [if_neg hset] at h
    refine (if_neg hset).trans ?_
    by_cases hreport : (D.setReport (D.setUsages s (sentValues m)).2).1 < 0
    · rw [if_pos hreport] at h
      exact (if_pos hreport).trans (congrArg printed (Outcome.ok.inj h))
    · rw [if_neg hreport] at h
      exact (if_neg hreport).trans (congrArg printed (Outcome.ok.inj h))

/-- The line of a report. -/
def Frame.line (f : Frame) : Line := .msgIn (shown f.values (payloadLen f.values + 4))

theorem Delivers.prints {f : Frame} (h : Delivers D s f.values s') :
    Delivers (printing D) (s, lines) f.values (s', lines ++ [f.line]) := by
  obtain ⟨hreport, q, hq, husages⟩ := h
  have hlen : (f.values.getD 2 0 + 4).toNat = payloadLen f.values + 4 := by
    have hnonneg := f.accepted.nonneg
    unfold payloadLen
    omega
  refine ⟨hreport, q, hq, ?_⟩
  simp only [printing, husages, if_neg (Int.not_lt.mpr hq), hlen]
  rfl

end

/-! ## The device in front of a card -/

theorem length_bytesOf_take (fs : List Frame) (n : ℕ) :
    (bytesOf (fs.take n)).length ≤ (bytesOf fs).length := by
  have h := congrArg bytesOf (List.take_append_drop n fs)
  rw [bytesOf, List.map_append, joined, List.flatMap_append] at h
  rw [← h, List.length_append]
  exact Nat.le_add_right ..

section

variable {C : Card κ} {s : Link κ} {lines : List Line}

/-- A request is printed and sent. -/
theorem sendMsg_prints {buf : Block} {n : ℕ} (h1 : 1 ≤ n) (hn : n ≤ buf.length) (h28 : n ≤ 28)
    (fuel : ℕ) : ∃ s', sendMsg (printing C.link) (fuel + 2) (s, lines) buf n =
        .ok ((C.take s.toRemote (buf.take n)).1,
          (s', lines ++ [.msgOut (frameOf (buf.take n))])) ∧
      s'.toRemote = (C.take s.toRemote (buf.take n)).2 := by
  have hlen : (buf.take n).length = n := by
    rw [List.length_take]
    omega
  have hsmall : (buf.take n).length ≤ 28 := by omega
  have hfit : (byte (build outMsgInit singleMsg (buf.take n)) 2).toNat + 4 ≤
      (build outMsgInit singleMsg (buf.take n)).length := by
    rw [len_build rfl hsmall, length_build rfl hsmall, msgMaxLen]
    omega
  obtain ⟨s', hout, hremote⟩ := msgOut_link C (s := s) hsmall
  have hprints : msgOut (printing C.link) (s, lines) _ = _ := msgOut_prints hfit hout
  rw [hlen] at hprints
  refine ⟨s', ?_, hremote⟩
  rw [sendMsg_take h1 hn h28 hprints (by split <;> omega)]
  obtain hres | hres := take_res C s.toRemote (buf.take n)
  · rw [hres]
    rfl
  · rw [hres, hlen, if_neg (show ¬(n : ℤ) < 0 by omega), if_neg (by omega)]
    rfl

/-- Reports are printed and delivered as long as the calls for them succeed. -/
theorem link_delivery {fs : List Frame} : ∀ {s : Link κ} {lines : List Line} {rest : List Frame},
    s.pending = fs ++ rest → Enough (2 * fs.length) s.countdown →
    ∃ s', Delivery (printing C.link) (s, lines) (fs.map Frame.values)
        (s', lines ++ fs.map Frame.line) ∧
      s'.toRemote = ⟨s.card, rest, after (2 * fs.length) s.countdown⟩ := by
  induction fs with
  | nil =>
    intro s lines rest hs _
    refine ⟨s, ?_, ?_⟩
    · simp only [List.map_nil, List.append_nil]
      rfl
    obtain ⟨⟨card, pending, countdown⟩, values, current⟩ := s
    obtain rfl : pending = rest := hs
    cases countdown <;> rfl
  | cons f fs ih =>
    intro s lines rest hs ht
    rw [List.length_cons, Nat.mul_succ, Nat.add_comm] at ht
    obtain ⟨t, hD, ht'⟩ := link_delivers C hs (ht.ne (by omega)) (ht.ne (by omega))
    have hpending : t.pending = fs ++ rest := congrArg Remote.pending ht'
    have hcard : t.card = s.card := (congrArg Remote.card ht').trans rfl
    have hcountdown : t.countdown = after 2 s.countdown := congrArg Remote.countdown ht'
    have happ : lines ++ (f :: fs).map Frame.line = lines ++ [f.line] ++ fs.map Frame.line := by
      rw [List.map_cons, List.append_cons]
    have hmore : ∃ s', Delivery (printing C.link) (t, lines ++ [f.line]) (fs.map Frame.values)
        (s', lines ++ [f.line] ++ fs.map Frame.line) ∧ _ :=
      ih hpending (by rw [hcountdown]; exact ht.after)
    obtain ⟨s', hmore, hs'⟩ := hmore
    refine ⟨s', ⟨(t, lines ++ [f.line]), hD.prints, ?_⟩, ?_⟩
    · rw [happ]
      exact hmore
    · rw [hs', hcard, hcountdown, after_after, List.length_cons, Nat.mul_succ,
        Nat.add_comm (2 * fs.length)]

/-- Nothing is printed of a report that is not delivered. -/
theorem link_breaks {f : Frame} {fs : List Frame} (hs : s.pending = f :: fs) {k : ℕ}
    (hk : s.countdown = some k) (hlt : k < 2) :
    ∃ s', Breaks (printing C.link) (s, lines) (s', lines) := by
  obtain ⟨⟨card, pending, countdown⟩, values, current⟩ := s
  obtain rfl : pending = f :: fs := hs
  obtain rfl : countdown = some k := hk
  obtain _ | _ | k := k
  · exact ⟨_, Breaks.report (show (-1 : ℤ) < 0 by decide)⟩
  · exact ⟨_, Breaks.usages (Int.le_refl 0) rfl (show (-1 : ℤ) < 0 by decide)⟩
  · omega

variable {answer rest : List Frame} (hw : Whole answer) (hpending : s.pending = answer ++ rest)
variable {inMsg buf : Block} (hin : inMsg.length = msgMaxLen) (hbuf : buf.length ≤ intMax)
variable (hroom : (bytesOf answer).length ≤ buf.length) {fuel : ℕ} (hfuel : answer.length ≤ fuel)

include hw hpending hin hbuf hroom hfuel

/-- An answer is printed and put into the buffer. -/
theorem rcvMsg_prints (h : Enough (2 * answer.length) s.countdown) :
    ∃ s', rcvMsg (printing C.link) fuel (s, lines) inMsg buf buf.length =
        .ok ((((bytesOf answer).length : ℤ), bytesOf answer ++ buf.drop (bytesOf answer).length),
          (s', lines ++ answer.map Frame.line)) ∧
      s'.toRemote = ⟨s.card, rest, after (2 * answer.length) s.countdown⟩ := by
  have hdelivery : ∃ s', Delivery (printing C.link) (s, lines) _ _ ∧ _ := link_delivery hpending h
  obtain ⟨s', hD, hs'⟩ := hdelivery
  refine ⟨s', ?_, hs'⟩
  obtain ⟨init, last, rfl, hinit, hlast⟩ := hw
  rw [List.length_append, List.length_singleton] at hfuel
  obtain ⟨fuel, rfl⟩ := Nat.exists_eq_add_of_le hfuel
  have hall : ∀ values ∈ init.map Frame.values, Accepted values ∧ Continues values := by
    intro values hvalues
    obtain ⟨f, hf, rfl⟩ := List.mem_map.mp hvalues
    exact ⟨f.accepted, hinit f hf⟩
  rw [bytesOf, List.map_append, List.map_singleton] at hroom ⊢
  rw [List.map_append, List.map_singleton] at hD
  have hrun := rcvMsg_whole hin hbuf hall last.accepted hlast hD hroom fuel
  have hsum : init.length + (fuel + 1) = init.length + 1 + fuel := by omega
  rw [List.length_map, hsum] at hrun
  exact hrun

/-- Only the reports that were read are printed of an answer that a call fails for. -/
theorem rcvMsg_prints_part {k : ℕ} (hk : s.countdown = some k) (hlt : k < 2 * answer.length) :
    ∃ out s', rcvMsg (printing C.link) fuel (s, lines) inMsg buf buf.length =
      .ok ((-1, out), (s', lines ++ (answer.take (k / 2)).map Frame.line)) := by
  have hj : k / 2 < answer.length := by omega
  have hlen : (answer.take (k / 2)).length = k / 2 := List.length_take_of_le (Nat.le_of_lt hj)
  obtain ⟨f, fs, hdrop⟩ := List.exists_cons_of_length_pos
    (show 0 < (answer.drop (k / 2)).length by rw [List.length_drop]; omega)
  have hsplit : s.pending = answer.take (k / 2) ++ (f :: (fs ++ rest)) := by
    rw [hpending, ← List.cons_append, ← hdrop, ← List.append_assoc, List.take_append_drop]
  have hdone : Enough (2 * (answer.take (k / 2)).length) s.countdown := by
    intro n hn
    obtain rfl : k = n := Option.some.inj (hk.symm.trans hn)
    omega
  have hdelivery : ∃ t, Delivery (printing C.link) (s, lines) _ _ ∧ _ :=
    link_delivery hsplit hdone
  obtain ⟨t, hD, ht⟩ := hdelivery
  have hleft : t.countdown = some (k - 2 * (answer.take (k / 2)).length) := by
    rw [ht, hk]
    rfl
  have hbreaks : ∃ s', Breaks (printing C.link)
      (t, lines ++ (answer.take (k / 2)).map Frame.line) (s', _) :=
    link_breaks (congrArg Remote.pending ht) hleft (by omega)
  obtain ⟨s', hb⟩ := hbreaks
  have hall : ∀ values ∈ (answer.take (k / 2)).map Frame.values,
      Accepted values ∧ Continues values := by
    intro values hvalues
    obtain ⟨g, hg, rfl⟩ := List.mem_map.mp hvalues
    obtain ⟨init, last, rfl, hinit, -⟩ := hw
    rw [List.length_append, List.length_singleton] at hj
    rw [List.take_append_of_le_length (by omega)] at hg
    exact ⟨g.accepted, hinit g (List.mem_of_mem_take hg)⟩
  have hfit : (joined ((answer.take (k / 2)).map Frame.values)).length ≤ buf.length :=
    Nat.le_trans (length_bytesOf_take answer _) hroom
  obtain ⟨fuel, rfl⟩ := Nat.exists_eq_add_of_le (show k / 2 + 1 ≤ fuel by omega)
  have hrun := rcvMsg_broken hin hbuf hall hD hb hfit fuel
  have hsum : k / 2 + (fuel + 1) = k / 2 + 1 + fuel := by omega
  rw [List.length_map, hlen, hsum] at hrun
  exact ⟨_, s', hrun⟩

end

end KernelGadgets.Hid
