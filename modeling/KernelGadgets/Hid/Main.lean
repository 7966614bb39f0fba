import KernelGadgets.Hid.Open
import KernelGadgets.Hid.Printing

/-!
# The whole program

`main` of `hidcom.c` looks for the card, asks it two questions and prints the answers. What it
prints are the oldest two of the answers that the device holds, whatever they belong to, and how far
it comes depends on the number of device calls that succeed. `main_eq` gives all that is printed,
the lines of `msg_out` and `msg_in` included.
-/

namespace KernelGadgets.Hid

open Block

variable {σ κ : Type}

/-! ## The code -/

/-- `exit`: its code, all that was printed before, and the open descriptors. -/
structure Exit where
  code : ℕ
  output : List Line
  table : Search.Table

/-- A descriptor that is not open. -/
def closed : Hiddev σ where
  getReport s := (-1, s)
  getUsages s _ := ((-1, []), s)
  setUsages s _ := (-1, s)
  setReport s := (-1, s)

/-- The device behind a descriptor. -/
def deviceOf (D : List UInt8 → Hiddev σ) (t : Search.Table) (fd : ℕ) : Hiddev σ :=
  match t fd with
  | some path => D path
  | none => closed

/-- `rf_close` -/
def rfClose (t : Search.Table) (fd : ℕ) : Search.Table := Function.update t fd none

/-- `unsigned char buf[MSG_MAX_LEN] = { 0 };` -/
def zeroBuf : Block := List.replicate msgMaxLen 0

/-- `0x02 0x55 0x01 0x00 0x01` is the message for these bytes. -/
def firstBuf : Block := zeroBuf.set 0 0x00

/-- `02 55 05 81 00 10 00 00 94` is the message for these bytes. -/
def secondBuf : Block := ((((zeroBuf.set 0 0x81).set 1 0x00).set 2 0x10).set 3 0x00).set 4 0x00

/-- `send_data(fd, buf, n, buf, sizeof(buf))` -/
def ask (dev : Hiddev σ) (fuel : ℕ) (s : σ × List Line) (inMsg buf : Block) (n : ℕ) :
    Outcome ((ℤ × Option Block) × σ × List Line) :=
  sendData (printing dev) fuel s inMsg (some buf) n (some buf) msgMaxLen

/-- `debug(buf, res)` -/
def debug (buf : Option Block) (res : ℤ) (s : σ × List Line) : Outcome (σ × List Line) := do
  let bytes ← read (buf.getD []) 0 res.toNat
  return print (.debug bytes) s

/-- The two questions, and the code that `main` exits with. -/
def talk (dev : Hiddev σ) (fuel : ℕ) (s : σ × List Line) (in₁ in₂ : Block) :
    Outcome (ℕ × σ × List Line) := do
  let ((res, buf), s) ← ask dev fuel s in₁ firstBuf 1
  if res < 0 then return (1, print .sendDataError s)
  else
    let s ← debug buf res s
    let ((res, buf), s) ← ask dev fuel s in₂ secondBuf 5
    if res < 0 then return (1, print .sendDataError s)
    else
      let s ← debug buf res s
      return (0, s)

/-- `main` of `hidcom.c`. The structs on the stacks of the two calls are not initialised. -/
def hidcomMain (P : Search.Posix) (D : List UInt8 → Hiddev σ) (fuel : ℕ) (t : Search.Table) (s : σ)
    (in₁ in₂ : Block) : Outcome (Exit × σ) := do
  let (fd, t) ← Search.rfOpen P t
  if fd < 0 then return (⟨1, [.cantFindDevice], t⟩, s)
  else
    let (code, s) ← talk (deviceOf D t fd.toNat) fuel (s, []) in₁ in₂
    if code = 0 then return (⟨0, s.2, rfClose t fd.toNat⟩, s.1)
    else return (⟨code, s.2, t⟩, s.1)

/-! ## One question -/

/-- What `msg_out` and `msg_in` print of a message and the reports after it. -/
def asked (message : List ℤ) (reports : List Frame) : List Line :=
  .msgOut message :: reports.map Frame.line

/-- What is sent, and then what is received. -/
theorem ask_of_sent {D : Hiddev σ} {fuel n : ℕ} {s t : σ × List Line} {inMsg buf : Block} {res : ℤ}
    (h : sendMsg (printing D) fuel s buf (n + 1) = .ok (res, t)) :
    ask D fuel s inMsg buf (n + 1) =
      if res < 0 then .ok ((res, some buf), t)
      else rcvMsg (printing D) fuel t inMsg buf msgMaxLen >>= fun r =>
        .ok ((r.1.1, some r.1.2), r.2) := by
  unfold ask sendData
  show (sendMsg (printing D) fuel s buf (n + 1) >>= _) = _
  rw [h, Outcome.ok_bind]
  rfl

theorem take_reaches {C : Card κ} {a : Remote κ} {request : List UInt8} {fs : List Frame}
    (hpending : a.pending ++ (C.reply a.card request).1 = fs) (h : Enough 2 a.countdown) :
    C.take a request = ((request.length : ℤ),
      (⟨(C.reply a.card request).2, fs, after 2 a.countdown⟩ : Remote κ)) := by
  rw [← hpending]
  obtain ⟨card, pending, countdown⟩ := a
  obtain _ | _ | _ | n := countdown
  · rfl
  · exact absurd (h 0 rfl) (by decide)
  · exact absurd (h 1 rfl) (by decide)
  · rfl

theorem take_fails {C : Card κ} {a : Remote κ} {request : List UInt8} {k : ℕ}
    (hk : a.countdown = some k) (hlt : k < 2) : (C.take a request).1 = -1 := by
  obtain ⟨card, pending, countdown⟩ := a
  obtain rfl : countdown = some k := hk
  obtain _ | _ | k := k
  · rfl
  · rfl
  · omega

section

variable {C : Card κ} {s : Link κ} {lines : List Line} {fuel : ℕ} {inMsg buf : Block} {n : ℕ}
variable (hn : 1 ≤ n) (h28 : n ≤ 28) (hbuf : buf.length = msgMaxLen)

include hn h28 hbuf

/-- What becomes of a question once its message was sent. -/
theorem ask_eq (hfuel : 2 ≤ fuel) : ∃ s₁ : Link κ,
    s₁.toRemote = (C.take s.toRemote (buf.take n)).2 ∧
    ask C.link fuel (s, lines) inMsg buf n =
      if (C.take s.toRemote (buf.take n)).1 < 0 then
        .ok (((C.take s.toRemote (buf.take n)).1, some buf),
          (s₁, lines ++ [.msgOut (frameOf (buf.take n))]))
      else rcvMsg (printing C.link) fuel (s₁, lines ++ [.msgOut (frameOf (buf.take n))]) inMsg buf
        msgMaxLen >>= fun r => .ok ((r.1.1, some r.1.2), r.2) := by
  obtain ⟨fuel, rfl⟩ := Nat.exists_eq_add_of_le' hfuel
  have hsend : ∃ s₁, sendMsg (printing C.link) (fuel + 2) (s, lines) buf n = .ok (_, (s₁, _)) ∧ _ :=
    sendMsg_prints hn (by rw [hbuf, msgMaxLen]; omega) h28 fuel
  obtain ⟨s₁, hsent, hs₁⟩ := hsend
  obtain ⟨n, rfl⟩ := Nat.exists_eq_add_of_le' hn
  exact ⟨s₁, hs₁, ask_of_sent hsent⟩

variable (hin : inMsg.length = msgMaxLen) {answer rest : List Frame} (hw : Whole answer)
variable (hroom : (bytesOf answer).length ≤ msgMaxLen)
variable (hpending : s.pending ++ (C.reply s.card (buf.take n)).1 = answer ++ rest)
variable (hfuel : (answer ++ rest).length + 2 ≤ fuel)

include hin hw hroom hpending hfuel

/-- A question that is answered. -/
theorem ask_whole (h : Enough (2 + 2 * answer.length) s.countdown) :
    ∃ s', ask C.link fuel (s, lines) inMsg buf n = .ok (((bytesOf answer).length,
        some (bytesOf answer ++ buf.drop (bytesOf answer).length)),
          (s', lines ++ asked (frameOf (buf.take n)) answer)) ∧
      s'.toRemote = ⟨(C.reply s.card (buf.take n)).2, rest,
        after (2 + 2 * answer.length) s.countdown⟩ := by
  have h2 : Enough 2 s.countdown := fun k hk => Nat.le_trans (Nat.le_add_right 2 _) (h k hk)
  have hint : buf.length ≤ intMax := by rw [hbuf]; decide
  rw [List.length_append] at hfuel
  have hask : ∃ s₁ : Link κ, _ ∧ ask C.link fuel (s, lines) inMsg buf n = _ :=
    ask_eq hn h28 hbuf (by omega)
  obtain ⟨s₁, hs₁, hask⟩ := hask
  rw [take_reaches hpending h2] at hs₁ hask
  rw [if_neg (Int.not_lt.mpr (Int.natCast_nonneg _))] at hask
  have hcountdown : s₁.countdown = after 2 s.countdown := congrArg Remote.countdown hs₁
  have hcard : s₁.card = (C.reply s.card (buf.take n)).2 := congrArg Remote.card hs₁
  rw [← hbuf] at hroom
  have hreceive : ∃ s₂, rcvMsg (printing C.link) fuel
      (s₁, lines ++ [.msgOut (frameOf (buf.take n))]) inMsg buf buf.length = .ok (_, (s₂, _)) ∧ _ :=
    rcvMsg_prints hw (congrArg Remote.pending hs₁) hin hint hroom (by omega)
      (by rw [hcountdown]; exact h.after)
  obtain ⟨s₂, hreceived, hs₂⟩ := hreceive
  rw [hbuf, List.append_assoc] at hreceived
  rw [hcard, hcountdown, after_after] at hs₂
  refine ⟨s₂, ?_, hs₂⟩
  rw [hask, hreceived]
  rfl

/-- A question that a device call fails for. -/
theorem ask_fails {k : ℕ} (hk : s.countdown = some k) (hlt : k < 2 + 2 * answer.length) :
    ∃ out s', ask C.link fuel (s, lines) inMsg buf n = .ok ((-1, out),
      (s', lines ++ asked (frameOf (buf.take n)) (answer.take ((k - 2) / 2)))) := by
  have hint : buf.length ≤ intMax := by rw [hbuf]; decide
  rw [List.length_append] at hfuel
  have hask : ∃ s₁ : Link κ, _ ∧ ask C.link fuel (s, lines) inMsg buf n = _ :=
    ask_eq hn h28 hbuf (by omega)
  obtain ⟨s₁, hs₁, hask⟩ := hask
  by_cases h2 : k < 2
  · have hnone : (k - 2) / 2 = 0 := by omega
    rw [take_fails hk h2] at hask
    rw [hnone, hask]
    exact ⟨_, s₁, rfl⟩
  · have hreach : Enough 2 s.countdown := by
      intro l hl
      obtain rfl : k = l := Option.some.inj (hk.symm.trans hl)
      omega
    rw [take_reaches hpending hreach] at hs₁ hask
    rw [if_neg (Int.not_lt.mpr (Int.natCast_nonneg _))] at hask
    have hcountdown : s₁.countdown = some (k - 2) := by
      rw [hs₁, hk]
      rfl
    rw [← hbuf] at hroom
    have hreceive : ∃ out s₂, rcvMsg (printing C.link) fuel
        (s₁, lines ++ [.msgOut (frameOf (buf.take n))]) inMsg buf buf.length =
          .ok ((-1, out), (s₂, _)) :=
      rcvMsg_prints_part hw (congrArg Remote.pending hs₁) hin hint hroom (by omega) hcountdown
        (by omega)
    obtain ⟨out, s₂, hreceived⟩ := hreceive
    rw [hbuf, List.append_assoc] at hreceived
    refine ⟨some out, s₂, ?_⟩
    rw [hask, hreceived]
    rfl

end

/-! ## The two questions -/

theorem length_firstBuf : firstBuf.length = msgMaxLen := rfl

theorem length_secondBuf : secondBuf.length = msgMaxLen := rfl

theorem debug_whole {answer : List Frame} (buf : Block) (s : σ × List Line) :
    debug (some (bytesOf answer ++ buf.drop (bytesOf answer).length)) (bytesOf answer).length s =
      .ok (print (.debug (bytesOf answer)) s) := by
  have hread : read (bytesOf answer ++ buf.drop (bytesOf answer).length) 0
      (bytesOf answer).length = .ok _ :=
    read_ok (by rw [List.length_append]; omega)
  unfold debug
  rw [Option.getD_some, Int.toNat_natCast, hread, List.drop_zero, List.take_left]
  rfl

section

variable {C : Card κ} {s : Link κ} {fuel : ℕ} {in₁ in₂ : Block}
variable {first second rest₁ rest₂ : List Frame} (hin₁ : in₁.length = msgMaxLen)
  (hin₂ : in₂.length = msgMaxLen) (hw₁ : Whole first) (hw₂ : Whole second)
  (hroom₁ : (bytesOf first).length ≤ msgMaxLen) (hroom₂ : (bytesOf second).length ≤ msgMaxLen)
  (h₁ : s.pending ++ (C.reply s.card [0x00]).1 = first ++ rest₁)
  (h₂ : rest₁ ++ (C.reply (C.reply s.card [0x00]).2 [0x81, 0x00, 0x10, 0x00, 0x00]).1 =
    second ++ rest₂)
  (hfuel₁ : (first ++ rest₁).length + 2 ≤ fuel) (hfuel₂ : (second ++ rest₂).length + 2 ≤ fuel)

include hin₁ hw₁ hroom₁ h₁ hfuel₁

theorem talk_fails {k : ℕ} (hk : s.countdown = some k) (hlt : k < 2 + 2 * first.length) :
    ∃ s', talk C.link fuel (s, []) in₁ in₂ = .ok (1, (s',
      asked (frameOf [0x00]) (first.take ((k - 2) / 2)) ++ [.sendDataError])) := by
  have hask : ∃ out s', ask C.link fuel (s, []) in₁ firstBuf 1 = .ok ((-1, out), (s', _)) :=
    ask_fails (Nat.le_refl 1) (by decide) length_firstBuf hin₁ hw₁ hroom₁ h₁ hfuel₁ hk hlt
  obtain ⟨out, s', hask⟩ := hask
  unfold talk
  rw [hask]
  exact ⟨s', rfl⟩

/-- The first question and its answer. -/
theorem talk_first (h : Enough (2 + 2 * first.length) s.countdown) :
    ∃ s₁, talk C.link fuel (s, []) in₁ in₂ = (do
        let ((res, buf), s) ← ask C.link fuel
          (s₁, asked (frameOf [0x00]) first ++ [.debug (bytesOf first)]) in₂ secondBuf 5
        if res < 0 then return (1, print .sendDataError s)
        else
          let s ← debug buf res s
          return (0, s)) ∧
      s₁.toRemote =
        ⟨(C.reply s.card [0x00]).2, rest₁, after (2 + 2 * first.length) s.countdown⟩ := by
  have hask : ∃ s₁, ask C.link fuel (s, []) in₁ firstBuf 1 = .ok (_, (s₁, _)) ∧ _ :=
    ask_whole (Nat.le_refl 1) (by decide) length_firstBuf hin₁ hw₁ hroom₁ h₁ hfuel₁ h
  obtain ⟨s₁, hask, hs₁⟩ := hask
  refine ⟨s₁, ?_, hs₁⟩
  unfold talk
  rw [hask, Outcome.ok_bind]
  simp only [if_neg (Int.not_lt.mpr (Int.natCast_nonneg _))]
  rw [debug_whole, Outcome.ok_bind]
  rfl

include hin₂ hw₂ hroom₂ h₂ hfuel₂

theorem talk_stops {k : ℕ} (hk : s.countdown = some k) (hle : 2 + 2 * first.length ≤ k)
    (hlt : k < 2 + 2 * first.length + (2 + 2 * second.length)) :
    ∃ s', talk C.link fuel (s, []) in₁ in₂ = .ok (1, (s',
      asked (frameOf [0x00]) first ++ [.debug (bytesOf first)] ++
        asked (frameOf [0x81, 0x00, 0x10, 0x00, 0x00])
          (second.take ((k - (2 + 2 * first.length) - 2) / 2)) ++ [.sendDataError])) := by
  have henough : Enough (2 + 2 * first.length) s.countdown := by
    intro l hl
    obtain rfl : k = l := Option.some.inj (hk.symm.trans hl)
    exact hle
  have hfirst : ∃ s₁, talk C.link fuel (s, []) in₁ in₂ = _ ∧ _ :=
    talk_first hin₁ hw₁ hroom₁ h₁ hfuel₁ henough
  obtain ⟨s₁, htalk, hs₁⟩ := hfirst
  have hpending : s₁.pending ++ (C.reply s₁.card (secondBuf.take 5)).1 = second ++ rest₂ := by
    rw [hs₁]
    exact h₂
  have hcountdown : s₁.countdown = some (k - (2 + 2 * first.length)) := by
    rw [hs₁, hk]
    rfl
  have hask : ∃ out s', ask C.link fuel (s₁, asked (frameOf [0x00]) first ++
      [.debug (bytesOf first)]) in₂ secondBuf 5 = .ok ((-1, out), (s', _)) :=
    ask_fails (by decide : 1 ≤ 5) (by decide) length_secondBuf hin₂ hw₂ hroom₂ hpending hfuel₂
      hcountdown (by omega)
  obtain ⟨out, s', hask⟩ := hask
  rw [htalk, hask]
  exact ⟨s', rfl⟩

theorem talk_whole
    (h : Enough (2 + 2 * first.length + (2 + 2 * second.length)) s.countdown) :
    ∃ s', talk C.link fuel (s, []) in₁ in₂ = .ok (0, (s',
        asked (frameOf [0x00]) first ++ [.debug (bytesOf first)] ++
          asked (frameOf [0x81, 0x00, 0x10, 0x00, 0x00]) second ++ [.debug (bytesOf second)])) ∧
      s'.pending = rest₂ := by
  have henough : Enough (2 + 2 * first.length) s.countdown :=
    fun k hk => Nat.le_trans (Nat.le_add_right _ _) (h k hk)
  have hfirst : ∃ s₁, talk C.link fuel (s, []) in₁ in₂ = _ ∧ _ :=
    talk_first hin₁ hw₁ hroom₁ h₁ hfuel₁ henough
  obtain ⟨s₁, htalk, hs₁⟩ := hfirst
  have hpending : s₁.pending ++ (C.reply s₁.card (secondBuf.take 5)).1 = second ++ rest₂ := by
    rw [hs₁]
    exact h₂
  have hrest : Enough (2 + 2 * second.length) s₁.countdown := by
    rw [hs₁]
    exact h.after
  have hask : ∃ s₂, ask C.link fuel (s₁, asked (frameOf [0x00]) first ++
      [.debug (bytesOf first)]) in₂ secondBuf 5 = .ok (_, (s₂, _)) ∧ _ :=
    ask_whole (by decide : 1 ≤ 5) (by decide) length_secondBuf hin₂ hw₂ hroom₂ hpending hfuel₂
      hrest
  obtain ⟨s₂, hask, hs₂⟩ := hask
  refine ⟨s₂, ?_, congrArg Remote.pending hs₂⟩
  rw [htalk, hask, Outcome.ok_bind]
  simp only [if_neg (Int.not_lt.mpr (Int.natCast_nonneg _))]
  rw [debug_whole]
  rfl

end

/-! ## The whole program -/

section

variable {P : Search.Posix} {t : Search.Table} {fd i : ℕ} (hfree : P.free t = some fd)
  (hfd : t fd = none)
  (hfirst : (List.range 20).findSome? (fun i => P.node (Search.path i)) ≠ some none)

include hfree hfd hfirst

/-- `rf_open` where it does not go by an uninitialised `dev_info`. -/
theorem rfOpen_defined : Search.rfOpen P t =
    match (List.range 20).find? (Search.wantedAt P) with
    | some i => .ok (fd, Function.update t fd (some (Search.path i)))
    | none => .ok (-Search.enodev, t) := by
  unfold Search.rfOpen
  rw [Search.searched_eq hfree hfd]
  cases h : (List.range 20).findSome? (fun i => P.node (Search.path i)) with
  | none => cases (List.range 20).find? (Search.wantedAt P) <;> rfl
  | some answer =>
    cases answer with
    | none => exact absurd h hfirst
    | some info => cases (List.range 20).find? (Search.wantedAt P) <;> rfl

/-- Without a wanted node there is nothing to ask. -/
theorem main_no_card (D : List UInt8 → Hiddev σ) (fuel : ℕ) (s : σ) (in₁ in₂ : Block)
    (hcard : (List.range 20).find? (Search.wantedAt P) = none) :
    hidcomMain P D fuel t s in₁ in₂ = .ok (⟨1, [.cantFindDevice], t⟩, s) := by
  unfold hidcomMain
  rw [rfOpen_defined hfree hfd hfirst, hcard]
  rfl

/-- The two questions are put to the first wanted node. -/
theorem main_talks (D : List UInt8 → Hiddev σ) (fuel : ℕ) (s : σ) (in₁ in₂ : Block)
    (hcard : (List.range 20).find? (Search.wantedAt P) = some i) :
    hidcomMain P D fuel t s in₁ in₂ = do
      let (code, s) ← talk (D (Search.path i)) fuel (s, []) in₁ in₂
      if code = 0 then return (⟨0, s.2, t⟩, s.1)
      else return (⟨code, s.2, Function.update t fd (some (Search.path i))⟩, s.1) := by
  have hdev : deviceOf D (Function.update t fd (some (Search.path i))) fd = D (Search.path i) := by
    simp only [deviceOf, Function.update_self]
  have hclosed : rfClose (Function.update t fd (some (Search.path i))) fd = t := by
    rw [rfClose, Function.update_idem, ← hfd, Function.update_eq_self]
  unfold hidcomMain
  rw [rfOpen_defined hfree hfd hfirst, hcard]
  simp only [Outcome.ok_bind, if_neg (Int.not_lt.mpr (Int.natCast_nonneg fd)), Int.toNat_natCast,
    hdev, hclosed]

end

theorem answers_cons {Q rest : List (List Frame)} {new₁ new₂ first second : List Frame}
    (h : Q ++ [new₁, new₂] = first :: second :: rest) :
    ∃ rest₁, Q ++ [new₁] = first :: rest₁ ∧ rest₁ ++ [new₂] = second :: rest := by
  cases Q with
  | nil =>
    obtain ⟨rfl, hrest⟩ := List.cons.inj h
    exact ⟨[], rfl, hrest⟩
  | cons fs Q =>
    obtain ⟨rfl, hrest⟩ := List.cons.inj h
    refine ⟨Q ++ [new₁], rfl, ?_⟩
    rw [List.append_assoc]
    exact hrest

/-- The run with a card. -/
theorem main_asks {P : Search.Posix} {t : Search.Table} {fd i : ℕ} (hfree : P.free t = some fd)
    (hfd : t fd = none)
    (hfirst : (List.range 20).findSome? (fun i => P.node (Search.path i)) ≠ some none)
    (hcard : (List.range 20).find? (Search.wantedAt P) = some i) {C : Card κ}
    (hwhole : ∀ k values, Whole (C k values).1) {D : List UInt8 → Hiddev (Link κ)}
    {s : Link κ} {Q : List (List Frame)} (hQ : ∀ fs ∈ Q, Whole fs) (hs : s.pending = Q.flatten)
    {m₁ m₂ : List ℤ} (hm₁ : m₁ = [0x02, 0x55, 0x01, 0x00, 0x01])
    (hm₂ : m₂ = [0x02, 0x55, 0x05, 0x81, 0x00, 0x10, 0x00, 0x00, 0x94])
    {first second : List Frame} {rest : List (List Frame)}
    (hanswers : Q ++ [(C s.card m₁).1, (C (C s.card m₁).2 m₂).1] = first :: second :: rest)
    (hroom₁ : (bytesOf first).length ≤ msgMaxLen) (hroom₂ : (bytesOf second).length ≤ msgMaxLen)
    {in₁ in₂ : Block} (hin₁ : in₁.length = msgMaxLen) (hin₂ : in₂.length = msgMaxLen) {fuel : ℕ}
    (hfuel : (first :: second :: rest).flatten.length + 2 ≤ fuel)
    (hD : D (Search.path i) = C.link) :
    (Enough (2 + 2 * first.length + (2 + 2 * second.length)) s.countdown →
      ∃ s', hidcomMain P D fuel t s in₁ in₂ = .ok (⟨0, asked m₁ first ++ [.debug (bytesOf first)] ++
          asked m₂ second ++ [.debug (bytesOf second)], t⟩, s') ∧
        s'.pending = rest.flatten) ∧
    (∀ k, s.countdown = some k → 2 + 2 * first.length ≤ k →
      k < 2 + 2 * first.length + (2 + 2 * second.length) →
      ∃ s', hidcomMain P D fuel t s in₁ in₂ = .ok (⟨1, asked m₁ first ++ [.debug (bytesOf first)] ++
          asked m₂ (second.take ((k - (2 + 2 * first.length) - 2) / 2)) ++ [.sendDataError],
        Function.update t fd (some (Search.path i))⟩, s')) ∧
    (∀ k, s.countdown = some k → k < 2 + 2 * first.length →
      ∃ s', hidcomMain P D fuel t s in₁ in₂ =
        .ok (⟨1, asked m₁ (first.take ((k - 2) / 2)) ++ [.sendDataError],
          Function.update t fd (some (Search.path i))⟩, s')) := by
  have hframe₁ : frameOf [0x00] = m₁ := by rw [hm₁]; decide
  have hframe₂ : frameOf [0x81, 0x00, 0x10, 0x00, 0x00] = m₂ := by rw [hm₂]; decide
  obtain ⟨rest₁, hQ₁, hQ₂⟩ := answers_cons hanswers
  have h₁ := flatten_answers hs hQ₁
  have h₂ := flatten_answers rfl hQ₂
  rw [← hframe₁] at h₁ h₂
  rw [← hframe₂] at h₂
  have hall : ∀ fs ∈ first :: second :: rest, Whole fs := by
    rw [← hanswers]
    exact List.forall_mem_append.mpr ⟨hQ, List.forall_mem_cons.mpr
      ⟨hwhole .., List.forall_mem_singleton.mpr (hwhole ..)⟩⟩
  obtain ⟨hw₁, hall⟩ := List.forall_mem_cons.mp hall
  obtain ⟨hw₂, -⟩ := List.forall_mem_cons.mp hall
  rw [List.flatten_cons, List.flatten_cons, List.length_append] at hfuel
  have hlen := congrArg List.length h₂
  rw [List.length_append] at hlen
  have hfuel₁ : (first ++ rest₁.flatten).length + 2 ≤ fuel := by
    rw [List.length_append]
    omega
  have hfuel₂ : (second ++ rest.flatten).length + 2 ≤ fuel := by omega
  rw [main_talks hfree hfd hfirst D fuel s in₁ in₂ hcard, hD, ← hframe₁, ← hframe₂]
  refine ⟨fun h => ?_, fun k hk hle hlt => ?_, fun k hk hlt => ?_⟩
  · obtain ⟨s', htalk, hrest⟩ := talk_whole hin₁ hin₂ hw₁ hw₂ hroom₁ hroom₂ h₁ h₂ hfuel₁ hfuel₂ h
    rw [htalk]
    exact ⟨s', rfl, hrest⟩
  · obtain ⟨s', htalk⟩ :=
      talk_stops hin₁ hin₂ hw₁ hw₂ hroom₁ hroom₂ h₁ h₂ hfuel₁ hfuel₂ hk hle hlt
    rw [htalk]
    exact ⟨s', rfl⟩
  · have htalk : ∃ s', talk C.link fuel (s, []) in₁ in₂ = _ :=
      talk_fails hin₁ hw₁ hroom₁ h₁ hfuel₁ hk hlt
    obtain ⟨s', htalk⟩ := htalk
    rw [htalk]
    exact ⟨s', rfl⟩

/-- **The whole program.** Without a wanted node `main` gives up. Let the first one be a card that
answers every message, with some answers outstanding. `main` sends its two messages and prints the
oldest two answers: both if all calls of the device succeed that it makes for them, the first one if
those for it succeed, and otherwise none. Each message is printed before it is sent, and each report
after it was read. The code tells whether it was both, and only then is the descriptor closed. -/
theorem main_eq {P : Search.Posix} {t : Search.Table} {fd : ℕ} (hfree : P.free t = some fd)
    (hfd : t fd = none)
    (hfirst : (List.range 20).findSome? (fun i => P.node (Search.path i)) ≠ some none)
    {C : Card κ} (hwhole : ∀ k values, Whole (C k values).1) (D : List UInt8 → Hiddev (Link κ))
    {s : Link κ} {Q : List (List Frame)} (hQ : ∀ fs ∈ Q, Whole fs) (hs : s.pending = Q.flatten)
    {m₁ m₂ : List ℤ} (hm₁ : m₁ = [0x02, 0x55, 0x01, 0x00, 0x01])
    (hm₂ : m₂ = [0x02, 0x55, 0x05, 0x81, 0x00, 0x10, 0x00, 0x00, 0x94])
    {first second : List Frame} {rest : List (List Frame)}
    (hanswers : Q ++ [(C s.card m₁).1, (C (C s.card m₁).2 m₂).1] = first :: second :: rest)
    (hroom₁ : (bytesOf first).length ≤ msgMaxLen) (hroom₂ : (bytesOf second).length ≤ msgMaxLen)
    {in₁ in₂ : Block} (hin₁ : in₁.length = msgMaxLen) (hin₂ : in₂.length = msgMaxLen) {fuel : ℕ}
    (hfuel : (first :: second :: rest).flatten.length + 2 ≤ fuel) :
    Prints C.link ∧
    match (List.range 20).find? (Search.wantedAt P) with
    | none => hidcomMain P D fuel t s in₁ in₂ = .ok (⟨1, [.cantFindDevice], t⟩, s)
    | some i => D (Search.path i) = C.link →
      (Enough (2 + 2 * first.length + (2 + 2 * second.length)) s.countdown →
        ∃ s', hidcomMain P D fuel t s in₁ in₂ = .ok (⟨0, asked m₁ first ++
            [.debug (bytesOf first)] ++ asked m₂ second ++ [.debug (bytesOf second)], t⟩, s') ∧
          s'.pending = rest.flatten) ∧
      (∀ k, s.countdown = some k → 2 + 2 * first.length ≤ k →
        k < 2 + 2 * first.length + (2 + 2 * second.length) →
        ∃ s', hidcomMain P D fuel t s in₁ in₂ = .ok (⟨1, asked m₁ first ++
            [.debug (bytesOf first)] ++
            asked m₂ (second.take ((k - (2 + 2 * first.length) - 2) / 2)) ++ [.sendDataError],
          Function.update t fd (some (Search.path i))⟩, s')) ∧
      (∀ k, s.countdown = some k → k < 2 + 2 * first.length →
        ∃ s', hidcomMain P D fuel t s in₁ in₂ =
          .ok (⟨1, asked m₁ (first.take ((k - 2) / 2)) ++ [.sendDataError],
            Function.update t fd (some (Search.path i))⟩, s')) := by
  refine ⟨prints C.link, ?_⟩
  cases hcard : (List.range 20).find? (Search.wantedAt P) with
  | none => exact main_no_card hfree hfd hfirst D fuel s in₁ in₂ hcard
  | some i =>
    intro hD
    exact main_asks hfree hfd hfirst hcard hwhole hQ hs hm₁ hm₂ hanswers hroom₁ hroom₂ hin₁ hin₂
      hfuel hD

/-- The card is at node 0. -/
def oneNode : Search.Posix where
  node p := if p = Search.path 0 then some (some ⟨0x2933, 0x0101⟩) else none
  free _ := some 3

/-- A report of five bytes is outstanding, so the answer of ten bytes to the first message is
printed after it, and the one to the second message stays. -/
theorem main_eq_sample : ∃ s', hidcomMain oneNode (fun _ => fiveCard.link) 8 (fun _ => none)
    (fiveStart [sampleFrame singleMsg (.inl rfl)]) (List.replicate 32 0xAA)
    (List.replicate 32 0xAA) =
      .ok (⟨0, [.msgOut [2, 0x55, 1, 0, 1], .msgIn [2, 0x55, 5, 1, 2, 3, 4, 5, 4],
          .debug [1, 2, 3, 4, 5], .msgOut [2, 0x55, 5, 0x81, 0, 0x10, 0, 0, 0x94],
          .msgIn [0x82, 0x55, 5, 1, 2, 3, 4, 5, 4], .msgIn [2, 0x55, 5, 1, 2, 3, 4, 5, 4],
          .debug [1, 2, 3, 4, 5, 1, 2, 3, 4, 5]], fun _ => none⟩, s') ∧
        s'.pending = (fiveCard 1 []).1 := by
  have hnode : oneNode.node (Search.path 0) = some (some ⟨0x2933, 0x0101⟩) := by
    simp only [oneNode, if_true]
  have hzero : List.range 20 = 0 :: (List.range 19).map Nat.succ := rfl
  have hfirst : (List.range 20).findSome? (fun i => oneNode.node (Search.path i)) ≠
      some none := by
    rw [hzero, List.findSome?_cons, hnode]
    exact nofun
  have hwanted : Search.wantedAt oneNode 0 = true := by
    unfold Search.wantedAt
    rw [hnode]
    decide
  have hcard : (List.range 20).find? (Search.wantedAt oneNode) = some 0 := by
    rw [hzero, List.find?_cons_of_pos hwanted]
  have hQ : ∀ fs ∈ [[sampleFrame singleMsg (.inl rfl)]], Whole fs :=
    List.forall_mem_singleton.mpr ⟨[], _, rfl, nofun, by decide⟩
  have hin : (List.replicate 32 (0xAA : UInt8)).length = msgMaxLen := rfl
  have hfuel : [[sampleFrame singleMsg (.inl rfl)], (fiveCard 0 []).1, (fiveCard 1 []).1
      ].flatten.length + 2 ≤ 8 := by decide
  have hrun := (main_eq (t := fun _ => none) (s := fiveStart [sampleFrame singleMsg (.inl rfl)])
    rfl rfl hfirst fiveCard_whole (fun _ => fiveCard.link) hQ rfl rfl rfl rfl (by decide)
    (by decide) hin hin hfuel).2
  rw [hcard] at hrun
  exact (hrun rfl).1 nofun

end KernelGadgets.Hid
