import Mathlib.Data.List.Forall2
import KernelGadgets.Hid.Session
import KernelGadgets.Lib.Lag

/-!
# Answers that come late

A report that was not fetched is still there for the next call of `send_data`, which does not know
what it belongs to. So a session goes in step with the card if nothing is outstanding at its
beginning, and stays behind by the number of outstanding answers if something is (`session_lags`).
One device call that fails while an answer is fetched has this effect (`session_after_failure`).
-/

namespace KernelGadgets.Hid

open Block

variable {κ : Type}

/-! ## Answers -/

/-- An answer: every report but the last one asks for another. -/
def Whole (fs : List Frame) : Prop :=
  ∃ init last, fs = init ++ [last] ∧ (∀ f ∈ init, Continues f.values) ∧ ¬Continues last.values

/-- The bytes of an answer. -/
def bytesOf (fs : List Frame) : List UInt8 := joined (fs.map Frame.values)

theorem bytesOf_cons (f : Frame) (fs : List Frame) :
    bytesOf (f :: fs) = payload f.values ++ bytesOf fs := joined_cons ..

theorem Whole.ne_nil {fs : List Frame} (h : Whole fs) : fs ≠ [] := by
  obtain ⟨init, last, rfl, -⟩ := h
  exact List.append_ne_nil_of_right_ne_nil _ (List.cons_ne_nil last [])

theorem whole_cons {f : Frame} {fs : List Frame} :
    Whole (f :: fs) ↔ (¬Continues f.values ∧ fs = []) ∨ (Continues f.values ∧ Whole fs) := by
  constructor
  · rintro ⟨init, last, heq, hinit, hlast⟩
    cases init with
    | nil =>
      obtain ⟨rfl, rfl⟩ := List.cons.inj heq
      exact .inl ⟨hlast, rfl⟩
    | cons g init =>
      obtain ⟨rfl, rfl⟩ := List.cons.inj heq
      obtain ⟨hf, hinit⟩ := List.forall_mem_cons.mp hinit
      exact .inr ⟨hf, init, last, rfl, hinit, hlast⟩
  · rintro (⟨hf, rfl⟩ | ⟨hf, init, last, rfl, hinit, hlast⟩)
    · exact ⟨[], f, rfl, nofun, hf⟩
    · exact ⟨f :: init, last, rfl, List.forall_mem_cons.mpr ⟨hf, hinit⟩, hlast⟩

/-- At least `n` calls succeed. -/
def Enough (n : ℕ) (t : Option ℕ) : Prop := ∀ k, t = some k → n ≤ k

theorem after_after (m n : ℕ) (t : Option ℕ) : after n (after m t) = after (m + n) t := by
  cases t with
  | none => rfl
  | some k => exact congrArg some (Nat.sub_sub ..)

theorem Enough.after {m n : ℕ} {t : Option ℕ} (h : Enough (m + n) t) : Enough n (after m t) := by
  intro k hk
  cases t with
  | none => cases hk
  | some l =>
    have hl := h l rfl
    obtain rfl : l - m = k := Option.some.inj hk
    omega

theorem Enough.ne {n k : ℕ} {t : Option ℕ} (h : Enough n t) (hk : k < n) : t ≠ some k :=
  fun ht => Nat.not_le.mpr hk (h k ht)

/-- A whole answer is fetched if the calls for it succeed. -/
theorem fetch_whole {fs : List Frame} (hw : Whole fs) (rest : List Frame) : ∀ {t : Option ℕ},
    Enough (2 * fs.length) t →
    fetch (fs ++ rest) t = ⟨true, bytesOf fs, rest, after (2 * fs.length) t⟩ := by
  induction fs with
  | nil => exact absurd rfl hw.ne_nil
  | cons f fs ih =>
    intro t ht
    rw [List.length_cons, Nat.mul_succ, Nat.add_comm] at ht
    rw [List.cons_append, fetch_cons (ht.ne (by omega)) (ht.ne (by omega)), bytesOf_cons]
    obtain ⟨hf, rfl⟩ | ⟨hf, hw⟩ := whole_cons.mp hw
    · rw [if_neg hf]
      simp [bytesOf]
    · rw [if_pos hf, ih hw ht.after, after_after, List.length_cons, Nat.mul_succ,
        Nat.add_comm (2 * fs.length)]

/-- Otherwise the reports that were not read are still there. -/
theorem fetch_fails {fs : List Frame} (hw : Whole fs) (rest : List Frame) : ∀ {n : ℕ},
    n < 2 * fs.length → fetch (fs ++ rest) (some n) =
      ⟨false, bytesOf (fs.take (n / 2)), fs.drop ((n + 1) / 2) ++ rest, some 0⟩ := by
  induction fs with
  | nil => exact absurd rfl hw.ne_nil
  | cons f fs ih =>
    intro n hn
    obtain _ | _ | n := n
    · rfl
    · rfl
    · rw [List.length_cons] at hn
      obtain ⟨-, rfl⟩ | ⟨hf, hw⟩ := whole_cons.mp hw
      · rw [List.length_nil] at hn
        omega
      · have hafter : after 2 (some (n + 2)) = some n := rfl
        rw [List.cons_append, fetch_cons (by simp) (by simp), if_pos hf, hafter,
          ih hw (by omega), show (n + 2) / 2 = n / 2 + 1 by omega,
          show (n + 2 + 1) / 2 = (n + 1) / 2 + 1 by omega, List.take_succ_cons,
          List.drop_succ_cons, bytesOf_cons]

/-! ## Sessions that keep in step, or behind -/

/-- A call that sends a request and receives the answer, without a failing device call. -/
structure Call.Asks (c : Call) (request : List UInt8) : Prop where
  request : c.request = some request
  receives : (toReceive c.rcvBuffer c.rcvLen).isSome
  countdown : c.countdown = none

/-- What a call comes to that gets an answer. -/
def Call.outcome (c : Call) (answer : List Frame) : ℤ × Option Block :=
  ((bytesOf answer).length,
    c.rcvBuffer.map fun buf => bytesOf answer ++ buf.drop (bytesOf answer).length)

/-- A card that is asked. -/
def Card.reply (C : Card κ) (k : κ) (request : List UInt8) : List Frame × κ :=
  C k (frameOf request)

section

variable {C : Card κ} {k : κ} {Q : List (List Frame)} {c : Call} {request : List UInt8}
variable (hwhole : ∀ k values, Whole (C k values).1) (hQ : ∀ fs ∈ Q, Whole fs)
include hwhole hQ

omit hwhole hQ in
theorem receive_outcome {a : Remote κ} {res : ℤ} (hres : ¬res < 0)
    (hrcv : (toReceive c.rcvBuffer c.rcvLen).isSome) {fs rest : List Frame} {t : Option ℕ}
    (hfetch : fetch a.pending a.countdown = ⟨true, bytesOf fs, rest, t⟩) :
    received res a c = (c.outcome fs, ⟨a.card, rest, t⟩) := by
  obtain ⟨⟨buf, n⟩, hrcv⟩ := Option.isSome_iff_exists.mp hrcv
  have hbuf : c.rcvBuffer = some buf := (toSend_eq_some hrcv).1
  unfold received
  rw [if_neg hres, hrcv]
  simp only [hfetch]
  unfold Call.outcome
  rw [hbuf]
  rfl

/-- A call that gets an answer gets the oldest one. -/
theorem answer_asks (hc : c.Asks request) (t : Option ℕ) :
    C.answer ⟨k, Q.flatten, t⟩ c =
      (c.outcome (Machine.lagged C.reply (k, Q) request).1,
        ⟨(Machine.lagged C.reply (k, Q) request).2.1,
          (Machine.lagged C.reply (k, Q) request).2.2.flatten, none⟩) := by
  have hsent : C.sent ⟨k, Q.flatten, none⟩ c =
      ((request.length : ℤ),
        (⟨(C.reply k request).2, Q.flatten ++ (C.reply k request).1, none⟩ : Remote κ)) := by
    unfold Card.sent
    rw [hc.request]
    rfl
  have hnew := hwhole k (frameOf request)
  unfold Card.answer Card.exchange
  rw [hc.countdown, hsent]
  have hres : ¬(request.length : ℤ) < 0 := by omega
  cases Q with
  | nil =>
    have hfetch := fetch_whole hnew [] (t := none) nofun
    rw [List.append_nil] at hfetch
    exact receive_outcome hres hc.receives hfetch
  | cons fs Q =>
    have hfetch := fetch_whole (hQ fs (List.mem_cons_self ..)) (Q.flatten ++ (C.reply k request).1)
      (t := none) nofun
    rw [List.flatten_cons, List.append_assoc]
    refine (receive_outcome hres hc.receives hfetch).trans ?_
    simp [Machine.lagged]
    rfl

end

/-- A run of such calls. -/
theorem specRun_asks (C : Card κ) (hwhole : ∀ k values, Whole (C k values).1) {calls : List Call}
    {requests : List (List UInt8)} (hcalls : List.Forall₂ Call.Asks calls requests) :
    ∀ (k : κ) (Q : List (List Frame)) (t : Option ℕ), (∀ fs ∈ Q, Whole fs) →
      ∃ t', Machine.specRun C.answer ⟨k, Q.flatten, t⟩ calls =
        (List.zipWith Call.outcome calls
            (Machine.specRun (Machine.lagged C.reply) (k, Q) requests).1,
          ⟨(Machine.specRun (Machine.lagged C.reply) (k, Q) requests).2.1,
            (Machine.specRun (Machine.lagged C.reply) (k, Q) requests).2.2.flatten, t'⟩) := by
  induction hcalls with
  | nil =>
    intro k Q t _
    exact ⟨t, rfl⟩
  | @cons c request calls requests hc _ ih =>
    intro k Q t hQ
    have hQ' : ∀ fs ∈ (Machine.lagged C.reply (k, Q) request).2.2, Whole fs := by
      cases Q with
      | nil => exact nofun
      | cons q Q =>
        exact List.forall_mem_append.mpr
          ⟨(List.forall_mem_cons.mp hQ).2, List.forall_mem_singleton.mpr (hwhole ..)⟩
    obtain ⟨t', hrun⟩ := ih (Machine.lagged C.reply (k, Q) request).2.1
      (Machine.lagged C.reply (k, Q) request).2.2 none hQ'
    refine ⟨t', ?_⟩
    rw [Machine.specRun_cons, Machine.specRun_cons, answer_asks hwhole hQ hc t, hrun]
    rfl

/-- **In step or behind.** Let a card answer every message, and some of its answers be outstanding.
A session without a failing device call gets these first and then the new ones, and leaves as many
outstanding as it found. -/
theorem session_lags (C : Card κ) (hwhole : ∀ k values, Whole (C k values).1) {s : Link κ}
    {Q : List (List Frame)} (hQ : ∀ fs ∈ Q, Whole fs) (hs : s.pending = Q.flatten)
    {calls : List Call} {requests : List (List UInt8)}
    (hcalls : List.Forall₂ Call.Asks calls requests) (hl : (session C).Legal s calls) :
    ((session C).run s calls).Ends fun r =>
      r.1 = List.zipWith Call.outcome calls
          (Q ++ (Machine.specRun C.reply s.card requests).1) ∧
        r.2.card = (Machine.specRun C.reply s.card requests).2 ∧
        r.2.pending =
          ((Q ++ (Machine.specRun C.reply s.card requests).1).drop calls.length).flatten := by
  obtain ⟨t', hspec⟩ := specRun_asks C hwhole hcalls s.card Q s.countdown hQ
  have hremote : s.toRemote = ⟨s.card, Q.flatten, s.countdown⟩ := by
    rw [← hs]
  have hlen : requests.length = calls.length := hcalls.length_eq.symm
  rw [Machine.specRun_lagged, hlen] at hspec
  refine (Machine.run_sim (session_step C) rfl hl).mono fun r hr => ?_
  obtain ⟨hout, hrest⟩ := hr
  rw [hremote, hspec] at hout hrest
  rw [Machine.zipWith_take_length] at hout
  exact ⟨hout, congrArg Remote.card hrest, congrArg Remote.pending hrest⟩

theorem fiveCard_whole (k : ℕ) (values : List ℤ) : Whole (fiveCard k values).1 :=
  ⟨[sampleFrame multiMsg (.inr rfl)], sampleFrame singleMsg (.inl rfl), rfl,
    List.forall_mem_singleton.mpr (by decide), by decide⟩

theorem askFive_asks : (askFive none).Asks [0x00] := ⟨rfl, rfl, rfl⟩

/-- A report of five bytes is outstanding, so the answer of ten bytes comes one call late. -/
theorem session_lags_sample : ((session fiveCard).run (fiveStart [sampleFrame singleMsg (.inl rfl)])
    [askFive none, askFive none]).Ends fun r =>
      r.1 = [(5, some [1, 2, 3, 4, 5, 0, 0, 0, 0, 0, 0, 0]),
        (10, some [1, 2, 3, 4, 5, 1, 2, 3, 4, 5, 0, 0])] := by
  have hl : (session fiveCard).Legal (fiveStart [sampleFrame singleMsg (.inl rfl)])
      [askFive none, askFive none] :=
    legal_of_fitAll fiveCard ⟨askFive_fits (by decide), askFive_fits (by decide), trivial⟩
  have hQ : ∀ fs ∈ [[sampleFrame singleMsg (.inl rfl)]], Whole fs :=
    List.forall_mem_singleton.mpr ⟨[], _, rfl, nofun, by decide⟩
  have hcalls : List.Forall₂ Call.Asks [askFive none, askFive none] [[0x00], [0x00]] :=
    .cons askFive_asks (.cons askFive_asks .nil)
  exact (session_lags fiveCard fiveCard_whole hQ rfl hcalls hl).mono
    fun r hr => hr.1.trans (by decide)

theorem Whole.drop {fs : List Frame} (hw : Whole fs) : ∀ {n : ℕ}, n < fs.length →
    Whole (fs.drop n) := by
  induction fs with
  | nil => exact absurd rfl hw.ne_nil
  | cons f fs ih =>
    intro n hn
    cases n with
    | zero => exact hw
    | succ n =>
      rw [List.length_cons] at hn
      obtain ⟨-, rfl⟩ | ⟨-, hw⟩ := whole_cons.mp hw
      · rw [List.length_nil] at hn
        omega
      · exact ih hw (by omega)

/-- What a fetch that failed at device call `n` leaves of an answer. -/
def leftover (answer : List Frame) (n : ℕ) : List (List Frame) :=
  if (n + 1) / 2 < answer.length then [answer.drop ((n + 1) / 2)] else []

theorem flatten_leftover (answer : List Frame) (n : ℕ) :
    (leftover answer n).flatten = answer.drop ((n + 1) / 2) := by
  unfold leftover
  by_cases h : (n + 1) / 2 < answer.length
  · rw [if_pos h, List.flatten_cons, List.flatten_nil, List.append_nil]
  · rw [if_neg h, List.drop_eq_nil_of_le (Nat.le_of_not_lt h), List.flatten_nil]

/-- A call whose request reaches the card, but which fails at device call `n` of the fetch. -/
structure Call.Fails (c : Call) (request : List UInt8) (n : ℕ) : Prop where
  request : c.request = some request
  receives : (toReceive c.rcvBuffer c.rcvLen).isSome
  countdown : c.countdown = some (n + 2)

theorem answer_fails {C : Card κ} {a : Remote κ} {c : Call} {request : List UInt8} {n : ℕ}
    (hc : c.Fails request n) {answer rest : List Frame} (hw : Whole answer)
    (hpending : a.pending ++ (C.reply a.card request).1 = answer ++ rest)
    (hn : n < 2 * answer.length) :
    C.answer a c = ((-1, c.rcvBuffer.map fun buf => bytesOf (answer.take (n / 2)) ++
        buf.drop (bytesOf (answer.take (n / 2))).length),
      ⟨(C.reply a.card request).2, answer.drop ((n + 1) / 2) ++ rest, some 0⟩) := by
  have hsent : C.sent { a with countdown := some (n + 2) } c =
      ((request.length : ℤ),
        (⟨(C.reply a.card request).2, answer ++ rest, some n⟩ : Remote κ)) := by
    unfold Card.sent
    rw [hc.request, ← hpending]
    rfl
  obtain ⟨⟨buf, k⟩, hrcv⟩ := Option.isSome_iff_exists.mp hc.receives
  have hbuf : c.rcvBuffer = some buf := (toSend_eq_some hrcv).1
  unfold Card.answer Card.exchange
  rw [hc.countdown, hsent]
  unfold received
  rw [if_neg (by simp), hrcv]
  simp only [fetch_fails hw rest hn, hbuf]
  rfl

/-- The reports that are there when a request was answered. -/
theorem flatten_answers {Q rest : List (List Frame)} {pending new answer : List Frame}
    (hpending : pending = Q.flatten) (hQ : Q ++ [new] = answer :: rest) :
    pending ++ new = answer ++ rest.flatten := by
  have h := congrArg List.flatten hQ
  rwa [List.flatten_append, List.flatten_cons, List.flatten_cons, List.flatten_nil,
    List.append_nil, ← hpending] at h

/-- **Behind for ever.** One failing device call in the fetch of an answer: the call returns -1, the
reports not read stay, and all later calls get what is left of that answer first, and then each the
answer to an earlier request. -/
theorem session_after_failure (C : Card κ) (hwhole : ∀ k values, Whole (C k values).1)
    {s : Link κ} {Q : List (List Frame)} (hQ : ∀ fs ∈ Q, Whole fs) (hs : s.pending = Q.flatten)
    {c : Call} {request : List UInt8} {n : ℕ} (hc : c.Fails request n) {answer : List Frame}
    {rest : List (List Frame)} (hrest : Q ++ [(C.reply s.card request).1] = answer :: rest)
    (hn : n < 2 * answer.length) {calls : List Call} {requests : List (List UInt8)}
    (hcalls : List.Forall₂ Call.Asks calls requests) (hl : (session C).Legal s (c :: calls)) :
    ((session C).run s (c :: calls)).Ends fun r =>
      r.1 = (-1, c.rcvBuffer.map fun buf => bytesOf (answer.take (n / 2)) ++
          buf.drop (bytesOf (answer.take (n / 2))).length) ::
        List.zipWith Call.outcome calls (leftover answer n ++ rest ++
          (Machine.specRun C.reply (C.reply s.card request).2 requests).1) := by
  have hall : ∀ fs ∈ answer :: rest, Whole fs := by
    rw [← hrest]
    exact List.forall_mem_append.mpr ⟨hQ, List.forall_mem_singleton.mpr (hwhole ..)⟩
  obtain ⟨hw, hwrest⟩ := List.forall_mem_cons.mp hall
  have hleft : ∀ fs ∈ leftover answer n ++ rest, Whole fs := by
    refine List.forall_mem_append.mpr ⟨fun fs hfs => ?_, hwrest⟩
    unfold leftover at hfs
    split at hfs
    · rw [List.mem_singleton.mp hfs]
      exact hw.drop ‹_›
    · exact absurd hfs List.not_mem_nil
  have hpending := flatten_answers hs hrest
  have hfirst := answer_fails (a := s.toRemote) hc hw hpending hn
  obtain ⟨t', hspec⟩ := specRun_asks C hwhole hcalls (C.reply s.card request).2
    (leftover answer n ++ rest) (some 0) hleft
  rw [List.flatten_append, flatten_leftover, Machine.specRun_lagged,
    ← hcalls.length_eq] at hspec
  refine (Machine.run_sim (session_step C) rfl hl).mono fun r hr => ?_
  have hout := hr.1
  rw [Machine.specRun_cons, hfirst, hspec, Machine.zipWith_take_length] at hout
  exact hout

/-- The first answer is not fetched, so the second call gets it. -/
theorem session_after_failure_sample : ((session fiveCard).run (fiveStart [])
    [askFive (some 2), askFive none]).Ends fun r =>
      r.1 = [(-1, some (List.replicate 12 0)),
        (10, some [1, 2, 3, 4, 5, 1, 2, 3, 4, 5, 0, 0])] := by
  have hl : (session fiveCard).Legal (fiveStart []) [askFive (some 2), askFive none] :=
    legal_of_fitAll fiveCard ⟨askFive_fits (by decide), askFive_fits (by decide), trivial⟩
  have hc : (askFive (some 2)).Fails [0x00] 0 := ⟨rfl, rfl, rfl⟩
  have hQ : ∀ fs ∈ ([] : List (List Frame)), Whole fs := fun _ h => absurd h List.not_mem_nil
  have hrest : [] ++ [(fiveCard.reply 0 [0x00]).1] = (fiveCard.reply 0 [0x00]).1 :: [] := rfl
  exact (session_after_failure fiveCard fiveCard_whole hQ rfl hc hrest (by decide)
    (.cons askFive_asks .nil) hl).mono fun r hr => hr.trans (by decide)

end KernelGadgets.Hid
