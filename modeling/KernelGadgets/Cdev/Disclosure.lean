import KernelGadgets.Lib.Machine
import KernelGadgets.Cdev.Device

/-!
# What a reader learns of uninitialised memory

`kmalloc` returns a block of any content, and `simple_open` writes the default string into its first
bytes only. A sequence of reads and writes through one handle delivers the same bytes whatever the
block held exactly when every position a read delivers is in the default string or in the range of
an earlier write (`session_eq_iff`).
-/

namespace KernelGadgets.Cdev

inductive IoCall where
  | write (data : ℕ → UInt8) (count fpos fail : ℕ)
  | read (count fpos fail : ℕ)

/-- One handle that reads and writes. -/
def ioMachine : Machine Block IoCall Io where
  allowed _ _ := True
  step b
    | .write data count fpos fail => simpleWrite b data count fpos fail
    | .read count fpos fail => do
      let io ← simpleRead b count fpos fail
      return (io, b)

/-- An open of a block that held `junk`, and the answers to the calls after it. -/
def session (junk : Block) (calls : List IoCall) : Outcome (List Io) := do
  let b ← simpleOpen junk
  let (ios, _) ← ioMachine.run b calls
  return ios

/-! ## Positions -/

namespace IoCall

/-- The positions a write fills. -/
def Fills : IoCall → ℕ → Prop
  | .write _ count fpos _, i =>
    checkPos fpos ≤ i ∧ i < checkPos fpos + checkCount count (checkPos fpos)
  | .read .., _ => False

/-- The positions a read delivers. -/
def Delivers : IoCall → ℕ → Prop
  | .write .., _ => False
  | .read count fpos fail, i => checkPos fpos ≤ i ∧ i < checkPos fpos +
      (checkCount count (checkPos fpos) - min fail (checkCount count (checkPos fpos)))

end IoCall

/-- Every position a read delivers is known, or filled by an earlier write. -/
def DeterminedFrom (known : ℕ → Prop) (calls : List IoCall) : Prop :=
  ∀ pre call post, calls = pre ++ call :: post →
    ∀ i, call.Delivers i → known i ∨ ∃ w ∈ pre, w.Fills i

/-- Every position a read delivers is in the default string, or filled by an earlier write. -/
def Determined (calls : List IoCall) : Prop := DeterminedFrom (· < helloWorld.length) calls

theorem determinedFrom_nil (known : ℕ → Prop) : DeterminedFrom known [] := by
  intro pre call post h
  exact absurd h (by simp)

theorem determinedFrom_cons {known : ℕ → Prop} {call : IoCall} {calls : List IoCall} :
    DeterminedFrom known (call :: calls) ↔ (∀ i, call.Delivers i → known i) ∧
      DeterminedFrom (fun i => known i ∨ call.Fills i) calls := by
  constructor
  · intro h
    refine ⟨fun i hi => ?_, fun pre c post he i hi => ?_⟩
    · exact (h [] call calls rfl i hi).resolve_right (by simp)
    · rcases h (call :: pre) c post (by rw [he]; rfl) i hi with hk | ⟨w, hw, hf⟩
      · exact .inl (.inl hk)
      · rcases List.mem_cons.mp hw with rfl | hw
        · exact .inl (.inr hf)
        · exact .inr ⟨w, hw, hf⟩
  · rintro ⟨h1, h2⟩ pre c post he i hi
    rcases pre with _ | ⟨c', pre⟩
    · obtain ⟨rfl, rfl⟩ := List.cons.inj he
      exact .inl (h1 i hi)
    · obtain ⟨rfl, rfl⟩ := List.cons.inj he
      rcases h2 pre c post rfl i hi with (hk | hf) | ⟨w, hw, hf⟩
      · exact .inl hk
      · exact .inr ⟨_, List.mem_cons_self, hf⟩
      · exact .inr ⟨w, List.mem_cons_of_mem _ hw, hf⟩

/-! ## One call on two blocks -/

section Step

variable {b b' : Block} (hb : b.length = maxBufferLen) (hb' : b'.length = maxBufferLen)

include hb hb'

/-- A call on two blocks ends on both. The answers are equal exactly when the blocks agree where it
delivers; afterwards they agree where it fills, and elsewhere as before. -/
theorem step_two (call : IoCall) : ∃ io io' c c', ioMachine.step b call = .ok (io, c) ∧
    ioMachine.step b' call = .ok (io', c') ∧ c.length = maxBufferLen ∧ c'.length = maxBufferLen ∧
    (io = io' ↔ ∀ i, call.Delivers i → b.byte i = b'.byte i) ∧
    ∀ i, c.byte i = c'.byte i ↔ call.Fills i ∨ b.byte i = b'.byte i := by
  cases call with
  | write data count fpos fail =>
    have hp := checkPos_add_checkCount count fpos
    refine ⟨_, _, _, _, simpleWrite_ok hb data count fpos fail, simpleWrite_ok hb' data count fpos fail,
      length_written hb hp data fail, length_written hb' hp data fail, ?_, fun i => ?_⟩
    · exact iff_of_true rfl fun i hi => hi.elim
    · rw [byte_written hb hp, byte_written hb' hp]
      by_cases hi : checkPos fpos ≤ i ∧ i < checkPos fpos + checkCount count (checkPos fpos)
      · rw [if_pos hi, if_pos hi]
        exact iff_of_true rfl (.inl hi)
      · rw [if_neg hi, if_neg hi]
        exact ⟨.inr, fun h => h.resolve_left hi⟩
  | read count fpos fail =>
    have hp := checkPos_add_checkCount count fpos
    have hstep : ∀ {d : Block}, d.length = maxBufferLen →
        ioMachine.step d (.read count fpos fail) = .ok (_, d) := fun {d} hd =>
      congrArg (· >>= fun io => Outcome.ok (io, d)) (simpleRead_ok hd count fpos fail)
    refine ⟨_, _, b, b', hstep hb, hstep hb', hb, hb', ?_, fun i => ?_⟩
    · rw [Io.mk.injEq, Block.range_eq_iff (by omega) (by omega)]
      exact ⟨fun h i hi => h.2.1 i hi.1 hi.2, fun h => ⟨rfl, fun i h1 h2 => h i ⟨h1, h2⟩, rfl⟩⟩
    · exact ⟨.inr, fun h => h.resolve_left id⟩

end Step

/-! ## Runs on two blocks -/

/-- Blocks that agree on the known positions give the same answers. -/
theorem run_agree {known : ℕ → Prop} {calls : List IoCall} {b b' : Block}
    (hb : b.length = maxBufferLen) (hb' : b'.length = maxBufferLen)
    (hk : ∀ i, known i → b.byte i = b'.byte i) (hd : DeterminedFrom known calls) :
    ∃ ios c c', ioMachine.run b calls = .ok (ios, c) ∧ ioMachine.run b' calls = .ok (ios, c') := by
  induction calls generalizing b b' known with
  | nil => exact ⟨[], b, b', rfl, rfl⟩
  | cons call calls ih =>
    obtain ⟨hd1, hd2⟩ := determinedFrom_cons.mp hd
    obtain ⟨io, io', c, c', hs, hs', hc, hc', hio, hfill⟩ := step_two hb hb' call
    obtain rfl := hio.mpr fun i hi => hk i (hd1 i hi)
    have hk' : ∀ i, known i ∨ call.Fills i → c.byte i = c'.byte i := fun i hi =>
      (hfill i).mpr (hi.symm.imp_right (hk i))
    obtain ⟨ios, d, d', hr, hr'⟩ := ih hc hc' hk' hd2
    refine ⟨io :: ios, d, d', ?_, ?_⟩
    · rw [Machine.run_cons_of_step hs, hr]
      rfl
    · rw [Machine.run_cons_of_step hs', hr']
      rfl

/-- Blocks that differ on the unknown positions give the same answers only where the known ones
determine them. -/
theorem determined_of_run {known : ℕ → Prop} {calls : List IoCall} {b b' : Block}
    (hb : b.length = maxBufferLen) (hb' : b'.length = maxBufferLen)
    (hk : ∀ i < maxBufferLen, b.byte i = b'.byte i → known i) {ios : List Io} {c c' : Block}
    (hr : ioMachine.run b calls = .ok (ios, c)) (hr' : ioMachine.run b' calls = .ok (ios, c')) :
    DeterminedFrom known calls := by
  induction calls generalizing b b' known ios with
  | nil => exact determinedFrom_nil known
  | cons call calls ih =>
    obtain ⟨io, io', d, d', hs, hs', hd, hd', hio, hfill⟩ := step_two hb hb' call
    obtain ⟨o, t, os, ho, ht, rfl⟩ := Machine.run_cons_eq_ok hr
    obtain ⟨o', t', os', ho', ht', he⟩ := Machine.run_cons_eq_ok hr'
    obtain ⟨rfl, rfl⟩ := List.cons.inj he
    obtain ⟨rfl, rfl⟩ := Prod.mk.inj (Outcome.ok.inj (hs.symm.trans ho))
    obtain ⟨rfl, rfl⟩ := Prod.mk.inj (Outcome.ok.inj (hs'.symm.trans ho'))
    refine determinedFrom_cons.mpr ⟨fun i hi => ?_, ih hd hd' (fun i hi he => ?_) ht ht'⟩
    · have hlt : i < maxBufferLen := by
        cases call with
        | write data count fpos fail => exact hi.elim
        | read count fpos fail =>
          have := checkPos_add_checkCount count fpos
          obtain ⟨-, hi⟩ := hi
          omega
      exact hk i hlt (hio.mp rfl i hi)
    · exact ((hfill i).mp he).symm.imp_left (hk i hi)

/-! ## Sessions -/

theorem byte_opened {junk : Block} (h : junk.length = maxBufferLen) (i : ℕ) :
    (Block.splice junk 0 helloWorld).byte i =
      if i < helloWorld.length then helloWorld.getD i 0 else junk.byte i := by
  rw [Block.byte_splice (by rw [h]; decide)]
  simp

/-- A session is the run after the open. -/
theorem session_eq_ok {junk : Block} (h : junk.length = maxBufferLen) {calls : List IoCall}
    {ios : List Io} : session junk calls = .ok ios ↔
      ∃ c, ioMachine.run (Block.splice junk 0 helloWorld) calls = .ok (ios, c) := by
  unfold session
  rw [simpleOpen_ok h, Outcome.ok_bind, Outcome.bind_eq_ok]
  constructor
  · rintro ⟨⟨ios', c⟩, hr, he⟩
    obtain rfl := Outcome.ok.inj he
    exact ⟨c, hr⟩
  · rintro ⟨c, hr⟩
    exact ⟨_, hr, rfl⟩

/-- **What the reads disclose.** A session ends with the same answers whatever the block held
exactly when every position delivered is in the default string or filled by an earlier write. -/
theorem session_eq_iff (calls : List IoCall) :
    (∀ junk junk' : Block, junk.length = maxBufferLen → junk'.length = maxBufferLen →
      (session junk calls).Ends fun ios => session junk' calls = .ok ios) ↔ Determined calls := by
  constructor
  · intro h
    -- blocks of zeros and of ones differ everywhere
    have h0 : (List.replicate maxBufferLen (0 : UInt8)).length = maxBufferLen :=
      List.length_replicate
    have h1 : (List.replicate maxBufferLen (255 : UInt8)).length = maxBufferLen :=
      List.length_replicate
    obtain ⟨ios, hs, hs'⟩ := h _ _ h0 h1
    obtain ⟨c, hr⟩ := (session_eq_ok h0).mp hs
    obtain ⟨c', hr'⟩ := (session_eq_ok h1).mp hs'
    refine determined_of_run (length_simpleOpen h0) (length_simpleOpen h1) ?_ hr hr'
    intro i hi he
    by_contra hn
    rw [byte_opened h0, byte_opened h1, if_neg hn, if_neg hn] at he
    unfold Block.byte at he
    rw [List.getD_replicate _ hi, List.getD_replicate _ hi] at he
    exact absurd he (by decide)
  · intro hd junk junk' hj hj'
    have hk : ∀ i, i < helloWorld.length → (Block.splice junk 0 helloWorld).byte i =
        (Block.splice junk' 0 helloWorld).byte i := by
      intro i hi
      rw [byte_opened hj, byte_opened hj', if_pos hi, if_pos hi]
    obtain ⟨ios, c, c', hr, hr'⟩ := run_agree (length_simpleOpen hj) (length_simpleOpen hj') hk hd
    exact .of_eq ((session_eq_ok hj).mpr ⟨c, hr⟩) ((session_eq_ok hj').mpr ⟨c', hr'⟩)

/-- One read of the whole buffer right after the open. -/
theorem session_discloses : ∃ junk junk' : Block, junk.length = maxBufferLen ∧
    junk'.length = maxBufferLen ∧
    session junk [.read 32 0 0] = .ok [⟨32, helloWorld ++ List.replicate 17 0, 0⟩] ∧
    session junk' [.read 32 0 0] = .ok [⟨32, helloWorld ++ List.replicate 17 255, 0⟩] :=
  ⟨List.replicate 32 0, List.replicate 32 255, by decide +kernel⟩

end KernelGadgets.Cdev
