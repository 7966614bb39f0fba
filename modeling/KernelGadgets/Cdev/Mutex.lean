import Mathlib.Data.List.Nodup
import Mathlib.Logic.Function.Basic
import KernelGadgets.Lib.Machine

/-!
# The semaphore of the char device

`simple_read` and `simple_write` take the semaphore with `down_interruptible`, copy, and give it
back with `up`. They do not look at what `down_interruptible` returns: a caller whose wait a signal
interrupts copies without the semaphore and gives back what it has not taken.

Every interrupted wait raises the count by one for good: with nobody inside it is one more than
the number of interrupted waits so far (`semaphore_exclusion`).
-/

namespace KernelGadgets.Cdev

/-- Where a caller of `simple_read` or `simple_write` is. -/
inductive Pc where
  | outside
  /-- In `down_interruptible`. -/
  | waiting
  /-- Before the end of the copy. -/
  | copying
  /-- Before `up`. -/
  | leaving
  deriving DecidableEq, Repr

/-- A caller is between its `down_interruptible` and its `up`. -/
def Pc.inside : Pc → Bool
  | .copying => true
  | .leaving => true
  | _ => false

inductive Move where
  | call
  /-- `down_interruptible` finds the count positive and decrements it. -/
  | down
  /-- A signal arrives: `down_interruptible` returns `-EINTR`, which is dropped. -/
  | signal
  | copy
  | up
  deriving DecidableEq, Repr

/-- The semaphore, and where every caller is. -/
structure Callers (κ : Type) where
  count : ℕ
  pc : κ → Pc

section System

variable {κ : Type} [DecidableEq κ]

def callerStep (s : Callers κ) (c : κ) : Move → Callers κ
  | .call => { s with pc := Function.update s.pc c .waiting }
  | .down => ⟨s.count - 1, Function.update s.pc c .copying⟩
  | .signal => { s with pc := Function.update s.pc c .copying }
  | .copy => { s with pc := Function.update s.pc c .leaving }
  | .up => ⟨s.count + 1, Function.update s.pc c .outside⟩

/-- The callers in any order; `down` waits for a positive count. -/
def callerMachine : Machine (Callers κ) (κ × Move) Unit where
  allowed s
    | (c, .call) => s.pc c = .outside
    | (c, .down) => s.pc c = .waiting ∧ 0 < s.count
    | (c, .signal) => s.pc c = .waiting
    | (c, .copy) => s.pc c = .copying
    | (c, .up) => s.pc c = .leaving
  step s m := .ok ((), callerStep s m.1 m.2)

instance (s : Callers κ) (m : κ × Move) : Decidable (callerMachine.allowed s m) := by
  rcases m with ⟨c, _ | _ | _ | _ | _⟩ <;> unfold callerMachine <;> infer_instance

end System

/-- After `init_MUTEX`. -/
def Callers.start (κ : Type) : Callers κ := ⟨1, fun _ => .outside⟩

/-- No caller is between its `down_interruptible` and its `up`. -/
def Callers.Idle {κ : Type} (s : Callers κ) : Prop := ∀ c, (s.pc c).inside = false

/-- At most one caller copies, and with nobody inside the count is `1`. -/
structure Callers.Exclusive {κ : Type} (s : Callers κ) : Prop where
  one : ∀ {c c'}, s.pc c = .copying → s.pc c' = .copying → c = c'
  idle : s.Idle → s.count = 1

/-! ## The invariant -/

section Invariant

variable {κ : Type}

/-- The callers inside are `inside`, and together with the count they are one more than the
interrupted waits. -/
structure Callers.Balance (s : Callers κ) (inside : List κ) (signals : ℕ) : Prop where
  nodup : inside.Nodup
  mem : ∀ {c}, c ∈ inside ↔ (s.pc c).inside = true
  balance : s.count + inside.length = 1 + signals

namespace Callers.Balance

variable {s : Callers κ} {inside : List κ} {n : ℕ} {c : κ}

theorem idle (B : s.Balance inside n) (h : s.Idle) : s.count = 1 + n := by
  have hnil : inside = [] := by
    rw [List.eq_nil_iff_forall_not_mem]
    intro c hc
    rw [B.mem, h c] at hc
    exact Bool.false_ne_true hc
  have := B.balance
  rw [hnil] at this
  exact this

/-- Without an interrupted wait there is room for one caller inside. -/
theorem exclusive (B : s.Balance inside 0) : s.Exclusive where
  one {c c'} hc hc' := by
    have h1 : c ∈ inside := B.mem.mpr (by rw [hc]; rfl)
    have h2 : c' ∈ inside := B.mem.mpr (by rw [hc']; rfl)
    have hlen : inside.length ≤ 1 := by
      have := B.balance
      omega
    rcases inside with _ | ⟨x, _ | ⟨y, xs⟩⟩
    · exact absurd h1 List.not_mem_nil
    · rw [List.mem_singleton.mp h1, List.mem_singleton.mp h2]
    · exact absurd hlen (by simp)
  idle := B.idle

variable [DecidableEq κ]

/-- A caller moves while it stays inside, or stays outside. -/
theorem stay (B : s.Balance inside n) {p : Pc} (h : p.inside = (s.pc c).inside) :
    Callers.Balance ⟨s.count, Function.update s.pc c p⟩ inside n where
  nodup := B.nodup
  balance := B.balance
  mem {c'} := by
    show c' ∈ inside ↔ (Function.update s.pc c p c').inside = true
    by_cases hc : c' = c
    · subst hc
      rw [Function.update_self, h]
      exact B.mem
    · rw [Function.update_of_ne hc]
      exact B.mem

theorem enter (B : s.Balance inside n) (hc : s.pc c = .waiting) {count m : ℕ}
    (h : count + (inside.length + 1) = 1 + m) :
    Callers.Balance ⟨count, Function.update s.pc c .copying⟩ (c :: inside) m where
  nodup := by
    refine List.nodup_cons.mpr ⟨fun h => ?_, B.nodup⟩
    rw [B.mem, hc] at h
    exact Bool.false_ne_true h
  balance := h
  mem {c'} := by
    show c' ∈ c :: inside ↔ (Function.update s.pc c .copying c').inside = true
    by_cases hcc : c' = c
    · subst hcc
      rw [Function.update_self]
      exact iff_of_true List.mem_cons_self rfl
    · rw [Function.update_of_ne hcc, List.mem_cons, or_iff_right hcc]
      exact B.mem

theorem leave (B : s.Balance inside n) (hc : s.pc c = .leaving) :
    Callers.Balance ⟨s.count + 1, Function.update s.pc c .outside⟩ (inside.erase c) n where
  nodup := B.nodup.erase c
  balance := by
    have hmem : c ∈ inside := B.mem.mpr (by rw [hc]; rfl)
    have hlen := List.length_erase_of_mem hmem
    have hpos := List.length_pos_of_mem hmem
    have := B.balance
    show s.count + 1 + (inside.erase c).length = 1 + n
    omega
  mem {c'} := by
    show c' ∈ inside.erase c ↔ (Function.update s.pc c .outside c').inside = true
    rw [B.nodup.mem_erase_iff]
    by_cases hcc : c' = c
    · subst hcc
      rw [Function.update_self]
      exact iff_of_false (fun h => h.1 rfl) Bool.false_ne_true
    · rw [Function.update_of_ne hcc, and_iff_right hcc]
      exact B.mem

/-- **The step lemma.** A move keeps the balance; an interrupted wait adds one to it. -/
theorem step (B : s.Balance inside n) {m : Move} (hm : callerMachine.allowed s (c, m)) :
    ∃ inside', (callerStep s c m).Balance inside' (n + if m = .signal then 1 else 0) := by
  cases m with
  | call =>
    have hc : s.pc c = .outside := hm
    exact ⟨inside, B.stay (by rw [hc]; rfl)⟩
  | down =>
    obtain ⟨hc, hpos⟩ := hm
    have := B.balance
    exact ⟨c :: inside, B.enter hc (by simp; omega)⟩
  | signal =>
    have := B.balance
    exact ⟨c :: inside, B.enter hm (by simp; omega)⟩
  | copy =>
    have hc : s.pc c = .copying := hm
    exact ⟨inside, B.stay (by rw [hc]; rfl)⟩
  | up => exact ⟨inside.erase c, B.leave hm⟩

end Callers.Balance

end Invariant

/-! ## Runs -/

section Run

variable {κ : Type}

/-- The interrupted waits of a run. -/
def signals (moves : List (κ × Move)) : ℕ := moves.countP (·.2 = .signal)

theorem signals_eq_zero {moves : List (κ × Move)} :
    signals moves = 0 ↔ ∀ m ∈ moves, m.2 ≠ .signal := by
  unfold signals
  rw [List.countP_eq_zero]
  exact forall₂_congr fun m _ => not_congr decide_eq_true_iff

variable [DecidableEq κ]

/-- The run lemma: every run keeps the balance. -/
theorem run_balance {s : Callers κ} {inside : List κ} {n : ℕ} (B : s.Balance inside n)
    {moves : List (κ × Move)} (hl : callerMachine.Legal s moves) :
    (callerMachine.run s moves).Ends fun r =>
      ∃ inside', r.2.Balance inside' (n + signals moves) := by
  induction moves generalizing s inside n with
  | nil => exact .of_eq rfl ⟨inside, B⟩
  | cons m moves ih =>
    obtain ⟨c, m⟩ := m
    have hs : callerMachine.step s (c, m) = .ok ((), callerStep s c m) := rfl
    obtain ⟨hm, hl⟩ := (Machine.legal_cons_of_step hs).mp hl
    obtain ⟨inside', B'⟩ := B.step hm
    obtain ⟨r, hr, inside'', B''⟩ := ih B' hl
    rw [Machine.run_cons_of_step hs, hr]
    refine .of_eq rfl ⟨inside'', ?_⟩
    have hcount : signals ((c, m) :: moves) = signals moves + if m = .signal then 1 else 0 := by
      unfold signals
      rw [List.countP_cons]
      simp
    rw [hcount, Nat.add_comm (signals moves), ← Nat.add_assoc]
    exact B''

/-- **Mutual exclusion.** Any number of callers, in any order: as long as no wait has been
interrupted, at most one of them copies, and with nobody inside the count is `1`. In a state with
nobody inside the count is `1` only if no wait has been interrupted. -/
theorem semaphore_exclusion {moves : List (κ × Move)}
    (hl : callerMachine.Legal (Callers.start κ) moves) :
    (callerMachine.run (Callers.start κ) moves).Ends fun r =>
      ((∀ m ∈ moves, m.2 ≠ .signal) → r.2.Exclusive) ∧
        (r.2.Idle → (r.2.count = 1 ↔ ∀ m ∈ moves, m.2 ≠ .signal)) := by
  have B : (Callers.start κ).Balance [] 0 :=
    ⟨List.nodup_nil, fun {c} => iff_of_false List.not_mem_nil Bool.false_ne_true, rfl⟩
  refine (run_balance B hl).mono ?_
  rintro ⟨os, s⟩ ⟨inside, B'⟩
  rw [Nat.zero_add] at B'
  refine ⟨fun h => ?_, fun h => ?_⟩
  · rw [signals_eq_zero.mpr h] at B'
    exact B'.exclusive
  · rw [← signals_eq_zero, B'.idle h]
    omega

end Run

/-- Two callers that wait for each other. -/
theorem semaphore_exclusion_sample :
    let moves : List (Bool × Move) := [(true, .call), (true, .down), (false, .call), (true, .copy),
      (true, .up), (false, .down)]
    (callerMachine.run (Callers.start Bool) moves).Ends fun r =>
      ((∀ m ∈ moves, m.2 ≠ .signal) → r.2.Exclusive) ∧
        (r.2.Idle → (r.2.count = 1 ↔ ∀ m ∈ moves, m.2 ≠ .signal)) :=
  semaphore_exclusion (by decide +kernel)

/-- An interrupted caller copies beside the one that holds the semaphore, and once both have left
the count is `2`. -/
theorem interrupted_copies :
    callerMachine.Legal (Callers.start Bool) [(true, .call), (true, .down), (false, .call),
        (false, .signal), (true, .copy), (false, .copy), (true, .up), (false, .up)] ∧
      ((callerMachine.run (Callers.start Bool) [(true, .call), (true, .down), (false, .call),
        (false, .signal)]).Ends fun r => r.2.pc true = .copying ∧ r.2.pc false = .copying) ∧
      (callerMachine.run (Callers.start Bool) [(true, .call), (true, .down), (false, .call),
        (false, .signal), (true, .copy), (false, .copy), (true, .up), (false, .up)]).Ends fun r =>
          (∀ c, (r.2.pc c).inside = false) ∧ r.2.count = 2 := by
  refine ⟨by decide +kernel, by decide +kernel, ?_⟩
  have h : (callerMachine.run (Callers.start Bool) [(true, .call), (true, .down), (false, .call),
      (false, .signal), (true, .copy), (false, .copy), (true, .up), (false, .up)]).Ends fun r =>
        (r.2.pc true).inside = false ∧ (r.2.pc false).inside = false ∧ r.2.count = 2 := by
    decide +kernel
  refine h.mono ?_
  rintro ⟨os, s⟩ ⟨h1, h2, h3⟩
  refine ⟨fun c => ?_, h3⟩
  cases c
  · exact h2
  · exact h1

end KernelGadgets.Cdev
