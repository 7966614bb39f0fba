import KernelGadgets.Lib.Outcome

/-!
# Programs with a state and their triples

A `Program` changes a state on its way to an outcome. `Triple F D P x Q` says that `x`, started in
a state of `P`, ends in `Q`, except that it may have undefined behaviour if `F` holds and may use up
its fuel if `D` holds. With `F` and `D` false it is total correctness, with both true it speaks of
the runs that end only.

`Instruments f R x' x` says that `x'` is `x` with instruments: it has a larger state, on the image
of which under `f` it does what `x` does, and what it records goes along `R`.
-/

namespace KernelGadgets

/-- A program over states `σ` with a result in `α`. -/
abbrev Program (σ α : Type) := StateT σ Outcome α

/-- From a state of `P` the program ends in `Q`, with the excuses `F` for undefined behaviour and
`D` for a loop that is still running. -/
def Triple {σ α : Type} (F D : Prop) (P : σ → Prop) (x : Program σ α) (Q : α → σ → Prop) : Prop :=
  ∀ s, P s →
    match x s with
    | .ok (a, t) => Q a t
    | .fault => F
    | .diverge => D

variable {σ α β : Type} {F D : Prop}

namespace Program

@[simp] theorem pure_apply (a : α) (s : σ) : (pure a : Program σ α) s = .ok (a, s) := rfl

@[simp] theorem bind_apply (x : Program σ α) (f : α → Program σ β) (s : σ) :
    (x >>= f) s = x s >>= fun r => f r.1 r.2 := rfl

/-- A part that ends determines how the whole goes on. -/
theorem bind_of_eq {x : Program σ α} {f : α → Program σ β} {s t : σ} {a : α}
    (h : x s = .ok (a, t)) : (x >>= f) s = f a t := by
  rw [bind_apply, h]
  rfl

/-- Undefined behaviour. -/
def fault : Program σ α := fun _ => .fault

/-- Fuel used up. -/
def diverge : Program σ α := fun _ => .diverge

/-- A part that does not touch the state. -/
def lift (x : Outcome α) : Program σ α := fun s => x >>= fun a => .ok (a, s)

@[simp] theorem lift_ok (a : α) (s : σ) : (lift (.ok a) : Program σ α) s = .ok (a, s) := rfl

end Program

namespace Triple

variable {P P' : σ → Prop} {x : Program σ α} {Q Q' : α → σ → Prop}

/-- What a triple says of a run that ends. -/
theorem post (h : Triple F D P x Q) {s t : σ} {a : α} (hs : P s) (hx : x s = .ok (a, t)) :
    Q a t := by
  have hmatch := h s hs
  rw [hx] at hmatch
  exact hmatch

theorem not_fault (h : Triple F D P x Q) {s : σ} (hs : P s) (hF : ¬F) : x s ≠ .fault := by
  intro hx
  have hmatch := h s hs
  rw [hx] at hmatch
  exact hF hmatch

/-- Total correctness. -/
theorem ends (h : Triple False False P x Q) {s : σ} (hs : P s) :
    (x s).Ends fun r => Q r.1 r.2 := by
  have hmatch := h s hs
  cases hx : x s with
  | ok r =>
    rw [hx] at hmatch
    exact Outcome.Ends.of_eq rfl hmatch
  | fault =>
    rw [hx] at hmatch
    exact hmatch.elim
  | diverge =>
    rw [hx] at hmatch
    exact hmatch.elim

theorem mono (h : Triple F D P x Q) (hP : ∀ s, P' s → P s) (hQ : ∀ a s, Q a s → Q' a s) :
    Triple F D P' x Q' := by
  intro s hs
  have hmatch := h s (hP s hs)
  cases hx : x s with
  | ok r =>
    rw [hx] at hmatch
    exact hQ _ _ hmatch
  | fault =>
    rw [hx] at hmatch
    exact hmatch
  | diverge =>
    rw [hx] at hmatch
    exact hmatch

theorem bind {f : α → Program σ β} {R : β → σ → Prop} (hx : Triple F D P x Q)
    (hf : ∀ a, Triple F D (Q a) (f a) R) : Triple F D P (x >>= f) R := by
  intro s hs
  have hmatch := hx s hs
  rw [Program.bind_apply]
  cases h : x s with
  | ok r =>
    rw [h] at hmatch
    exact hf r.1 r.2 hmatch
  | fault =>
    rw [h] at hmatch
    exact hmatch
  | diverge =>
    rw [h] at hmatch
    exact hmatch

theorem pure {a : α} (h : ∀ s, P s → Q a s) : Triple F D P (Pure.pure a) Q :=
  fun s hs => h s hs

/-- A triple may be shown for each state alone. -/
theorem forall_state (h : ∀ s, P s → Triple F D (fun t => t = s) x Q) : Triple F D P x Q :=
  fun s hs => h s hs s rfl

/-- A part of the condition that does not depend on the state. -/
theorem pre {c : Prop} (h : c → Triple F D P x Q) : Triple F D (fun s => c ∧ P s) x Q :=
  fun s hs => h hs.1 s hs.2

/-- A program that ends on every state of `P`, with a state it computes. -/
theorem of_eq {g : σ → α × σ} (hx : ∀ s, P s → x s = .ok (g s))
    (hQ : ∀ s, P s → Q (g s).1 (g s).2) : Triple F D P x Q := by
  intro s hs
  rw [hx s hs]
  exact hQ s hs

/-- Programs that agree on the states of `P` have the same triples. -/
theorem congr {y : Program σ α} (h : Triple F D P y Q) (hxy : ∀ s, P s → x s = y s) :
    Triple F D P x Q := by
  intro s hs
  rw [hxy s hs]
  exact h s hs

theorem fault (hF : F) : Triple F D P (Program.fault : Program σ α) Q := fun _ _ => hF

theorem diverge (hD : D) : Triple F D P (Program.diverge : Program σ α) Q := fun _ _ => hD

end Triple

/-! ## Instruments -/

/-- On states that `f` takes to those of `x`, the program `x'` does what `x` does, and a run of it
that ends takes its state along `R`. -/
structure Instruments {σ τ α : Type} (f : τ → σ) (R : τ → τ → Prop) (x' : Program τ α)
    (x : Program σ α) : Prop where
  run : ∀ t, x (f t) = x' t >>= fun r => .ok (r.1, f r.2)
  moves : ∀ {t t' : τ} {a : α}, x' t = .ok (a, t') → R t t'

namespace Instruments

variable {τ : Type} {f : τ → σ} {R : τ → τ → Prop} {x' : Program τ α} {x : Program σ α}

/-- A program that ends on every state, with a state it computes. -/
theorem of_eq {g : τ → α × τ} (hx' : ∀ t, x' t = .ok (g t))
    (hx : ∀ t, x (f t) = .ok ((g t).1, f (g t).2)) (hR : ∀ t, R t (g t).2) :
    Instruments f R x' x where
  run t := by
    rw [hx' t, hx t]
    rfl
  moves {t t' a} h := by
    have hmoved := hR t
    rw [Outcome.ok.inj ((hx' t).symm.trans h)] at hmoved
    exact hmoved

theorem pure (hrefl : ∀ t, R t t) (a : α) :
    Instruments f R (Pure.pure a : Program τ α) (Pure.pure a) :=
  of_eq (g := fun t => (a, t)) (fun _ => rfl) (fun _ => rfl) hrefl

theorem bind (htrans : ∀ {t u v}, R t u → R u v → R t v) {y' : α → Program τ β}
    {y : α → Program σ β} (hx : Instruments f R x' x) (hy : ∀ a, Instruments f R (y' a) (y a)) :
    Instruments f R (x' >>= y') (x >>= y) where
  run t := by
    rw [Program.bind_apply, Program.bind_apply, hx.run]
    cases h : x' t with
    | ok r => exact (hy r.1).run r.2
    | fault => rfl
    | diverge => rfl
  moves {t t' b} h := by
    rw [Program.bind_apply, Outcome.bind_eq_ok] at h
    obtain ⟨⟨a, u⟩, ha, hb⟩ := h
    exact htrans (hx.moves ha) ((hy a).moves hb)

theorem lift (hrefl : ∀ t, R t t) (x : Outcome α) :
    Instruments f R (Program.lift x) (Program.lift x) := by
  cases x with
  | ok a => exact pure hrefl a
  | fault => exact ⟨fun _ => rfl, fun h => by cases h⟩
  | diverge => exact ⟨fun _ => rfl, fun h => by cases h⟩

theorem diverge : Instruments f R (Program.diverge : Program τ α) Program.diverge :=
  ⟨fun _ => rfl, fun h => by cases h⟩

end Instruments

end KernelGadgets
