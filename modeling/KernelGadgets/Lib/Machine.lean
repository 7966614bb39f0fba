import KernelGadgets.Lib.Outcome

/-!
# Reactive machines, their runs and what runs preserve

A `Machine` answers one input after another. Its `step` is the code under study; `allowed` says
which inputs its environment may give in which state (the discipline of a client, the enabledness
of a step in a concurrent system). An interleaving of several parties is a sequence of inputs, each
naming the party that moves.

* `Legal s is`: every input of `is` is allowed in the state in which it is given.
* `run s is`: the answers to the inputs, and the state reached.
* `run_inv`: the invariant rule. A step that ends and keeps an invariant gives runs that do;
  in `run_hist` the invariant may speak of the inputs and answers so far, in `run_ghost` of a state
  that the inputs alone determine.
* `legal_of_forall`: legal are the sequences of inputs that are allowed under an invariant.
* `always_iff`, `always_iff_legal`: which runs meet a condition on every step, when this is up to
  their inputs, or to these and the states before them.
* `run_sim`: the simulation rule. A step matched by a deterministic abstract step gives runs with
  the same answers.
* `run_lockstep`: the same for a second machine, whose environment is shown to allow the inputs.
-/

namespace KernelGadgets

/-- A machine over states `σ` that answers inputs `ι` with outputs `ο`. -/
structure Machine (σ ι ο : Type) where
  allowed : σ → ι → Prop
  step : σ → ι → Outcome (ο × σ)

namespace Machine

variable {σ τ ι ο : Type} (M : Machine σ ι ο)

/-- The answers to a sequence of inputs, and the state after the last one. -/
def run : σ → List ι → Outcome (List ο × σ)
  | s, [] => .ok ([], s)
  | s, i :: is => do
    let (o, t) ← M.step s i
    let (os, u) ← run t is
    return (o :: os, u)

/-- Every input is allowed in the state in which it is given. -/
def Legal : σ → List ι → Prop
  | _, [] => True
  | s, i :: is => M.allowed s i ∧
      match M.step s i with
      | .ok (_, t) => Legal t is
      | _ => True

/-- The machine whose environment keeps to a further condition. -/
def guard (cond : σ → ι → Prop) : Machine σ ι ο where
  allowed s i := M.allowed s i ∧ cond s i
  step := M.step

instance (cond : σ → ι → Prop) [∀ s i, Decidable (M.allowed s i)] [∀ s i, Decidable (cond s i)]
    (s : σ) (i : ι) : Decidable ((M.guard cond).allowed s i) :=
  inferInstanceAs (Decidable (_ ∧ _))

instance decidableLegal [∀ s i, Decidable (M.allowed s i)] :
    ∀ s is, Decidable (M.Legal s is)
  | _, [] => .isTrue trivial
  | s, i :: is =>
    have : Decidable (match M.step s i with | .ok (_, t) => M.Legal t is | _ => True) :=
      match M.step s i with
      | .ok (_, t) => decidableLegal t is
      | .fault => .isTrue trivial
      | .diverge => .isTrue trivial
    inferInstanceAs (Decidable (_ ∧ _))

/-! ## Runs -/

@[simp] theorem run_nil (s : σ) : M.run s [] = .ok ([], s) := rfl

@[simp] theorem legal_nil (s : σ) : M.Legal s [] := trivial

variable {M}

theorem run_cons_of_step {s t : σ} {i : ι} {o : ο} (h : M.step s i = .ok (o, t)) (is : List ι) :
    M.run s (i :: is) = M.run t is >>= fun r => .ok (o :: r.1, r.2) := by
  rw [run, h]
  rfl

theorem run_cons_eq_fault {s t : σ} {i : ι} {o : ο}
    (h : M.step s i = .ok (o, t)) {is : List ι} :
    M.run s (i :: is) = .fault ↔ M.run t is = .fault := by
  rw [run_cons_of_step h]
  cases M.run t is <;> simp

theorem run_cons_eq_ok {s u : σ} {i : ι} {is : List ι} {os : List ο}
    (h : M.run s (i :: is) = .ok (os, u)) :
    ∃ o t os', M.step s i = .ok (o, t) ∧ M.run t is = .ok (os', u) ∧ os = o :: os' := by
  rw [run, Outcome.bind_eq_ok] at h
  obtain ⟨⟨o, t⟩, hs, h⟩ := h
  rw [Outcome.bind_eq_ok] at h
  obtain ⟨⟨os', u'⟩, hr, h⟩ := h
  simp only [Outcome.pure_eq, Outcome.ok.injEq, Prod.mk.injEq] at h
  obtain ⟨rfl, rfl⟩ := h
  exact ⟨o, t, os', hs, hr, rfl⟩

theorem legal_cons_of_step {s t : σ} {i : ι} {o : ο} (h : M.step s i = .ok (o, t)) {is : List ι} :
    M.Legal s (i :: is) ↔ M.allowed s i ∧ M.Legal t is := by
  rw [Legal, h]

theorem run_guard (cond : σ → ι → Prop) (s : σ) (is : List ι) :
    (M.guard cond).run s is = M.run s is := by
  induction is generalizing s with
  | nil => rfl
  | cons i is ih =>
    show (M.step s i >>= fun r => (M.guard cond).run r.2 is >>= fun q => .ok (r.1 :: q.1, q.2)) = _
    simp only [ih]
    rfl

/-- A weaker condition allows more. -/
theorem legal_guard_mono {cond cond' : σ → ι → Prop} (h : ∀ s i, cond s i → cond' s i) {s : σ}
    {is : List ι} (hl : (M.guard cond).Legal s is) : (M.guard cond').Legal s is := by
  induction is generalizing s with
  | nil => trivial
  | cons i is ih =>
    obtain ⟨⟨ha, hc⟩, hl⟩ := hl
    refine ⟨⟨ha, h s i hc⟩, ?_⟩
    show match M.step s i with | .ok (_, t) => (M.guard cond').Legal t is | _ => True
    have hl : match M.step s i with | .ok (_, t) => (M.guard cond).Legal t is | _ => True := hl
    cases hs : M.step s i with
    | ok r =>
      rw [hs] at hl
      exact ih hl
    | fault => trivial
    | diverge => trivial

/-- The part of a legal sequence after a prefix is legal where the prefix ends. -/
theorem legal_append {s t : σ} {is : List ι} {os : List ο} (h : M.run s is = .ok (os, t))
    {js : List ι} : M.Legal s (is ++ js) ↔ M.Legal s is ∧ M.Legal t js := by
  induction is generalizing s os with
  | nil =>
    obtain ⟨-, rfl⟩ : os = [] ∧ t = s := by simpa using h.symm
    simp
  | cons i is ih =>
    obtain ⟨o, s', os', hs, hr, rfl⟩ := run_cons_eq_ok h
    rw [List.cons_append, legal_cons_of_step hs, legal_cons_of_step hs, ih hr, and_assoc]

/-- Where everything is allowed, every sequence is legal. -/
theorem legal_of_allowed (h : ∀ s i, M.allowed s i) (s : σ) (is : List ι) : M.Legal s is := by
  induction is generalizing s with
  | nil => trivial
  | cons i is ih =>
    refine ⟨h s i, ?_⟩
    cases M.step s i with
    | ok r => exact ih r.2
    | fault => trivial
    | diverge => trivial

/-! ## The invariant rule -/

/-- **Invariants of runs and their histories.** An invariant may speak of the inputs answered so
far, each with its answer. -/
theorem run_hist {inv : σ → List (ι × ο) → Prop}
    (hstep : ∀ s h i, inv s h → M.allowed s i →
      (M.step s i).Ends fun r => inv r.2 (h ++ [(i, r.1)])) :
    ∀ {is : List ι} {s : σ} {h : List (ι × ο)}, inv s h → M.Legal s is →
      (M.run s is).Ends fun r => inv r.2 (h ++ is.zip r.1) := by
  intro is
  induction is with
  | nil => intro s h hs _; simpa using hs
  | cons i is ih =>
    intro s h hs hl
    obtain ⟨⟨o, t⟩, ht, hinv⟩ := hstep s h i hs hl.1
    obtain ⟨r, hr, hr'⟩ := ih hinv ((legal_cons_of_step ht).mp hl).2
    rw [run_cons_of_step ht, hr]
    refine Outcome.Ends.of_eq rfl ?_
    rwa [List.append_assoc] at hr'

/-- **Invariants of runs.** If every allowed step from a state of the invariant ends in a state of
the invariant, a legal sequence of inputs runs to its end and into the invariant. -/
theorem run_inv {inv : σ → Prop}
    (hstep : ∀ s i, inv s → M.allowed s i → (M.step s i).Ends fun r => inv r.2)
    {is : List ι} {s : σ} (hs : inv s) (hl : M.Legal s is) :
    (M.run s is).Ends fun r => inv r.2 := by
  exact @run_hist σ ι ο M (fun t _ => inv t) (fun t _ i ht ha => hstep t i ht ha) is s [] hs hl

/-- **Invariants with a ghost** that follows the inputs. -/
theorem run_ghost {γ : Type} {inv : σ → γ → Prop} (next : γ → ι → γ)
    (hstep : ∀ s c i, inv s c → M.allowed s i →
      (M.step s i).Ends fun r => inv r.2 (next c i)) :
    ∀ {is : List ι} {s : σ} {c : γ}, inv s c → M.Legal s is →
      (M.run s is).Ends fun r => inv r.2 (is.foldl next c) := by
  intro is
  induction is with
  | nil => intro s c hs _; simpa using hs
  | cons i is ih =>
    intro s c hs hl
    obtain ⟨⟨o, t⟩, ht, hinv⟩ := hstep s c i hs hl.1
    obtain ⟨r, hr, hr'⟩ := ih hinv ((legal_cons_of_step ht).mp hl).2
    rw [run_cons_of_step ht, hr]
    exact Outcome.Ends.of_eq rfl hr'

/-- Inputs that are allowed wherever an invariant holds, and keep it, make a legal sequence. -/
theorem legal_of_forall {good : ι → Prop} {inv : σ → Prop}
    (hstep : ∀ s i, inv s → good i → M.allowed s i ∧ (M.step s i).Ends fun r => inv r.2)
    {is : List ι} {s : σ} (hs : inv s) (h : ∀ i ∈ is, good i) : M.Legal s is := by
  induction is generalizing s with
  | nil => trivial
  | cons i is ih =>
    rw [List.forall_mem_cons] at h
    obtain ⟨ha, ⟨o, t⟩, ht, hinv⟩ := hstep s i hs h.1
    exact (legal_cons_of_step ht).mpr ⟨ha, ih hinv h.2⟩

/-! ## Conditions on every step -/

variable (M) in
/-- Every step of the run ends and meets a condition on the state, the input and what comes of
it. -/
def Always (cond : σ → ι → ο × σ → Prop) : σ → List ι → Prop
  | _, [] => True
  | s, i :: is => (M.step s i).Ends fun r => cond s i r ∧ Always cond r.2 is

/-- **Runs of good inputs.** Where a good input meets the condition and keeps an invariant, and any
other input breaks the condition, the runs that meet it throughout are those of good inputs. -/
theorem always_iff {cond : σ → ι → ο × σ → Prop} (good : ι → Prop) {inv : σ → Prop}
    (hgood : ∀ s i, inv s → M.allowed s i → good i →
      (M.step s i).Ends fun r => cond s i r ∧ inv r.2)
    (hbad : ∀ s i, inv s → M.allowed s i → (M.step s i).Ends (cond s i) → good i)
    {is : List ι} {s : σ} (hs : inv s) (hl : M.Legal s is) :
    M.Always cond s is ↔ ∀ i ∈ is, good i := by
  induction is generalizing s with
  | nil => exact ⟨fun _ i hi => absurd hi List.not_mem_nil, fun _ => trivial⟩
  | cons i is ih =>
    rw [List.forall_mem_cons]
    constructor
    · rintro ⟨⟨o, t⟩, ht, hcond, hrest⟩
      have hi := hbad s i hs hl.1 ⟨(o, t), ht, hcond⟩
      obtain ⟨-, hinv⟩ := (hgood s i hs hl.1 hi).value ht
      exact ⟨hi, (ih hinv ((legal_cons_of_step ht).mp hl).2).mp hrest⟩
    · rintro ⟨hi, his⟩
      obtain ⟨⟨o, t⟩, ht, hcond, hinv⟩ := hgood s i hs hl.1 hi
      exact ⟨(o, t), ht, hcond, (ih hinv ((legal_cons_of_step ht).mp hl).2).mpr his⟩

/-- **Runs that meet a condition** on every step are the legal ones of the environment that keeps to
it, where a step shows by its input and the state before it whether it meets the condition. -/
theorem always_iff_legal {cond : σ → ι → ο × σ → Prop} {good : σ → ι → Prop} {inv : σ → Prop}
    (hstep : ∀ s i, inv s → M.allowed s i →
      (M.step s i).Ends fun r => inv r.2 ∧ (cond s i r ↔ good s i))
    {is : List ι} {s : σ} (hs : inv s) (hl : M.Legal s is) :
    M.Always cond s is ↔ (M.guard good).Legal s is := by
  induction is generalizing s with
  | nil => exact Iff.rfl
  | cons i is ih =>
    obtain ⟨⟨o, t⟩, ht, hinv, hgood⟩ := hstep s i hs hl.1
    have hrest := ih hinv ((legal_cons_of_step ht).mp hl).2
    have hguard : (M.guard good).step s i = .ok (o, t) := ht
    rw [legal_cons_of_step hguard, ← hrest]
    constructor
    · intro h
      obtain ⟨hcond, hr'⟩ := Outcome.Ends.value h ht
      exact ⟨⟨hl.1, hgood.mp hcond⟩, hr'⟩
    · rintro ⟨⟨-, hi⟩, hr'⟩
      exact ⟨(o, t), ht, hgood.mpr hi, hr'⟩

/-! ## The simulation rule -/

/-- The answers and the last state of a deterministic abstract machine. -/
def specRun (spec : τ → ι → ο × τ) : τ → List ι → List ο × τ
  | a, [] => ([], a)
  | a, i :: is =>
    let (o, b) := spec a i
    let (os, c) := specRun spec b is
    (o :: os, c)

@[simp] theorem specRun_nil (spec : τ → ι → ο × τ) (a : τ) : specRun spec a [] = ([], a) := rfl

theorem specRun_cons (spec : τ → ι → ο × τ) (a : τ) (i : ι) (is : List ι) :
    specRun spec a (i :: is) =
      ((spec a i).1 :: (specRun spec (spec a i).2 is).1, (specRun spec (spec a i).2 is).2) := rfl

theorem specRun_append (spec : τ → ι → ο × τ) (a : τ) (is js : List ι) :
    specRun spec a (is ++ js) =
      ((specRun spec a is).1 ++ (specRun spec (specRun spec a is).2 js).1,
        (specRun spec (specRun spec a is).2 js).2) := by
  induction is generalizing a with
  | nil => rfl
  | cons i is ih => rw [List.cons_append, specRun_cons, ih]; rfl

/-- **Simulation.** If every allowed step from related states ends with the answer of the abstract
step, in related states, a legal run gives the answers of the abstract run. -/
theorem run_sim {spec : τ → ι → ο × τ} {rel : σ → τ → Prop}
    (hstep : ∀ s a i, rel s a → M.allowed s i →
      (M.step s i).Ends fun r => r.1 = (spec a i).1 ∧ rel r.2 (spec a i).2) :
    ∀ {is : List ι} {s : σ} {a : τ}, rel s a → M.Legal s is →
      (M.run s is).Ends fun r => r.1 = (specRun spec a is).1 ∧ rel r.2 (specRun spec a is).2 := by
  intro is
  induction is with
  | nil => intro s a hs _; simpa using hs
  | cons i is ih =>
    intro s a hs hl
    obtain ⟨⟨o, t⟩, ht, ho, hrel⟩ := hstep s a i hs hl.1
    obtain ⟨r, hr, hos, hr'⟩ := ih hrel ((legal_cons_of_step ht).mp hl).2
    rw [run_cons_of_step ht, hr]
    refine Outcome.Ends.of_eq rfl ⟨?_, hr'⟩
    rw [specRun_cons, ← ho, ← hos]

/-- **Lockstep.** If every step allowed to one machine is allowed to another one in a related state,
and both answer alike and stay related, then so it is for legal runs. -/
theorem run_lockstep {N : Machine τ ι ο} {rel : σ → τ → Prop}
    (hstep : ∀ s t i, rel s t → M.allowed s i → N.allowed t i ∧
      ∃ o s' t', M.step s i = .ok (o, s') ∧ N.step t i = .ok (o, t') ∧ rel s' t') :
    ∀ {is : List ι} {s : σ} {t : τ}, rel s t → M.Legal s is → N.Legal t is ∧
      ∃ os s' t', M.run s is = .ok (os, s') ∧ N.run t is = .ok (os, t') ∧ rel s' t' := by
  intro is
  induction is with
  | nil =>
    intro s t hrel _
    exact ⟨trivial, [], s, t, rfl, rfl, hrel⟩
  | cons i is ih =>
    intro s t hrel hl
    obtain ⟨ha, o, s', t', hs, ht, hrel'⟩ := hstep s t i hrel hl.1
    obtain ⟨hl', os, s'', t'', hs', ht', hrel''⟩ := ih hrel' ((legal_cons_of_step hs).mp hl).2
    refine ⟨(legal_cons_of_step ht).mpr ⟨ha, hl'⟩, o :: os, s'', t'', ?_, ?_, hrel''⟩
    · rw [run_cons_of_step hs, hs']
      rfl
    · rw [run_cons_of_step ht, ht']
      rfl

end Machine

end KernelGadgets
