import Mathlib.Tactic.Common

/-!
# Outcomes of C code

A piece of C code either comes to a value, runs into undefined behaviour (an access outside the
object it is given, an overflowing signed addition), or is still in a loop when the iterations
granted to it are used up. `Outcome` is the monad of these three ends. Undefined behaviour is an
end of its own, so a theorem `f x = .ok y` says in particular that `f` stays inside its objects.
-/

namespace KernelGadgets

universe u v

/-- What running a piece of C code comes to. -/
inductive Outcome (α : Type u) where
  /-- The code ends with a value. -/
  | ok (a : α)
  /-- The code has undefined behaviour. -/
  | fault
  /-- The iterations granted to a loop are used up. -/
  | diverge
  deriving DecidableEq, Repr

namespace Outcome

variable {α β : Type u}

/-- Sequencing: the first end other than a value is the end of the whole. -/
protected def bind (x : Outcome α) (f : α → Outcome β) : Outcome β :=
  match x with
  | ok a => f a
  | fault => fault
  | diverge => diverge

instance : Monad Outcome where
  pure := ok
  bind := Outcome.bind

@[simp] theorem pure_eq (a : α) : (pure a : Outcome α) = ok a := rfl

@[simp] theorem ok_bind (a : α) (f : α → Outcome β) : (ok a >>= f) = f a := rfl

@[simp] theorem fault_bind (f : α → Outcome β) : ((fault : Outcome α) >>= f) = fault := rfl

@[simp] theorem diverge_bind (f : α → Outcome β) : ((diverge : Outcome α) >>= f) = diverge := rfl

/-- A sequence that comes to a value went through a value of its first part. -/
theorem bind_eq_ok {x : Outcome α} {f : α → Outcome β} {b : β} :
    (x >>= f) = ok b ↔ ∃ a, x = ok a ∧ f a = ok b := by
  cases x <;> simp

/-- The code ends with a value that satisfies `P`. -/
def Ends (x : Outcome α) (P : α → Prop) : Prop :=
  ∃ a, x = ok a ∧ P a

theorem Ends.of_eq {x : Outcome α} {P : α → Prop} {a : α} (h : x = ok a) (hP : P a) : x.Ends P :=
  ⟨a, h, hP⟩

theorem Ends.mono {x : Outcome α} {P Q : α → Prop} (h : x.Ends P) (hPQ : ∀ a, P a → Q a) :
    x.Ends Q := by
  obtain ⟨a, ha, hP⟩ := h
  exact ⟨a, ha, hPQ a hP⟩

/-- What the code ends with is the value it comes to. -/
theorem Ends.value {x : Outcome α} {P : α → Prop} {a : α} (h : x.Ends P) (ha : x = ok a) : P a := by
  obtain ⟨b, hb, hP⟩ := h
  cases hb.symm.trans ha
  exact hP

@[simp] theorem ends_ok {P : α → Prop} {a : α} : (ok a).Ends P ↔ P a := by
  simp [Ends]

@[simp] theorem not_ends_fault {P : α → Prop} : ¬ (fault : Outcome α).Ends P := by
  simp [Ends]

@[simp] theorem not_ends_diverge {P : α → Prop} : ¬ (diverge : Outcome α).Ends P := by
  simp [Ends]

instance {P : α → Prop} [DecidablePred P] : ∀ x : Outcome α, Decidable (x.Ends P)
  | ok a => decidable_of_iff (P a) ends_ok.symm
  | fault => .isFalse not_ends_fault
  | diverge => .isFalse not_ends_diverge

/-- The code has no undefined behaviour, and a value it ends with satisfies `P`. It may not end. -/
def Safe (x : Outcome α) (P : α → Prop) : Prop :=
  match x with
  | ok a => P a
  | fault => False
  | diverge => True

@[simp] theorem safe_ok {P : α → Prop} {a : α} : (ok a).Safe P ↔ P a := Iff.rfl

@[simp] theorem safe_diverge {P : α → Prop} : (diverge : Outcome α).Safe P := trivial

theorem Safe.mono {x : Outcome α} {P Q : α → Prop} (h : x.Safe P) (hPQ : ∀ a, P a → Q a) :
    x.Safe Q := by
  cases x with
  | ok a => exact hPQ a h
  | fault => exact h
  | diverge => trivial

theorem Safe.bind {x : Outcome α} {f : α → Outcome β} {P : α → Prop} {Q : β → Prop}
    (h : x.Safe P) (hf : ∀ a, P a → (f a).Safe Q) : (x >>= f).Safe Q := by
  cases x with
  | ok a => exact hf a h
  | fault => exact h
  | diverge => trivial

end Outcome

end KernelGadgets
