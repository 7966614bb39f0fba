import KernelGadgets.Lib.Machine

/-!
# Answers with a lag

A server answers one input after another. Behind a queue that still holds answers, every input is
met with the oldest one instead, and its own goes to the end of the queue (`lagged`). The answers
come in order, but never catch up (`specRun_lagged`).
-/

namespace KernelGadgets.Machine

variable {τ ι ο : Type} (spec : τ → ι → ο × τ)

/-- The server behind a queue of answers that were not collected. -/
def lagged (a : τ × List ο) (i : ι) : ο × τ × List ο :=
  let (o, t) := spec a.1 i
  match a.2 with
  | [] => (o, t, [])
  | q :: qs => (q, t, qs ++ [o])

/-- **A lag stays.** The answers are those of the queue and then those of the server, and the queue
keeps its length. -/
theorem specRun_lagged (a : τ) (queue : List ο) (is : List ι) :
    specRun (lagged spec) (a, queue) is =
      ((queue ++ (specRun spec a is).1).take is.length,
        (specRun spec a is).2, (queue ++ (specRun spec a is).1).drop is.length) := by
  induction is generalizing a queue with
  | nil => simp
  | cons i is ih =>
    cases queue with
    | nil =>
      rw [specRun_cons, specRun_cons, lagged, ih]
      rfl
    | cons q qs =>
      rw [specRun_cons, specRun_cons, lagged, ih]
      simp

/-- Of the answers that are paired with inputs, those beyond them do not count. -/
theorem zipWith_take_length {α β γ : Type} (f : α → β → γ) (as : List α) (bs : List β) :
    List.zipWith f as (bs.take as.length) = List.zipWith f as bs := by
  induction as generalizing bs with
  | nil => rfl
  | cons a as ih =>
    cases bs with
    | nil => rfl
    | cons b bs => rw [List.length_cons, List.take_succ_cons, List.zipWith_cons_cons, ih,
        List.zipWith_cons_cons]

end KernelGadgets.Machine
