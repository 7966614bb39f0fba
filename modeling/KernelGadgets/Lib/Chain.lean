import Mathlib.Logic.Function.Basic
import Mathlib.Data.List.Nodup

/-!
# Linked chains over a successor function

A linked list in memory is a successor function `next` on the cells, a head, and a value `nil` that
marks the end. `Links next h xs t` says that following `next` from `h` passes through `xs` and
arrives at `t`; `Chain next nil h xs` is the list `xs` that starts at `h` and ends in `nil`.

A chain ends, so it has no cell twice (`Chain.nodup`).
`next` changes by `Function.update`, one link at a time. A change at a cell that is not on a chain
leaves the chain alone (`Chain.update`); `Chain.snoc` links a cell in at the tail, `Chain.tail`
takes the head off, and `Chain.unlink` takes a later cell out.
-/

namespace KernelGadgets

variable {ι : Type*}

/-- Following `next` from `h` passes through `xs` and arrives at `t`. -/
def Links (next : ι → ι) : ι → List ι → ι → Prop
  | h, [], t => h = t
  | h, x :: xs, t => h = x ∧ Links next (next x) xs t

/-- The list that starts at `h`, runs along `next` and ends in `nil`. -/
structure Chain (next : ι → ι) (nil h : ι) (xs : List ι) : Prop where
  links : Links next h xs nil
  nil_notMem : nil ∉ xs

namespace Links

variable {next next' : ι → ι} {h t : ι} {xs ys : List ι}

@[simp] theorem nil_iff : Links next h [] t ↔ h = t := Iff.rfl

@[simp] theorem cons_iff {x : ι} : Links next h (x :: xs) t ↔ h = x ∧ Links next (next x) xs t :=
  Iff.rfl

theorem append_iff : Links next h (xs ++ ys) t ↔ ∃ m, Links next h xs m ∧ Links next m ys t := by
  induction xs generalizing h with
  | nil => simp
  | cons x xs ih => simp [ih, and_assoc]

theorem snoc_iff {x : ι} : Links next h (xs ++ [x]) t ↔ Links next h xs x ∧ next x = t := by
  rw [append_iff]
  constructor
  · rintro ⟨m, hm, rfl, hx⟩
    exact ⟨hm, hx⟩
  · rintro ⟨hm, hx⟩
    exact ⟨x, hm, rfl, hx⟩

/-- Only the successors of the cells passed matter. -/
theorem congr (hl : Links next h xs t) (he : ∀ x ∈ xs, next' x = next x) :
    Links next' h xs t := by
  induction xs generalizing h with
  | nil => exact hl
  | cons x xs ih =>
    obtain ⟨rfl, hl⟩ := hl
    refine ⟨rfl, ?_⟩
    rw [he h List.mem_cons_self]
    exact ih hl fun y hy => he y (List.mem_cons_of_mem _ hy)

/-- A cell that is passed is the first one or the successor of a cell. -/
theorem eq_or_next {y : ι} (hl : Links next h xs t) (hy : y ∈ xs) : y = h ∨ ∃ z, next z = y := by
  induction xs generalizing h with
  | nil => exact absurd hy List.not_mem_nil
  | cons x xs ih =>
    obtain ⟨rfl, hl⟩ := hl
    rcases List.mem_cons.mp hy with rfl | hy
    · exact .inl rfl
    · exact .inr ((ih hl hy).elim (fun e => ⟨h, e.symm⟩) id)

/-- The cells `0, …, m - 1` linked upwards. -/
theorem range {next : ℕ → ℕ} {m : ℕ} (h : ∀ x < m, next x = x + 1) :
    Links next 0 (List.range m) m := by
  induction m with
  | zero => rfl
  | succ m ih =>
    rw [List.range_succ, snoc_iff]
    exact ⟨ih fun x hx => h x (by omega), h m (by omega)⟩

theorem update [DecidableEq ι] (hl : Links next h xs t) {y : ι} (hy : y ∉ xs) (v : ι) :
    Links (Function.update next y v) h xs t :=
  hl.congr fun _ hx => Function.update_of_ne (ne_of_mem_of_not_mem hx hy) v next

end Links

namespace Chain

variable {next next' : ι → ι} {nil h : ι} {xs ys : List ι}

theorem nil_iff : Chain next nil h [] ↔ h = nil :=
  ⟨fun c => c.links, fun e => ⟨e, List.not_mem_nil⟩⟩

theorem cons_iff {x : ι} :
    Chain next nil h (x :: xs) ↔ h = x ∧ x ≠ nil ∧ Chain next nil (next x) xs := by
  constructor
  · rintro ⟨⟨rfl, hl⟩, hn⟩
    rw [List.mem_cons, not_or] at hn
    exact ⟨rfl, Ne.symm hn.1, hl, hn.2⟩
  · rintro ⟨rfl, hx, hl, hn⟩
    exact ⟨⟨rfl, hl⟩, by simp [Ne.symm hx, hn]⟩

/-- The head of a chain is `nil` exactly when the chain is empty. -/
theorem head_eq_nil_iff (c : Chain next nil h xs) : h = nil ↔ xs = [] := by
  cases xs with
  | nil => simpa using c.links
  | cons x xs =>
    obtain ⟨rfl, hx, -⟩ := cons_iff.mp c
    simp [hx]

/-- A head determines its chain. -/
theorem unique (c : Chain next nil h xs) (c' : Chain next nil h ys) : xs = ys := by
  induction xs generalizing h ys with
  | nil =>
    have hh : h = nil := c.links
    exact ((c'.head_eq_nil_iff).mp hh).symm
  | cons x xs ih =>
    obtain ⟨rfl, hx, hc⟩ := cons_iff.mp c
    cases ys with
    | nil => exact absurd c'.links hx
    | cons y ys =>
      obtain ⟨rfl, -, hc'⟩ := cons_iff.mp c'
      rw [ih hc hc']

/-- A chain passes each cell once: from a cell passed twice on it would not end. -/
theorem nodup (c : Chain next nil h xs) : xs.Nodup := by
  induction xs generalizing h with
  | nil => exact List.nodup_nil
  | cons x xs ih =>
    obtain ⟨rfl, hx, hc⟩ := cons_iff.mp c
    refine List.nodup_cons.mpr ⟨fun hmem => ?_, ih hc⟩
    obtain ⟨ys, zs, rfl⟩ := List.append_of_mem hmem
    obtain ⟨m, -, rfl, hl⟩ := Links.append_iff.mp hc.links
    have hback : Chain next nil m (m :: zs) := by
      refine ⟨⟨rfl, hl⟩, fun hn => hc.nil_notMem ?_⟩
      exact List.mem_append_right ys hn
    have hlen := congrArg List.length (c.unique hback)
    simp at hlen
    omega

/-- A chain determines its head. -/
theorem head_unique {h' : ι} (c : Chain next nil h xs) (c' : Chain next' nil h' xs) : h = h' := by
  cases xs with
  | nil => exact (nil_iff.mp c).trans (nil_iff.mp c').symm
  | cons x xs => exact (cons_iff.mp c).1.trans (cons_iff.mp c').1.symm

/-- A chain determines the links of its cells. -/
theorem next_unique {h' y : ι} (c : Chain next nil h xs) (c' : Chain next' nil h' xs)
    (hy : y ∈ xs) : next y = next' y := by
  induction xs generalizing h h' with
  | nil => exact absurd hy List.not_mem_nil
  | cons x xs ih =>
    obtain ⟨-, -, hc⟩ := cons_iff.mp c
    obtain ⟨-, -, hc'⟩ := cons_iff.mp c'
    rcases List.mem_cons.mp hy with rfl | hy
    · exact hc.head_unique hc'
    · exact ih hc hc' hy

theorem next_last {x : ι} (c : Chain next nil h (xs ++ [x])) : next x = nil :=
  (Links.snoc_iff.mp c.links).2

/-- A single cell whose link is `nil`. -/
theorem single {x : ι} (hx : x ≠ nil) (hn : next x = nil) : Chain next nil x [x] :=
  cons_iff.mpr ⟨rfl, hx, nil_iff.mpr hn⟩

theorem congr (c : Chain next nil h xs) (he : ∀ x ∈ xs, next' x = next x) :
    Chain next' nil h xs :=
  ⟨c.links.congr he, c.nil_notMem⟩

section Update

variable [DecidableEq ι]

/-- A changed link of a cell off the chain leaves the chain alone. -/
theorem update (c : Chain next nil h xs) {y : ι} (hy : y ∉ xs) (v : ι) :
    Chain (Function.update next y v) nil h xs :=
  ⟨c.links.update hy v, c.nil_notMem⟩

/-- Taking the head off. -/
theorem tail {x : ι} (c : Chain next nil h (x :: xs)) (hx : x ∉ xs) :
    Chain (Function.update next x nil) nil (next x) xs :=
  (cons_iff.mp c).2.2.update hx nil

/-- Linking `y` in behind the last cell `x`. -/
theorem snoc {x y : ι} (c : Chain next nil h (xs ++ [x])) (hx : x ∉ xs) (hy : y ≠ nil)
    (hxy : x ≠ y) (hn : next y = nil) :
    Chain (Function.update next x y) nil h (xs ++ [x] ++ [y]) := by
  obtain ⟨hl, -⟩ := Links.snoc_iff.mp c.links
  refine ⟨Links.snoc_iff.mpr ⟨Links.snoc_iff.mpr ⟨hl.update hx y, ?_⟩, ?_⟩, ?_⟩
  · exact Function.update_self x y next
  · rw [Function.update_of_ne (Ne.symm hxy), hn]
  · rw [List.mem_append, not_or]
    exact ⟨c.nil_notMem, by simpa using Ne.symm hy⟩

/-- Taking `y` out from behind `x`. -/
theorem unlink {x y : ι} (c : Chain next nil h (xs ++ x :: y :: ys))
    (hn : (xs ++ x :: y :: ys).Nodup) :
    Chain (Function.update (Function.update next x (next y)) y nil) nil h (xs ++ x :: ys) := by
  obtain ⟨m, hl, hm⟩ := Links.append_iff.mp c.links
  obtain ⟨rfl, hm⟩ := Links.cons_iff.mp hm
  obtain ⟨-, hm⟩ := Links.cons_iff.mp hm
  simp only [List.nodup_append, List.nodup_cons, List.mem_cons, not_or] at hn
  obtain ⟨-, ⟨⟨hxy, hxys⟩, hyys, -⟩, hd⟩ := hn
  have hxs : m ∉ xs := fun h' => hd m h' m (.inl rfl) rfl
  have hys : y ∉ xs := fun h' => hd y h' y (.inr (.inl rfl)) rfl
  refine ⟨Links.append_iff.mpr ⟨m, (hl.update hxs _).update hys _, rfl, ?_⟩, ?_⟩
  · rw [Function.update_of_ne hxy, Function.update_self]
    exact (hm.update hxys _).update hyys _
  · intro h'
    exact c.nil_notMem (by
      rcases List.mem_append.mp h' with h' | h'
      · exact List.mem_append_left _ h'
      · rcases List.mem_cons.mp h' with h' | h' <;> simp [h'])

end Update

end Chain

end KernelGadgets
