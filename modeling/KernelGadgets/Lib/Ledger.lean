import Mathlib.Data.List.Nodup

/-!
# Ledgers: every token in exactly one place

Tokens lie at places, each place holding a list of them. A `Ledger` says that the tokens of a set
lie at exactly one place each, once, and that nothing else lies anywhere. An operation that takes a
token from one place and puts it at another keeps the ledger (`Ledger.move`).
-/

namespace KernelGadgets

variable {π ι : Type*}

/-- Each token of `tokens` lies at exactly one place, once, and no other token lies anywhere. -/
structure Ledger (place : π → List ι) (tokens : ι → Prop) : Prop where
  nodup : ∀ p, (place p).Nodup
  once : ∀ {p q i}, i ∈ place p → i ∈ place q → p = q
  cover : ∀ {i}, tokens i ↔ ∃ p, i ∈ place p

namespace Ledger

variable {place place' : π → List ι} {tokens : ι → Prop}

theorem token (L : Ledger place tokens) {p : π} {i : ι} (h : i ∈ place p) : tokens i :=
  L.cover.mpr ⟨p, h⟩

theorem notMem_of_ne (L : Ledger place tokens) {p q : π} {i : ι} (h : i ∈ place p)
    (hpq : p ≠ q) : i ∉ place q :=
  fun h' => hpq (L.once h h')

/-- Exactly one place, as one statement. -/
theorem existsUnique (L : Ledger place tokens) {i : ι} (h : tokens i) : ∃! p, i ∈ place p := by
  obtain ⟨p, hp⟩ := L.cover.mp h
  exact ⟨p, hp, fun q hq => L.once hq hp⟩

/-- **Moving a token.** The token `x` leaves the place `p` for the place `q`. -/
theorem move (L : Ledger place tokens) {p q : π} {x : ι} (hpq : p ≠ q)
    (hp : (place p).Perm (x :: place' p)) (hq : (place' q).Perm (x :: place q))
    (hr : ∀ r, r ≠ p → r ≠ q → place' r = place r) : Ledger place' tokens := by
  have hxp : x ∈ place p := hp.mem_iff.mpr List.mem_cons_self
  have hxq : x ∉ place q := L.notMem_of_ne hxp hpq
  obtain ⟨hxp', hndp⟩ := List.nodup_cons.mp (hp.nodup_iff.mp (L.nodup p))
  -- where a token other than `x` lies, and where `x` lies
  have hne : ∀ r i, i ≠ x → (i ∈ place' r ↔ i ∈ place r) := by
    intro r i hi
    by_cases h1 : r = p
    · subst h1; simp [hp.mem_iff, hi]
    · by_cases h2 : r = q
      · subst h2; simp [hq.mem_iff, hi]
      · rw [hr r h1 h2]
  have hx : ∀ r, x ∈ place' r ↔ r = q := by
    intro r
    by_cases h1 : r = p
    · subst h1; simp [hxp', hpq]
    · by_cases h2 : r = q
      · subst h2; simp [hq.mem_iff]
      · rw [hr r h1 h2]
        exact ⟨fun h => absurd (L.once h hxp) h1, fun h => absurd h h2⟩
  refine ⟨?_, ?_, ?_⟩
  · intro r
    by_cases h1 : r = p
    · rw [h1]; exact hndp
    · by_cases h2 : r = q
      · rw [h2, hq.nodup_iff, List.nodup_cons]
        exact ⟨hxq, L.nodup q⟩
      · rw [hr r h1 h2]; exact L.nodup r
  · intro r r' i h h'
    by_cases hi : i = x
    · subst hi
      rw [(hx r).mp h, (hx r').mp h']
    · exact L.once ((hne r i hi).mp h) ((hne r' i hi).mp h')
  · intro i
    by_cases hi : i = x
    · subst hi
      exact ⟨fun _ => ⟨q, (hx q).mpr rfl⟩, fun _ => L.token hxp⟩
    · rw [L.cover]
      exact exists_congr fun r => (hne r i hi).symm

end Ledger

end KernelGadgets
