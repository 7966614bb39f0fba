import Mathlib.Data.Multiset.UnionInter
import KernelGadgets.Lib.Machine
import KernelGadgets.Lib.Program

/-!
# Drivers that are loaded and unloaded

What is in use in a kernel is a multiset of resources, of which some need others. To release one
that is not in use, or that another one needs, is undefined behaviour. A `Driver` has an `init`,
over the answers to its calls, and an `exit`; while it is loaded it holds what its own memory says.
Other parties acquire and release what is theirs at any time.

`Driver.Correct` speaks of one `init` and one `exit`. Whole histories follow (`Correct.history`):
what is in use is what the others hold, and on top of it what the driver holds if it is loaded.
-/

namespace KernelGadgets.Loading

variable {ρ τ α : Type}

/-! ## Resources -/

/-- Nothing is in use twice, and what a resource needs is in use as well. -/
structure Sound (needs : ρ → ρ → Prop) (live : Multiset ρ) : Prop where
  nodup : live.Nodup
  closed : ∀ {r q}, r ∈ live → needs r q → q ∈ live

namespace Sound

variable {needs : ρ → ρ → Prop} {live : Multiset ρ} {r : ρ}

theorem cons (h : Sound needs live) (hr : r ∉ live) (hneeds : ∀ q, needs r q → q ∈ live) :
    Sound needs (r ::ₘ live) where
  nodup := Multiset.nodup_cons.mpr ⟨hr, h.nodup⟩
  closed {p q} hp hq := by
    rw [Multiset.mem_cons] at hp ⊢
    right
    obtain rfl | hp := hp
    · exact hneeds q hq
    · exact h.closed hp hq

/-- Nothing in use needs what is not in use. -/
theorem unneeded (h : Sound needs live) (hr : r ∉ live) : ∀ q ∈ live, ¬needs q r :=
  fun _ hq hneeds => hr (h.closed hq hneeds)

theorem erase [DecidableEq ρ] (h : Sound needs live) (hr : ∀ q ∈ live, ¬needs q r) :
    Sound needs (live.erase r) where
  nodup := h.nodup.erase r
  closed {p q} hp hq := by
    have hlive : p ∈ live := Multiset.mem_of_mem_erase hp
    have hqr : q ≠ r := fun hqr => hr p hlive (hqr ▸ hq)
    exact (Multiset.mem_erase_of_ne hqr).mpr (h.closed hlive hq)

end Sound

/-- What is in use, and the memory of a driver. -/
structure Registry (ρ τ : Type) where
  live : Multiset ρ
  own : τ

def hold (r : ρ) : Program (Registry ρ τ) Unit := fun k => .ok ((), { k with live := r ::ₘ k.live })

section

variable [DecidableEq ρ] (needs : ρ → ρ → Prop) [DecidableRel needs]

def release (r : ρ) : Program (Registry ρ τ) Unit := fun k =>
  if r ∈ k.live ∧ ∀ q ∈ k.live.erase r, ¬needs q r then
    .ok ((), { k with live := k.live.erase r })
  else .fault

variable {needs}

theorem release_cons {r : ρ} {rest : Multiset ρ} (h : Sound needs rest) (hr : r ∉ rest) (own : τ) :
    release needs r ⟨r ::ₘ rest, own⟩ = .ok ((), ⟨rest, own⟩) := by
  unfold release
  simp only [Multiset.erase_cons_head]
  exact if_pos ⟨Multiset.mem_cons_self r rest, h.unneeded hr⟩

end

/-! ## Drivers and their histories -/

/-- The code of a driver, what the answers to its calls keep to, and what it holds when loaded. -/
structure Driver (ρ τ α : Type) where
  needs : ρ → ρ → Prop
  promised : Multiset ρ → α → Prop
  init : α → Program (Registry ρ τ) ℤ
  exit : Program (Registry ρ τ) Unit
  held : τ → Multiset ρ

/-- The driver is loaded or unloaded, or another party acquires or releases something. -/
inductive Event (ρ α : Type) where
  | load (a : α)
  | unload
  | acquired (r : ρ)
  | released (r : ρ)

structure Site (ρ τ : Type) where
  loaded : Bool
  registry : Registry ρ τ

namespace Driver

/-- What the driver holds. -/
def mine (D : Driver ρ τ α) (s : Site ρ τ) : Multiset ρ :=
  if s.loaded then D.held s.registry.own else 0

variable [DecidableEq ρ]

/-- The kernel keeps a driver loaded unless its `init` returns an error. The others do not touch
what the driver holds. -/
def machine (D : Driver ρ τ α) : Machine (Site ρ τ) (Event ρ α) ℤ where
  allowed s
    | .load a => s.loaded = false ∧ D.promised s.registry.live a
    | .unload => s.loaded = true
    | .acquired r => r ∉ s.registry.live ∧
        ∀ q, D.needs r q → q ∈ s.registry.live ∧ q ∉ D.mine s
    | .released r => r ∈ s.registry.live ∧ r ∉ D.mine s ∧
        ∀ q ∈ s.registry.live, ¬D.needs q r
  step s
    | .load a => do
      let (res, k) ← D.init a s.registry
      return (res, ⟨decide (0 ≤ res), k⟩)
    | .unload => do
      let (_, k) ← D.exit s.registry
      return (0, ⟨false, k⟩)
    | .acquired r => .ok (0, ⟨s.loaded, { s.registry with live := r ::ₘ s.registry.live }⟩)
    | .released r => .ok (0, ⟨s.loaded, { s.registry with live := s.registry.live.erase r }⟩)

/-- What `init` should return and acquire: all of it, or nothing and an error. -/
structure Correct (D : Driver ρ τ α) (code : α → ℤ) (acquires : α → Multiset ρ) : Prop where
  sound : ∀ {live a}, Sound D.needs live → D.promised live a → 0 ≤ code a →
    Sound D.needs (acquires a + live)
  init : ∀ {k a}, Sound D.needs k.live → D.promised k.live a → (D.init a k).Ends fun r =>
    r.1 = code a ∧ (0 ≤ code a → r.2.live = acquires a + k.live ∧ D.held r.2.own = acquires a) ∧
      (code a < 0 → r.2.live = k.live)
  exit : ∀ {k rest a}, 0 ≤ code a → D.held k.own = acquires a → k.live = acquires a + rest →
    Sound D.needs k.live → Sound D.needs rest → (D.exit k).Ends fun r => r.2.live = rest

/-- What a load and an unload should do. -/
def Meets (D : Driver ρ τ α) (code : α → ℤ) (acquires : α → Multiset ρ) (s : Site ρ τ) :
    Event ρ α → ℤ × Site ρ τ → Prop
  | .load a, (res, t) => res = code a ∧ (t.loaded = true ↔ 0 ≤ code a) ∧
      t.registry.live = (if 0 ≤ code a then acquires a else 0) + s.registry.live
  | .unload, (_, t) => t.loaded = false ∧ s.registry.live = D.held s.registry.own + t.registry.live
  | .acquired _, _ => True
  | .released _, _ => True

/-- What the others hold after an event. -/
def othersNext (rest : Multiset ρ) : Event ρ α → Multiset ρ
  | .load _ => rest
  | .unload => rest
  | .acquired r => r ::ₘ rest
  | .released r => rest.erase r

/-- What the others hold after a history. -/
def others (rest : Multiset ρ) (events : List (Event ρ α)) : Multiset ρ :=
  events.foldl othersNext rest

/-- In use is what the driver and the others hold, and the others need nothing of the driver. -/
structure Inv (D : Driver ρ τ α) (code : α → ℤ) (acquires : α → Multiset ρ) (s : Site ρ τ)
    (rest : Multiset ρ) : Prop where
  live : s.registry.live = D.mine s + rest
  loaded : s.loaded = true → ∃ a, 0 ≤ code a ∧ D.held s.registry.own = acquires a
  sound : Sound D.needs s.registry.live
  apart : Sound D.needs rest

namespace Correct

variable {D : Driver ρ τ α} {code : α → ℤ} {acquires : α → Multiset ρ}
  {s : Site ρ τ} {rest : Multiset ρ}

theorem step_load (hD : D.Correct code acquires) {a : α} (h : D.Inv code acquires s rest)
    (hoff : s.loaded = false) (hprom : D.promised s.registry.live a) :
    (D.machine.step s (.load a)).Ends fun r =>
      D.Meets code acquires s (.load a) r ∧ D.Inv code acquires r.2 rest := by
  have hrest : s.registry.live = rest := by
    rw [h.live, mine, hoff]
    exact Multiset.zero_add rest
  obtain ⟨⟨res, k⟩, hrun, rfl, hdone, hundone⟩ := hD.init h.sound hprom
  have hstep : D.machine.step s (.load a) = .ok (code a, ⟨decide (0 ≤ code a), k⟩) := by
    show (D.init a s.registry >>= fun r => _) = _
    rw [hrun]
    rfl
  refine .of_eq hstep ?_
  by_cases hcode : 0 ≤ code a
  · obtain ⟨hlive, hheld⟩ := hdone hcode
    have hmine : D.mine ⟨decide (0 ≤ code a), k⟩ = acquires a := by
      rw [mine, decide_eq_true hcode, if_pos rfl, hheld]
    refine ⟨⟨rfl, decide_eq_true_iff, ?_⟩, ⟨?_, fun _ => ⟨a, hcode, hheld⟩, ?_, h.apart⟩⟩
    · rw [if_pos hcode]
      exact hlive
    · rw [hmine, ← hrest]
      exact hlive
    · show Sound D.needs k.live
      rw [hlive]
      exact hD.sound h.sound hprom hcode
  · have hlive := hundone (Int.not_le.mp hcode)
    have hmine : D.mine ⟨decide (0 ≤ code a), k⟩ = 0 := by
      rw [mine, decide_eq_false hcode]
      rfl
    refine ⟨⟨rfl, decide_eq_true_iff, ?_⟩,
      ⟨?_, fun hon => absurd (of_decide_eq_true hon) hcode, ?_, h.apart⟩⟩
    · rw [if_neg hcode, Multiset.zero_add]
      exact hlive
    · rw [hmine, Multiset.zero_add, ← hrest]
      exact hlive
    · show Sound D.needs k.live
      rw [hlive]
      exact h.sound

theorem step_unload (hD : D.Correct code acquires) (h : D.Inv code acquires s rest)
    (hon : s.loaded = true) :
    (D.machine.step s .unload).Ends fun r =>
      D.Meets code acquires s .unload r ∧ D.Inv code acquires r.2 rest := by
  have hlive : s.registry.live = D.held s.registry.own + rest := by
    rw [h.live, mine, hon, if_pos rfl]
  obtain ⟨a, hcode, hheld⟩ := h.loaded hon
  obtain ⟨⟨_, k⟩, hrun, rfl⟩ := hD.exit hcode hheld (hheld ▸ hlive) h.sound h.apart
  have hstep : D.machine.step s .unload = .ok (0, ⟨false, k⟩) := by
    show (D.exit s.registry >>= fun r => _) = _
    rw [hrun]
    rfl
  exact .of_eq hstep
    ⟨⟨rfl, hlive⟩, ⟨(Multiset.zero_add _).symm, fun hon => Bool.noConfusion hon,
      h.apart, h.apart⟩⟩

theorem step_acquired {r : ρ} (h : D.Inv code acquires s rest)
    (ha : D.machine.allowed s (.acquired r)) :
    (D.machine.step s (.acquired r)).Ends fun t =>
      D.Meets code acquires s (.acquired r) t ∧ D.Inv code acquires t.2 (r ::ₘ rest) := by
  obtain ⟨hr, hneeds⟩ := ha
  refine .of_eq rfl ⟨trivial, ⟨?_, h.loaded, ?_, ?_⟩⟩
  · show r ::ₘ s.registry.live = D.mine s + r ::ₘ rest
    rw [Multiset.add_cons, ← h.live]
  · exact h.sound.cons hr fun q hq => (hneeds q hq).1
  · refine h.apart.cons (fun hmem => hr ?_) fun q hq => ?_
    · rw [h.live]
      exact Multiset.mem_add.mpr (Or.inr hmem)
    · obtain ⟨hlive, hmine⟩ := hneeds q hq
      rw [h.live, Multiset.mem_add] at hlive
      exact hlive.resolve_left hmine

theorem step_released {r : ρ} (h : D.Inv code acquires s rest)
    (ha : D.machine.allowed s (.released r)) :
    (D.machine.step s (.released r)).Ends fun t =>
      D.Meets code acquires s (.released r) t ∧ D.Inv code acquires t.2 (rest.erase r) := by
  obtain ⟨-, hmine, hfree⟩ := ha
  refine .of_eq rfl ⟨trivial, ⟨?_, h.loaded, h.sound.erase hfree,
    h.apart.erase fun q hq => ?_⟩⟩
  · show s.registry.live.erase r = D.mine s + rest.erase r
    rw [h.live, Multiset.erase_add_right_neg _ hmine]
  · refine hfree q ?_
    rw [h.live]
    exact Multiset.mem_add.mpr (Or.inr hq)

theorem step (hD : D.Correct code acquires) (s : Site ρ τ) (rest : Multiset ρ) (i : Event ρ α)
    (h : D.Inv code acquires s rest) (ha : D.machine.allowed s i) :
    (D.machine.step s i).Ends fun r =>
      D.Meets code acquires s i r ∧ D.Inv code acquires r.2 (othersNext rest i) := by
  cases i with
  | load a => exact hD.step_load h ha.1 ha.2
  | unload => exact hD.step_unload h ha
  | acquired r => exact step_acquired h ha
  | released r => exact step_released h ha

/-- **Histories.** Every load and every unload does what it should, and what the driver does not
hold in the end is what the others do. -/
theorem history (hD : D.Correct code acquires) (h : D.Inv code acquires s rest)
    {events : List (Event ρ α)} (hl : D.machine.Legal s events) :
    D.machine.Always (D.Meets code acquires) s events ∧
      (D.machine.run s events).Ends fun r => D.Inv code acquires r.2 (others rest events) := by
  constructor
  · have hstep : ∀ t i, (∃ rest, D.Inv code acquires t rest) → D.machine.allowed t i → True →
        (D.machine.step t i).Ends fun r =>
          D.Meets code acquires t i r ∧ ∃ rest, D.Inv code acquires r.2 rest := by
      rintro t i ⟨rest', ht⟩ ha -
      exact (hD.step t rest' i ht ha).mono fun r hr => ⟨hr.1, _, hr.2⟩
    exact (Machine.always_iff (fun _ => True) hstep (fun _ _ _ _ _ => trivial) ⟨rest, h⟩ hl).mpr
      fun _ _ => trivial
  · exact Machine.run_ghost othersNext
      (fun t c i ht ha => (hD.step t c i ht ha).mono fun r hr => hr.2) h hl

/-- Histories that start without the driver. -/
theorem history_unloaded (hD : D.Correct code acquires) (hoff : s.loaded = false)
    (hs : Sound D.needs s.registry.live) {events : List (Event ρ α)}
    (hl : D.machine.Legal s events) :
    D.machine.Always (D.Meets code acquires) s events ∧
      (D.machine.run s events).Ends fun r =>
        r.2.registry.live = D.mine r.2 + others s.registry.live events := by
  have hmine : D.mine s = 0 := by
    rw [mine, hoff]
    rfl
  have hinv : D.Inv code acquires s s.registry.live :=
    { live := by rw [hmine, Multiset.zero_add]
      loaded := fun hon => absurd (hoff.symm.trans hon) Bool.noConfusion
      sound := hs
      apart := hs }
  obtain ⟨halways, hrun⟩ := hD.history hinv hl
  exact ⟨halways, hrun.mono fun _ hr => hr.live⟩

end Correct
end Driver

end KernelGadgets.Loading
