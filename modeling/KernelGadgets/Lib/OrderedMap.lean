import Mathlib.Data.List.Nodup

/-!
# Insertion-ordered maps

An `OrderedMap` is a finite map whose entries stand in the order of their insertion. What such a
map holds can also be read off the history of insertions and removals alone: `live es` are the
insertions of `es` no later removal has undone, in their order. `Records m es` says that the two
agree; the operations keep it (`Records.append`, `Records.erase`).
-/

namespace KernelGadgets

/-- A finite map with its entries in the order of their insertion; no key occurs twice. -/
structure OrderedMap (κ υ : Type*) where
  entries : List (κ × υ)
  nodup : (entries.map Prod.fst).Nodup

namespace OrderedMap

variable {κ υ : Type*}

def keys (m : OrderedMap κ υ) : List κ := m.entries.map Prod.fst

def empty : OrderedMap κ υ := ⟨[], List.nodup_nil⟩

theorem mem_keys {m : OrderedMap κ υ} {k : κ} : k ∈ m.keys ↔ ∃ v, (k, v) ∈ m.entries := by
  simp [keys]

/-- A key has one value. -/
theorem entries_inj {m : OrderedMap κ υ} {k : κ} {v v' : υ} (h : (k, v) ∈ m.entries)
    (h' : (k, v') ∈ m.entries) : v = v' :=
  congrArg Prod.snd (List.inj_on_of_nodup_map m.nodup h h' rfl)

section Decidable

variable [DecidableEq κ]

/-- The map with the key `k` at its end; a key it already has keeps its place and its value. -/
def append (m : OrderedMap κ υ) (k : κ) (v : υ) : OrderedMap κ υ :=
  if h : k ∈ m.keys then m
  else {
    entries := m.entries ++ [(k, v)]
    nodup := by
      rw [List.map_append, List.nodup_append]
      refine ⟨m.nodup, List.nodup_singleton _, ?_⟩
      rintro x hx y hy rfl
      obtain rfl : x = k := List.mem_singleton.mp hy
      exact h hx }

/-- The map without the key `k`. -/
def erase (m : OrderedMap κ υ) (k : κ) : OrderedMap κ υ where
  entries := m.entries.filter (·.1 ≠ k)
  nodup := m.nodup.sublist (List.filter_sublist.map _)

def get? (m : OrderedMap κ υ) (k : κ) : Option υ := (m.entries.find? (·.1 = k)).map Prod.snd

variable {m : OrderedMap κ υ} {k : κ} {v : υ}

theorem append_of_mem (h : k ∈ m.keys) (v : υ) : m.append k v = m := dif_pos h

theorem entries_append (h : k ∉ m.keys) (v : υ) :
    (m.append k v).entries = m.entries ++ [(k, v)] := by
  rw [append, dif_neg h]

theorem entries_erase (m : OrderedMap κ υ) (k : κ) :
    (m.erase k).entries = m.entries.filter (·.1 ≠ k) := rfl

theorem get?_eq_none : m.get? k = none ↔ ∀ v, (k, v) ∉ m.entries := by
  rw [get?, Option.map_eq_none_iff, List.find?_eq_none]
  constructor
  · intro h v hv
    exact h _ hv (decide_eq_true rfl)
  · rintro h ⟨k', v⟩ hv hk
    obtain rfl : k' = k := of_decide_eq_true hk
    exact h v hv

theorem get?_eq_some : m.get? k = some v ↔ (k, v) ∈ m.entries := by
  rw [get?, Option.map_eq_some_iff]
  constructor
  · rintro ⟨⟨k', v'⟩, h, rfl⟩
    obtain rfl : k' = k := by simpa using List.find?_some h
    exact List.mem_of_find?_eq_some h
  · intro h
    have hs : (m.entries.find? (·.1 = k)).isSome := by
      rw [List.find?_isSome]
      exact ⟨_, h, decide_eq_true rfl⟩
    obtain ⟨⟨k', v'⟩, hf⟩ := Option.isSome_iff_exists.mp hs
    obtain rfl : k' = k := by simpa using List.find?_some hf
    exact ⟨_, hf, entries_inj (List.mem_of_find?_eq_some hf) h⟩

/-! ## Histories -/

inductive Event (κ υ : Type*) where
  | put (k : κ) (v : υ)
  | del (k : κ)
  deriving DecidableEq

/-- Some insertion of `v` under `k` has no later removal of `k`. -/
def InForce (es : List (Event κ υ)) (k : κ) (v : υ) : Prop :=
  ∃ pre post, es = pre ++ .put k v :: post ∧ .del k ∉ post

variable [DecidableEq υ]

/-- The insertions no later removal has undone, in their order. -/
def live : List (Event κ υ) → List (κ × υ)
  | [] => []
  | .put k v :: es => if .del k ∈ es then live es else (k, v) :: live es
  | .del _ :: es => live es

theorem mem_live {es : List (Event κ υ)} : (k, v) ∈ live es ↔ InForce es k v := by
  induction es with
  | nil => simp [live, InForce]
  | cons e es ih =>
    -- the insertion in force is the first event or a later one
    have hcons : InForce (e :: es) k v ↔ e = .put k v ∧ .del k ∉ es ∨ InForce es k v := by
      constructor
      · rintro ⟨_ | ⟨e', pre⟩, post, he, hd⟩
        · obtain ⟨rfl, rfl⟩ := List.cons.inj he
          exact .inl ⟨rfl, hd⟩
        · obtain ⟨-, rfl⟩ := List.cons.inj he
          exact .inr ⟨pre, post, rfl, hd⟩
      · rintro (⟨rfl, hd⟩ | ⟨pre, post, rfl, hd⟩)
        · exact ⟨[], es, rfl, hd⟩
        · exact ⟨e :: pre, post, rfl, hd⟩
    rw [hcons, ← ih]
    cases e with
    | del k' => simp [live]
    | put k' v' =>
      rw [live]
      split_ifs with hd
      · refine ⟨.inr, ?_⟩
        rintro (⟨h, hnd⟩ | h)
        · obtain ⟨rfl, -⟩ := Event.put.inj h
          exact absurd hd hnd
        · exact h
      · rw [List.mem_cons]
        refine or_congr_left ⟨?_, ?_⟩
        · rintro h
          obtain ⟨rfl, rfl⟩ := Prod.mk.inj h
          exact ⟨rfl, hd⟩
        · rintro ⟨h, -⟩
          obtain ⟨rfl, rfl⟩ := Event.put.inj h
          rfl

theorem live_put (es : List (Event κ υ)) (k : κ) (v : υ) :
    live (es ++ [.put k v]) = live es ++ [(k, v)] := by
  induction es with
  | nil => rfl
  | cons e es ih =>
    cases e with
    | del k' => exact ih
    | put k' v' =>
      rw [List.cons_append, live, live, ih]
      simp only [List.mem_append, List.mem_singleton, reduceCtorEq, or_false]
      split_ifs <;> rfl

theorem live_del (es : List (Event κ υ)) (k : κ) :
    live (es ++ [.del k]) = (live es).filter (·.1 ≠ k) := by
  induction es with
  | nil => rfl
  | cons e es ih =>
    cases e with
    | del k' => exact ih
    | put k' v' =>
      rw [List.cons_append, live, live, ih]
      by_cases hd : Event.del k' ∈ es
      · rw [if_pos hd, if_pos (List.mem_append_left _ hd)]
      · by_cases hk : k' = k
        · subst hk
          rw [if_neg hd, if_pos (by simp), List.filter_cons_of_neg (by simp)]
        · rw [if_neg hd, if_neg (by simp [hd, hk]), List.filter_cons_of_pos (by simpa using hk)]

/-- The map holds what its history has left in force. -/
def Records (m : OrderedMap κ υ) (es : List (Event κ υ)) : Prop := m.entries = live es

namespace Records

variable {es : List (Event κ υ)}

theorem empty : Records (OrderedMap.empty : OrderedMap κ υ) [] := rfl

theorem append (H : m.Records es) (h : k ∉ m.keys) :
    (m.append k v).Records (es ++ [.put k v]) := by
  unfold Records
  rw [entries_append h, live_put, H]

theorem erase (H : m.Records es) (k : κ) : (m.erase k).Records (es ++ [.del k]) := by
  unfold Records
  rw [entries_erase, live_del, H]

theorem get?_eq_some_iff (H : m.Records es) : m.get? k = some v ↔ InForce es k v := by
  rw [get?_eq_some, H, mem_live]

end Records

end Decidable

end OrderedMap

end KernelGadgets
