import KernelGadgets.Lib.Block

/-!
# Memories of bytes

A memory gives every address a byte. `overlay` puts a string at an address, `range` reads one. The
bytes of a `Block` are a memory: a write to a range of the block is an overlay
(`byte_splice_eq_overlay`), and what is read from a range of it is a range of the memory
(`take_drop_eq_range`).
-/

namespace KernelGadgets

/-- A byte for every address. -/
abbrev Memory := ℕ → UInt8

namespace Memory

/-- The memory with the string `bytes` put at the address `a`. -/
def overlay (m : Memory) (a : ℕ) (bytes : List UInt8) : Memory := fun i =>
  if a ≤ i ∧ i < a + bytes.length then bytes.getD (i - a) 0 else m i

/-- The `n` bytes from the address `a` on. -/
def range (m : Memory) (a n : ℕ) : List UInt8 := (List.range n).map fun k => m (a + k)

variable (m : Memory) (a : ℕ)

@[simp] theorem length_range (n : ℕ) : (m.range a n).length = n := by
  simp [range]

@[simp] theorem overlay_nil : m.overlay a [] = m := by
  funext i
  unfold overlay
  rw [if_neg]
  simp only [List.length_nil]
  omega

/-- An overlay changes nothing exactly if the string is there already. -/
theorem overlay_eq_self_iff {bytes : List UInt8} :
    m.overlay a bytes = m ↔ m.range a bytes.length = bytes := by
  have hget : ∀ k < bytes.length, (m.range a bytes.length)[k]? = some (m (a + k)) := by
    intro k hk
    unfold range
    rw [List.getElem?_map, List.getElem?_range hk]
    rfl
  constructor
  · intro h
    apply List.ext_getElem?
    intro k
    by_cases hk : k < bytes.length
    · have hbyte := congrFun h (a + k)
      unfold overlay at hbyte
      rw [if_pos ⟨by omega, by omega⟩, Nat.add_sub_cancel_left, List.getD_eq_getElem?_getD,
        List.getElem?_eq_getElem hk, Option.getD_some] at hbyte
      rw [hget k hk, List.getElem?_eq_getElem hk, hbyte]
    · rw [List.getElem?_eq_none (by rw [length_range]; omega),
        List.getElem?_eq_none (by omega)]
  · intro h
    funext i
    unfold overlay
    by_cases hi : a ≤ i ∧ i < a + bytes.length
    · rw [if_pos hi]
      have hk := hget (i - a) (by omega)
      rw [h, Nat.add_sub_cancel' hi.1] at hk
      rw [List.getD_eq_getElem?_getD, hk, Option.getD_some]
    · rw [if_neg hi]

end Memory

namespace Block

/-- A write to a range of a block. -/
theorem byte_splice_eq_overlay {b : Block} {d : ℕ} {src : List UInt8}
    (h : d + src.length ≤ b.length) :
    byte (splice b d src) = Memory.overlay (byte b) d src := by
  funext i
  rw [byte_splice h]
  rfl

/-- What is read from a range of a block. -/
theorem take_drop_eq_range {b : Block} {a n : ℕ} (h : a + n ≤ b.length) :
    (b.drop a).take n = Memory.range (byte b) a n := by
  have hlen : (Memory.range (byte b) a n).length = n := Memory.length_range ..
  have hfit : a + (Memory.range (byte b) a n).length ≤ b.length := by rwa [hlen]
  rw [← range_eq hfit ?_, hlen]
  intro i hi
  rw [hlen] at hi
  unfold Memory.range
  rw [List.getD_eq_getElem?_getD, List.getElem?_map, List.getElem?_range hi]
  rfl

/-- The first bytes of a block, one by one. -/
theorem map_getD_range {b : Block} {n : ℕ} (h : n ≤ b.length) :
    (List.range n).map (fun k => b.getD k 0) = b.take n := by
  have hrange := take_drop_eq_range (show 0 + n ≤ b.length by omega)
  unfold Memory.range byte at hrange
  simpa only [List.drop_zero, Nat.zero_add] using hrange.symm

/-- Blocks of one size with the same bytes are equal. -/
theorem eq_of_byte_eq {b b' : Block} (hlen : b.length = b'.length) (h : byte b = byte b') :
    b = b' := by
  have hall := take_drop_eq_range (b := b) (a := 0) (n := b.length) (by omega)
  have hall' := take_drop_eq_range (b := b') (a := 0) (n := b'.length) (by omega)
  rw [List.drop_zero, List.take_length] at hall hall'
  rw [hall, hall', hlen, h]

end Block

end KernelGadgets
