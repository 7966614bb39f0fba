import Mathlib.Algebra.Group.Nat.Defs
import Mathlib.Data.List.GetD
import KernelGadgets.Lib.Outcome

/-!
# Blocks of bytes

A C object is the list of its bytes; its size is the length of the list. Single bytes, 32-bit
words (little endian) and ranges of bytes are read and written through `load`, `store`, `load32`,
`store32`, `read` and `copyTo`, which fault outside the object. `byte`, `word`, `setWord` and
`splice` are what these come to inside it.
-/

namespace KernelGadgets

/-- A C object: its bytes, in the order of their addresses. -/
abbrev Block := List UInt8

namespace Block

/-! ## Bytes -/

/-- The byte at address `i`. -/
def byte (b : Block) (i : ℕ) : UInt8 := b.getD i 0

/-- Read the byte at address `i`. -/
def load (b : Block) (i : ℕ) : Outcome UInt8 :=
  if i < b.length then .ok (byte b i) else .fault

/-- Write the byte at address `i`. -/
def store (b : Block) (i : ℕ) (v : UInt8) : Outcome Block :=
  if i < b.length then .ok (b.set i v) else .fault

theorem load_ok {b : Block} {i : ℕ} (h : i < b.length) : load b i = .ok (byte b i) := if_pos h

theorem store_ok {b : Block} {i : ℕ} (h : i < b.length) (v : UInt8) :
    store b i v = .ok (b.set i v) := if_pos h

theorem store_fault {b : Block} {i : ℕ} (h : b.length ≤ i) (v : UInt8) :
    store b i v = .fault := if_neg (by omega)

theorem byte_set (b : Block) (i j : ℕ) (v : UInt8) :
    byte (b.set i v) j = if i = j ∧ i < b.length then v else byte b j := by
  unfold byte
  rw [List.getD_eq_getElem?_getD, List.getD_eq_getElem?_getD, List.getElem?_set]
  by_cases hij : i = j
  · subst hij
    by_cases hi : i < b.length
    · simp [hi]
    · simp [hi]
  · simp [hij]

theorem byte_set_self {b : Block} {i : ℕ} (h : i < b.length) (v : UInt8) :
    byte (b.set i v) i = v := by
  rw [byte_set, if_pos ⟨rfl, h⟩]

theorem byte_set_of_ne (b : Block) {i j : ℕ} (h : i ≠ j) (v : UInt8) :
    byte (b.set i v) j = byte b j := by
  rw [byte_set, if_neg fun hij => h hij.1]

theorem set_byte (b : Block) (i : ℕ) : b.set i (byte b i) = b := by
  by_cases h : i < b.length
  · rw [byte, List.getD_eq_getElem _ _ h, List.set_getElem_self]
  · exact List.set_eq_of_length_le (by omega)

/-! ## Words -/

/-- The 32-bit word at address `a`. -/
def word (b : Block) (a : ℕ) : ℕ :=
  (byte b a).toNat + 2 ^ 8 * (byte b (a + 1)).toNat + 2 ^ 16 * (byte b (a + 2)).toNat +
    2 ^ 24 * (byte b (a + 3)).toNat

/-- The block after the low 32 bits of `v` are written at address `a`. -/
def setWord (b : Block) (a v : ℕ) : Block :=
  (((b.set a (UInt8.ofNat v)).set (a + 1) (UInt8.ofNat (v / 2 ^ 8))).set (a + 2)
    (UInt8.ofNat (v / 2 ^ 16))).set (a + 3) (UInt8.ofNat (v / 2 ^ 24))

/-- Read the word at address `a`. -/
def load32 (b : Block) (a : ℕ) : Outcome ℕ :=
  if a + 4 ≤ b.length then .ok (word b a) else .fault

/-- Write the word at address `a`. -/
def store32 (b : Block) (a v : ℕ) : Outcome Block :=
  if a + 4 ≤ b.length then .ok (setWord b a v) else .fault

theorem load32_ok {b : Block} {a : ℕ} (h : a + 4 ≤ b.length) : load32 b a = .ok (word b a) :=
  if_pos h

theorem store32_ok {b : Block} {a : ℕ} (h : a + 4 ≤ b.length) (v : ℕ) :
    store32 b a v = .ok (setWord b a v) := if_pos h

@[simp] theorem length_setWord (b : Block) (a v : ℕ) : (setWord b a v).length = b.length := by
  simp [setWord]

theorem word_lt (b : Block) (a : ℕ) : word b a < 2 ^ 32 := by
  unfold word
  have h0 := (byte b a).toNat_lt
  have h1 := (byte b (a + 1)).toNat_lt
  have h2 := (byte b (a + 2)).toNat_lt
  have h3 := (byte b (a + 3)).toNat_lt
  omega

/-- A word is its four bytes. -/
theorem word_congr {b b' : Block} {a : ℕ} (h : ∀ k < 4, byte b' (a + k) = byte b (a + k)) :
    word b' a = word b a := by
  unfold word
  rw [h 1 (by omega), h 2 (by omega), h 3 (by omega), show byte b' a = byte b a from h 0 (by omega)]

/-- A word determines its four bytes. -/
theorem byte_eq_of_word_eq {b b' : Block} {a : ℕ} (h : word b' a = word b a) {k : ℕ} (hk : k < 4) :
    byte b' (a + k) = byte b (a + k) := by
  unfold word at h
  have hlt : ∀ (c : Block) (i : ℕ), (byte c i).toNat < 2 ^ 8 := fun c i => (byte c i).toNat_lt
  have h0 := hlt b a
  have h1 := hlt b (a + 1)
  have h2 := hlt b (a + 2)
  have h3 := hlt b (a + 3)
  have h0' := hlt b' a
  have h1' := hlt b' (a + 1)
  have h2' := hlt b' (a + 2)
  have h3' := hlt b' (a + 3)
  apply UInt8.toNat.inj
  obtain rfl | rfl | rfl | rfl : k = 0 ∨ k = 1 ∨ k = 2 ∨ k = 3 := by omega
  · show (byte b' a).toNat = (byte b a).toNat
    omega
  · omega
  · omega
  · omega

/-- A write of a word changes its four bytes only. -/
theorem byte_setWord_of_outside (b : Block) {a i : ℕ} (h : i < a ∨ a + 4 ≤ i) (v : ℕ) :
    byte (setWord b a v) i = byte b i := by
  unfold setWord
  rw [byte_set_of_ne _ (by omega), byte_set_of_ne _ (by omega), byte_set_of_ne _ (by omega),
    byte_set_of_ne _ (by omega)]

theorem word_setWord_of_apart (b : Block) {a a' : ℕ} (h : a + 4 ≤ a' ∨ a' + 4 ≤ a) (v : ℕ) :
    word (setWord b a v) a' = word b a' := by
  unfold word
  rw [byte_setWord_of_outside b (by omega), byte_setWord_of_outside b (by omega),
    byte_setWord_of_outside b (by omega), byte_setWord_of_outside b (by omega)]

theorem word_setWord_self {b : Block} {a : ℕ} (h : a + 4 ≤ b.length) (v : ℕ) :
    word (setWord b a v) a = v % 2 ^ 32 := by
  have h0 : byte (setWord b a v) a = UInt8.ofNat v := by
    unfold setWord
    rw [byte_set_of_ne _ (by omega), byte_set_of_ne _ (by omega), byte_set_of_ne _ (by omega),
      byte_set_self (by omega)]
  have h1 : byte (setWord b a v) (a + 1) = UInt8.ofNat (v / 2 ^ 8) := by
    unfold setWord
    rw [byte_set_of_ne _ (by omega), byte_set_of_ne _ (by omega), byte_set_self (by simp; omega)]
  have h2 : byte (setWord b a v) (a + 2) = UInt8.ofNat (v / 2 ^ 16) := by
    unfold setWord
    rw [byte_set_of_ne _ (by omega), byte_set_self (by simp; omega)]
  have h3 : byte (setWord b a v) (a + 3) = UInt8.ofNat (v / 2 ^ 24) := by
    unfold setWord
    rw [byte_set_self (by simp; omega)]
  unfold word
  rw [h0, h1, h2, h3]
  simp only [UInt8.toNat_ofNat']
  omega

attribute [irreducible] word setWord

/-! ## Ranges -/

/-- The block with the bytes `src` put at address `d`. -/
def splice (b : Block) (d : ℕ) (src : List UInt8) : Block :=
  b.take d ++ src ++ b.drop (d + src.length)

/-- Read `n` bytes from address `a`. -/
def read (b : Block) (a n : ℕ) : Outcome (List UInt8) :=
  if a + n ≤ b.length then .ok ((b.drop a).take n) else .fault

/-- Write the bytes `src` to address `d`. -/
def copyTo (b : Block) (d : ℕ) (src : List UInt8) : Outcome Block :=
  if d + src.length ≤ b.length then .ok (splice b d src) else .fault

/-- `memcpy(dst + d, src + s, n)` on distinct objects. -/
def memcpy (dst : Block) (d : ℕ) (src : Block) (s n : ℕ) : Outcome Block := do
  let bytes ← read src s n
  copyTo dst d bytes

theorem read_ok {b : Block} {a n : ℕ} (h : a + n ≤ b.length) :
    read b a n = .ok ((b.drop a).take n) := if_pos h

theorem copyTo_ok {b : Block} {d : ℕ} {src : List UInt8} (h : d + src.length ≤ b.length) :
    copyTo b d src = .ok (splice b d src) := if_pos h

theorem copyTo_fault {b : Block} {d : ℕ} {src : List UInt8} (h : b.length < d + src.length) :
    copyTo b d src = .fault := if_neg (by omega)

theorem memcpy_ok {dst src : Block} {d s n : ℕ} (hs : s + n ≤ src.length)
    (hd : d + n ≤ dst.length) :
    memcpy dst d src s n = .ok (splice dst d ((src.drop s).take n)) := by
  have hlen : ((src.drop s).take n).length = n := by
    rw [List.length_take, List.length_drop]
    omega
  rw [memcpy, read_ok hs, Outcome.ok_bind, copyTo_ok (by rwa [hlen])]

/-- A copy that leaves one of its objects faults. -/
theorem memcpy_fault {dst src : Block} {d s n : ℕ} (h : src.length < s + n ∨ dst.length < d + n) :
    memcpy dst d src s n = .fault := by
  by_cases hs : s + n ≤ src.length
  · have hlen : ((src.drop s).take n).length = n := by
      rw [List.length_take, List.length_drop]
      omega
    rw [memcpy, read_ok hs, Outcome.ok_bind, copyTo_fault (by rw [hlen]; omega)]
  · rw [memcpy, read, if_neg hs]
    rfl

theorem length_splice {b : Block} {d : ℕ} {src : List UInt8} (h : d + src.length ≤ b.length) :
    (splice b d src).length = b.length := by
  simp only [splice, List.length_append, List.length_take, List.length_drop]
  omega

/-- A range that is written holds the new bytes; the bytes around it are kept. -/
theorem byte_splice {b : Block} {d : ℕ} {src : List UInt8} (h : d + src.length ≤ b.length) (i : ℕ) :
    byte (splice b d src) i =
      if d ≤ i ∧ i < d + src.length then src.getD (i - d) 0 else byte b i := by
  have hd : (b.take d).length = d := by rw [List.length_take]; omega
  unfold byte splice
  by_cases h1 : i < d
  · rw [if_neg (by omega), List.getD_append _ _ _ _ (by rw [List.length_append]; omega),
      List.getD_append _ _ _ _ (by omega)]
    simp [List.getD_eq_getElem?_getD, h1]
  · by_cases h2 : i < d + src.length
    · rw [if_pos (by omega), List.getD_append _ _ _ _ (by rw [List.length_append]; omega),
        List.getD_append_right _ _ _ _ (by omega), hd]
    · rw [if_neg (by omega),
        List.getD_append_right _ _ _ _ (by rw [List.length_append]; omega)]
      simp only [List.getD_eq_getElem?_getD, List.getElem?_drop, List.length_append, hd]
      congr 2
      omega

@[simp] theorem splice_nil (b : Block) (d : ℕ) : splice b d [] = b := by
  simp [splice]

/-- Two writes one behind the other are one write. -/
theorem splice_append {b : Block} {d : ℕ} {t : List UInt8} (h : d + t.length ≤ b.length)
    (more : List UInt8) : splice (splice b d t) (d + t.length) more = splice b d (t ++ more) := by
  have hlen : (b.take d ++ t).length = d + t.length := by
    rw [List.length_append, List.length_take]
    omega
  have htake : (splice b d t).take (d + t.length) = b.take d ++ t := by
    rw [splice, ← hlen, List.take_left]
  have hdrop : (splice b d t).drop (d + t.length + more.length) =
      b.drop (d + t.length + more.length) := by
    rw [splice, ← List.drop_drop, ← hlen, List.drop_left, List.drop_drop]
  rw [splice, htake, hdrop, splice, List.length_append, List.append_assoc (b.take d), Nat.add_assoc]

/-- A byte written behind a range extends it. -/
theorem splice_set {b : Block} {d : ℕ} {t : List UInt8} (h : d + t.length < b.length)
    (v : UInt8) : splice (b.set (d + t.length) v) d t = splice b d (t ++ [v]) := by
  have hlt : d + t.length < (b.set (d + t.length) v).length := by rwa [List.length_set]
  rw [splice, splice, List.take_set_of_le (by omega), List.drop_eq_getElem_cons hlt,
    List.getElem_set_self, List.drop_set_of_lt (by omega), List.length_append,
    List.length_singleton, Nat.add_assoc]
  simp

/-- A byte written before a range extends it. -/
theorem set_splice {b : Block} {d : ℕ} {t : List UInt8} (h : d < b.length) (v : UInt8) :
    (splice b (d + 1) t).set d v = splice b d (v :: t) := by
  have hlen : (b.take d).length = d := by
    rw [List.length_take]
    omega
  rw [splice, splice, List.take_succ_eq_append_getElem h, List.append_assoc, List.append_assoc,
    List.set_append_right _ _ (by omega), hlen, Nat.sub_self, List.length_cons,
    Nat.add_right_comm]
  simp [Nat.add_assoc]

/-- The block from the start of a range that was written. -/
theorem drop_splice {b : Block} {d : ℕ} {src : List UInt8} (h : d ≤ b.length) :
    (splice b d src).drop d = src ++ b.drop (d + src.length) := by
  have hlen : (b.take d).length = d := by
    rw [List.length_take]
    omega
  rw [splice, List.append_assoc, List.drop_append_of_le_length (by omega),
    List.drop_eq_nil_of_le (by omega), List.nil_append]

/-- A range is the list of its bytes. -/
theorem range_eq {b : Block} {a : ℕ} {src : List UInt8} (h : a + src.length ≤ b.length)
    (hb : ∀ i < src.length, byte b (a + i) = src.getD i 0) :
    (b.drop a).take src.length = src := by
  apply List.ext_getElem?
  intro k
  by_cases hk : k < src.length
  · have hbyte := hb k hk
    rw [byte, List.getD_eq_getElem?_getD, List.getD_eq_getElem?_getD,
      List.getElem?_eq_getElem (by omega), List.getElem?_eq_getElem hk] at hbyte
    rw [List.getElem?_take_of_lt hk, List.getElem?_drop, List.getElem?_eq_getElem (by omega),
      List.getElem?_eq_getElem hk]
    exact congrArg some hbyte
  · rw [List.getElem?_eq_none (by rw [List.length_take]; omega),
      List.getElem?_eq_none (by omega)]

/-- Ranges are equal when their bytes are. -/
theorem range_eq_iff {b b' : Block} {a n : ℕ} (h : a + n ≤ b.length) (h' : a + n ≤ b'.length) :
    (b.drop a).take n = (b'.drop a).take n ↔
      ∀ i, a ≤ i → i < a + n → byte b i = byte b' i := by
  have hlen : ((b'.drop a).take n).length = n := by
    rw [List.length_take, List.length_drop]
    omega
  have hget : ∀ {c : Block} (k : ℕ), k < n →
      ((c.drop a).take n).getD k 0 = byte c (a + k) := by
    intro c k hk
    rw [byte, List.getD_eq_getElem?_getD, List.getD_eq_getElem?_getD, List.getElem?_take_of_lt hk,
      List.getElem?_drop]
  constructor
  · intro he i hi hin
    have hk : i - a < n := by omega
    rw [← Nat.add_sub_cancel' hi, ← hget _ hk, ← hget _ hk, he]
  · intro he
    have hrange : (b.drop a).take ((b'.drop a).take n).length = (b'.drop a).take n := by
      apply range_eq (by rwa [hlen])
      intro i hi
      rw [hlen] at hi
      rw [hget _ hi, he (a + i) (by omega) (by omega)]
    rwa [hlen] at hrange

end Block

end KernelGadgets
