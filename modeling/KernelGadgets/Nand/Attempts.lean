import KernelGadgets.Nand.Prev
import KernelGadgets.Nand.Rows

/-!
# The way to the word-parallel ECC

`nand_ecc.txt` comes to the word-parallel code in attempts. The pseudocode it begins with adds bits
(`attempt0`). The first attempt keeps a register for every row parity and goes byte by byte
(`ecc1`), the second word by word (`ecc2`), the third drops every other register (`ecc3`). The sixth
is the loop of the code that the kernel has; the seventh saves some of its additions (`round7`).

One parity of the pseudocode is wrong for half of the pages. The attempts give the code of the page
(`attempts_agree`). The second and third do so for the byte order that they were written for; in the
other one the row parities inside a word change places.
-/

namespace KernelGadgets.Nand.Attempts

open Later (Word loadWord foldWord foldHalf byteIndex)

/-! ## The code -/

/-- The parities of the pseudocode, a bit each: `rp(2s)`, `rp(2s + 1)`, `cp(2s)` and `cp(2s + 1)` as
`rp s false`, `rp s true`, `cp s false` and `cp s true`. -/
structure Parities where
  rp : ℕ → Bool → Bool
  cp : ℕ → Bool → Bool

/-- A round of the pseudocode. It adds `rp1` to get `rp0`. -/
def Parities.add (r : Parities) (i : ℕ) (b : Byte) : Parities where
  rp s v :=
    let bits := b.getLsbD 7 ^^ b.getLsbD 6 ^^ b.getLsbD 5 ^^ b.getLsbD 4 ^^ b.getLsbD 3 ^^
      b.getLsbD 2 ^^ b.getLsbD 1 ^^ b.getLsbD 0
    if (i &&& 2 ^ s != 0) = v then bits ^^ (if s = 0 then r.rp 0 true else r.rp s v) else r.rp s v
  cp s v :=
    match s, v with
    | 0, false => b.getLsbD 6 ^^ b.getLsbD 4 ^^ b.getLsbD 2 ^^ b.getLsbD 0 ^^ r.cp 0 false
    | 0, true => b.getLsbD 7 ^^ b.getLsbD 5 ^^ b.getLsbD 3 ^^ b.getLsbD 1 ^^ r.cp 0 true
    | 1, false => b.getLsbD 5 ^^ b.getLsbD 4 ^^ b.getLsbD 1 ^^ b.getLsbD 0 ^^ r.cp 1 false
    | 1, true => b.getLsbD 7 ^^ b.getLsbD 6 ^^ b.getLsbD 3 ^^ b.getLsbD 2 ^^ r.cp 1 true
    | 2, false => b.getLsbD 3 ^^ b.getLsbD 2 ^^ b.getLsbD 1 ^^ b.getLsbD 0 ^^ r.cp 2 false
    | 2, true => b.getLsbD 7 ^^ b.getLsbD 6 ^^ b.getLsbD 5 ^^ b.getLsbD 4 ^^ r.cp 2 true
    | s, v => r.cp s v

/-- The pseudocode, with parities that are zero at first. -/
def attempt0 (buf : Page) : Parities :=
  (List.finRange 256).foldl (fun r (i : Fin 256) => r.add i (buf i))
    ⟨fun _ _ => false, fun _ _ => false⟩

/-- `parity` -/
def parityTable : List Byte :=
  [0, 1, 1, 0, 1, 0, 0, 1, 1, 0, 0, 1, 0, 1, 1, 0,
    1, 0, 0, 1, 0, 1, 1, 0, 0, 1, 1, 0, 1, 0, 0, 1,
    1, 0, 0, 1, 0, 1, 1, 0, 0, 1, 1, 0, 1, 0, 0, 1,
    0, 1, 1, 0, 1, 0, 0, 1, 1, 0, 0, 1, 0, 1, 1, 0,
    1, 0, 0, 1, 0, 1, 1, 0, 0, 1, 1, 0, 1, 0, 0, 1,
    0, 1, 1, 0, 1, 0, 0, 1, 1, 0, 0, 1, 0, 1, 1, 0,
    0, 1, 1, 0, 1, 0, 0, 1, 1, 0, 0, 1, 0, 1, 1, 0,
    1, 0, 0, 1, 0, 1, 1, 0, 0, 1, 1, 0, 1, 0, 0, 1,
    1, 0, 0, 1, 0, 1, 1, 0, 0, 1, 1, 0, 1, 0, 0, 1,
    0, 1, 1, 0, 1, 0, 0, 1, 1, 0, 0, 1, 0, 1, 1, 0,
    0, 1, 1, 0, 1, 0, 0, 1, 1, 0, 0, 1, 0, 1, 1, 0,
    1, 0, 0, 1, 0, 1, 1, 0, 0, 1, 1, 0, 1, 0, 0, 1,
    0, 1, 1, 0, 1, 0, 0, 1, 1, 0, 0, 1, 0, 1, 1, 0,
    1, 0, 0, 1, 0, 1, 1, 0, 0, 1, 1, 0, 1, 0, 0, 1,
    1, 0, 0, 1, 0, 1, 1, 0, 0, 1, 1, 0, 1, 0, 0, 1,
    0, 1, 1, 0, 1, 0, 0, 1, 1, 0, 0, 1, 0, 1, 1, 0]

/-- The registers: `par`, and `rp(2s)` and `rp(2s + 1)` as `rp s false` and `rp s true`. -/
structure Rows (w : ℕ) where
  par : BitVec w
  rp : ℕ → Bool → BitVec w

/-- `par ^= cur;` and `if (i & (1 << s)) rp(2s + 1) ^= cur; else rp(2s) ^= cur;` -/
def Rows.add {w : ℕ} (r : Rows w) (i : ℕ) (cur : BitVec w) : Rows w where
  par := r.par ^^^ cur
  rp s v := if (i &&& 2 ^ s != 0) = v then r.rp s v ^^^ cur else r.rp s v

/-- The three bytes of the code, from bytes whose parities they are, inverted at the end. -/
def codeBytes (rp : ℕ → Bool → Byte) (par : Byte) : Code :=
  let p := fun x => lookup parityTable x
  let low := (p (rp 3 true) <<< 7) ||| (p (rp 3 false) <<< 6) ||| (p (rp 2 true) <<< 5) |||
    (p (rp 2 false) <<< 4) ||| (p (rp 1 true) <<< 3) ||| (p (rp 1 false) <<< 2) |||
    (p (rp 0 true) <<< 1) ||| p (rp 0 false)
  let high := (p (rp 7 true) <<< 7) ||| (p (rp 7 false) <<< 6) ||| (p (rp 6 true) <<< 5) |||
    (p (rp 6 false) <<< 4) ||| (p (rp 5 true) <<< 3) ||| (p (rp 5 false) <<< 2) |||
    (p (rp 4 true) <<< 1) ||| p (rp 4 false)
  let columns := (p (par &&& 0xf0) <<< 7) ||| (p (par &&& 0x0f) <<< 6) |||
    (p (par &&& 0xcc) <<< 5) ||| (p (par &&& 0x33) <<< 4) ||| (p (par &&& 0xaa) <<< 3) |||
    (p (par &&& 0x55) <<< 2)
  ![~~~low, ~~~high, ~~~columns]

/-- The loop of `ecc1`. -/
def ecc1Rows (buf : Page) : Rows 8 :=
  (List.finRange 256).foldl (fun r (i : Fin 256) => r.add i (buf i)) ⟨0, fun _ _ => 0⟩

def ecc1 (buf : Page) : Code :=
  let r := ecc1Rows buf
  codeBytes r.rp r.par

/-- The loop of `ecc2`, in which `rp s` is that of the rows `4 * 2 ^ s` apart. -/
def ecc2Rows (bigEndian : Bool) (buf : Sector 1) : Rows 32 :=
  (List.finRange 64).foldl (fun r (i : Fin (64 * 1)) => r.add i (loadWord bigEndian buf i))
    ⟨0, fun _ _ => 0⟩

/-- After the loop of `ecc2`: everything is brought back to bytes. -/
def ecc2Finish (r : Rows 32) : Code :=
  let rp3 := foldHalf (r.par >>> 16)
  let rp2 := foldHalf (r.par &&& 0xffff)
  let par := r.par ^^^ (r.par >>> 16)
  let rp1 := (par >>> 8) &&& 0xff
  let rp0 := par &&& 0xff
  let par := par ^^^ (par >>> 8)
  let par := par &&& 0xff
  let rp := fun s v =>
    match s, v with
    | 0, false => rp0
    | 0, true => rp1
    | 1, false => rp2
    | 1, true => rp3
    | s + 2, v => foldWord (r.rp s v)
  codeBytes (fun s v => (rp s v).setWidth 8) (par.setWidth 8)

/-- The words are those of an `unsigned long` of 32 bits. -/
def ecc2 (bigEndian : Bool) (buf : Page) : Code := ecc2Finish (ecc2Rows bigEndian buf)

/-- `par ^= cur;` and `if (i & (1 << s)) rp(2s + 1) ^= cur;` -/
def Rows.addOdd (r : Rows 32) (i : ℕ) (cur : Word) : Rows 32 where
  par := r.par ^^^ cur
  rp s v := if v && i &&& 2 ^ s != 0 then r.rp s v ^^^ cur else r.rp s v

/-- `rp(2s) = par ^ rp(2s + 1);` -/
def Rows.complete (r : Rows 32) : Rows 32 where
  par := r.par
  rp s v := if v then r.rp s true else r.par ^^^ r.rp s true

/-- The loop of the third attempt, and what was added after it. -/
def ecc3Rows (bigEndian : Bool) (buf : Sector 1) : Rows 32 :=
  Rows.complete ((List.finRange 64).foldl
    (fun r (i : Fin (64 * 1)) => r.addOdd i (loadWord bigEndian buf i)) ⟨0, fun _ _ => 0⟩)

def ecc3 (bigEndian : Bool) (buf : Page) : Code := ecc2Finish (ecc3Rows bigEndian buf)

/-- The variables of the seventh attempt. -/
structure Acc7 where
  par : Word
  rp4 : Word
  rp6 : Word
  rp4_6 : Word
  rp8 : Word
  rp10 : Word
  rp12 : Word
  rp14 : Word

/-- A round of the seventh attempt, with its sixteen words. -/
def round7 (i : ℕ) (bp : ℕ → Word) (r : Acc7) : Acc7 :=
  let ⟨par, rp4, rp6, rp4_6, rp8, rp10, rp12, rp14⟩ := r
  let cur := bp 0
  let tmppar := cur
  let rp4 := rp4 ^^^ cur
  let cur := bp 1
  let tmppar := tmppar ^^^ cur
  let rp6 := rp6 ^^^ tmppar
  let cur := bp 2
  let tmppar := tmppar ^^^ cur
  let rp4 := rp4 ^^^ cur
  let cur := bp 3
  let tmppar := tmppar ^^^ cur
  let rp8 := rp8 ^^^ tmppar
  let cur := bp 4
  let tmppar := tmppar ^^^ cur
  let rp4_6 := rp4_6 ^^^ cur
  let cur := bp 5
  let tmppar := tmppar ^^^ cur
  let rp6 := rp6 ^^^ cur
  let cur := bp 6
  let tmppar := tmppar ^^^ cur
  let rp4 := rp4 ^^^ cur
  let cur := bp 7
  let tmppar := tmppar ^^^ cur
  let rp10 := rp10 ^^^ tmppar
  let notrp8 := tmppar
  let cur := bp 8
  let tmppar := tmppar ^^^ cur
  let rp4_6 := rp4_6 ^^^ cur
  let cur := bp 9
  let tmppar := tmppar ^^^ cur
  let rp6 := rp6 ^^^ cur
  let cur := bp 10
  let tmppar := tmppar ^^^ cur
  let rp4 := rp4 ^^^ cur
  let cur := bp 11
  let tmppar := tmppar ^^^ cur
  let rp8 := rp8 ^^^ tmppar ^^^ notrp8
  let cur := bp 12
  let tmppar := tmppar ^^^ cur
  let rp4_6 := rp4_6 ^^^ cur
  let cur := bp 13
  let tmppar := tmppar ^^^ cur
  let rp6 := rp6 ^^^ cur
  let cur := bp 14
  let tmppar := tmppar ^^^ cur
  let rp4 := rp4 ^^^ cur
  let cur := bp 15
  let tmppar := tmppar ^^^ cur
  let par := par ^^^ tmppar
  let rp12 := if i &&& 0x1 = 0 then rp12 ^^^ tmppar else rp12
  let rp14 := if i &&& 0x2 = 0 then rp14 ^^^ tmppar else rp14
  ⟨par, rp4, rp6, rp4_6, rp8, rp10, rp12, rp14⟩

/-- Word `k` of the page; the loops read no others than those that there are. -/
def wordAt (bigEndian : Bool) (buf : Sector 1) (k : ℕ) : Word :=
  if h : k < 64 * 1 then loadWord bigEndian buf ⟨k, h⟩ else 0

/-- `rp4 ^= rp4_6; rp6 ^= rp4_6;`: the registers of the sixth attempt. -/
def Acc7.separate (r : Acc7) : Later.Acc :=
  ⟨r.par, r.rp4 ^^^ r.rp4_6, r.rp6 ^^^ r.rp4_6, r.rp8, r.rp10, r.rp12, r.rp14, 0⟩

/-- The loop of the seventh attempt, and what was added after it. -/
def loop7 (bigEndian : Bool) (buf : Sector 1) : Later.Acc :=
  Acc7.separate ((List.finRange 4).foldl
    (fun r (i : Fin (4 * 1)) => round7 i (fun t => wordAt bigEndian buf (16 * i + t)) r)
    ⟨0, 0, 0, 0, 0, 0, 0, 0⟩)

/-! ## The bytes of the code -/

theorem parityTable_lookup : ∀ x : Byte, lookup parityTable x = pick 1 (parity x) := by
  decide

/-- The bits of the pairs, by the bytes whose parities they are. -/
def pairBit (rp : ℕ → Bool → Byte) (par : Byte) (j : ℕ) (v : Bool) : Bool :=
  if j < 3 then parity (par &&& Later.columnMask j v) else parity (rp (j - 3) v)

theorem codeBytes_eq (rp : ℕ → Bool → Byte) (par : Byte) :
    codeBytes rp par = layout true fun j v => !(decide (j < 11) && pairBit rp par j v) := by
  have hrows : ∀ b7 b6 b5 b4 b3 b2 b1 b0 : Bool, pick (1 <<< 7) b7 ||| pick (1 <<< 6) b6 |||
      pick (1 <<< 5) b5 ||| pick (1 <<< 4) b4 ||| pick (1 <<< 3) b3 ||| pick (1 <<< 2) b2 |||
      pick (1 <<< 1) b1 ||| pick 1 b0 = weave b7 b6 b5 b4 b3 b2 b1 b0 :=
    or_eq_weave
  have hcolumns : ∀ b7 b6 b5 b4 b3 b2 : Bool, pick (1 <<< 7) b7 ||| pick (1 <<< 6) b6 |||
      pick (1 <<< 5) b5 ||| pick (1 <<< 4) b4 ||| pick (1 <<< 3) b3 ||| pick (1 <<< 2) b2 =
        weave b7 b6 b5 b4 b3 b2 false false := by
    decide
  unfold codeBytes
  simp only [parityTable_lookup, Later.shift_pick, hrows]
  simp only [hcolumns, Prev.weave_not]
  rfl

/-! ## The registers -/

section

variable {w : ℕ} (φ : BitVec w → Bool) (hφ : ∀ x y, φ (x ^^^ y) = (φ x ^^ φ y))

include hφ

omit φ hφ in
theorem and_ne_zero (i s : ℕ) : (i &&& 2 ^ s != 0) = i.testBit s := by
  cases h : i.testBit s with
  | false => rw [(Later.and_eq_zero i s).mpr h, bne_self_eq_false]
  | true => rw [bne_iff_ne, ne_eq, Later.and_eq_zero, h, Bool.not_eq_false]

theorem add_rp (r : Rows w) (i : ℕ) (cur : BitVec w) (s : ℕ) (v : Bool) :
    φ ((r.add i cur).rp s v) =
      (φ (r.rp s v) ^^ if i.testBit s = v then φ cur else false) := by
  unfold Rows.add
  simp only [and_ne_zero]
  by_cases h : i.testBit s = v
  · rw [if_pos h, if_pos h, hφ]
  · rw [if_neg h, if_neg h, Bool.xor_false]

variable {n : ℕ} (words : Fin n → BitVec w)

theorem rows_rp (s : ℕ) (v : Bool) :
    φ (((List.finRange n).foldl (fun r (i : Fin n) => r.add i (words i)) ⟨0, fun _ _ => 0⟩ :
        Rows w).rp s v) =
      ∑ i, if i.val.testBit s = v then φ (words i) else false := by
  have hzero : φ 0 = false := by
    have h := hφ 0 0
    rw [BitVec.xor_self, Bool.xor_self] at h
    exact h
  exact foldl_finRange_adds (fun r : Rows w => φ (r.rp s v))
    (fun r i => add_rp φ hφ r i (words i) s v) hzero

theorem rows_par :
    φ (((List.finRange n).foldl (fun r (i : Fin n) => r.add i (words i)) ⟨0, fun _ _ => 0⟩ :
        Rows w).par) = ∑ i, φ (words i) := by
  have hzero : φ 0 = false := by
    have h := hφ 0 0
    rw [BitVec.xor_self, Bool.xor_self] at h
    exact h
  exact foldl_finRange_adds (fun r : Rows w => φ r.par) (fun r i => hφ r.par (words i)) hzero

end

/-! ## The pseudocode -/

theorem parity_eq : ∀ b : Byte, parity b = (b.getLsbD 7 ^^ b.getLsbD 6 ^^ b.getLsbD 5 ^^
    b.getLsbD 4 ^^ b.getLsbD 3 ^^ b.getLsbD 2 ^^ b.getLsbD 1 ^^ b.getLsbD 0) := by
  decide

theorem add_column (r : Parities) (i : ℕ) (b : Byte) {j : ℕ} (hj : j < 3) (v : Bool) :
    (r.add i b).cp j v = (r.cp j v ^^ parity (b &&& Later.columnMask j v)) := by
  have hmask : ∀ b : Byte, ∀ x, ∀ j < 3, ∀ v,
      ((⟨fun _ _ => x, fun _ _ => x⟩ : Parities).add 0 b).cp j v =
        (x ^^ parity (b &&& Later.columnMask j v)) := by
    decide
  rw [← hmask b _ j hj v]
  interval_cases j <;> cases v <;> rfl

theorem add_row (r : Parities) (i : ℕ) (b : Byte) {s : ℕ} {v : Bool} (h : s = 0 → v = true) :
    (r.add i b).rp s v = (r.rp s v ^^ if i.testBit s = v then parity b else false) := by
  have hrp : (if s = 0 then r.rp 0 true else r.rp s v) = r.rp s v := by
    by_cases hs : s = 0
    · rw [if_pos hs, hs, h hs]
    · rw [if_neg hs]
  unfold Parities.add
  simp only [and_ne_zero, hrp, ← parity_eq]
  by_cases hi : i.testBit s = v
  · rw [if_pos hi, if_pos hi, Bool.xor_comm]
  · rw [if_neg hi, if_neg hi, Bool.xor_false]

theorem attempt0_column (buf : Page) {j : ℕ} (hj : j < 3) (v : Bool) :
    (attempt0 buf).cp j v = parityAt (address (m := 1)) (bitAt buf) j v := by
  have hrun : (attempt0 buf).cp j v = ∑ i : Fin 256, parity (buf i &&& Later.columnMask j v) :=
    foldl_finRange_adds (fun r : Parities => r.cp j v)
      (fun r i => add_column r i (buf i) hj v) rfl
  rw [parityAt_rows, hrun]
  refine Finset.sum_congr rfl fun p _ => ?_
  simp only [address_testBit, if_pos hj]
  exact Later.parity_columnMask hj v (buf p)

theorem attempt0_row (buf : Page) {s : ℕ} {v : Bool} (h : s = 0 → v = true) :
    (attempt0 buf).rp s v = parityAt (address (m := 1)) (bitAt buf) (s + 3) v := by
  have hrun : (attempt0 buf).rp s v =
      ∑ i : Fin 256, if i.val.testBit s = v then parity (buf i) else false :=
    foldl_finRange_adds (fun r : Parities => r.rp s v) (fun r i => add_row r i (buf i) h) rfl
  rw [parityAt_rows, hrun]
  refine Finset.sum_congr rfl fun p _ => ?_
  simp only [address_testBit, if_neg (show ¬s + 3 < 3 by omega), Nat.add_sub_cancel]
  by_cases hp : p.val.testBit s = v
  · simp only [if_pos hp]
    rfl
  · simp only [if_neg hp]
    rfl

/-- The last two rounds: `rp0` is what byte 254 makes of the `rp1` of the bytes before. -/
theorem attempt0_rp0 (buf : Page) :
    (attempt0 buf).rp 0 false =
      (parity (buf 254) ^^ parity (buf 255) ^^ (attempt0 buf).rp 0 true) := by
  obtain ⟨r, hr⟩ : ∃ r : Parities, attempt0 buf = (r.add 254 (buf 254)).add 255 (buf 255) := by
    unfold attempt0
    rw [List.finRange_succ_last, List.foldl_append, List.finRange_succ_last, List.map_append,
      List.foldl_append]
    exact ⟨_, rfl⟩
  have h0 : ((r.add 254 (buf 254)).add 255 (buf 255)).rp 0 false =
      (parity (buf 254) ^^ r.rp 0 true) := by
    rw [parity_eq]
    rfl
  have h1 : ((r.add 254 (buf 254)).add 255 (buf 255)).rp 0 true =
      (parity (buf 255) ^^ r.rp 0 true) := by
    rw [parity_eq]
    rfl
  rw [hr, h0, h1, Bool.xor_assoc, ← Bool.xor_assoc (parity (buf 255)), Bool.xor_self,
    Bool.false_xor]

/-- **The pseudocode** computes every parity but `rp0`. That is right for the pages whose first 254
bytes have an even number of ones. -/
theorem attempt0_eq (buf : Page) :
    (∀ j < 3, ∀ v, (attempt0 buf).cp j v = parityAt (address (m := 1)) (bitAt buf) j v) ∧
      (∀ s v, (s = 0 → v = true) →
        (attempt0 buf).rp s v = parityAt (address (m := 1)) (bitAt buf) (s + 3) v) ∧
      ((attempt0 buf).rp 0 false = parityAt (address (m := 1)) (bitAt buf) 3 false ↔
        (∑ i : Fin 254, parity (buf i.castSucc.castSucc)) = false) := by
  refine ⟨fun j hj v => attempt0_column buf hj v, fun s v h => attempt0_row buf h, ?_⟩
  have hpair := parityAt_pair (address (m := 1)) (bitAt buf) 3
  have hrp1 : (attempt0 buf).rp 0 true = parityAt (address (m := 1)) (bitAt buf) 3 true :=
    attempt0_row buf fun _ => rfl
  have hsum : (∑ b, bitAt buf b) = ((∑ i : Fin 254, parity (buf i.castSucc.castSucc)) ^^
      parity (buf 254) ^^ parity (buf 255)) := by
    rw [Fintype.sum_prod_type]
    show (∑ i : Fin 256, parity (buf i)) = _
    rw [Fin.sum_univ_castSucc, Fin.sum_univ_castSucc]
    rfl
  have hbool : ∀ x y odd even first : Bool, (odd ^^ even) = (first ^^ x ^^ y) →
      ((x ^^ y ^^ odd) = even ↔ first = false) := by
    decide
  rw [attempt0_rp0, hrp1]
  exact hbool _ _ _ _ _ (hpair.trans hsum)

/-! ## The first attempt -/

theorem pairBit_ecc1 (buf : Page) (j : ℕ) (v : Bool) :
    pairBit (ecc1Rows buf).rp (ecc1Rows buf).par j v =
      parityAt (address (m := 1)) (bitAt buf) j v := by
  unfold pairBit
  rw [parityAt_rows]
  by_cases h3 : j < 3
  · have hφ : ∀ x y : Byte, parity ((x ^^^ y) &&& Later.columnMask j v) =
        (parity (x &&& Later.columnMask j v) ^^ parity (y &&& Later.columnMask j v)) := by
      intro x y
      rw [xor_and, parity_xor]
    rw [if_pos h3]
    refine (rows_par (fun x => parity (x &&& Later.columnMask j v)) hφ
      fun i : Fin 256 => buf i).trans (Finset.sum_congr rfl fun p _ => ?_)
    simp only [address_testBit, if_pos h3]
    exact Later.parity_columnMask h3 v (buf p)
  · rw [if_neg h3]
    refine (rows_rp parity parity_xor (fun i : Fin 256 => buf i) (j - 3) v).trans
      (Finset.sum_congr rfl fun p _ => ?_)
    simp only [address_testBit, if_neg h3]
    by_cases h : p.val.testBit (j - 3) = v
    · simp only [if_pos h]
      rfl
    · simp only [if_neg h]
      rfl

/-- **The first attempt** gives the code of the page. -/
theorem ecc1_codeOf (buf : Page) : ecc1 buf = codeOf (m := 1) true buf := by
  unfold ecc1 codeOf
  rw [codeBytes_eq]
  refine layout_congr fun j _ v => ?_
  unfold pairsOf
  by_cases hj : j < 11
  · rw [decide_eq_true hj, pairBit_ecc1 buf]
  · rw [decide_eq_false hj, Bool.false_and, Bool.false_and]

/-! ## The second and third attempts -/

section

variable (bigEndian : Bool) (buf : Sector 1)

theorem ecc2Rows_par : (ecc2Rows bigEndian buf).par = (Later.loop bigEndian buf).par := by
  apply BitVec.eq_of_getLsbD_eq
  intro q _
  have hφ : ∀ x y : Word, (x ^^^ y).getLsbD q = (x.getLsbD q ^^ y.getLsbD q) :=
    fun _ _ => BitVec.getLsbD_xor
  exact (rows_par (fun x => x.getLsbD q) hφ _).trans
    (Later.par_loop (fun x => x.getLsbD q) hφ bigEndian buf).symm

theorem ecc2Rows_even {s : ℕ} (hs : s < 6) :
    (ecc2Rows bigEndian buf).rp s false = (Later.loop bigEndian buf).even s := by
  apply BitVec.eq_of_getLsbD_eq
  intro q _
  have hφ : ∀ x y : Word, (x ^^^ y).getLsbD q = (x.getLsbD q ^^ y.getLsbD q) :=
    fun _ _ => BitVec.getLsbD_xor
  have hloop := Later.even_loop (fun x => x.getLsbD q) hφ bigEndian buf
    (show s < 7 by omega) (fun h => absurd h (by omega))
  have hrows := rows_rp (fun x => x.getLsbD q) hφ
    (fun i : Fin (64 * 1) => loadWord bigEndian buf i) s false
  unfold ecc2Rows
  rw [hloop, ← hrows]

/-- What the second and the third attempt keep. -/
def Alike (r r' : Rows 32) : Prop :=
  r.par = r'.par ∧ ∀ s, r.rp s true = r'.rp s true ∧ r'.par = r'.rp s false ^^^ r'.rp s true

theorem alike_add {r r' : Rows 32} (h : Alike r r') (i : ℕ) (cur : Word) :
    Alike (r.addOdd i cur) (r'.add i cur) := by
  obtain ⟨hpar, hrp⟩ := h
  refine ⟨congrArg (· ^^^ cur) hpar, fun s => ?_⟩
  obtain ⟨hodd, hsum⟩ := hrp s
  have hleft : ∀ x y : Word, x ^^^ y ^^^ cur = x ^^^ cur ^^^ y := by
    intro x y
    ac_rfl
  unfold Rows.addOdd Rows.add
  simp only [and_ne_zero, hodd, hsum]
  cases i.testBit s with
  | false => exact ⟨rfl, hleft _ _⟩
  | true => exact ⟨rfl, BitVec.xor_assoc ..⟩

theorem alike_rows : Alike ((List.finRange 64).foldl
    (fun r (i : Fin (64 * 1)) => r.addOdd i (loadWord bigEndian buf i)) ⟨0, fun _ _ => 0⟩)
    (ecc2Rows bigEndian buf) :=
  List.foldl_rel ⟨rfl, fun _ => ⟨rfl, BitVec.xor_self.symm⟩⟩ fun i _ _ _ h => alike_add h i _

theorem alike_complete {r r' : Rows 32} (h : Alike r r') : r.complete = r' := by
  obtain ⟨par, rp⟩ := r'
  obtain ⟨hpar, hrp⟩ := h
  have hrp' : r.complete.rp = rp := by
    funext s v
    obtain ⟨hodd, hsum⟩ := hrp s
    cases v with
    | false =>
      show r.par ^^^ r.rp s true = rp s false
      rw [hpar, hodd, hsum, BitVec.xor_assoc, BitVec.xor_self, BitVec.xor_zero]
    | true => exact hodd
  unfold Rows.complete at *
  rw [Rows.mk.injEq]
  exact ⟨hpar, hrp'⟩

theorem ecc3Rows_eq : ecc3Rows bigEndian buf = ecc2Rows bigEndian buf :=
  alike_complete (alike_rows bigEndian buf)

theorem ecc2Rows_odd {s : ℕ} (hs : s < 6) : (ecc2Rows bigEndian buf).rp s true =
    (Later.loop bigEndian buf).par ^^^ (Later.loop bigEndian buf).even s := by
  have hsum := ((alike_rows bigEndian buf).2 s).2
  rw [← ecc2Rows_par, ← ecc2Rows_even bigEndian buf hs, hsum, BitVec.xor_comm, ← BitVec.xor_assoc,
    BitVec.xor_self, BitVec.zero_xor]

end

/-- Brought back to bytes, the registers of `ecc2` have the parities that the kernel's code reads on
a machine with the low byte first. -/
theorem ecc2Finish_eq {r : Rows 32} {r' : Later.Acc} (hpar : r.par = r'.par)
    (heven : ∀ s < 6, r.rp s false = r'.even s)
    (hodd : ∀ s < 6, r.rp s true = r'.par ^^^ r'.even s) :
    ecc2Finish r =
      layout true fun j v => !(decide (j < 11) && parity (Later.pairByte false r' j v)) := by
  obtain ⟨h3, h2, h1, h0⟩ := Later.lanes_rows false r'.par
  have hbyte : ∀ x : Byte, (x.setWidth 32).setWidth 8 = x := fun x =>
    (BitVec.setWidth_setWidth_of_le _ (by decide)).trans (BitVec.setWidth_eq x)
  unfold ecc2Finish
  rw [codeBytes_eq, hpar]
  simp only [Later.upper_eq, Later.lower_eq, Later.rp01_eq, Later.par_eq, hbyte]
  refine layout_congr fun j _ v => ?_
  by_cases hj : j < 11
  · refine congrArg (fun b => !(decide (j < 11) && b)) ?_
    unfold pairBit Later.pairByte
    by_cases hcolumns : j < 3
    · rw [if_pos hcolumns, if_pos hcolumns]
    rw [if_neg hcolumns, if_neg hcolumns]
    by_cases hinner : j < 5
    · rw [if_pos hinner]
      obtain rfl | rfl : j = 3 ∨ j = 4 := by omega
      · cases v
        · exact congrArg parity ((hbyte _).trans h0.symm)
        · exact congrArg parity ((hbyte _).trans h1.symm)
      · cases v
        · exact congrArg parity ((hbyte _).trans h2.symm)
        · exact congrArg parity ((hbyte _).trans h3.symm)
    · rw [if_neg hinner]
      obtain ⟨s, rfl⟩ := Nat.exists_eq_add_of_le' (Nat.le_of_not_lt hinner)
      show parity ((foldWord (r.rp s v)).setWidth 8) = _
      rw [Later.foldWord_eq, hbyte, Nat.add_sub_cancel]
      cases v with
      | false => rw [heven s (by omega)]; rfl
      | true =>
        rw [hodd s (by omega), Later.whole, Later.lanes_xor]
        rfl
  · rw [decide_eq_false hj, Bool.false_and, Bool.false_and]

/-! ## The seventh attempt -/

/-- A round of the seventh attempt is one of the sixth. -/
theorem round7_separate (i : ℕ) (words : ℕ → Word) (r : Acc7) :
    Later.round 1 i (fun t : Fin 16 => words t) r.separate = (round7 i words r).separate := by
  have hcancel : ∀ x n a b c d : Word,
      x ^^^ (n ^^^ a ^^^ b ^^^ c ^^^ d) ^^^ n = x ^^^ a ^^^ b ^^^ c ^^^ d := by
    intro x n a b c d
    calc x ^^^ (n ^^^ a ^^^ b ^^^ c ^^^ d) ^^^ n
        = n ^^^ n ^^^ (x ^^^ a ^^^ b ^^^ c ^^^ d) := by ac_rfl
      _ = x ^^^ a ^^^ b ^^^ c ^^^ d := by rw [BitVec.xor_self, BitVec.zero_xor]
  obtain ⟨par, rp4, rp6, rp4_6, rp8, rp10, rp12, rp14⟩ := r
  unfold Later.round round7 Acc7.separate
  simp only [hcancel]
  rw [Later.Acc.mk.injEq]
  refine ⟨rfl, ?_, ?_, rfl, rfl, rfl, rfl, rfl⟩
  · show rp4 ^^^ rp4_6 ^^^ words 0 ^^^ words 2 ^^^ words 4 ^^^ words 6 ^^^ words 8 ^^^ words 10 ^^^
      words 12 ^^^ words 14 = rp4 ^^^ words 0 ^^^ words 2 ^^^ words 6 ^^^ words 10 ^^^ words 14 ^^^
        (rp4_6 ^^^ words 4 ^^^ words 8 ^^^ words 12)
    ac_rfl
  · show rp6 ^^^ rp4_6 ^^^ (words 0 ^^^ words 1) ^^^ words 4 ^^^ words 5 ^^^ words 8 ^^^ words 9 ^^^
      words 12 ^^^ words 13 = rp6 ^^^ (words 0 ^^^ words 1) ^^^ words 5 ^^^ words 9 ^^^ words 13 ^^^
        (rp4_6 ^^^ words 4 ^^^ words 8 ^^^ words 12)
    ac_rfl

theorem loop7_eq (bigEndian : Bool) (buf : Sector 1) :
    loop7 bigEndian buf = Later.loop bigEndian buf := by
  have hwords : ∀ i : Fin (4 * 1), Later.loadRound bigEndian buf i =
      fun t : Fin 16 => wordAt bigEndian buf (16 * i + t) := by
    intro i
    funext t
    have hk : 16 * i.val + t.val < 64 * 1 := by omega
    unfold wordAt
    rw [dif_pos hk]
    rfl
  have hround : ∀ (r : Acc7) (i : Fin (4 * 1)),
      Later.round 1 i (Later.loadRound bigEndian buf i) r.separate =
        (round7 i (fun t => wordAt bigEndian buf (16 * i + t)) r).separate := by
    intro r i
    rw [hwords]
    exact round7_separate i (fun t => wordAt bigEndian buf (16 * i + t)) r
  exact (List.foldl_hom Acc7.separate hround).symm

/-! ## The attempts together -/

/-- With the high byte first, the rows inside a word are counted from its end. -/
theorem pairByte_swapped (bigEndian : Bool) (r : Later.Acc) (j : ℕ) (v : Bool) :
    Later.pairByte false r j v =
      Later.pairByte bigEndian r j (if bigEndian ∧ (j = 3 ∨ j = 4) then !v else v) := by
  cases bigEndian with
  | false => rfl
  | true =>
    by_cases hinner : j = 3 ∨ j = 4
    · obtain ⟨h3, h2, h1, h0⟩ := Later.lanes_rows false r.par
      obtain ⟨k3, k2, k1, k0⟩ := Later.lanes_rows true r.par
      rw [if_pos ⟨rfl, hinner⟩]
      obtain rfl | rfl := hinner
      · cases v
        · exact h0.trans k1.symm
        · exact h1.trans k0.symm
      · cases v
        · exact h2.trans k3.symm
        · exact h3.trans k2.symm
    · rw [if_neg fun h => hinner h.2]
      unfold Later.pairByte
      by_cases hcolumns : j < 3
      · rw [if_pos hcolumns, if_pos hcolumns]
      · have hrows : ¬j < 5 := by
          rintro h
          exact hinner (by omega)
        rw [if_neg hcolumns, if_neg hcolumns, if_neg hrows, if_neg hrows]

/-- **The attempts agree.** The first gives what the kernel's code has in the SmartMedia order, and
the second does so on a machine with the low byte first; with the high byte first, the row parities
of one and of two bytes have changed places in their pairs. The third gives what the second does,
and the seventh leaves the registers of the kernel's loop. -/
theorem attempts_agree (bigEndian : Bool) (buf : Page) :
    Later.calculateEcc (m := 1) bigEndian true buf = .ok (ecc1 buf) ∧
      (∀ j < 12, ∀ v, bitAt (ecc2 bigEndian buf) (place true j v) =
        bitAt (ecc1 buf) (place true j (if bigEndian ∧ (j = 3 ∨ j = 4) then !v else v))) ∧
      ecc2 false buf = ecc1 buf ∧
      ecc3 bigEndian buf = ecc2 bigEndian buf ∧
      loop7 bigEndian buf = Later.loop (m := 1) bigEndian buf := by
  have hbits : ∀ bigEndian, ∀ j < 12, ∀ v, bitAt (ecc2 bigEndian buf) (place true j v) =
      bitAt (ecc1 buf) (place true j (if bigEndian ∧ (j = 3 ∨ j = 4) then !v else v)) := by
    intro bigEndian j hj v
    unfold ecc2
    rw [ecc2Finish_eq (ecc2Rows_par bigEndian buf) (fun s hs => ecc2Rows_even bigEndian buf hs)
      (fun s hs => ecc2Rows_odd bigEndian buf hs), ecc1_codeOf, codeOf, bitAt_layout true _ hj,
      bitAt_layout true _ hj, pairByte_swapped bigEndian]
    unfold pairsOf
    by_cases hj' : j < 11
    · rw [Later.parity_pairByte (m := 1) bigEndian buf (Or.inl rfl) hj']
    · rw [decide_eq_false hj', Bool.false_and, Bool.false_and]
  refine ⟨?_, hbits bigEndian, ?_, ?_, loop7_eq bigEndian buf⟩
  · rw [ecc1_codeOf]
    exact Later.calculateEcc_eq (m := 1) bigEndian buf true (Or.inl rfl)
  · apply ext_bitAt
    intro c
    obtain ⟨j, hj, v, rfl⟩ := exists_place true c
    exact hbits false j hj v
  · unfold ecc3 ecc2
    rw [ecc3Rows_eq]

end KernelGadgets.Nand.Attempts
