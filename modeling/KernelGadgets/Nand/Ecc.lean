import Mathlib.Data.Fin.VecNotation
import Mathlib.Data.List.FinRange
import KernelGadgets.Lib.Outcome
import KernelGadgets.Nand.Table

/-!
# The 256-byte ECC

`nandCalculateEcc` keeps three registers: the column parities of all bytes, and the XOR of the
numbers of the bytes of odd parity, plain and complemented. It interleaves the bits of the last two
into two bytes and shifts the first into a third. `nandCorrectData` looks at the XOR of two codes.

The registers are linear in the block (`eccRegs_flip`), so the XOR of the codes of two blocks
depends only on the bits in which the blocks differ (`code_xor`): one flipped bit makes both bits of
every pair of the code differ and is read off it (`judge_one`), two make the bits of every pair
agree (`judge_two`).
-/

namespace KernelGadgets.Nand

/-! ## The code -/

/-- A block of 256 bytes. -/
abbrev Page := Fin 256 → Byte

/-- `ecc_code[3]`. -/
abbrev Code := Fin 3 → Byte

/-- The registers of `nand_calculate_ecc`. -/
@[ext] structure Regs where
  reg1 : Byte
  reg2 : Byte
  reg3 : Byte
  deriving DecidableEq

/-- One round of the loop. -/
def eccRound (tbl : List Byte) (dat : Page) (r : Regs) (i : Fin 256) : Regs :=
  let idx := lookup tbl (dat i)
  let reg1 := r.reg1 ^^^ (idx &&& 0x3f)
  if idx &&& 0x40 ≠ 0 then
    { reg1, reg3 := r.reg3 ^^^ BitVec.ofNat 8 i, reg2 := r.reg2 ^^^ ~~~BitVec.ofNat 8 i }
  else
    { reg1, reg3 := r.reg3, reg2 := r.reg2 }

/-- `for (i = 0; i < 256; i++)` -/
def eccRegs (tbl : List Byte) (dat : Page) : Regs :=
  (List.finRange 256).foldl (eccRound tbl dat) ⟨0, 0, 0⟩

/-- `tmp1`: the high halves of `reg3` and `reg2`. -/
def tmp1Of (reg2 reg3 : Byte) : Byte :=
  ((reg3 &&& 0x80) >>> 0) ||| ((reg2 &&& 0x80) >>> 1) |||
  ((reg3 &&& 0x40) >>> 1) ||| ((reg2 &&& 0x40) >>> 2) |||
  ((reg3 &&& 0x20) >>> 2) ||| ((reg2 &&& 0x20) >>> 3) |||
  ((reg3 &&& 0x10) >>> 3) ||| ((reg2 &&& 0x10) >>> 4)

/-- `tmp2`: the low halves. -/
def tmp2Of (reg2 reg3 : Byte) : Byte :=
  ((reg3 &&& 0x08) <<< 4) ||| ((reg2 &&& 0x08) <<< 3) |||
  ((reg3 &&& 0x04) <<< 3) ||| ((reg2 &&& 0x04) <<< 2) |||
  ((reg3 &&& 0x02) <<< 2) ||| ((reg2 &&& 0x02) <<< 1) |||
  ((reg3 &&& 0x01) <<< 1) ||| ((reg2 &&& 0x01) <<< 0)

def nandCalculateEcc (tbl : List Byte) (dat : Page) : Code :=
  let r := eccRegs tbl dat
  ![tmp2Of r.reg2 r.reg3, tmp1Of r.reg2 r.reg3, (r.reg1 <<< 2) ||| 0x03#8]

/-- `for (;byte; byte >>= 1) res += byte & 0x01;` -/
def countbitsLoop : ℕ → BitVec 32 → ℕ → Outcome ℕ
  | 0, _, _ => .diverge
  | fuel + 1, byte, res =>
    if byte = 0 then .ok res
    else countbitsLoop fuel (byte >>> 1) (res + (byte &&& 0x01).toNat)

/-- A 32-bit value is used up after 32 rounds. -/
def countbits (byte : BitVec 32) : Outcome ℕ := countbitsLoop 33 byte 0

/-- What `nand_correct_data` returns, and the byte and the bit that it names on its way. -/
structure Correction where
  ret : ℤ
  located : Option (ℕ × ℕ)
  deriving DecidableEq

def byteoffsOf (s0 s1 : Byte) : BitVec 32 :=
  let s0 := s0.setWidth 32
  let s1 := s1.setWidth 32
  ((s1 <<< 0) &&& 0x80) ||| ((s1 <<< 1) &&& 0x40) ||| ((s1 <<< 2) &&& 0x20) |||
  ((s1 <<< 3) &&& 0x10) |||
  ((s0 >>> 4) &&& 0x08) ||| ((s0 >>> 3) &&& 0x04) ||| ((s0 >>> 2) &&& 0x02) |||
  ((s0 >>> 1) &&& 0x01)

def bitnumOf (s2 : Byte) : BitVec 32 :=
  let s2 := s2.setWidth 32
  ((s2 >>> 5) &&& 0x04) ||| ((s2 >>> 4) &&& 0x02) ||| ((s2 >>> 3) &&& 0x01)

/-- `nand_correct_data` from the XOR of the two codes on. -/
def correctSyndrome (s0 s1 s2 : Byte) : Outcome Correction :=
  if s0 ||| s1 ||| s2 = 0 then
    .ok ⟨0, none⟩
  else if (s0 ^^^ (s0 >>> 1)) &&& 0x55 = 0x55 ∧ (s1 ^^^ (s1 >>> 1)) &&& 0x55 = 0x55 ∧
      (s2 ^^^ (s2 >>> 1)) &&& 0x54 = 0x54 then
    .ok ⟨1, some ((byteoffsOf s0 s1).toNat, (bitnumOf s2).toNat)⟩
  else do
    let n ← countbits (s0.setWidth 32 ||| (s1.setWidth 32 <<< 8) ||| (s2.setWidth 32 <<< 16))
    return if n = 1 then ⟨1, none⟩ else ⟨-1, none⟩

def nandCorrectData (readEcc calcEcc : Code) : Outcome Correction :=
  correctSyndrome (calcEcc 0 ^^^ readEcc 0) (calcEcc 1 ^^^ readEcc 1) (calcEcc 2 ^^^ readEcc 2)

/-! ## The registers are linear -/

theorem xor_and (a b m : Byte) : (a ^^^ b) &&& m = (a &&& m) ^^^ (b &&& m) := by
  apply BitVec.eq_of_getLsbD_eq
  intro i _
  simp only [BitVec.getLsbD_and, BitVec.getLsbD_xor, Bool.and_xor_distrib_right]

instance : XorOp Regs where
  xor r s := ⟨r.reg1 ^^^ s.reg1, r.reg2 ^^^ s.reg2, r.reg3 ^^^ s.reg3⟩

namespace Regs

@[simp] theorem xor_reg1 (r s : Regs) : (r ^^^ s).reg1 = r.reg1 ^^^ s.reg1 := rfl

@[simp] theorem xor_reg2 (r s : Regs) : (r ^^^ s).reg2 = r.reg2 ^^^ s.reg2 := rfl

@[simp] theorem xor_reg3 (r s : Regs) : (r ^^^ s).reg3 = r.reg3 ^^^ s.reg3 := rfl

theorem xor_assoc (r s t : Regs) : r ^^^ s ^^^ t = r ^^^ (s ^^^ t) := by
  ext1 <;> exact BitVec.xor_assoc _ _ _

theorem xor_comm (r s : Regs) : r ^^^ s = s ^^^ r := by
  ext1 <;> exact BitVec.xor_comm _ _

theorem xor_right_comm (r s t : Regs) : r ^^^ s ^^^ t = r ^^^ t ^^^ s := by
  rw [xor_assoc, xor_comm s t, xor_assoc]

end Regs

/-- What a byte adds to the registers. -/
def contrib (i : Fin 256) (x : Byte) : Regs :=
  ⟨eccEntry x &&& 0x3f, pick (~~~BitVec.ofNat 8 i) ((eccEntry x).getLsbD 6),
    pick (BitVec.ofNat 8 i) ((eccEntry x).getLsbD 6)⟩

theorem contrib_xor (i : Fin 256) (x y : Byte) :
    contrib i (x ^^^ y) = contrib i x ^^^ contrib i y := by
  ext1
  · show eccEntry (x ^^^ y) &&& 0x3f = (eccEntry x &&& 0x3f) ^^^ (eccEntry y &&& 0x3f)
    rw [eccEntry_xor, xor_and]
  · show pick _ ((eccEntry (x ^^^ y)).getLsbD 6) = pick _ _ ^^^ pick _ _
    rw [eccEntry_xor, BitVec.getLsbD_xor, pick_xor]
  · show pick _ ((eccEntry (x ^^^ y)).getLsbD 6) = pick _ _ ^^^ pick _ _
    rw [eccEntry_xor, BitVec.getLsbD_xor, pick_xor]

/-- A round adds what the byte contributes. -/
theorem eccRound_eq (dat : Page) (r : Regs) (i : Fin 256) :
    eccRound eccTbl dat r i = r ^^^ contrib i (dat i) := by
  have hmask : eccEntry (dat i) &&& 0x40 = if (eccEntry (dat i)).getLsbD 6 then 0x40 else 0 :=
    BitVec.and_twoPow _ 6
  simp only [eccRound, contrib, eccTbl_lookup, hmask]
  cases (eccEntry (dat i)).getLsbD 6
  · rw [if_neg Bool.false_ne_true, if_neg (by decide)]
    ext1
    · rfl
    · exact BitVec.xor_zero.symm
    · exact BitVec.xor_zero.symm
  · rw [if_pos rfl, if_pos (by decide)]
    rfl

section

variable {dat : Page} {b : Fin 256 × Fin 8}

/-- A sum added at the start is added at the end. -/
theorem foldl_eccRound_xor (l : List (Fin 256)) (r s : Regs) :
    l.foldl (eccRound eccTbl dat) (r ^^^ s) = l.foldl (eccRound eccTbl dat) r ^^^ s := by
  induction l generalizing r with
  | nil => rfl
  | cons i l ih =>
    rw [List.foldl_cons, List.foldl_cons, eccRound_eq, eccRound_eq, Regs.xor_right_comm, ih]

theorem foldl_eccRound_of_notMem {l : List (Fin 256)} (h : b.1 ∉ l) (r : Regs) :
    l.foldl (eccRound eccTbl (flip dat b)) r = l.foldl (eccRound eccTbl dat) r := by
  apply List.foldl_ext
  intro r i hi
  have hne : i ≠ b.1 := fun hib => h (hib ▸ hi)
  rw [eccRound_eq, eccRound_eq, flip_of_ne hne]

theorem foldl_eccRound_flip {l : List (Fin 256)} (hl : l.Nodup) (h : b.1 ∈ l) (r : Regs) :
    l.foldl (eccRound eccTbl (flip dat b)) r =
      l.foldl (eccRound eccTbl dat) r ^^^ contrib b.1 (BitVec.twoPow 8 b.2) := by
  induction l generalizing r with
  | nil => exact absurd h List.not_mem_nil
  | cons i l ih =>
    obtain ⟨hi, hl⟩ := List.nodup_cons.mp hl
    rw [List.foldl_cons, List.foldl_cons]
    obtain rfl | h := List.mem_cons.mp h
    · rw [foldl_eccRound_of_notMem hi, eccRound_eq, flip_self, contrib_xor, ← Regs.xor_assoc,
        foldl_eccRound_xor, ← eccRound_eq]
    · have hne : i ≠ b.1 := fun hib => hi (hib ▸ h)
      rw [ih hl h, eccRound_eq, eccRound_eq, flip_of_ne hne]

/-- **The registers are linear.** A flipped bit adds what the bit alone contributes. -/
theorem eccRegs_flip (dat : Page) (b : Fin 256 × Fin 8) :
    eccRegs eccTbl (flip dat b) =
      eccRegs eccTbl dat ^^^ contrib b.1 (BitVec.twoPow 8 b.2) :=
  foldl_eccRound_flip (List.nodup_finRange 256) (List.mem_finRange b.1) _

end

end KernelGadgets.Nand
