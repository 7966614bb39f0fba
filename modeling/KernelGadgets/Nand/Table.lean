import KernelGadgets.Lib.BitFlip

/-!
# The parity table

`mkECCtbl` fills the table that `nand_calculate_ecc` looks bytes up in: bits 0 to 5 of an entry are
the column parities of the byte, bit 6 is its parity. The loop stops before entry 255, which keeps
its initial zero; that is the entry the formula gives there (`eccTbl_lookup`).
-/

namespace KernelGadgets.Nand

/-- An `unsigned char`. -/
abbrev Byte := BitVec 8

/-! ## The code -/

/-- `BIT0(x)` to `BIT7(x)`: one bit of a byte, as 0 or 1. -/
def bitOf (k : ℕ) (x : Byte) : Byte := (x &&& (1#8 <<< k)) >>> k

/-- `if (cp) xdata |= mask;` -/
def orIf (cp mask xdata : Byte) : Byte := if cp ≠ 0 then xdata ||| mask else xdata

/-- The body of the loop: the entry of the byte `i`. -/
def eccEntry (i : Byte) : Byte :=
  let xdata : Byte := 0
  let cp0 := bitOf 0 i ^^^ bitOf 2 i ^^^ bitOf 4 i ^^^ bitOf 6 i
  let xdata := orIf cp0 0x01 xdata
  let cp1 := bitOf 1 i ^^^ bitOf 3 i ^^^ bitOf 5 i ^^^ bitOf 7 i
  let xdata := orIf cp1 0x02 xdata
  let cp2 := bitOf 0 i ^^^ bitOf 1 i ^^^ bitOf 4 i ^^^ bitOf 5 i
  let xdata := orIf cp2 0x04 xdata
  let cp3 := bitOf 2 i ^^^ bitOf 3 i ^^^ bitOf 6 i ^^^ bitOf 7 i
  let xdata := orIf cp3 0x08 xdata
  let cp4 := bitOf 0 i ^^^ bitOf 1 i ^^^ bitOf 2 i ^^^ bitOf 3 i
  let xdata := orIf cp4 0x10 xdata
  let cp5 := bitOf 4 i ^^^ bitOf 5 i ^^^ bitOf 6 i ^^^ bitOf 7 i
  let xdata := orIf cp5 0x20 xdata
  let rp := bitOf 0 i ^^^ bitOf 1 i ^^^ bitOf 2 i ^^^ bitOf 3 i ^^^
    bitOf 4 i ^^^ bitOf 5 i ^^^ bitOf 6 i ^^^ bitOf 7 i
  orIf rp 0x40 xdata

/-- `for (i = 0; i < 0xff; i++) ecc_tbl[i] = xdata;` -/
def mkECCtbl (tbl : List Byte) : List Byte :=
  (List.range 0xff).foldl (fun tbl i => tbl.set i (eccEntry (BitVec.ofNat 8 i))) tbl

/-- `ecc_tbl` after the call; a static array starts with zeros. -/
def eccTbl : List Byte := mkECCtbl (List.replicate 256 0)

/-- `tbl[x]`. -/
def lookup (tbl : List Byte) (x : Byte) : Byte := tbl.getD x.toNat 0

/-! ## The entries -/

/-- Setting the entries below `n` one after another. -/
theorem getD_foldl_set (f : ℕ → Byte) (tbl : List Byte) {n : ℕ} (hn : n ≤ tbl.length) (j : ℕ) :
    ((List.range n).foldl (fun tbl i => tbl.set i (f i)) tbl).getD j 0 =
      if j < n then f j else tbl.getD j 0 := by
  have hlen : ∀ m, ((List.range m).foldl (fun tbl i => tbl.set i (f i)) tbl).length =
      tbl.length := by
    intro m
    induction m with
    | zero => rfl
    | succ m ih => rw [List.range_succ, List.foldl_append, List.foldl_cons, List.foldl_nil,
        List.length_set, ih]
  induction n with
  | zero => rfl
  | succ n ih =>
    rw [List.range_succ, List.foldl_append, List.foldl_cons, List.foldl_nil,
      List.getD_eq_getElem?_getD, List.getElem?_set, hlen]
    by_cases hj : n = j
    · subst hj
      simp [Nat.lt_of_succ_le hn]
    · rw [if_neg hj, ← List.getD_eq_getElem?_getD, ih (Nat.le_of_succ_le hn)]
      have hlt : j < n + 1 ↔ j < n := by omega
      simp only [hlt]

/-- Every entry is what the body of the loop gives, the last one included. -/
theorem eccTbl_lookup (x : Byte) : lookup eccTbl x = eccEntry x := by
  have hlast : eccEntry 255 = 0 := by decide
  have h : lookup eccTbl x = if x.toNat < 255 then _ else _ :=
    getD_foldl_set (fun i => eccEntry (BitVec.ofNat 8 i)) (List.replicate 256 0)
      (by rw [List.length_replicate]; decide) x.toNat
  rw [h]
  split_ifs with hx
  · rw [BitVec.ofNat_toNat, BitVec.setWidth_eq]
  · have hx255 : x = 255 := by
      apply BitVec.eq_of_toNat_eq
      have := x.isLt
      show x.toNat = 255
      omega
    subst hx255
    rw [hlast]
    rfl

/-! ## Linearity -/

/-- A mask, or nothing. -/
def pick (mask : Byte) (b : Bool) : Byte := if b then mask else 0

theorem pick_xor (mask : Byte) (a b : Bool) : pick mask (a ^^ b) = pick mask a ^^^ pick mask b := by
  cases a <;> cases b <;> simp [pick]

theorem bitOf_eq {k : ℕ} (hk : k < 8) (x : Byte) : bitOf k x = pick 1 (x.getLsbD k) := by
  unfold bitOf
  rw [← BitVec.twoPow_eq, BitVec.and_twoPow]
  cases x.getLsbD k
  · exact BitVec.zero_ushiftRight
  · show BitVec.twoPow 8 k >>> k = 1
    revert k
    decide

/-- The entry as a sum of column masks. -/
theorem eccEntry_eq (x : Byte) :
    eccEntry x =
      pick 0x01 (x.getLsbD 0 ^^ x.getLsbD 2 ^^ x.getLsbD 4 ^^ x.getLsbD 6) ^^^
      pick 0x02 (x.getLsbD 1 ^^ x.getLsbD 3 ^^ x.getLsbD 5 ^^ x.getLsbD 7) ^^^
      pick 0x04 (x.getLsbD 0 ^^ x.getLsbD 1 ^^ x.getLsbD 4 ^^ x.getLsbD 5) ^^^
      pick 0x08 (x.getLsbD 2 ^^ x.getLsbD 3 ^^ x.getLsbD 6 ^^ x.getLsbD 7) ^^^
      pick 0x10 (x.getLsbD 0 ^^ x.getLsbD 1 ^^ x.getLsbD 2 ^^ x.getLsbD 3) ^^^
      pick 0x20 (x.getLsbD 4 ^^ x.getLsbD 5 ^^ x.getLsbD 6 ^^ x.getLsbD 7) ^^^
      pick 0x40 (x.getLsbD 0 ^^ x.getLsbD 1 ^^ x.getLsbD 2 ^^ x.getLsbD 3 ^^
        x.getLsbD 4 ^^ x.getLsbD 5 ^^ x.getLsbD 6 ^^ x.getLsbD 7) := by
  have hor : ∀ c0 c1 c2 c3 c4 c5 rp : Bool,
      orIf (pick 1 rp) 0x40 (orIf (pick 1 c5) 0x20 (orIf (pick 1 c4) 0x10
        (orIf (pick 1 c3) 0x08 (orIf (pick 1 c2) 0x04 (orIf (pick 1 c1) 0x02
          (orIf (pick 1 c0) 0x01 0)))))) =
      pick 0x01 c0 ^^^ pick 0x02 c1 ^^^ pick 0x04 c2 ^^^ pick 0x08 c3 ^^^ pick 0x10 c4 ^^^
        pick 0x20 c5 ^^^ pick 0x40 rp := by decide
  unfold eccEntry
  simp (disch := decide) only [bitOf_eq, ← pick_xor]
  exact hor _ _ _ _ _ _ _

/-- The table is linear: the entry of a sum is the sum of the entries. -/
theorem eccEntry_xor (x y : Byte) : eccEntry (x ^^^ y) = eccEntry x ^^^ eccEntry y := by
  simp only [eccEntry_eq, BitVec.getLsbD_xor, pick_xor]
  ac_rfl

end KernelGadgets.Nand
