import KernelGadgets.Nand.Pairs

/-!
# The word-parallel ECC

`calculateEcc` reads a sector word by word. A round of its loop takes sixteen words and keeps one
register for every pair of row parities of four bytes or more, that of the rows whose number has a
zero there; a running parity of the round saves some of the additions. After the loop the words are
folded to bytes, the other row parities are the difference to the parity of everything, and a table
gives the parities of the bytes.
-/

namespace KernelGadgets.Nand.Later

/-! ## Tables -/

/-- `invparity`: one for the bytes of even parity. -/
def invparity : List Byte :=
  [1, 0, 0, 1, 0, 1, 1, 0, 0, 1, 1, 0, 1, 0, 0, 1,
    0, 1, 1, 0, 1, 0, 0, 1, 1, 0, 0, 1, 0, 1, 1, 0,
    0, 1, 1, 0, 1, 0, 0, 1, 1, 0, 0, 1, 0, 1, 1, 0,
    1, 0, 0, 1, 0, 1, 1, 0, 0, 1, 1, 0, 1, 0, 0, 1,
    0, 1, 1, 0, 1, 0, 0, 1, 1, 0, 0, 1, 0, 1, 1, 0,
    1, 0, 0, 1, 0, 1, 1, 0, 0, 1, 1, 0, 1, 0, 0, 1,
    1, 0, 0, 1, 0, 1, 1, 0, 0, 1, 1, 0, 1, 0, 0, 1,
    0, 1, 1, 0, 1, 0, 0, 1, 1, 0, 0, 1, 0, 1, 1, 0,
    0, 1, 1, 0, 1, 0, 0, 1, 1, 0, 0, 1, 0, 1, 1, 0,
    1, 0, 0, 1, 0, 1, 1, 0, 0, 1, 1, 0, 1, 0, 0, 1,
    1, 0, 0, 1, 0, 1, 1, 0, 0, 1, 1, 0, 1, 0, 0, 1,
    0, 1, 1, 0, 1, 0, 0, 1, 1, 0, 0, 1, 0, 1, 1, 0,
    1, 0, 0, 1, 0, 1, 1, 0, 0, 1, 1, 0, 1, 0, 0, 1,
    0, 1, 1, 0, 1, 0, 0, 1, 1, 0, 0, 1, 0, 1, 1, 0,
    0, 1, 1, 0, 1, 0, 0, 1, 1, 0, 0, 1, 0, 1, 1, 0,
    1, 0, 0, 1, 0, 1, 1, 0, 0, 1, 1, 0, 1, 0, 0, 1]

/-- `bitsperbyte`: the number of ones. -/
def bitsperbyte : List Byte :=
  [0, 1, 1, 2, 1, 2, 2, 3, 1, 2, 2, 3, 2, 3, 3, 4,
    1, 2, 2, 3, 2, 3, 3, 4, 2, 3, 3, 4, 3, 4, 4, 5,
    1, 2, 2, 3, 2, 3, 3, 4, 2, 3, 3, 4, 3, 4, 4, 5,
    2, 3, 3, 4, 3, 4, 4, 5, 3, 4, 4, 5, 4, 5, 5, 6,
    1, 2, 2, 3, 2, 3, 3, 4, 2, 3, 3, 4, 3, 4, 4, 5,
    2, 3, 3, 4, 3, 4, 4, 5, 3, 4, 4, 5, 4, 5, 5, 6,
    2, 3, 3, 4, 3, 4, 4, 5, 3, 4, 4, 5, 4, 5, 5, 6,
    3, 4, 4, 5, 4, 5, 5, 6, 4, 5, 5, 6, 5, 6, 6, 7,
    1, 2, 2, 3, 2, 3, 3, 4, 2, 3, 3, 4, 3, 4, 4, 5,
    2, 3, 3, 4, 3, 4, 4, 5, 3, 4, 4, 5, 4, 5, 5, 6,
    2, 3, 3, 4, 3, 4, 4, 5, 3, 4, 4, 5, 4, 5, 5, 6,
    3, 4, 4, 5, 4, 5, 5, 6, 4, 5, 5, 6, 5, 6, 6, 7,
    2, 3, 3, 4, 3, 4, 4, 5, 3, 4, 4, 5, 4, 5, 5, 6,
    3, 4, 4, 5, 4, 5, 5, 6, 4, 5, 5, 6, 5, 6, 6, 7,
    3, 4, 4, 5, 4, 5, 5, 6, 4, 5, 5, 6, 5, 6, 6, 7,
    4, 5, 5, 6, 5, 6, 6, 7, 5, 6, 6, 7, 6, 7, 7, 8]

/-- `addressbits`: the odd bits, pushed together. -/
def addressbits : List Byte :=
  [0x00, 0x00, 0x01, 0x01, 0x00, 0x00, 0x01, 0x01, 0x02, 0x02, 0x03, 0x03, 0x02, 0x02, 0x03, 0x03,
    0x00, 0x00, 0x01, 0x01, 0x00, 0x00, 0x01, 0x01, 0x02, 0x02, 0x03, 0x03, 0x02, 0x02, 0x03, 0x03,
    0x04, 0x04, 0x05, 0x05, 0x04, 0x04, 0x05, 0x05, 0x06, 0x06, 0x07, 0x07, 0x06, 0x06, 0x07, 0x07,
    0x04, 0x04, 0x05, 0x05, 0x04, 0x04, 0x05, 0x05, 0x06, 0x06, 0x07, 0x07, 0x06, 0x06, 0x07, 0x07,
    0x00, 0x00, 0x01, 0x01, 0x00, 0x00, 0x01, 0x01, 0x02, 0x02, 0x03, 0x03, 0x02, 0x02, 0x03, 0x03,
    0x00, 0x00, 0x01, 0x01, 0x00, 0x00, 0x01, 0x01, 0x02, 0x02, 0x03, 0x03, 0x02, 0x02, 0x03, 0x03,
    0x04, 0x04, 0x05, 0x05, 0x04, 0x04, 0x05, 0x05, 0x06, 0x06, 0x07, 0x07, 0x06, 0x06, 0x07, 0x07,
    0x04, 0x04, 0x05, 0x05, 0x04, 0x04, 0x05, 0x05, 0x06, 0x06, 0x07, 0x07, 0x06, 0x06, 0x07, 0x07,
    0x08, 0x08, 0x09, 0x09, 0x08, 0x08, 0x09, 0x09, 0x0a, 0x0a, 0x0b, 0x0b, 0x0a, 0x0a, 0x0b, 0x0b,
    0x08, 0x08, 0x09, 0x09, 0x08, 0x08, 0x09, 0x09, 0x0a, 0x0a, 0x0b, 0x0b, 0x0a, 0x0a, 0x0b, 0x0b,
    0x0c, 0x0c, 0x0d, 0x0d, 0x0c, 0x0c, 0x0d, 0x0d, 0x0e, 0x0e, 0x0f, 0x0f, 0x0e, 0x0e, 0x0f, 0x0f,
    0x0c, 0x0c, 0x0d, 0x0d, 0x0c, 0x0c, 0x0d, 0x0d, 0x0e, 0x0e, 0x0f, 0x0f, 0x0e, 0x0e, 0x0f, 0x0f,
    0x08, 0x08, 0x09, 0x09, 0x08, 0x08, 0x09, 0x09, 0x0a, 0x0a, 0x0b, 0x0b, 0x0a, 0x0a, 0x0b, 0x0b,
    0x08, 0x08, 0x09, 0x09, 0x08, 0x08, 0x09, 0x09, 0x0a, 0x0a, 0x0b, 0x0b, 0x0a, 0x0a, 0x0b, 0x0b,
    0x0c, 0x0c, 0x0d, 0x0d, 0x0c, 0x0c, 0x0d, 0x0d, 0x0e, 0x0e, 0x0f, 0x0f, 0x0e, 0x0e, 0x0f, 0x0f,
    0x0c, 0x0c, 0x0d, 0x0d, 0x0c, 0x0c, 0x0d, 0x0d, 0x0e, 0x0e, 0x0f, 0x0f, 0x0e, 0x0e, 0x0f, 0x0f]

/-! ## The loop -/

/-- A `uint32_t`. -/
abbrev Word := BitVec 32

variable {m : ℕ}

/-- Byte `l` of word `k`. -/
def byteIndex (k : Fin (64 * m)) (l : Fin 4) : Fin (256 * m) := ⟨4 * k + l, by omega⟩

/-- `bp[k]`: four bytes in the order of the machine. -/
def loadWord (bigEndian : Bool) (buf : Sector m) (k : Fin (64 * m)) : Word :=
  let b := fun l => buf (byteIndex k l)
  if bigEndian then b 0 ++ b 1 ++ b 2 ++ b 3 else b 3 ++ b 2 ++ b 1 ++ b 0

/-- The sixteen words of round `i`. -/
def loadRound (bigEndian : Bool) (buf : Sector m) (i : Fin (4 * m)) (t : Fin 16) : Word :=
  loadWord bigEndian buf ⟨16 * i + t, by omega⟩

/-- The variables that live across the rounds. -/
structure Acc where
  par : Word
  rp4 : Word
  rp6 : Word
  rp8 : Word
  rp10 : Word
  rp12 : Word
  rp14 : Word
  rp16 : Word

/-- One round of the loop, `m` for `eccsize_mult`. -/
def round (m : ℕ) (i : ℕ) (bp : Fin 16 → Word) (r : Acc) : Acc :=
  let ⟨par, rp4, rp6, rp8, rp10, rp12, rp14, rp16⟩ := r
  let cur := bp 0
  let tmppar := cur
  let rp4 := rp4 ^^^ cur
  let cur := bp 1
  let tmppar := tmppar ^^^ cur
  let rp6 := rp6 ^^^ tmppar
  let cur := bp 2
  let tmppar := tmppar ^^^ cur
  let rp4 := rp4 ^^^ cur
  let cur := bp 3
  let tmppar := tmppar ^^^ cur
  let rp8 := rp8 ^^^ tmppar
  let cur := bp 4
  let tmppar := tmppar ^^^ cur
  let rp4 := rp4 ^^^ cur
  let rp6 := rp6 ^^^ cur
  let cur := bp 5
  let tmppar := tmppar ^^^ cur
  let rp6 := rp6 ^^^ cur
  let cur := bp 6
  let tmppar := tmppar ^^^ cur
  let rp4 := rp4 ^^^ cur
  let cur := bp 7
  let tmppar := tmppar ^^^ cur
  let rp10 := rp10 ^^^ tmppar
  let cur := bp 8
  let tmppar := tmppar ^^^ cur
  let rp4 := rp4 ^^^ cur
  let rp6 := rp6 ^^^ cur
  let rp8 := rp8 ^^^ cur
  let cur := bp 9
  let tmppar := tmppar ^^^ cur
  let rp6 := rp6 ^^^ cur
  let rp8 := rp8 ^^^ cur
  let cur := bp 10
  let tmppar := tmppar ^^^ cur
  let rp4 := rp4 ^^^ cur
  let rp8 := rp8 ^^^ cur
  let cur := bp 11
  let tmppar := tmppar ^^^ cur
  let rp8 := rp8 ^^^ cur
  let cur := bp 12
  let tmppar := tmppar ^^^ cur
  let rp4 := rp4 ^^^ cur
  let rp6 := rp6 ^^^ cur
  let cur := bp 13
  let tmppar := tmppar ^^^ cur
  let rp6 := rp6 ^^^ cur
  let cur := bp 14
  let tmppar := tmppar ^^^ cur
  let rp4 := rp4 ^^^ cur
  let cur := bp 15
  let tmppar := tmppar ^^^ cur
  let par := par ^^^ tmppar
  let rp12 := if i &&& 0x1 = 0 then rp12 ^^^ tmppar else rp12
  let rp14 := if i &&& 0x2 = 0 then rp14 ^^^ tmppar else rp14
  let rp16 := if m = 2 ∧ i &&& 0x4 = 0 then rp16 ^^^ tmppar else rp16
  ⟨par, rp4, rp6, rp8, rp10, rp12, rp14, rp16⟩

/-- `tmppar` at the end of a round. -/
def rowSum (bp : Fin 16 → Word) : Word :=
  bp 0 ^^^ bp 1 ^^^ bp 2 ^^^ bp 3 ^^^ bp 4 ^^^ bp 5 ^^^ bp 6 ^^^ bp 7 ^^^ bp 8 ^^^ bp 9 ^^^
    bp 10 ^^^ bp 11 ^^^ bp 12 ^^^ bp 13 ^^^ bp 14 ^^^ bp 15

/-- `for (i = 0; i < eccsize_mult << 2; i++)` -/
def loop (bigEndian : Bool) (buf : Sector m) : Acc :=
  (List.finRange (4 * m)).foldl (fun r (i : Fin (4 * m)) => round m i (loadRound bigEndian buf i) r)
    ⟨0, 0, 0, 0, 0, 0, 0, 0⟩

/-! ## After the loop -/

/-- `rp ^= (rp >> 16); rp ^= (rp >> 8); rp &= 0xff;` -/
def foldWord (rp : Word) : Word :=
  let rp := rp ^^^ (rp >>> 16)
  let rp := rp ^^^ (rp >>> 8)
  rp &&& 0xff

/-- `rp ^= (rp >> 8); rp &= 0xff;` -/
def foldHalf (rp : Word) : Word :=
  let rp := rp ^^^ (rp >>> 8)
  rp &&& 0xff

/-- `invparity[rp]` -/
def invparityAt (rp : Word) : Byte := invparity.getD rp.toNat 0

/-- A byte of `code` with row parities. -/
def rowByte (rp7 rp6 rp5 rp4 rp3 rp2 rp1 rp0 : Word) : Byte :=
  (invparityAt rp7 <<< 7) |||
  (invparityAt rp6 <<< 6) |||
  (invparityAt rp5 <<< 5) |||
  (invparityAt rp4 <<< 4) |||
  (invparityAt rp3 <<< 3) |||
  (invparityAt rp2 <<< 2) |||
  (invparityAt rp1 <<< 1) |||
  (invparityAt rp0)

/-- The column parities in `code[2]`. -/
def columnByte (par : Word) : Byte :=
  (invparityAt (par &&& 0xf0) <<< 7) |||
  (invparityAt (par &&& 0x0f) <<< 6) |||
  (invparityAt (par &&& 0xcc) <<< 5) |||
  (invparityAt (par &&& 0x33) <<< 4) |||
  (invparityAt (par &&& 0xaa) <<< 3) |||
  (invparityAt (par &&& 0x55) <<< 2)

/-- From the end of the loop on. `rp17` has no value unless `eccsize_mult` is 2. -/
def finish (bigEndian smc : Bool) (m : ℕ) (r : Acc) : Outcome Code :=
  let rp4 := foldWord r.rp4
  let rp6 := foldWord r.rp6
  let rp8 := foldWord r.rp8
  let rp10 := foldWord r.rp10
  let rp12 := foldWord r.rp12
  let rp14 := foldWord r.rp14
  let rp16 := if m = 2 then foldWord r.rp16 else r.rp16
  let upper := foldHalf (r.par >>> 16)
  let lower := foldHalf (r.par &&& 0xffff)
  let rp3 := if bigEndian then lower else upper
  let rp2 := if bigEndian then upper else lower
  let par := r.par ^^^ (r.par >>> 16)
  let rp1 := if bigEndian then par &&& 0xff else (par >>> 8) &&& 0xff
  let rp0 := if bigEndian then (par >>> 8) &&& 0xff else par &&& 0xff
  let par := par ^^^ (par >>> 8)
  let par := par &&& 0xff
  let rp5 := (par ^^^ rp4) &&& 0xff
  let rp7 := (par ^^^ rp6) &&& 0xff
  let rp9 := (par ^^^ rp8) &&& 0xff
  let rp11 := (par ^^^ rp10) &&& 0xff
  let rp13 := (par ^^^ rp12) &&& 0xff
  let rp15 := (par ^^^ rp14) &&& 0xff
  let rp17 := if m = 2 then some ((par ^^^ rp16) &&& 0xff) else none
  let low := rowByte rp7 rp6 rp5 rp4 rp3 rp2 rp1 rp0
  let high := rowByte rp15 rp14 rp13 rp12 rp11 rp10 rp9 rp8
  if m = 1 then .ok (ordered smc low high (columnByte par ||| 3))
  else match rp17 with
    | none => .fault
    | some rp17 =>
      .ok (ordered smc low high
        (columnByte par ||| (invparityAt rp17 <<< 1) ||| (invparityAt rp16 <<< 0)))

/-- `__nand_calculate_ecc` for a sector of `m` times 256 bytes. -/
def calculateEcc (bigEndian smc : Bool) (buf : Sector m) : Outcome Code :=
  finish bigEndian smc m (loop bigEndian buf)

/-! ## Correction -/

/-- `byte_addr`: the byte that the odd bits spell. -/
def byteAddrOf (m : ℕ) (b0 b1 b2 : Byte) : ℕ :=
  if m = 1 then ((lookup addressbits b1).toNat <<< 4) + (lookup addressbits b0).toNat
  else ((lookup addressbits (b2 &&& 0x3)).toNat <<< 8) +
    (((lookup addressbits b1).toNat <<< 4) + (lookup addressbits b0).toNat)

/-- `__nand_correct_data`: what it returns, and what it leaves in `buf`. -/
def correctData (smc : Bool) (buf : Sector m) (readEcc calcEcc : Code) : Outcome (ℤ × Sector m) :=
  let b0 := difference readEcc calcEcc (if smc then 0 else 1)
  let b1 := difference readEcc calcEcc (if smc then 1 else 0)
  let b2 := difference readEcc calcEcc 2
  if b0 ||| b1 ||| b2 = 0 then
    .ok (0, buf)
  else if (b0 ^^^ (b0 >>> 1)) &&& 0x55 = 0x55 ∧ (b1 ^^^ (b1 >>> 1)) &&& 0x55 = 0x55 ∧
      (m = 1 ∧ (b2 ^^^ (b2 >>> 1)) &&& 0x54 = 0x54 ∨
        m = 2 ∧ (b2 ^^^ (b2 >>> 1)) &&& 0x55 = 0x55) then
    let byteAddr := byteAddrOf m b0 b1 b2
    let bitAddr := (lookup addressbits (b2 >>> 2)).toNat
    if h : byteAddr < 256 * m then
      .ok (1, Function.update buf ⟨byteAddr, h⟩ (buf ⟨byteAddr, h⟩ ^^^ (1#8 <<< bitAddr)))
    else .fault
  else if (lookup bitsperbyte b0).toNat + (lookup bitsperbyte b1).toNat +
      (lookup bitsperbyte b2).toNat = 1 then
    .ok (1, buf)
  else
    .ok (-1, buf)

end KernelGadgets.Nand.Later
