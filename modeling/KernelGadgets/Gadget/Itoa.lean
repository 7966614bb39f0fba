import KernelGadgets.Lib.CInt
import KernelGadgets.Lib.CString
import KernelGadgets.Lib.Machine
import KernelGadgets.Lib.Numeral

/-!
# Printing numbers

`itoA_` writes the digits of a number backwards into a static buffer of 13 bytes, which keeps what
earlier calls left, and returns an address in it. Division and remainder truncate towards zero.

* `itoALoop_eq` is the loop on a number that is not negative: its digits stand in front of the
  terminator, and nothing of the number is left.
* `itoA_prints_iff`: the string at the address returned is the numeral in base 16 only; in base 10
  the address is that of the byte before the first digit.
* `itoA_stays_iff`: the indices stay in their objects exactly for numbers that are not negative.
-/

namespace KernelGadgets.Gadget

open Block

/-! ## The code -/

/-- What is returned: a string literal, or an address in `buf`. -/
inductive Text where
  | literal (s : String)
  | buf (i : ℕ)
  deriving DecidableEq, Repr

/-- `"0123456789ABCDEF"[res]`. The terminator at index 16 is no digit, and is left out. -/
def digitAt (res : ℤ) : Outcome UInt8 := do
  let i ← offset res
  load digitChars i

/-- `buf[i] = c` -/
def putChar (buf : Block) (i : ℤ) (c : UInt8) : Outcome Block := do
  let k ← offset i
  store buf k c

/-- `buf[i] = "0123456789ABCDEF"[tmp % base]` -/
def putDigit (base : ℤ) (i : ℕ) (tmp : ℤ) (buf : Block) : Outcome Block := do
  let c ← digitAt (tmp.tmod base)
  putChar buf i c

/-- The loop of `itoA_` from index `i` on: the buffer, `i` and `tmp` behind it. -/
def itoALoop (base : ℤ) : ℕ → ℤ → Block → Outcome (Block × ℤ × ℤ)
  | 0, tmp, buf => do
    let buf ← putDigit base 0 tmp buf
    return (buf, -1, tmp.tdiv base)
  | i + 1, tmp, buf => do
    let buf ← putDigit base (i + 1) tmp buf
    if tmp.tdiv base ≠ 0 then itoALoop base i (tmp.tdiv base) buf
    else return (buf, (i : ℤ), tmp.tdiv base)

/-- The prefix `0x`. -/
def putPrefix (base : ℤ) (buf : Block) (i : ℤ) : Outcome (Block × ℤ) :=
  if base = 16 then do
    let buf ← putChar buf i 0x78
    let buf ← putChar buf (i - 1) 0x30
    return (buf, i - 1)
  else .ok (buf, i)

/-- `itoA_`, with the static buffer before and after the call. -/
def itoA (buf : Block) (tmp base : ℤ) : Outcome (Text × Block) :=
  if ¬ (base = 10 ∨ base = 16) then
    .ok (.literal ">Sorry, only hex and dec supported.", buf)
  else do
    let buf ← putChar buf 12 0
    let (buf, i, _) ← itoALoop base 11 tmp buf
    let (buf, i) ← putPrefix base buf i
    let i ← offset i
    return (.buf i, buf)

/-- The static buffer before the first call. -/
def staticBuf : Block := List.replicate 13 0

/-- Calls with a base that is supported, on numbers that are not negative. -/
def itoAMachine : Machine Block (ℤ × ℤ) Text where
  allowed _ call := 0 ≤ call.1 ∧ call.1 ≤ intMax ∧ (call.2 = 10 ∨ call.2 = 16)
  step buf call := itoA buf call.1 call.2

instance (buf : Block) (call : ℤ × ℤ) : Decidable (itoAMachine.allowed buf call) :=
  inferInstanceAs (Decidable (_ ∧ _))

/-! ## The loop -/

theorem digitAt_natCast {d : ℕ} (h : d < 16) : digitAt d = .ok (digitChar d) := by
  rw [digitAt, offset_natCast, Outcome.ok_bind]
  exact load_ok h

theorem putChar_natCast {buf : Block} {i : ℕ} (h : i < buf.length) (c : UInt8) :
    putChar buf i c = .ok (buf.set i c) := by
  rw [putChar, offset_natCast, Outcome.ok_bind, store_ok h]

variable {b n i : ℕ} {buf : Block}

theorem putDigit_ok (hb : 2 ≤ b) (h16 : b ≤ 16) (hi : i < buf.length) :
    putDigit b i n buf = .ok (buf.set i (digitChar (n % b))) := by
  have hd : n % b < b := Nat.mod_lt n (by omega)
  rw [putDigit, ← Int.ofNat_tmod, digitAt_natCast (by omega), Outcome.ok_bind, putChar_natCast hi]

/-- The last round. -/
theorem itoALoop_last (hb : 2 ≤ b) (h16 : b ≤ 16) (hi : i < buf.length) (hn : n < b) :
    itoALoop b i n buf = .ok (splice buf i [digitChar n], (i : ℤ) - 1, 0) := by
  have hmod : n % b = n := Nat.mod_eq_of_lt hn
  have hdiv : (n : ℤ).tdiv b = 0 := by
    rw [← Int.ofNat_tdiv, Nat.div_eq_of_lt hn]
    rfl
  have hset := set_splice (t := []) hi (digitChar n)
  rw [splice_nil] at hset
  cases i with
  | zero =>
    rw [itoALoop, putDigit_ok hb h16 hi, hmod, hdiv, hset]
    rfl
  | succ i =>
    rw [itoALoop, putDigit_ok hb h16 hi, hmod, hdiv, hset, Outcome.ok_bind,
      if_neg (not_not_intro rfl), Int.natCast_succ, Int.add_sub_cancel]
    rfl

/-- **The loop.** The digits of the number are put in front of the index behind `i`, and `i` ends
before the first of them. -/
theorem itoALoop_eq (hb : 2 ≤ b) (h16 : b ≤ 16) (hlen : (numeral b n).length ≤ i + 1)
    (hi : i < buf.length) :
    itoALoop b i n buf = .ok (splice buf (i + 1 - (numeral b n).length) (numeral b n),
      (i : ℤ) - (numeral b n).length, 0) := by
  induction i generalizing n buf with
  | zero =>
    have hn : n < b := by
      by_contra hge
      have hstep := length_numeral_step hb (n := n) (by omega)
      have hpos := length_numeral_pos hb (n / b)
      omega
    rw [itoALoop_last hb h16 hi hn, numeral_of_lt hn]
    rfl
  | succ i ih =>
    by_cases hn : n < b
    · rw [itoALoop_last hb h16 hi hn, numeral_of_lt hn]
      rfl
    · have hge : b ≤ n := by omega
      have hq : (n : ℤ).tdiv b ≠ 0 := by
        rw [← Int.ofNat_tdiv]
        have := Nat.div_pos hge (by omega)
        omega
      have hstep := length_numeral_step hb hge
      have hset : (buf.set (i + 1) (digitChar (n % b))).length = buf.length := List.length_set
      have hplace : i + 1 - (numeral b (n / b)).length + (numeral b (n / b)).length = i + 1 := by
        omega
      have happ := splice_set (b := buf) (d := i + 1 - (numeral b (n / b)).length)
        (t := numeral b (n / b)) (by rw [hplace]; exact hi) (digitChar (n % b))
      rw [hplace, ← numeral_step hb hge] at happ
      rw [itoALoop, putDigit_ok hb h16 hi, Outcome.ok_bind, if_pos hq, ← Int.ofNat_tdiv,
        ih (by omega) (by omega), happ, hstep, Nat.add_sub_add_right]
      congr 3
      omega

/-- A digit of a negative number is put only where it is zero, and then more digits follow. -/
theorem tdiv_neg_of_putDigit {base : ℤ} (hb : 2 ≤ base) {tmp : ℤ} (hneg : tmp < 0) {buf₁ : Block}
    (h : putDigit base i tmp buf = .ok buf₁) : tmp.tdiv base < 0 := by
  obtain ⟨c, hc, -⟩ := Outcome.bind_eq_ok.mp h
  obtain ⟨d, hd, -⟩ := Outcome.bind_eq_ok.mp hc
  have hres : 0 ≤ tmp.tmod base := by
    by_contra hlt
    rw [offset, if_neg hlt] at hd
    cases hd
  have hsum := Int.mul_tdiv_add_tmod tmp base
  by_contra hge
  have hprod : 0 ≤ base * tmp.tdiv base := Int.mul_nonneg (by omega) (by omega)
  omega

/-- Of a negative number something is left behind the loop, if it comes to its end. -/
theorem itoALoop_neg {base : ℤ} (hb : 2 ≤ base) {tmp : ℤ} (hneg : tmp < 0) {r : Block × ℤ × ℤ}
    (h : itoALoop base i tmp buf = .ok r) : r.2.2 ≠ 0 := by
  induction i generalizing tmp buf with
  | zero =>
    rw [itoALoop] at h
    obtain ⟨buf₁, hput, h⟩ := Outcome.bind_eq_ok.mp h
    obtain rfl := Outcome.ok.inj h
    exact Int.ne_of_lt (tdiv_neg_of_putDigit hb hneg hput)
  | succ i ih =>
    rw [itoALoop] at h
    obtain ⟨buf₁, hput, h⟩ := Outcome.bind_eq_ok.mp h
    have hlt := tdiv_neg_of_putDigit hb hneg hput
    rw [if_pos (Int.ne_of_lt hlt)] at h
    exact ih hlt h

/-! ## The string -/

/-- The characters in front of the digits. -/
def prefixOf (base : ℕ) : List UInt8 := if base = 16 then [0x30, 0x78] else []

/-- `s` is the number `n` in the base `base`: the prefix and the numeral, which has no leading zero
and reads back as `n`. -/
structure Shows (base n : ℕ) (s : CStr) : Prop where
  text : s.bytes = prefixOf base ++ numeral base n
  canonical : (s.bytes.drop (prefixOf base).length).head? = some (digitChar 0) → n = 0
  value : readNumeral base (s.bytes.drop (prefixOf base).length) = n

/-- The call returns an address in the buffer, and the string there is the number. -/
def Prints (buf : Block) (n base : ℕ) : Prop :=
  (itoA buf n base).Ends fun r => ∃ i s, r.1 = .buf i ∧ CStr.ofBlock (r.2.drop i) = .ok s ∧
    Shows base n s

theorem shows_of_text (hb : 2 ≤ b) (h16 : b ≤ 16) {s : CStr}
    (h : s.bytes = prefixOf b ++ numeral b n) : Shows b n s := by
  have hdrop : s.bytes.drop (prefixOf b).length = numeral b n := by rw [h, List.drop_left]
  refine ⟨h, ?_, ?_⟩
  · rw [hdrop]
    exact head_numeral hb h16 n
  · rw [hdrop]
    exact readNumeral_numeral hb h16 n

/-- An `int` has at most ten digits in base 10, and at most eight in base 16. -/
theorem length_numeral_int (hn : n ≤ intMax) :
    (numeral 10 n).length ≤ 10 ∧ (numeral 16 n).length ≤ 8 := by
  rw [intMax] at hn
  constructor
  · exact length_numeral_le (by decide) (by decide) (by omega)
  · exact length_numeral_le (by decide) (by decide) (by omega)

/-- The bytes from the start of a text up to the end of the buffer. -/
theorem drop_text (hbuf : buf.length = 13) {d : ℕ} {text : List UInt8} (h : d + text.length = 12) :
    (splice (buf.set 12 0) d text).drop d = text ++ [0] := by
  have hset : (buf.set 12 0).length = 13 := by rw [List.length_set, hbuf]
  have hlast : (buf.set 12 (0 : UInt8)).drop 12 = [0] := by
    rw [List.drop_eq_getElem_cons (by omega), List.getElem_set_self,
      List.drop_eq_nil_of_le (by omega)]
  rw [drop_splice (by omega), h, hlast]

section Call

variable (hbuf : buf.length = 13) (hn : n ≤ intMax)
include hbuf hn

/-- Both bases put the digits in front of the terminator. -/
theorem loop_call (hb : b = 10 ∨ b = 16) : itoALoop b 11 n (buf.set 12 0) =
    .ok (splice (buf.set 12 0) (12 - (numeral b n).length) (numeral b n),
      (11 : ℤ) - (numeral b n).length, 0) := by
  obtain ⟨h10, h16⟩ := length_numeral_int hn
  have hset : (buf.set 12 0).length = 13 := by rw [List.length_set, hbuf]
  obtain rfl | rfl := hb
  · exact itoALoop_eq (by decide) (by decide) (by omega) (by omega)
  · exact itoALoop_eq (by decide) (by decide) (by omega) (by omega)

/-- In base 10 the address is that of the byte before the first digit. -/
theorem itoA_dec : itoA buf n 10 = .ok (.buf (11 - (numeral 10 n).length),
    splice (buf.set 12 0) (12 - (numeral 10 n).length) (numeral 10 n)) := by
  obtain ⟨h10, -⟩ := length_numeral_int hn
  have hloop : itoALoop 10 11 n (buf.set 12 0) = _ := loop_call hbuf hn (.inl rfl)
  have hend : putChar buf 12 0 = .ok (buf.set 12 0) := putChar_natCast (show 12 < buf.length by omega) 0
  have hoff : offset ((11 : ℤ) - (numeral 10 n).length) = .ok (11 - (numeral 10 n).length) := by
    rw [← offset_natCast]
    congr 1
    omega
  rw [itoA, if_neg (by decide), hend, Outcome.ok_bind, hloop]
  simp only [Outcome.ok_bind, putPrefix, if_neg (show ¬ (10 : ℤ) = 16 by decide), hoff]
  rfl

/-- In base 16 it is that of the prefix. -/
theorem itoA_hex : itoA buf n 16 = .ok (.buf (10 - (numeral 16 n).length),
    splice (buf.set 12 0) (10 - (numeral 16 n).length) (0x30 :: 0x78 :: numeral 16 n)) := by
  obtain ⟨-, h16⟩ := length_numeral_int hn
  have hloop : itoALoop 16 11 n (buf.set 12 0) = _ := loop_call hbuf hn (.inr rfl)
  have hend : putChar buf 12 0 = .ok (buf.set 12 0) := putChar_natCast (show 12 < buf.length by omega) 0
  obtain ⟨k, hk⟩ : ∃ k, k + (numeral 16 n).length = 10 := ⟨10 - (numeral 16 n).length, by omega⟩
  have hi : (11 : ℤ) - (numeral 16 n).length = ((k + 1 : ℕ) : ℤ) := by omega
  have hi' : ((k + 1 : ℕ) : ℤ) - 1 = (k : ℤ) := by omega
  have hset : (buf.set 12 0).length = 13 := by rw [List.length_set, hbuf]
  have hx := set_splice (b := buf.set 12 0) (d := k + 1) (t := numeral 16 n) (by omega) 0x78
  have h0 := set_splice (b := buf.set 12 0) (d := k) (t := 0x78 :: numeral 16 n) (by omega) 0x30
  have hlen : (splice (buf.set 12 0) (k + 1 + 1) (numeral 16 n)).length = 13 := by
    rw [length_splice (by omega), hset]
  have hlen' : (splice (buf.set 12 0) (k + 1) (0x78 :: numeral 16 n)).length = 13 := by
    rw [← hx, List.length_set, hlen]
  rw [itoA, if_neg (by decide), hend, Outcome.ok_bind, hloop, hi,
    show 12 - (numeral 16 n).length = k + 1 + 1 by omega,
    show 10 - (numeral 16 n).length = k by omega]
  simp only [Outcome.ok_bind, putPrefix, if_true, putChar_natCast (show k + 1 <
    (splice (buf.set 12 0) (k + 1 + 1) (numeral 16 n)).length by omega), hx, hi',
    putChar_natCast (show k < (splice (buf.set 12 0) (k + 1) (0x78 :: numeral 16 n)).length
      by omega), h0]
  rfl

/-- The string in base 16. -/
theorem prints_hex : Prints buf n 16 := by
  obtain ⟨-, h16⟩ := length_numeral_int hn
  have hnul : (0 : UInt8) ∉ 0x30 :: 0x78 :: numeral 16 n := by
    simp only [List.mem_cons, not_or]
    exact ⟨by decide, by decide, nul_notMem_numeral (by decide) (by decide) n⟩
  refine Outcome.Ends.of_eq (itoA_hex hbuf hn) ⟨_, ⟨_, hnul⟩, rfl, ?_, ?_⟩
  · rw [drop_text hbuf (by rw [List.length_cons, List.length_cons]; omega)]
    exact CStr.ofBlock_block ⟨_, hnul⟩
  · exact shows_of_text (by decide) (by decide) rfl

/-- In base 10 the string begins with the byte before the digits, or ends there. -/
theorem not_prints_dec : ¬ Prints buf n 10 := by
  obtain ⟨h10, -⟩ := length_numeral_int hn
  have hpos := length_numeral_pos (by decide : 2 ≤ 10) n
  obtain ⟨k, hk⟩ : ∃ k, k + (numeral 10 n).length = 11 := ⟨11 - (numeral 10 n).length, by omega⟩
  have hset : (buf.set 12 0).length = 13 := by rw [List.length_set, hbuf]
  -- the byte in front of the digits counts as the first of the text
  have hfront := set_splice (b := buf.set 12 0) (d := k) (t := numeral 10 n) (by omega)
    (byte (splice (buf.set 12 0) (k + 1) (numeral 10 n)) k)
  rw [set_byte] at hfront
  rintro ⟨r, hr, i, s, htext, hs, hshows⟩
  rw [Nat.cast_ofNat, itoA_dec hbuf hn, show 12 - (numeral 10 n).length = k + 1 by omega,
    show 11 - (numeral 10 n).length = k by omega, hfront] at hr
  obtain rfl := Outcome.ok.inj hr
  obtain rfl := Text.buf.inj htext
  rw [drop_text hbuf (by rw [List.length_cons]; omega), List.cons_append] at hs
  have hbytes : s.bytes = numeral 10 n := hshows.text
  obtain hzero | hne := eq_or_ne (byte (splice (buf.set 12 0) (k + 1) (numeral 10 n)) k) 0
  · have hempty := CStr.ofBlock_append ⟨[], List.not_mem_nil⟩ (numeral 10 n ++ [0])
    rw [hzero] at hs
    obtain rfl := Outcome.ok.inj (hs.symm.trans hempty)
    exact numeral_ne_nil (by decide) n hbytes.symm
  · have hnul : (0 : UInt8) ∉ byte (splice (buf.set 12 0) (k + 1) (numeral 10 n)) k ::
        numeral 10 n := by
      rw [List.mem_cons, not_or]
      exact ⟨Ne.symm hne, nul_notMem_numeral (by decide) (by decide) n⟩
    have hlong := CStr.ofBlock_block ⟨_, hnul⟩
    obtain rfl := Outcome.ok.inj (hs.symm.trans hlong)
    have hlen := congrArg List.length hbytes
    rw [List.length_cons] at hlen
    omega

end Call

/-! ## Every history of calls -/

/-- A call on a number that is not negative keeps the size of the buffer. -/
theorem itoA_length (hbuf : buf.length = 13) (hn : n ≤ intMax) {base : ℤ}
    (hbase : base = 10 ∨ base = 16) : (itoA buf n base).Ends fun r => r.2.length = 13 := by
  obtain ⟨h10, h16⟩ := length_numeral_int hn
  have hset : (buf.set 12 0).length = 13 := by rw [List.length_set, hbuf]
  obtain rfl | rfl := hbase
  · refine Outcome.Ends.of_eq (itoA_dec hbuf hn) ?_
    rw [length_splice (by omega), hset]
  · refine Outcome.Ends.of_eq (itoA_hex hbuf hn) ?_
    rw [length_splice (by rw [List.length_cons, List.length_cons]; omega), hset]

theorem history_length {history : List (ℤ × ℤ)} (h : itoAMachine.Legal staticBuf history) :
    (itoAMachine.run staticBuf history).Ends fun r => r.2.length = 13 := by
  let inv : Block → Prop := fun buf => buf.length = 13
  have hinv : inv staticBuf := rfl
  refine Machine.run_inv ?_ hinv h
  rintro buf ⟨tmp, base⟩ hbuf ⟨h0, hmax, hbase⟩
  obtain ⟨n, rfl⟩ := Int.eq_ofNat_of_zero_le h0
  exact itoA_length hbuf (Int.ofNat_le.mp hmax) hbase

/-- **The number is printed in base 16 only**, whatever was printed before. In base 10 the address
returned is that of the byte before the first digit. -/
theorem itoA_prints_iff {history : List (ℤ × ℤ)} (h : itoAMachine.Legal staticBuf history)
    (hn : n ≤ intMax) {base : ℕ} (hbase : base = 10 ∨ base = 16) :
    ((itoAMachine.run staticBuf history).Ends fun r => Prints r.2 n base) ↔ base = 16 := by
  obtain ⟨r, hr, hlen⟩ := history_length h
  rw [hr, Outcome.ends_ok]
  obtain rfl | rfl := hbase
  · exact iff_of_false (not_prints_dec hlen hn) (by decide)
  · exact iff_of_true (prints_hex hlen hn) rfl

theorem itoA_prints_iff_sample :
    ((itoAMachine.run staticBuf [(4096, 16), (7, 10)]).Ends fun r => Prints r.2 128 16) ↔
      16 = 16 :=
  itoA_prints_iff (by decide) (by decide) (.inr rfl)

/-- The first call, on 128 in base 10, returns an empty string: the digits stand behind it. -/
theorem itoA_empty : itoA staticBuf 128 10 =
      .ok (.buf 8, [0, 0, 0, 0, 0, 0, 0, 0, 0, 0x31, 0x32, 0x38, 0]) ∧
    ¬ (itoAMachine.run staticBuf []).Ends fun r => Prints r.2 128 10 := by
  refine ⟨by decide +kernel, ?_⟩
  rintro ⟨r, hr, hprints⟩
  obtain rfl := Outcome.ok.inj hr
  exact not_prints_dec rfl (by decide) hprints

/-! ## The indices -/

/-- The call stays in the digit string and in the buffer, and its loop ends because nothing of the
number is left. -/
structure Stays (buf : Block) (tmp base : ℤ) : Prop where
  call : (itoA buf tmp base).Ends fun _ => True
  loop : (itoALoop base 11 tmp (buf.set 12 0)).Ends fun r => r.2.2 = 0

/-- **The indices stay in their objects exactly for numbers that are not negative.** Of a negative
number a remainder is negative, and with it the index of a digit. -/
theorem itoA_stays_iff (hbuf : buf.length = 13) {tmp base : ℤ} (hmax : tmp ≤ intMax)
    (hbase : base = 10 ∨ base = 16) : Stays buf tmp base ↔ 0 ≤ tmp := by
  constructor
  · rintro ⟨-, r, hr, hzero⟩
    by_contra hneg
    exact itoALoop_neg (by omega) (by omega) hr hzero
  · intro h0
    obtain ⟨n, rfl⟩ := Int.eq_ofNat_of_zero_le h0
    have hn : n ≤ intMax := Int.ofNat_le.mp hmax
    refine ⟨(itoA_length hbuf hn hbase).mono fun _ _ => trivial, ?_⟩
    obtain rfl | rfl := hbase
    · exact Outcome.Ends.of_eq (loop_call hbuf hn (.inl rfl)) rfl
    · exact Outcome.Ends.of_eq (loop_call hbuf hn (.inr rfl)) rfl

theorem itoA_stays_iff_sample : Stays staticBuf 2147483647 10 ↔ (0 : ℤ) ≤ 2147483647 :=
  itoA_stays_iff rfl (by decide) (.inl rfl)

/-- The remainder of -1 is -1, an index before the digit string. -/
theorem not_stays_neg : ¬ Stays staticBuf (-1) 10 := by
  rintro ⟨h, -⟩
  revert h
  decide

end KernelGadgets.Gadget
