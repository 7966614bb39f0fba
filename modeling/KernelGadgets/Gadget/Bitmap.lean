import Mathlib.Order.Interval.Set.Basic
import KernelGadgets.Lib.BitSet
import KernelGadgets.Lib.CInt
import KernelGadgets.Lib.Machine

/-!
# The bitmap

Bit 0 is the least significant bit of the first word, bit 32 that of the second. A bit is named by
an `int`: its word is `bit >> 5`, its place in the word `bit % 32`. A negative shift and an access
outside the array are undefined.

`setBit_spec` and `clearBit_spec` say what one call does to the set of the bits that are one,
`rangeLoop_spec` what a range does; `bitmap_refines` is the refinement over any sequence of calls.
-/

namespace KernelGadgets.Gadget

/-- A word of the bitmap, an `_u32`. -/
abbrev Word := BitVec 32

/-! ## The code -/

/-- `1U << (bit % 32)`, with the remainder of C. -/
def bitMask (bit : ℤ) : Outcome Word :=
  if 0 ≤ bit.tmod 32 then .ok (1#32 <<< (bit.tmod 32).toNat) else .fault

/-- `arr + (bit >> 5)`, as an index of the array. -/
def bitPos (bit : ℤ) : Outcome ℕ := offset (bit >>> (5 : ℕ))

/-- `*(arr + pos)`. -/
def loadWord (arr : List Word) (pos : ℕ) : Outcome Word :=
  match arr[pos]? with
  | some word => .ok word
  | none => .fault

def checkBit (arr : List Word) (bit : ℤ) : Outcome ℕ := do
  let pos ← bitPos bit
  let word ← loadWord arr pos
  let mask ← bitMask bit
  return if word &&& mask ≠ 0 then 1 else 0

/-- The body of `set_bit` and `clear_bit`: `*pos = f(*pos, mask)`. -/
def updateBit (f : Word → Word → Word) (arr : List Word) (bit : ℤ) : Outcome (List Word) := do
  let mask ← bitMask bit
  let pos ← bitPos bit
  let word ← loadWord arr pos
  return arr.set pos (f word mask)

def setBit : List Word → ℤ → Outcome (List Word) :=
  updateBit fun word mask => word ||| mask

def clearBit : List Word → ℤ → Outcome (List Word) :=
  updateBit fun word mask => word &&& ~~~mask

/-- `do { step(arr, Start++); } while (Start <= End);` -/
def rangeLoop (step : List Word → ℤ → Outcome (List Word)) (last : ℤ) :
    ℕ → List Word → ℤ → Outcome (List Word)
  | 0, _, _ => .diverge
  | fuel + 1, arr, start => do
    let arr ← step arr start
    let start ← addInt start 1
    if start ≤ last then rangeLoop step last fuel arr start else return arr

/-- The iterations of a range: one even if the range is empty. -/
def rangeFuel (start last : ℤ) : ℕ := (last - start).toNat + 1

def setBitRange (arr : List Word) (start last : ℤ) : Outcome (List Word) :=
  rangeLoop setBit last (rangeFuel start last) arr start

def clearBitRange (arr : List Word) (start last : ℤ) : Outcome (List Word) :=
  rangeLoop clearBit last (rangeFuel start last) arr start

/-! ## One call -/

theorem bitMask_natCast (b : ℕ) : bitMask (b : ℤ) = .ok (BitVec.twoPow 32 (b % 32)) := by
  have h : (b : ℤ).tmod 32 = ((b % 32 : ℕ) : ℤ) := by
    rw [Int.tmod_eq_emod_of_nonneg (Int.natCast_nonneg b)]
    rfl
  rw [bitMask, h, if_pos (Int.natCast_nonneg _), Int.toNat_natCast, BitVec.twoPow_eq]

theorem bitPos_natCast (b : ℕ) : bitPos (b : ℤ) = .ok (b / 32) := by
  have h : (b : ℤ) >>> (5 : ℕ) = ((b / 32 : ℕ) : ℤ) := by
    rw [← Int.natCast_shiftRight, Nat.shiftRight_eq_div_pow]
  rw [bitPos, h, offset_natCast]

variable {arr : List Word} {b : ℕ}

theorem loadWord_eq_ok {pos : ℕ} (h : pos < arr.length) : loadWord arr pos = .ok arr[pos] := by
  rw [loadWord, List.getElem?_eq_getElem h]

theorem updateBit_eq (f : Word → Word → Word) (h : b / 32 < arr.length) :
    updateBit f arr b = .ok (arr.set (b / 32) (f arr[b / 32] (BitVec.twoPow 32 (b % 32)))) := by
  rw [updateBit, bitMask_natCast, bitPos_natCast]
  show (loadWord arr (b / 32) >>= _) = _
  rw [loadWord_eq_ok h]
  rfl

theorem checkBit_eq (h : b / 32 < arr.length) :
    checkBit arr b =
      .ok (if arr[b / 32] &&& BitVec.twoPow 32 (b % 32) ≠ 0 then 1 else 0) := by
  rw [checkBit, bitPos_natCast, bitMask_natCast]
  show (loadWord arr (b / 32) >>= _) = _
  rw [loadWord_eq_ok h]
  rfl

/-- `check_bit` reads the set. -/
theorem checkBit_spec (h : b / 32 < arr.length) :
    (checkBit arr b).Ends fun v => (v = 1 ∨ v = 0) ∧ (v = 1 ↔ b ∈ bits arr) := by
  refine Outcome.Ends.of_eq (checkBit_eq h) ?_
  have hb := and_twoPow_ne_zero_iff (by decide) (List.getElem?_eq_getElem h)
  by_cases hm : b ∈ bits arr
  · rw [if_pos (hb.mpr hm)]
    simp [hm]
  · rw [if_neg (mt hb.mp hm)]
    simp [hm]

/-- What a call that names the bit `b` does: the length stays, and the set of bits becomes
`f b` of what it was. -/
def Effect (step : List Word → ℤ → Outcome (List Word)) (f : ℕ → Set ℕ → Set ℕ) : Prop :=
  ∀ (arr : List Word) (b : ℕ), b / 32 < arr.length →
    (step arr b).Ends fun arr' => arr'.length = arr.length ∧ bits arr' = f b (bits arr)

theorem setBit_spec : Effect setBit fun b s => insert b s := by
  intro arr b h
  refine Outcome.Ends.of_eq (updateBit_eq _ h) ⟨List.length_set, ?_⟩
  exact bits_set_or (by decide) (List.getElem?_eq_getElem h)

theorem clearBit_spec : Effect clearBit fun b s => s \ {b} := by
  intro arr b h
  refine Outcome.Ends.of_eq (updateBit_eq _ h) ⟨List.length_set, ?_⟩
  exact bits_set_and_not (by decide) (List.getElem?_eq_getElem h)

/-! ## Ranges -/

/-- The numbers of a range: with its end before its start it is the start alone. -/
def span (start last : ℕ) : Set ℕ := if start ≤ last then Set.Icc start last else {start}

theorem span_of_le {start last : ℕ} (h : start ≤ last) : span start last = Set.Icc start last :=
  if_pos h

theorem span_of_lt {start last : ℕ} (h : last < start) : span start last = {start} :=
  if_neg (Nat.not_le.mpr h)

/-- A range with more than one number is its start and the rest. -/
theorem span_succ {start last : ℕ} (h : start + 1 ≤ last) :
    span start last = insert start (span (start + 1) last) := by
  rw [span_of_le (Nat.le_of_succ_le h), span_of_le h]
  ext b
  rw [Set.mem_insert_iff, Set.mem_Icc, Set.mem_Icc]
  omega

/-- A range with its end at or before its start is one number. -/
theorem span_one {start last : ℕ} (h : last ≤ start) : span start last = {start} := by
  obtain h | rfl := Nat.lt_or_eq_of_le h
  · exact span_of_lt h
  · rw [span_of_le (Nat.le_refl _), Set.Icc_self]

variable {step : List Word → ℤ → Outcome (List Word)} {f : Set ℕ → Set ℕ → Set ℕ}

/-- The loop of a range: if one call has the effect of `f` on a single number, and `f` on a set of
numbers is the sequence of `f` on its parts, the loop has the effect of `f` on the range. -/
theorem rangeLoop_spec (hstep : Effect step fun b s => f {b} s)
    (hf : ∀ b t s, f t (f {b} s) = f (insert b t) s) {last : ℕ} :
    ∀ (fuel : ℕ) (arr : List Word) (start : ℕ), last < start + fuel →
      0 < fuel → 32 * arr.length ≤ intMax →
      start < 32 * arr.length → last < 32 * arr.length →
      (rangeLoop step last fuel arr start).Ends fun arr' =>
        arr'.length = arr.length ∧ bits arr' = f (span start last) (bits arr) := by
  intro fuel
  induction fuel with
  | zero => intro _ _ _ h; omega
  | succ fuel ih =>
    intro arr start hfuel _ hlen hs hl
    obtain ⟨arr₁, h₁, hlen₁, hbits₁⟩ := hstep arr start (by omega)
    have hadd : addInt (start : ℤ) 1 = .ok ((start + 1 : ℕ) : ℤ) :=
      addInt_ok (by omega) (by omega)
    rw [rangeLoop, h₁, Outcome.ok_bind, hadd, Outcome.ok_bind]
    by_cases hle : start + 1 ≤ last
    · rw [if_pos (by omega)]
      obtain ⟨arr₂, h₂, hlen₂, hbits₂⟩ :=
        ih arr₁ (start + 1) (by omega) (by omega) (by omega) (by omega) (by omega)
      refine ⟨arr₂, h₂, hlen₂.trans hlen₁, ?_⟩
      rw [hbits₂, hbits₁, hf, ← span_succ hle]
    · rw [if_neg (by omega)]
      refine Outcome.Ends.of_eq rfl ⟨hlen₁, ?_⟩
      rw [hbits₁, span_one (by omega)]

theorem rangeFuel_natCast (start last : ℕ) :
    last < start + rangeFuel start last ∧ 0 < rangeFuel start last := by
  unfold rangeFuel
  omega

variable {start last : ℕ}

theorem setBitRange_spec (hlen : 32 * arr.length ≤ intMax) (hs : start < 32 * arr.length)
    (hl : last < 32 * arr.length) :
    (setBitRange arr start last).Ends fun arr' =>
      arr'.length = arr.length ∧ bits arr' = span start last ∪ bits arr := by
  obtain ⟨hfuel, hpos⟩ := rangeFuel_natCast start last
  refine rangeLoop_spec (f := fun t s => t ∪ s) ?_ ?_ _ arr start hfuel hpos hlen hs hl
  · exact setBit_spec
  · intro b t s
    rw [Set.insert_eq, Set.union_comm {b} t, Set.union_assoc]

theorem clearBitRange_spec (hlen : 32 * arr.length ≤ intMax) (hs : start < 32 * arr.length)
    (hl : last < 32 * arr.length) :
    (clearBitRange arr start last).Ends fun arr' =>
      arr'.length = arr.length ∧ bits arr' = bits arr \ span start last := by
  obtain ⟨hfuel, hpos⟩ := rangeFuel_natCast start last
  refine rangeLoop_spec (f := fun t s => s \ t) ?_ ?_ _ arr start hfuel hpos hlen hs hl
  · exact clearBit_spec
  · intro b t s
    rw [Set.insert_eq, Set.sdiff_sdiff]

/-! ## Sequences of calls -/

/-- A call on a bitmap. -/
inductive Call where
  | setBit (bit : ℕ)
  | clearBit (bit : ℕ)
  | setBitRange (start last : ℕ)
  | clearBitRange (start last : ℕ)

/-- The bits a call names are bits of the array. -/
def Call.Within (n : ℕ) : Call → Prop
  | setBit b | clearBit b => b < n
  | setBitRange s e | clearBitRange s e => s < n ∧ e < n

/-- A call on the array. -/
def call (arr : List Word) : Call → Outcome (List Word)
  | .setBit b => setBit arr b
  | .clearBit b => clearBit arr b
  | .setBitRange s e => setBitRange arr s e
  | .clearBitRange s e => clearBitRange arr s e

/-- The same call on a set of naturals. -/
def specCall (s : Set ℕ) : Call → Set ℕ
  | .setBit b => insert b s
  | .clearBit b => s \ {b}
  | .setBitRange b e => span b e ∪ s
  | .clearBitRange b e => s \ span b e

theorem call_spec (hlen : 32 * arr.length ≤ intMax) {c : Call} (hc : c.Within (32 * arr.length)) :
    (call arr c).Ends fun arr' =>
      arr'.length = arr.length ∧ bits arr' = specCall (bits arr) c := by
  cases c with
  | setBit b =>
    have hb : b < 32 * arr.length := hc
    exact setBit_spec arr b (by omega)
  | clearBit b =>
    have hb : b < 32 * arr.length := hc
    exact clearBit_spec arr b (by omega)
  | setBitRange s e => exact setBitRange_spec hlen hc.1 hc.2
  | clearBitRange s e => exact clearBitRange_spec hlen hc.1 hc.2

/-- A sequence of calls. -/
def calls (arr : List Word) (cs : List Call) : Outcome (List Word) := cs.foldlM call arr

theorem calls_spec {cs : List Call} :
    ∀ {arr : List Word}, 32 * arr.length ≤ intMax → (∀ c ∈ cs, c.Within (32 * arr.length)) →
      (calls arr cs).Ends fun arr' =>
        arr'.length = arr.length ∧ bits arr' = cs.foldl specCall (bits arr) := by
  induction cs with
  | nil =>
    intro arr _ _
    exact Outcome.Ends.of_eq rfl ⟨rfl, rfl⟩
  | cons c cs ih =>
    intro arr hlen hcs
    obtain ⟨arr₁, h₁, hlen₁, hbits₁⟩ := call_spec hlen (hcs c List.mem_cons_self)
    have hcs₁ : ∀ c' ∈ cs, c'.Within (32 * arr₁.length) := by
      intro c' hc'
      rw [hlen₁]
      exact hcs c' (List.mem_cons_of_mem c hc')
    obtain ⟨arr₂, h₂, hlen₂, hbits₂⟩ := ih (hlen₁ ▸ hlen) hcs₁
    refine ⟨arr₂, ?_, hlen₂.trans hlen₁, ?_⟩
    · rw [calls, List.foldlM_cons, h₁]
      exact h₂
    · rw [hbits₂, hbits₁]
      rfl

/-- **The bitmap is a set of numbers.** After any sequence of calls inside the array, none of
which leaves the array, the array has its length and `check_bit` answers membership in the set that
the same insertions and removals give. -/
theorem bitmap_refines (arr : List Word) (cs : List Call) (hlen : 32 * arr.length ≤ intMax)
    (hcs : ∀ c ∈ cs, c.Within (32 * arr.length)) :
    (calls arr cs).Ends fun arr' => arr'.length = arr.length ∧
      ∀ b < 32 * arr.length, (checkBit arr' b).Ends fun v =>
        (v = 1 ∨ v = 0) ∧ (v = 1 ↔ b ∈ cs.foldl specCall (bits arr)) := by
  refine (calls_spec hlen hcs).mono ?_
  rintro arr' ⟨hlen', hbits⟩
  refine ⟨hlen', fun b hb => ?_⟩
  rw [← hbits]
  exact checkBit_spec (by omega)

theorem bitmap_refines_sample :
    (calls [0x1#32, 0x0#32] [.setBitRange 30 33, .clearBit 31]).Ends fun arr' =>
      arr'.length = 2 ∧ ∀ b : ℕ, b < 64 → (checkBit arr' b).Ends fun v => (v = 1 ∨ v = 0) ∧
        (v = 1 ↔ b ∈ [Call.setBitRange 30 33, .clearBit 31].foldl specCall
          (bits [0x1#32, 0x0#32])) := by
  refine bitmap_refines [0x1#32, 0x0#32] [.setBitRange 30 33, .clearBit 31] (by decide) ?_
  intro c hc
  simp only [List.mem_cons, List.not_mem_nil, or_false] at hc
  obtain rfl | rfl := hc
  · exact ⟨by decide, by decide⟩
  · show 31 < 64
    decide

end KernelGadgets.Gadget
