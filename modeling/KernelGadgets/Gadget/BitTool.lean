import KernelGadgets.Gadget.Bitmap
import KernelGadgets.Lib.CString
import KernelGadgets.Lib.Tokens

/-!
# The bit tool

`main` takes a range `first-last` from its argument, sets its bits in a map of 256 and clears them
again. `get_range` splits the argument at minus signs and reads the fields with `atoi`; a range is
refused if it has no field, if its first number is read as `-1`, or if a number is beyond the map.

A number below zero is not refused. No field has a minus sign, but a decimal of ten digits or more
wraps to a negative `int`, and as the first number it leads below the map (`bitMain_fault`).
`contained_iff` says for which arguments the tool stays in its map.
-/

namespace KernelGadgets.Gadget

/-! ## The code -/

/-- The loop of `get_range` from index `i` on, with `k` iterations to go. -/
def getRangeLoop : ℕ → ℕ → Option (List UInt8) → List UInt8 → List ℤ → List ℤ
  | 0, _, _, _, range => range
  | k + 1, i, str, saved, range =>
    match strtok 0x2d str saved with
    | (none, _) => range
    | (some token, saved) => getRangeLoop k (i + 1) none saved (range.set i (atoi token))

/-- `get_range`, with the array `range` after the call. -/
def getRange (src : Option CStr) (range : List ℤ) : ℤ × List ℤ :=
  match src with
  | none => (-1, range)
  | some src =>
    let range := getRangeLoop 2 0 (some src.bytes) [] (range.set 0 (-1))
    (range.getD 0 0, range)

/-- `arr`, with every bit cleared. -/
def zeroMap : List Word := List.replicate 8 0

/-- `(sizeof(arr) << 3) - 1` -/
def maxBit : ℤ := ((4 * zeroMap.length) <<< 3 : ℕ) - 1

/-- Why `main` exits without touching the map. -/
inductive Refusal where
  /-- There is no argument. -/
  | usage
  /-- "Oops, invalid range" -/
  | invalid
  /-- "Oops, range out of" the map -/
  | outOfRange
  deriving DecidableEq, Repr

/-- The range that `main` works on. -/
def acceptedRange (argv1 : Option CStr) : Except Refusal (ℤ × ℤ) :=
  if argv1 = none then .error .usage
  else
    let (ret, range) := getRange argv1 [0, 0]
    if ret = -1 then .error .invalid
    else if maxBit < range.getD 0 0 ∨ maxBit < range.getD 1 0 then .error .outOfRange
    else .ok (range.getD 0 0, range.getD 1 0)

/-- `main`, as far as the map goes: a refusal, or the map at the end. -/
def bitMain (argv1 : Option CStr) : Outcome (Except Refusal (List Word)) :=
  match acceptedRange argv1 with
  | .error e => .ok (.error e)
  | .ok (first, last) => do
    let arr ← setBitRange zeroMap first last
    let arr ← clearBitRange arr first last
    return .ok arr

/-! ## The indices of a range -/

/-- The indices that the loop of a range passes on. -/
def loopIndices (last : ℤ) : ℕ → ℤ → List ℤ
  | 0, _ => []
  | fuel + 1, start => start :: if start + 1 ≤ last then loopIndices last fuel (start + 1) else []

/-- The indices that `set_bit_range` passes to `set_bit`, and `clear_bit_range` to `clear_bit`. -/
def rangeIndices (start last : ℤ) : List ℤ := loopIndices last (rangeFuel start last) start

section Indices

variable {start last : ℤ} {fuel : ℕ}

theorem rangeFuel_pos (start last : ℤ) : last < start + rangeFuel start last ∧
    0 < rangeFuel start last := by
  unfold rangeFuel
  omega

/-- The loop is its step, made on these indices one after the other. -/
theorem rangeLoop_eq_foldlM (step : List Word → ℤ → Outcome (List Word))
    (hs : -(intMax : ℤ) - 1 ≤ start) (hs' : start < intMax) (hl : last < intMax)
    (hfuel : last < start + fuel) (hpos : 0 < fuel) (arr : List Word) :
    rangeLoop step last fuel arr start = (loopIndices last fuel start).foldlM step arr := by
  induction fuel generalizing start arr with
  | zero => omega
  | succ fuel ih =>
    rw [rangeLoop, loopIndices, List.foldlM_cons]
    refine bind_congr fun arr => ?_
    have hadd : addInt start 1 = .ok (start + 1) := if_pos ⟨by omega, by omega⟩
    rw [hadd, Outcome.ok_bind]
    by_cases hle : start + 1 ≤ last
    · rw [if_pos hle, if_pos hle]
      exact ih (by omega) (by omega) (by omega) (by omega) arr
    · rw [if_neg hle, if_neg hle]
      rfl

theorem rangeIndices_foldlM (step : List Word → ℤ → Outcome (List Word))
    (hs : -(intMax : ℤ) - 1 ≤ start) (hs' : start < intMax) (hl : last < intMax) (arr : List Word) :
    rangeLoop step last (rangeFuel start last) arr start =
      (rangeIndices start last).foldlM step arr := by
  obtain ⟨hfuel, hpos⟩ := rangeFuel_pos start last
  exact rangeLoop_eq_foldlM step hs hs' hl hfuel hpos arr

theorem mem_loopIndices {b : ℤ} (h : b ∈ loopIndices last fuel start) :
    start ≤ b ∧ (b ≤ start ∨ b ≤ last) := by
  induction fuel generalizing start with
  | zero => exact absurd h List.not_mem_nil
  | succ fuel ih =>
    rcases List.mem_cons.mp h with rfl | h
    · omega
    · by_cases hle : start + 1 ≤ last
      · rw [if_pos hle] at h
        have := ih h
        omega
      · rw [if_neg hle] at h
        exact absurd h List.not_mem_nil

theorem start_mem_rangeIndices (start last : ℤ) : start ∈ rangeIndices start last := by
  rw [rangeIndices, rangeFuel, loopIndices]
  exact List.mem_cons_self

end Indices

/-! ## Ranges with a negative end -/

/-- From an index of the map on, an end below zero is an end at zero. -/
theorem rangeLoop_toNat (step : List Word → ℤ → Outcome (List Word)) (last : ℤ) (fuel : ℕ)
    (arr : List Word) (start : ℕ) :
    rangeLoop step last fuel arr start = rangeLoop step last.toNat fuel arr start := by
  induction fuel generalizing arr start with
  | zero => rfl
  | succ fuel ih =>
    rw [rangeLoop, rangeLoop]
    refine bind_congr fun arr => ?_
    by_cases hadd : (start : ℤ) + 1 ≤ intMax
    · have h : addInt (start : ℤ) 1 = .ok ((start + 1 : ℕ) : ℤ) := addInt_ok (by omega) hadd
      rw [h, Outcome.ok_bind, Outcome.ok_bind]
      by_cases hle : ((start + 1 : ℕ) : ℤ) ≤ last
      · rw [if_pos hle, if_pos (by omega), ih]
      · rw [if_neg hle, if_neg (by omega)]
    · have h : addInt (start : ℤ) 1 = .fault := if_neg fun h => hadd h.2
      rw [h]
      rfl

theorem rangeFuel_toNat (start : ℕ) (last : ℤ) :
    rangeFuel start last = rangeFuel start last.toNat := by
  unfold rangeFuel
  omega

/-- Setting a range of the map and clearing it again. -/
theorem set_clear_zeroMap {first : ℕ} {last : ℤ} (hf : (first : ℤ) ≤ maxBit) (hl : last ≤ maxBit) :
    ∃ arr, setBitRange zeroMap first last = .ok arr ∧ clearBitRange arr first last = .ok zeroMap := by
  have hmax : maxBit = 255 := rfl
  have hlen : zeroMap.length = 8 := rfl
  have hspec : (setBitRange zeroMap first last.toNat).Ends fun arr => arr.length = zeroMap.length ∧
      bits arr = span first last.toNat ∪ bits zeroMap :=
    setBitRange_spec (by decide) (by omega) (by omega)
  obtain ⟨arr, hset, hlen₁, hbits₁⟩ := hspec
  have hspec : (clearBitRange arr first last.toNat).Ends fun arr' => arr'.length = arr.length ∧
      bits arr' = bits arr \ span first last.toNat :=
    clearBitRange_spec (by rw [hlen₁]; decide) (by omega) (by omega)
  obtain ⟨arr', hclear, hlen₂, hbits₂⟩ := hspec
  have hempty : bits arr' = ∅ := by
    rw [hbits₂, hbits₁, zeroMap, bits_replicate_zero, Set.union_empty, Set.sdiff_self]
  have hzero : arr' = zeroMap := by
    rw [eq_replicate_of_bits_eq_empty (by decide) hempty, hlen₂, hlen₁, hlen]
    rfl
  refine ⟨arr, ?_, ?_⟩
  · rw [setBitRange, rangeLoop_toNat, rangeFuel_toNat]
    exact hset
  · rw [clearBitRange, rangeLoop_toNat, rangeFuel_toNat, ← hzero]
    exact hclear

/-! ## The argument -/

/-- The second number of a range: zero, which the array holds, unless there is a second field. -/
def secondNumber : List (List UInt8) → ℤ
  | [] => 0
  | u :: _ => atoi u

section Argument

variable {src : CStr} {t : List UInt8} {ts : List (List UInt8)}

theorem getRange_nil (h : fields 0x2d src.bytes = []) : getRange (some src) [0, 0] =
    (-1, [-1, 0]) := by
  rcases strtok_spec 0x2d (some src.bytes) [] with ⟨-, hs⟩ | ⟨t, rest, -, hf⟩
  · simp only [getRange, getRangeLoop, hs]
    rfl
  · rw [Option.getD_some, h] at hf
    exact absurd hf (List.cons_ne_nil _ _).symm

/-- `get_range` reads the first two fields. -/
theorem getRange_cons (h : fields 0x2d src.bytes = t :: ts) : getRange (some src) [0, 0] =
    (atoi t, [atoi t, secondNumber ts]) := by
  rcases strtok_spec 0x2d (some src.bytes) [] with ⟨hf, -⟩ | ⟨t', rest, hs, hf⟩
  · rw [Option.getD_some, h] at hf
    exact absurd hf (List.cons_ne_nil _ _)
  rw [Option.getD_some, h] at hf
  obtain ⟨rfl, rfl⟩ := List.cons.inj hf
  rcases strtok_spec 0x2d none rest with ⟨hf', hs'⟩ | ⟨u, rest', hs', hf'⟩
  · rw [Option.getD_none] at hf'
    simp only [getRange, getRangeLoop, hs, hs', hf']
    rfl
  · rw [Option.getD_none] at hf'
    simp only [getRange, getRangeLoop, hs, hs', hf']
    rfl

theorem acceptedRange_nil (h : fields 0x2d src.bytes = []) :
    acceptedRange (some src) = .error .invalid := by
  rw [acceptedRange, if_neg (Option.some_ne_none src), getRange_nil h]
  rfl

theorem acceptedRange_cons (h : fields 0x2d src.bytes = t :: ts) : acceptedRange (some src) =
    if atoi t = -1 then .error .invalid
    else if maxBit < atoi t ∨ maxBit < secondNumber ts then .error .outOfRange
    else .ok (atoi t, secondNumber ts) := by
  rw [acceptedRange, if_neg (Option.some_ne_none src), getRange_cons h]
  rfl

end Argument

/-! ## Where the tool goes -/

/-- The number of a field is an `int` below -1: it fits a `long`, and its low 32 bits are at least
`2 ^ 31` and not all ones. -/
def ReadsNegative (t : List UInt8) : Prop :=
  magnitude t < 2 ^ 63 ∧ 2 ^ 31 ≤ magnitude t % 2 ^ 32 ∧ magnitude t % 2 ^ 32 < 2 ^ 32 - 1

/-- The number of a field is an `int` beyond the map. -/
def ReadsBeyond (t : List UInt8) : Prop :=
  magnitude t < 2 ^ 63 ∧ 255 < magnitude t % 2 ^ 32 ∧ magnitude t % 2 ^ 32 < 2 ^ 31

/-- The first number of the argument wraps below -1, and the second one, if any, is not refused. -/
def Strays (s : List UInt8) : Prop :=
  ∃ t ts, fields 0x2d s = t :: ts ∧ ReadsNegative t ∧ ∀ u ∈ ts.head?, ¬ ReadsBeyond u

section Numbers

variable {t : List UInt8} (h : hasMinus t = false)
include h

theorem atoi_neg_iff : atoi t < 0 ∧ atoi t ≠ -1 ↔ ReadsNegative t := by
  unfold ReadsNegative
  rw [atoi_of_noMinus h, cInt_eq]
  -- the number fits an `int`, wraps to a negative one, or is too large for a `long`
  split_ifs <;> omega

theorem maxBit_lt_atoi_iff : maxBit < atoi t ↔ ReadsBeyond t := by
  have hmax : maxBit = 255 := rfl
  unfold ReadsBeyond
  rw [hmax, atoi_of_noMinus h, cInt_eq]
  split_ifs <;> omega

end Numbers

theorem secondNumber_le_iff {ts : List (List UInt8)} (h : ∀ u ∈ ts, hasMinus u = false) :
    secondNumber ts ≤ maxBit ↔ ∀ u ∈ ts.head?, ¬ ReadsBeyond u := by
  cases ts with
  | nil =>
    refine iff_of_true (by decide) ?_
    intro u hu
    exact absurd hu (Option.not_mem_none u)
  | cons u ts =>
    rw [secondNumber, ← not_lt, maxBit_lt_atoi_iff (h u List.mem_cons_self)]
    simp

/-- An accepted range does not end beyond the map, and starts with an `int`. -/
theorem acceptedRange_bounds {argv1 : Option CStr} {first last : ℤ}
    (h : acceptedRange argv1 = .ok (first, last)) :
    -2 ^ 31 ≤ first ∧ first ≤ maxBit ∧ last ≤ maxBit := by
  cases argv1 with
  | none => simp [acceptedRange] at h
  | some src =>
    cases hf : fields 0x2d src.bytes with
    | nil =>
      rw [acceptedRange_nil hf] at h
      cases h
    | cons t ts =>
      rw [acceptedRange_cons hf] at h
      split_ifs at h with _ hmax
      obtain ⟨rfl, rfl⟩ := Prod.mk.inj (Except.ok.inj h)
      have := le_atoi t
      omega

theorem accepted_neg_iff_of_cons {src : CStr} {t : List UInt8} {ts : List (List UInt8)}
    (hf : fields 0x2d src.bytes = t :: ts) :
    (∃ first last, acceptedRange (some src) = .ok (first, last) ∧ first < 0) ↔
      ReadsNegative t ∧ ∀ u ∈ ts.head?, ¬ ReadsBeyond u := by
  have hminus : ∀ u ∈ t :: ts, hasMinus u = false := by
    intro u hu
    rw [← hf] at hu
    exact hasMinus_of_notMem (notMem_of_mem_fields hu)
  have hmax : maxBit = 255 := rfl
  rw [← atoi_neg_iff (hminus t List.mem_cons_self),
    ← secondNumber_le_iff fun u hu => hminus u (List.mem_cons_of_mem _ hu), acceptedRange_cons hf]
  constructor
  · rintro ⟨first, last, h, hlt⟩
    split_ifs at h with hinvalid hrange
    obtain ⟨rfl, rfl⟩ := Prod.mk.inj (Except.ok.inj h)
    exact ⟨⟨hlt, hinvalid⟩, by omega⟩
  · rintro ⟨⟨hlt, hinvalid⟩, hle⟩
    refine ⟨atoi t, secondNumber ts, ?_, hlt⟩
    rw [if_neg hinvalid, if_neg (by omega)]

/-- **Which arguments lead below the map.** -/
theorem accepted_neg_iff (argv1 : Option CStr) :
    (∃ first last, acceptedRange argv1 = .ok (first, last) ∧ first < 0) ↔
      ∃ src ∈ argv1, Strays src.bytes := by
  cases argv1 with
  | none =>
    refine iff_of_false ?_ ?_
    · rintro ⟨first, last, h, -⟩
      simp [acceptedRange] at h
    · rintro ⟨src, hsrc, -⟩
      exact absurd hsrc (Option.not_mem_none src)
  | some src =>
    have hone : (∃ src' ∈ some src, Strays src'.bytes) ↔ Strays src.bytes := by simp
    rw [hone, Strays]
    cases hf : fields 0x2d src.bytes with
    | nil =>
      rw [acceptedRange_nil hf]
      refine iff_of_false ?_ ?_
      · rintro ⟨first, last, h, -⟩
        cases h
      · rintro ⟨t, ts, h, -⟩
        cases h
    | cons t ts =>
      rw [accepted_neg_iff_of_cons hf]
      constructor
      · intro h
        exact ⟨t, ts, rfl, h⟩
      · rintro ⟨t', ts', h, hs⟩
        obtain ⟨rfl, rfl⟩ := List.cons.inj h
        exact hs

/-- The indices that `main` passes to `set_bit`, and then to `clear_bit`. -/
def bitIndices (argv1 : Option CStr) : List ℤ :=
  match acceptedRange argv1 with
  | .error _ => []
  | .ok (first, last) => rangeIndices first last ++ rangeIndices first last

/-- The tool stays in its map: so does every index, and the map is zero again in the end. -/
structure Contained (argv1 : Option CStr) : Prop where
  inside : ∀ b ∈ bitIndices argv1, 0 ≤ b ∧ b ≤ maxBit
  zero : (bitMain argv1).Ends fun r => ∀ arr, r = .ok arr → arr = zeroMap

/-- These are the indices: `main` sets and clears one after the other. -/
theorem bitMain_eq_foldlM {argv1 : Option CStr} {first last : ℤ}
    (h : acceptedRange argv1 = .ok (first, last)) : bitMain argv1 = (do
      let arr ← (rangeIndices first last).foldlM setBit zeroMap
      let arr ← (rangeIndices first last).foldlM clearBit arr
      return .ok arr) := by
  have hmax : maxBit = 255 := rfl
  have hint : intMax = 2 ^ 31 - 1 := rfl
  obtain ⟨hint', hf, hl⟩ := acceptedRange_bounds h
  have hfold : ∀ step arr, rangeLoop step last (rangeFuel first last) arr first =
      (rangeIndices first last).foldlM step arr := fun step =>
    rangeIndices_foldlM step (by omega) (by omega) (by omega)
  rw [bitMain, h]
  simp only [setBitRange, clearBitRange, hfold]

/-- Below the map there is no word. -/
theorem updateBit_neg (f : Word → Word → Word) (arr : List Word) {b : ℤ} (hb : b < 0) :
    updateBit f arr b = .fault := by
  have hpos : bitPos b = .fault := by
    refine if_neg ?_
    rw [Int.shiftRight_eq_div_pow]
    omega
  unfold updateBit bitMask
  rw [hpos]
  split_ifs <;> rfl

/-- A stray argument makes `set_bit` write below the map. -/
theorem bitMain_fault {argv1 : Option CStr} {first last : ℤ}
    (h : acceptedRange argv1 = .ok (first, last)) (hneg : first < 0) :
    bitMain argv1 = .fault := by
  have hset : setBitRange zeroMap first last = .fault := by
    rw [setBitRange, rangeFuel, rangeLoop, setBit, updateBit_neg _ _ hneg]
    rfl
  rw [bitMain, h]
  simp only [hset]
  rfl

/-- **When the tool stays in its map.** The indices in question are those of the run: `main` comes to
setting and then clearing one after the other. -/
theorem contained_iff (argv1 : Option CStr) :
    (∀ first last, acceptedRange argv1 = .ok (first, last) →
      bitIndices argv1 = rangeIndices first last ++ rangeIndices first last ∧
        bitMain argv1 = (do
          let arr ← (rangeIndices first last).foldlM setBit zeroMap
          let arr ← (rangeIndices first last).foldlM clearBit arr
          return .ok arr)) ∧
    (Contained argv1 ↔ ¬ ∃ src ∈ argv1, Strays src.bytes) := by
  have hindices : ∀ first last, acceptedRange argv1 = .ok (first, last) →
      bitIndices argv1 = rangeIndices first last ++ rangeIndices first last := by
    intro first last h
    rw [bitIndices, h]
  refine ⟨fun first last h => ⟨hindices first last h, bitMain_eq_foldlM h⟩, ?_⟩
  rw [← accepted_neg_iff]
  constructor
  · rintro ⟨hinside, -⟩ ⟨first, last, h, hneg⟩
    have hmem : first ∈ bitIndices argv1 := by
      rw [hindices first last h]
      exact List.mem_append_left _ (start_mem_rangeIndices first last)
    have := (hinside first hmem).1
    omega
  · intro hno
    cases h : acceptedRange argv1 with
    | error e =>
      constructor
      · intro b hb
        rw [bitIndices, h] at hb
        exact absurd hb List.not_mem_nil
      · rw [bitMain, h]
        refine .of_eq rfl fun arr harr => ?_
        cases harr
    | ok range =>
      obtain ⟨first, last⟩ := range
      obtain ⟨-, hf, hl⟩ := acceptedRange_bounds h
      have hnonneg : 0 ≤ first := by
        by_contra hlt
        exact hno ⟨first, last, h, by omega⟩
      constructor
      · intro b hb
        rw [hindices first last h] at hb
        have hb : b ∈ rangeIndices first last := (List.mem_append.mp hb).elim id id
        have := mem_loopIndices hb
        omega
      · obtain ⟨n, rfl⟩ := Int.eq_ofNat_of_zero_le hnonneg
        obtain ⟨arr, hset, hclear⟩ := set_clear_zeroMap hf hl
        rw [bitMain, h]
        simp only [hset, Outcome.ok_bind, hclear]
        exact .of_eq rfl fun arr' harr => (Except.ok.inj harr).symm

/-- The argument `4294967290`: read as -6, it is no error, and not beyond the map. -/
def wrappedArg : CStr := ⟨[0x34, 0x32, 0x39, 0x34, 0x39, 0x36, 0x37, 0x32, 0x39, 0x30], by decide⟩

theorem not_contained_wrapped :
    acceptedRange (some wrappedArg) = .ok (-6, 0) ∧ bitMain (some wrappedArg) = .fault ∧
      ¬ Contained (some wrappedArg) := by
  have h : acceptedRange (some wrappedArg) = .ok (-6, 0) := rfl
  refine ⟨h, bitMain_fault h (by decide), fun hc => ?_⟩
  have hmem : (-6 : ℤ) ∈ bitIndices (some wrappedArg) := by
    rw [bitIndices, h]
    exact List.mem_append_left _ (start_mem_rangeIndices (-6) 0)
  have := (hc.inside (-6) hmem).1
  omega

end KernelGadgets.Gadget
