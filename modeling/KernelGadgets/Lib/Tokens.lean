import Mathlib.Data.List.TakeWhile
import KernelGadgets.Lib.CInt
import KernelGadgets.Lib.Numeral

/-!
# Splitting strings and reading numbers

The library functions `strtok`, with a single delimiter, and `strtol` and `atoi`, as glibc has them
where a `long` has 64 bits, on the contents of C strings.

* `fields d s` are the longest non-empty parts of `s` without the byte `d`. `strtok` takes the
  first one off (`strtok_spec`).
* `magnitude s` is the decimal number at the start of `s`, behind white space and a sign. `strtol`
  saturates and `atoi` keeps the low 32 bits: a number without a minus sign is read as it is below
  `2 ^ 31`, wraps below `2 ^ 63`, and is read as `-1` from there on (`atoi_of_noMinus`).
-/

namespace KernelGadgets

/-! ## Fields -/

/-- The non-empty parts of `s` between the delimiters. -/
def fields (d : UInt8) (s : List UInt8) : List (List UInt8) :=
  (s.splitOn d).filter fun t => !t.isEmpty

/-- `strtok(str, delim)`: the token, and what the next call with `NULL` continues from. With `NULL`
for `str`, the call continues from `saved`. -/
def strtok (d : UInt8) (str : Option (List UInt8)) (saved : List UInt8) :
    Option (List UInt8) × List UInt8 :=
  let s := (str.getD saved).dropWhile (· == d)
  if s = [] then (none, [])
  else (some (s.takeWhile (· != d)), (s.dropWhile (· != d)).drop 1)

section Fields

variable {d : UInt8} {s t : List UInt8}

@[simp] theorem fields_nil (d : UInt8) : fields d [] = [] := rfl

theorem fields_cons_self (d : UInt8) (s : List UInt8) : fields d (d :: s) = fields d s := by
  have h := List.splitOn_append_cons_self (a := d) [] s
  rw [List.nil_append] at h
  rw [fields, h, List.filter_append]
  rfl

theorem fields_dropWhile (d : UInt8) (s : List UInt8) :
    fields d (s.dropWhile (· == d)) = fields d s := by
  induction s with
  | nil => rfl
  | cons c s ih =>
    by_cases hc : c = d
    · rw [hc, fields_cons_self, List.dropWhile_cons_of_pos (by simp), ih]
    · rw [List.dropWhile_cons_of_neg (by simpa using hc)]

theorem fields_of_notMem (h : d ∉ t) (ht : t ≠ []) : fields d t = [t] := by
  rw [fields, List.splitOn_eq_singleton h, List.filter_cons_of_pos (by simpa using ht)]
  rfl

theorem fields_append (h : d ∉ t) (ht : t ≠ []) (s : List UInt8) :
    fields d (t ++ d :: s) = t :: fields d s := by
  rw [fields, List.splitOn_append_cons_self_of_not_mem h,
    List.filter_cons_of_pos (by simpa using ht), fields]

theorem notMem_of_mem_splitOn (h : t ∈ s.splitOn d) : d ∉ t := by
  induction s generalizing t with
  | nil =>
    rw [List.splitOn_nil, List.mem_singleton] at h
    rw [h]
    exact List.not_mem_nil
  | cons c s ih =>
    rw [List.splitOn_cons_eq_if_modifyHead] at h
    split_ifs at h with hc
    · rcases List.mem_cons.mp h with rfl | h
      · exact List.not_mem_nil
      · exact ih h
    · obtain ⟨u, us, hu⟩ := List.exists_cons_of_ne_nil (List.splitOn_ne_nil d s)
      rw [hu] at h ih
      rcases List.mem_cons.mp h with rfl | h
      · rw [List.mem_cons, not_or]
        exact ⟨fun e => hc (by simp [e]), ih List.mem_cons_self⟩
      · exact ih (List.mem_cons_of_mem _ h)

/-- No field has the delimiter. -/
theorem notMem_of_mem_fields (h : t ∈ fields d s) : d ∉ t :=
  notMem_of_mem_splitOn (List.mem_filter.mp h).1

/-- **`strtok`** takes the first field off, if there is one. -/
theorem strtok_spec (d : UInt8) (str : Option (List UInt8)) (saved : List UInt8) :
    fields d (str.getD saved) = [] ∧ strtok d str saved = (none, []) ∨
      ∃ t rest, strtok d str saved = (some t, rest) ∧
        fields d (str.getD saved) = t :: fields d rest := by
  rw [← fields_dropWhile]
  unfold strtok
  generalize hs : (str.getD saved).dropWhile (· == d) = s
  cases s with
  | nil => exact .inl ⟨rfl, rfl⟩
  | cons c s =>
    right
    have hc : c ≠ d := by
      have h := List.head?_dropWhile_not (· == d) (str.getD saved)
      rw [hs] at h
      simpa using h
    have hd : d ∉ (c :: s).takeWhile (· != d) := by
      intro h
      simpa using List.mem_takeWhile_imp h
    have hne : (c :: s).takeWhile (· != d) ≠ [] := by
      rw [List.takeWhile_cons_of_pos (by simpa using hc)]
      exact List.cons_ne_nil _ _
    refine ⟨_, _, if_neg (List.cons_ne_nil c s), ?_⟩
    have hsplit := List.takeWhile_append_dropWhile (p := (· != d)) (l := c :: s)
    -- the token ends with the string, or in front of a delimiter
    cases hrest : (c :: s).dropWhile (· != d) with
    | nil =>
      have hall : (c :: s).takeWhile (· != d) = c :: s := by rwa [hrest, List.append_nil] at hsplit
      rw [hall] at hd ⊢
      exact fields_of_notMem hd (List.cons_ne_nil c s)
    | cons e rest =>
      have he : e = d := by
        have h := List.head?_dropWhile_not (· != d) (c :: s)
        rw [hrest] at h
        simpa using h
      rw [hrest, he] at hsplit
      rw [List.drop_one, List.tail_cons, ← fields_append hd hne, hsplit]

end Fields

/-! ## Numbers -/

/-- `isspace(c)` in the C locale. -/
def isSpace (c : UInt8) : Bool := c == 0x20 || (0x09 ≤ c && c ≤ 0x0d)

/-- `isdigit(c)` -/
def isDigit (c : UInt8) : Bool := 0x30 ≤ c && c ≤ 0x39

/-- The string behind white space. -/
def skipSpace (s : List UInt8) : List UInt8 := s.dropWhile isSpace

/-- The number has a minus sign. -/
def hasMinus (s : List UInt8) : Bool := (skipSpace s).head? == some 0x2d

/-- The string behind white space and a sign. -/
def skipSign (s : List UInt8) : List UInt8 :=
  if hasMinus s ∨ (skipSpace s).head? = some 0x2b then (skipSpace s).tail else skipSpace s

/-- The decimal number behind white space and a sign; zero without a digit. -/
def magnitude (s : List UInt8) : ℕ := readNumeral 10 ((skipSign s).takeWhile isDigit)

/-- The largest `long`. -/
def longMax : ℤ := 2 ^ 63 - 1

/-- `strtol(s, NULL, 10)` -/
def strtol (s : List UInt8) : ℤ :=
  if hasMinus s then max (-longMax - 1) (-(magnitude s : ℤ)) else min longMax (magnitude s)

/-- `atoi(s)`: the `long` converted to `int`. -/
def atoi (s : List UInt8) : ℤ := Int.bmod (strtol s) (2 ^ 32)

theorem le_atoi (s : List UInt8) : -2 ^ 31 ≤ atoi s :=
  Int.le_bmod (by decide)

theorem hasMinus_of_notMem {s : List UInt8} (h : 0x2d ∉ s) : hasMinus s = false := by
  unfold hasMinus
  rw [beq_eq_false_iff_ne]
  intro he
  exact h ((List.dropWhile_suffix _).mem (List.mem_of_head? he))

/-- **`atoi`** of a number without a minus sign. -/
theorem atoi_of_noMinus {s : List UInt8} (h : hasMinus s = false) :
    atoi s = if magnitude s < 2 ^ 63 then cInt (magnitude s) else -1 := by
  unfold atoi strtol longMax
  rw [h, if_neg Bool.false_ne_true]
  split_ifs with hlt
  · rw [min_eq_right (by omega)]
    rfl
  · rw [min_eq_left (by omega)]
    decide

end KernelGadgets
