import KernelGadgets.Lib.CInt
import KernelGadgets.Cdev.Device

/-!
# The debugfs file of `debugfs.c`

`debugfsRead` and `debugfsWrite` on the buffer `hello`. A handle is its offset; offsets are not
negative. The copies between kernel and user memory are those of the char device, and `fail` is
again how many bytes they leave.

With a request length that the VFS lets through, both take the part of the request that fits
behind the offset (`accepted`), and advance the offset by it unless a part of the copy fails
(`debugfsRead_eq`, `debugfsWrite_eq`; `debugfsRead_ok` and `debugfsWrite_ok` where it succeeds).
-/

namespace KernelGadgets.Debugfs

open Cdev (copyFromUser copyToUser written copyFromUser_ok copyToUser_ok)

/-- `LEN`, the size of `hello`. -/
def helloLen : ℕ := 32

/-- `hello` as the module defines it. -/
def hello : Block := [104, 101, 108, 108, 111, 46, 46, 46, 10] ++ List.replicate 23 0

/-- `EFAULT`. -/
def efault : ℤ := 14

/-- `SSIZE_MAX`, the largest request the VFS lets through. -/
def ssizeMax : ℕ := 2 ^ 63 - 1

/-- The result of a read or a write: the value returned, the bytes delivered to the user and
`*pos`. -/
structure Io where
  ret : ℤ
  bytes : List UInt8
  pos : ℕ
  deriving DecidableEq, Repr

/-! ## The source's functions -/

/-- `len` after its check. The sum of the offset and a `size_t` is unsigned. -/
def checkLen (len pos : ℕ) : ℕ := if u64 (pos + len) > helloLen then helloLen - pos else len

def debugfsRead (hello : Block) (len pos fail : ℕ) : Outcome Io := do
  if pos ≥ helloLen then
    return ⟨0, [], pos⟩
  let len := checkLen len pos
  let (res, bytes) ← copyToUser hello pos len fail
  if res ≠ 0 then
    return ⟨-efault, bytes, pos⟩
  return ⟨len, bytes, pos + len⟩

def debugfsWrite (hello : Block) (data : ℕ → UInt8) (len pos fail : ℕ) :
    Outcome (Io × Block) := do
  if pos ≥ helloLen then
    return (⟨0, [], pos⟩, hello)
  let len := checkLen len pos
  let (res, hello) ← copyFromUser hello pos data len fail
  if res ≠ 0 then
    return (⟨-efault, [], pos⟩, hello)
  return (⟨len, [], pos + len⟩, hello)

/-! ## What they come to -/

/-- The part of a request of `len` bytes that fits behind the offset. -/
def accepted (len pos : ℕ) : ℕ := min len (helloLen - pos)

theorem accepted_of_le {len pos : ℕ} (h : helloLen ≤ pos) : accepted len pos = 0 := by
  unfold accepted
  omega

theorem add_accepted_le {len pos : ℕ} (h : pos < helloLen) : pos + accepted len pos ≤ helloLen := by
  unfold accepted
  omega

theorem checkLen_eq {len pos : ℕ} (hpos : pos < helloLen) (hlen : len ≤ ssizeMax) :
    checkLen len pos = accepted len pos := by
  have hsum : u64 (pos + len) = pos + len := by
    apply u64_of_lt
    unfold helloLen at hpos
    unfold ssizeMax at hlen
    omega
  unfold checkLen accepted
  rw [hsum]
  split_ifs
  · omega
  · omega

section

variable {hello : Block} (h : hello.length = helloLen) {len pos : ℕ} (hlen : len ≤ ssizeMax)

include h hlen

theorem debugfsRead_eq (hpos : pos < helloLen) (fail : ℕ) : debugfsRead hello len pos fail =
    .ok (if min fail (accepted len pos) ≠ 0 then
      ⟨-efault, (hello.drop pos).take (accepted len pos - min fail (accepted len pos)), pos⟩
    else ⟨accepted len pos, (hello.drop pos).take (accepted len pos), pos + accepted len pos⟩) := by
  have hfit : pos + accepted len pos ≤ hello.length := h ▸ add_accepted_le hpos
  unfold debugfsRead
  rw [if_neg (Nat.not_le.mpr hpos)]
  simp only [checkLen_eq hpos hlen, copyToUser_ok hfit, Outcome.ok_bind, Outcome.pure_eq]
  by_cases hres : min fail (accepted len pos) = 0
  · rw [if_neg (not_not_intro hres), if_neg (not_not_intro hres), hres, Nat.sub_zero]
  · rw [if_pos hres, if_pos hres]

theorem debugfsWrite_eq (hpos : pos < helloLen) (data : ℕ → UInt8) (fail : ℕ) :
    debugfsWrite hello data len pos fail =
      .ok (if min fail (accepted len pos) ≠ 0 then ⟨-efault, [], pos⟩
        else ⟨accepted len pos, [], pos + accepted len pos⟩,
        written hello data pos (accepted len pos) fail) := by
  have hfit : pos + accepted len pos ≤ hello.length := h ▸ add_accepted_le hpos
  unfold debugfsWrite
  rw [if_neg (Nat.not_le.mpr hpos)]
  simp only [checkLen_eq hpos hlen, copyFromUser_ok hfit, Outcome.ok_bind, Outcome.pure_eq]
  by_cases hres : min fail (accepted len pos) = 0
  · rw [if_neg (not_not_intro hres), if_neg (not_not_intro hres)]
  · rw [if_pos hres, if_pos hres]

/-- A read whose copy succeeds, at any offset. -/
theorem debugfsRead_ok : debugfsRead hello len pos 0 =
    .ok ⟨accepted len pos, (hello.drop pos).take len, pos + accepted len pos⟩ := by
  have hbytes : (hello.drop pos).take len = (hello.drop pos).take (accepted len pos) := by
    rw [List.take_eq_take_iff, List.length_drop, h]
    unfold accepted
    omega
  rw [hbytes]
  by_cases hpos : pos < helloLen
  · rw [debugfsRead_eq h hlen hpos, Nat.zero_min, if_neg (not_not_intro rfl)]
  · have hle : helloLen ≤ pos := Nat.le_of_not_lt hpos
    unfold debugfsRead
    rw [if_pos hle, accepted_of_le hle]
    rfl

/-- A write whose copy succeeds, at any offset. -/
theorem debugfsWrite_ok (data : ℕ → UInt8) : debugfsWrite hello data len pos 0 =
    .ok (⟨accepted len pos, [], pos + accepted len pos⟩,
      hello.splice pos ((List.range (accepted len pos)).map data)) := by
  by_cases hpos : pos < helloLen
  · rw [debugfsWrite_eq h hlen hpos, Nat.zero_min, if_neg (not_not_intro rfl)]
    unfold written
    rw [Nat.zero_min, Nat.sub_zero, List.replicate_zero, List.append_nil]
  · have hle : helloLen ≤ pos := Nat.le_of_not_lt hpos
    unfold debugfsWrite
    rw [if_pos hle, accepted_of_le hle, List.range_zero, List.map_nil, Block.splice_nil]
    rfl

end

end KernelGadgets.Debugfs
