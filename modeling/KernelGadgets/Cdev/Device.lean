import KernelGadgets.Lib.Memory

/-!
# The char device of `simple_cdev.c`

`simpleOpen`, `simpleWrite` and `simpleRead` on the buffer of the device. The copies between kernel
and user memory may fail to copy some bytes: `fail` is how many, the copying functions fail on at
most what they are asked to copy.

`simpleWrite` is what `simple_write` does to the buffer. The file is compiled with `DEBUG`, and then
the function also prints the memory of the user as a string: `simpleWriteDebug`.
-/

namespace KernelGadgets.Cdev

/-- `MAX_BUFFER_LEN`. -/
def maxBufferLen : ℕ := 32

/-- `"hello world..."` as `sprintf` writes it, with its terminator. -/
def helloWorld : List UInt8 :=
  [104, 101, 108, 108, 111, 32, 119, 111, 114, 108, 100, 46, 46, 46, 0]

/-! ## Copies between kernel and user memory -/

/-- `copy_from_user(b + pos, data, n)`: what is not copied is filled with zeros, and the number of
these bytes is returned. -/
def copyFromUser (b : Block) (pos : ℕ) (data : ℕ → UInt8) (n fail : ℕ) : Outcome (ℕ × Block) := do
  let res := min fail n
  let b ← Block.copyTo b pos ((List.range (n - res)).map data ++ List.replicate res 0)
  return (res, b)

/-- `copy_to_user(buf, b + pos, n)`: the number of bytes not delivered, and those delivered. -/
def copyToUser (b : Block) (pos n fail : ℕ) : Outcome (ℕ × List UInt8) := do
  let res := min fail n
  let bytes ← Block.read b pos n
  return (res, bytes.take (n - res))

/-! ## The memory of the user -/

/-- The memory behind a pointer of the user. `readable` bytes can be read, the next one cannot. -/
structure UserBuf where
  byte : ℕ → UInt8
  readable : ℕ

/-- There is a string behind the pointer: it ends before the first byte that cannot be read. -/
def UserBuf.IsString (buf : UserBuf) : Prop := ∃ i < buf.readable, buf.byte i = 0

instance : DecidablePred UserBuf.IsString := fun buf =>
  inferInstanceAs (Decidable (∃ i < buf.readable, buf.byte i = 0))

/-- `%s` in a `printk`: the bytes up to a null byte are read, one after the other. What it has to
read for a null pointer is the string `(null)`. -/
def printkString (buf : UserBuf) : Outcome (List UInt8) :=
  if buf.IsString then .ok (((List.range buf.readable).map buf.byte).takeWhile (· ≠ 0))
  else .fault

/-! ## The source's functions -/

/-- `*fpos` after its check; offsets are not negative. -/
def checkPos (fpos : ℕ) : ℕ := if fpos > maxBufferLen then 0 else fpos

/-- `count` after its check against the offset `pos`. -/
def checkCount (count pos : ℕ) : ℕ :=
  if count > maxBufferLen - pos then maxBufferLen - pos else count

/-- The result of a read or a write: the value returned, the bytes delivered to the user and
`*fpos`. -/
structure Io where
  ret : ℕ
  bytes : List UInt8
  fpos : ℕ
  deriving DecidableEq, Repr

/-- `simple_open`, once `kmalloc` has returned the block `b`. -/
def simpleOpen (b : Block) : Outcome Block := Block.copyTo b 0 helloWorld

def simpleWrite (b : Block) (data : ℕ → UInt8) (count fpos fail : ℕ) : Outcome (Io × Block) := do
  let fpos := checkPos fpos
  let count := checkCount count fpos
  let (res, b) ← copyFromUser b fpos data count fail
  return (⟨count - res, [], fpos⟩, b)

/-- `simple_write` with `DEBUG`: the copy, and `printk(KERN_INFO "copy from user[%s]", buf)`. -/
def simpleWriteDebug (b : Block) (buf : UserBuf) (count fpos fail : ℕ) : Outcome (Io × Block) := do
  let (io, b) ← simpleWrite b buf.byte count fpos fail
  let _ ← printkString buf
  return (io, b)

def simpleRead (b : Block) (count fpos fail : ℕ) : Outcome Io := do
  let fpos := checkPos fpos
  let count := checkCount count fpos
  let (res, bytes) ← copyToUser b fpos count fail
  return ⟨count - res, bytes, fpos⟩

/-! ## What they come to -/

/-- The block a write leaves. -/
def written (b : Block) (data : ℕ → UInt8) (pos n fail : ℕ) : Block :=
  Block.splice b pos ((List.range (n - min fail n)).map data ++ List.replicate (min fail n) 0)

theorem checkPos_add_checkCount (count fpos : ℕ) :
    checkPos fpos + checkCount count (checkPos fpos) ≤ maxBufferLen := by
  have h : checkPos fpos ≤ maxBufferLen := by
    unfold checkPos
    split_ifs
    · omega
    · omega
  unfold checkCount
  split_ifs
  · omega
  · omega

theorem length_source (data : ℕ → UInt8) (n fail : ℕ) :
    ((List.range (n - min fail n)).map data ++ List.replicate (min fail n) 0).length = n := by
  simp only [List.length_append, List.length_map, List.length_range, List.length_replicate]
  omega

section Copy

variable {b : Block} {pos n : ℕ} (h : pos + n ≤ b.length)

include h

theorem copyFromUser_ok (data : ℕ → UInt8) (fail : ℕ) :
    copyFromUser b pos data n fail = .ok (min fail n, written b data pos n fail) := by
  have hc : Block.copyTo b pos _ = _ := Block.copyTo_ok (by rw [length_source data n fail]; exact h)
  unfold copyFromUser
  simp only [hc, Outcome.ok_bind, Outcome.pure_eq]
  rfl

theorem copyToUser_ok (fail : ℕ) :
    copyToUser b pos n fail = .ok (min fail n, (b.drop pos).take (n - min fail n)) := by
  unfold copyToUser
  simp only [Block.read_ok h, Outcome.ok_bind, Outcome.pure_eq, List.take_take]
  rw [Nat.min_eq_left (Nat.sub_le _ _)]

theorem length_written_eq (data : ℕ → UInt8) (fail : ℕ) :
    (written b data pos n fail).length = b.length := by
  unfold written
  rw [Block.length_splice (by rw [length_source]; exact h)]

/-- A copy puts the bytes that were copied, and zeros for the others, over what was there. -/
theorem byte_written_eq (data : ℕ → UInt8) (fail : ℕ) :
    (written b data pos n fail).byte = Memory.overlay b.byte pos
      ((List.range (n - min fail n)).map data ++ List.replicate (min fail n) 0) :=
  Block.byte_splice_eq_overlay (by rw [length_source]; exact h)

end Copy

section Ok

variable {b : Block} (hb : b.length = maxBufferLen)

include hb

theorem simpleOpen_ok : simpleOpen b = .ok (Block.splice b 0 helloWorld) := by
  refine Block.copyTo_ok ?_
  rw [hb]
  decide

theorem length_simpleOpen : (Block.splice b 0 helloWorld).length = maxBufferLen := by
  rw [Block.length_splice, hb]
  rw [hb]
  decide

theorem simpleWrite_ok (data : ℕ → UInt8) (count fpos fail : ℕ) :
    simpleWrite b data count fpos fail = .ok
      (⟨checkCount count (checkPos fpos) - min fail (checkCount count (checkPos fpos)), [],
        checkPos fpos⟩, written b data (checkPos fpos) (checkCount count (checkPos fpos)) fail) := by
  have hp : _ ≤ b.length := hb ▸ checkPos_add_checkCount count fpos
  unfold simpleWrite
  simp only [copyFromUser_ok hp, Outcome.ok_bind, Outcome.pure_eq]

theorem simpleRead_ok (count fpos fail : ℕ) : simpleRead b count fpos fail = .ok
    ⟨checkCount count (checkPos fpos) - min fail (checkCount count (checkPos fpos)),
      (b.drop (checkPos fpos)).take
        (checkCount count (checkPos fpos) - min fail (checkCount count (checkPos fpos))),
      checkPos fpos⟩ := by
  have hp : _ ≤ b.length := hb ▸ checkPos_add_checkCount count fpos
  unfold simpleRead
  simp only [copyToUser_ok hp, Outcome.ok_bind, Outcome.pure_eq]

variable {pos n : ℕ} (hp : pos + n ≤ maxBufferLen)

include hp

theorem length_written (data : ℕ → UInt8) (fail : ℕ) :
    (written b data pos n fail).length = maxBufferLen := by
  rw [length_written_eq (hb ▸ hp), hb]

theorem byte_written (data : ℕ → UInt8) (fail i : ℕ) :
    Block.byte (written b data pos n fail) i =
      if pos ≤ i ∧ i < pos + n then
        ((List.range (n - min fail n)).map data ++ List.replicate (min fail n) 0).getD (i - pos) 0
      else Block.byte b i := by
  unfold written
  rw [Block.byte_splice (by rw [length_source, hb]; exact hp), length_source]

end Ok

end KernelGadgets.Cdev
