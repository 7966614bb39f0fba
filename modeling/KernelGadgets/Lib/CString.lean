import Mathlib.Data.List.TakeWhile
import KernelGadgets.Lib.Block

/-!
# C strings

A `CStr` is the content of a C string: bytes without a zero. In memory a zero follows it. A string
printed at the end of a prefix that a buffer holds makes the buffer hold the whole
(`ofBlock_splice`). Joining path components with slashes is injective on components without a slash
(`render_inj`).
-/

namespace KernelGadgets

/-- The content of a C string. -/
structure CStr where
  bytes : List UInt8
  noNul : 0 ∉ bytes
  deriving DecidableEq

namespace CStr

/-- `strlen(s)`. -/
def length (s : CStr) : ℕ := s.bytes.length

/-- The string in memory, with its terminator. -/
def block (s : CStr) : Block := s.bytes ++ [0]

instance : Append CStr where
  append s t := ⟨s.bytes ++ t.bytes, by
    rw [List.mem_append]
    exact fun h => h.elim s.noNul t.noNul⟩

/-- The string `/`. -/
def slash : CStr := ⟨[47], by decide⟩

/-- The path of the entry `name` of a directory: `"%s/%s"`. -/
def join (path name : CStr) : CStr := path ++ slash ++ name

/-- The string at the start of a block. -/
def ofBlock (b : Block) : Outcome CStr :=
  if 0 ∈ b then
    .ok ⟨b.takeWhile fun c => c ≠ 0, fun h => by simpa using List.mem_takeWhile_imp h⟩
  else .fault

@[simp] theorem bytes_append (s t : CStr) : (s ++ t).bytes = s.bytes ++ t.bytes := rfl

@[ext] theorem ext {s t : CStr} (h : s.bytes = t.bytes) : s = t := by
  cases s
  cases t
  cases h
  rfl

@[simp] theorem length_append (s t : CStr) : (s ++ t).length = s.length + t.length :=
  List.length_append

/-- The length of the prefix that the names of a directory go behind. -/
theorem length_append_slash (s : CStr) : (s ++ slash).length = s.length + 1 :=
  length_append s slash

@[simp] theorem length_block (s : CStr) : s.block.length = s.length + 1 := by
  rw [block, List.length_append]
  rfl

/-- A block that starts with a terminated string holds the string. -/
theorem ofBlock_append (s : CStr) (rest : Block) : ofBlock (s.block ++ rest) = .ok s := by
  have hmem : (0 : UInt8) ∈ s.block ++ rest := by simp [block]
  rw [ofBlock, if_pos hmem]
  congr 1
  apply CStr.ext
  show (s.bytes ++ [0] ++ rest).takeWhile _ = s.bytes
  rw [List.append_assoc, List.takeWhile_append_of_pos]
  · simp
  · intro c hc
    have hne : c ≠ 0 := fun h => s.noNul (h ▸ hc)
    simpa using hne

theorem ofBlock_block (s : CStr) : ofBlock s.block = .ok s := by
  have h := ofBlock_append s []
  rwa [List.append_nil] at h

/-! ## Buffers that hold a prefix -/

/-- The buffer starts with the bytes of `s`. -/
def Starts (b : Block) (s : CStr) : Prop := b.take s.length = s.bytes

theorem starts_splice {b : Block} {s t : CStr} (h : Starts b s)
    (hfit : s.length + t.length + 1 ≤ b.length) : Starts (Block.splice b s.length t.block) s := by
  have hlen : (b.take s.length).length = s.length := by
    rw [List.length_take]
    omega
  unfold Starts Block.splice
  rw [List.append_assoc, List.take_append_of_le_length (by omega), List.take_take, Nat.min_self]
  exact h

/-- The prefix and what is printed behind it. -/
theorem ofBlock_splice {b : Block} {s : CStr} (h : Starts b s) (t : CStr) :
    ofBlock (Block.splice b s.length t.block) = .ok (s ++ t) := by
  have hblock : Block.splice b s.length t.block =
      (s ++ t).block ++ b.drop (s.length + t.block.length) := by
    unfold Block.splice
    rw [h]
    simp [block]
  rw [hblock, ofBlock_append]

/-! ## Paths -/

/-- The path below `path` with the components `names`. -/
def render (path : CStr) (names : List CStr) : CStr := names.foldl join path

@[simp] theorem render_nil (path : CStr) : render path [] = path := rfl

@[simp] theorem render_cons (path n : CStr) (names : List CStr) :
    render path (n :: names) = render (join path n) names := rfl

/-- What the components add to the path. -/
def tail (names : List CStr) : List UInt8 := names.flatMap fun n => 47 :: n.bytes

theorem bytes_render (path : CStr) (names : List CStr) :
    (render path names).bytes = path.bytes ++ tail names := by
  induction names generalizing path with
  | nil => simp [tail]
  | cons n names ih =>
    rw [render_cons, ih]
    simp [tail, join, slash]

/-- A component without a slash ends where the next one starts. -/
theorem component_inj {a b : List UInt8} {ns ms : List CStr} (ha : 47 ∉ a) (hb : 47 ∉ b)
    (h : a ++ tail ns = b ++ tail ms) : a = b ∧ tail ns = tail ms := by
  induction a generalizing b with
  | nil =>
    cases b with
    | nil => exact ⟨rfl, h⟩
    | cons c b =>
      cases ns with
      | nil => simp [tail] at h
      | cons n ns =>
        simp only [tail, List.nil_append, List.flatMap_cons, List.cons_append,
          List.cons.injEq] at h
        exact absurd (h.1 ▸ List.mem_cons_self) hb
  | cons c a ih =>
    cases b with
    | nil =>
      cases ms with
      | nil => simp [tail] at h
      | cons n ms =>
        simp only [tail, List.nil_append, List.flatMap_cons, List.cons_append,
          List.cons.injEq] at h
        exact absurd (h.1 ▸ List.mem_cons_self) ha
    | cons d b =>
      simp only [List.cons_append, List.cons.injEq] at h
      obtain ⟨rfl, h⟩ := h
      obtain ⟨rfl, htail⟩ := ih (fun hc => ha (List.mem_cons_of_mem _ hc))
        (fun hc => hb (List.mem_cons_of_mem _ hc)) h
      exact ⟨rfl, htail⟩

/-- **Paths name their components.** -/
theorem render_inj {path : CStr} {ns ms : List CStr} (hns : ∀ n ∈ ns, 47 ∉ n.bytes)
    (hms : ∀ n ∈ ms, 47 ∉ n.bytes) (h : render path ns = render path ms) : ns = ms := by
  have htail : tail ns = tail ms := by
    have hbytes := congrArg CStr.bytes h
    rw [bytes_render, bytes_render] at hbytes
    exact List.append_cancel_left hbytes
  clear h
  induction ns generalizing ms with
  | nil =>
    cases ms with
    | nil => rfl
    | cons m ms => simp [tail] at htail
  | cons n ns ih =>
    cases ms with
    | nil => simp [tail] at htail
    | cons m ms =>
      simp only [tail, List.flatMap_cons, List.cons_append, List.cons.injEq, true_and] at htail
      obtain ⟨hnm, htail⟩ := component_inj (hns n List.mem_cons_self)
        (hms m List.mem_cons_self) htail
      rw [CStr.ext hnm, ih (fun k hk => hns k (List.mem_cons_of_mem _ hk))
        (fun k hk => hms k (List.mem_cons_of_mem _ hk)) htail]

end CStr

end KernelGadgets
