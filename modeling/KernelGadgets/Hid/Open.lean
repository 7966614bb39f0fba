import KernelGadgets.Hid.Driver
import KernelGadgets.Lib.Numeral
import KernelGadgets.Lib.Program

/-!
# Finding the RF card

`rf_open` of `hidcom.c` tries the first twenty nodes `/dev/hiddev%d`. It does not look at the result
of the `ioctl`: where that fails `dev_info` still has what the node before it has put there, or
nothing if there is none (`searchFrom_stale`, `rfOpen_eq`). What is left over belongs to a node that
was not wanted, so a failing `ioctl` costs the node alone, unless it is the first one to open.
-/

namespace KernelGadgets.Hid.Search

/-- The fields of `struct hiddev_devinfo` that are compared, both signed. -/
structure DevInfo where
  vendor : BitVec 16
  product : BitVec 16

/-- The descriptors of the process, with the paths they stand for. -/
abbrev Table := ℕ → Option (List UInt8)

/-- `node` is what opening a path gives: nothing, or a device with the answer of its
`HIDIOCGDEVINFO`, if that succeeds. `free` is the descriptor that the next open gets. -/
structure Posix where
  node : List UInt8 → Option (Option DevInfo)
  free : Table → Option ℕ

/-- The table and the variable `dev_info`, which has no value at first. -/
structure State where
  table : Table
  devInfo : Option DevInfo

/-- `VENDOR_ID` -/
def vendorId : ℤ := 0x2933

/-- `PRODUCT_ID` -/
def productId : ℤ := 0x0101

def enodev : ℤ := 19

/-- `"/dev/hiddev"` -/
def devHiddev : List UInt8 := [47, 100, 101, 118, 47, 104, 105, 100, 100, 101, 118]

/-- `"/dev/hiddev%d"` -/
def path (i : ℕ) : List UInt8 := devHiddev ++ numeral 10 i

section

variable (P : Posix)

/-- The descriptor, or a negative number. -/
def openNode (path : List UInt8) : Program State ℤ := fun s =>
  match P.node path, P.free s.table with
  | some _, some fd => .ok (fd, { s with table := Function.update s.table fd (some path) })
  | _, _ => .ok (-1, s)

/-- `ioctl(fd, HIDIOCGDEVINFO, &dev_info)`, whose result is not used. -/
def ioctlDevInfo (fd : ℕ) : Program State Unit := fun s =>
  match s.table fd with
  | none => .ok ((), s)
  | some path =>
    match P.node path with
    | some (some info) => .ok ((), { s with devInfo := some info })
    | _ => .ok ((), s)

def devInfo : Program State DevInfo := fun s =>
  match s.devInfo with
  | none => .fault
  | some info => .ok (info, s)

def close (fd : ℕ) : Program State Unit := fun s =>
  .ok ((), { s with table := Function.update s.table fd none })

/-- The device that is looked for. -/
def Wanted (info : DevInfo) : Prop :=
  info.vendor.toInt = vendorId ∧ info.product.toInt = productId

instance : DecidablePred Wanted := fun _ => inferInstanceAs (Decidable (_ ∧ _))

/-- The loop over the numbers of the nodes. -/
def searchFrom : List ℕ → Program State ℤ
  | [] => return -enodev
  | i :: is => do
    let fd ← openNode P (path i)
    if fd ≥ 0 then do
      ioctlDevInfo P fd.toNat
      let info ← devInfo
      if Wanted info then return fd
      else do
        close fd.toNat
        searchFrom is
    else searchFrom is

/-- What a search returns, and the descriptors it leaves. -/
def searched (is : List ℕ) (s : State) : Outcome (ℤ × Table) := do
  let (res, s) ← searchFrom P is s
  return (res, s.table)

/-- `rf_open` -/
def rfOpen (table : Table) : Outcome (ℤ × Table) := searched P (List.range 20) ⟨table, none⟩

/-! ## One node -/

/-- A node that is looked for and answers. -/
def wantedAt (i : ℕ) : Bool :=
  match P.node (path i) with
  | some (some info) => decide (Wanted info)
  | _ => false

end

section

variable {P : Posix} {t : Table} {stale : Option DevInfo} {i : ℕ} {is : List ℕ}

theorem searchFrom_absent {s : State} (h : P.node (path i) = none ∨ P.free s.table = none) :
    searchFrom P (i :: is) s = searchFrom P is s := by
  have hopen : openNode P (path i) s = .ok (-1, s) := by
    unfold openNode
    obtain h | h := h
    · rw [h]
    · rw [h]
      cases P.node (path i) <;> rfl
  rw [searchFrom, Program.bind_of_eq hopen, if_neg (by decide)]

variable {fd : ℕ} {answer : Option DevInfo} (hfree : P.free t = some fd) (hfd : t fd = none)

include hfree hfd

/-- A node that opens: `dev_info` is its answer, or else what was there before. -/
theorem searchFrom_opened (h : P.node (path i) = some answer) :
    searchFrom P (i :: is) ⟨t, stale⟩ =
      match answer.or stale with
      | none => .fault
      | some info =>
        if Wanted info then
          .ok (fd, ⟨Function.update t fd (some (path i)), some info⟩)
        else searchFrom P is ⟨t, some info⟩ := by
  have hopen : openNode P (path i) ⟨t, stale⟩ =
      .ok ((fd : ℤ), ⟨Function.update t fd (some (path i)), stale⟩) := by
    simp only [openNode, h, hfree]
  have hioctl : ioctlDevInfo P fd ⟨Function.update t fd (some (path i)), stale⟩ =
      .ok ((), ⟨Function.update t fd (some (path i)), answer.or stale⟩) := by
    cases answer <;> simp [ioctlDevInfo, h]
  have hclose : ∀ info, close fd ⟨Function.update t fd (some (path i)), info⟩ =
      .ok ((), ⟨t, info⟩) := by
    intro info
    simp only [close, Function.update_idem]
    rw [← hfd, Function.update_eq_self]
  rw [searchFrom, Program.bind_of_eq hopen, if_pos (Int.natCast_nonneg fd), Int.toNat_natCast,
    Program.bind_of_eq hioctl]
  cases hinfo : answer.or stale with
  | none => rfl
  | some info =>
    have hread : ∀ t, devInfo ⟨t, some info⟩ = .ok (info, ⟨t, some info⟩) := fun _ => rfl
    rw [Program.bind_of_eq (hread _)]
    by_cases hw : Wanted info
    · simp only [if_pos hw]
      rfl
    · simp only [if_neg hw]
      rw [Program.bind_of_eq (hclose _)]

/-! ## The search -/

/-- Once `dev_info` has the answer of a device that was not wanted, the search goes to the first
wanted one. -/
theorem searched_stale {info : DevInfo} (hw : ¬Wanted info) (is : List ℕ) :
    searched P is ⟨t, some info⟩ =
      match is.find? (wantedAt P) with
      | some i => .ok (fd, Function.update t fd (some (path i)))
      | none => .ok (-enodev, t) := by
  unfold searched
  induction is generalizing info with
  | nil => rfl
  | cons i is ih =>
    cases h : P.node (path i) with
    | none =>
      have hi : wantedAt P i = false := by
        simp only [wantedAt, h]
      rw [searchFrom_absent (Or.inl h), ih hw, List.find?_cons_of_neg (by simp [hi])]
    | some answer =>
      rw [searchFrom_opened hfree hfd h]
      cases answer with
      | none =>
        have hi : wantedAt P i = false := by
          simp only [wantedAt, h]
        rw [List.find?_cons_of_neg (by simp [hi])]
        show (if Wanted info then _ else searchFrom P is ⟨t, some info⟩) >>= _ = _
        rw [if_neg hw, ih hw]
      | some new =>
        have hi : wantedAt P i = decide (Wanted new) := by
          simp only [wantedAt, h]
        show (if Wanted new then _ else searchFrom P is ⟨t, some new⟩) >>= _ = _
        by_cases hnew : Wanted new
        · rw [if_pos hnew, List.find?_cons_of_pos (by simp [hi, hnew])]
          rfl
        · rw [if_neg hnew, ih hnew, List.find?_cons_of_neg (by simp [hi, hnew])]

end

/-- Without a descriptor left nothing opens. -/
theorem searched_full {P : Posix} {s : State} (hfree : P.free s.table = none) (is : List ℕ) :
    searched P is s = .ok (-enodev, s.table) := by
  unfold searched
  induction is with
  | nil => rfl
  | cons i is ih => rw [searchFrom_absent (Or.inr hfree), ih]

theorem searched_eq {P : Posix} {t : Table} {fd : ℕ} (hfree : P.free t = some fd)
    (hfd : t fd = none) (is : List ℕ) :
    searched P is ⟨t, none⟩ =
      match is.findSome? (fun i => P.node (path i)), is.find? (wantedAt P) with
      | some none, _ => .fault
      | _, some i => .ok (fd, Function.update t fd (some (path i)))
      | _, none => .ok (-enodev, t) := by
  induction is with
  | nil => rfl
  | cons i is ih =>
    cases h : P.node (path i) with
    | none =>
      have hi : wantedAt P i = false := by
        simp only [wantedAt, h]
      have hrest : searched P (i :: is) ⟨t, none⟩ = searched P is ⟨t, none⟩ := by
        unfold searched
        rw [searchFrom_absent (Or.inl h)]
      rw [hrest, ih, List.findSome?_cons, h, List.find?_cons_of_neg (by simp [hi])]
    | some answer =>
      rw [List.findSome?_cons, h, searched, searchFrom_opened hfree hfd h, Option.or_none]
      cases answer with
      | none => rfl
      | some info =>
        have hi : wantedAt P i = decide (Wanted info) := by
          simp only [wantedAt, h]
        show (if Wanted info then _ else searchFrom P is ⟨t, some info⟩) >>= _ = _
        by_cases hw : Wanted info
        · rw [if_pos hw, List.find?_cons_of_pos (by simp [hi, hw])]
          rfl
        · rw [if_neg hw, List.find?_cons_of_neg (by simp [hi, hw])]
          refine (searched_stale hfree hfd hw is).trans ?_
          cases is.find? (wantedAt P) <;> rfl

/-- **Finding the card.** With a descriptor left, `rf_open` returns the first wanted node, open,
and leaves no other one open. It is undefined where the first node to open does not answer; any
other node that does not is passed over. -/
theorem rfOpen_eq (P : Posix) (t : Table) (hfd : ∀ fd, P.free t = some fd → t fd = none) :
    rfOpen P t =
      match P.free t, (List.range 20).findSome? (fun i => P.node (path i)),
        (List.range 20).find? (wantedAt P) with
      | none, _, _ => .ok (-enodev, t)
      | _, some none, _ => .fault
      | some fd, _, some i => .ok (fd, Function.update t fd (some (path i)))
      | _, _, none => .ok (-enodev, t) := by
  unfold rfOpen
  cases h : P.free t with
  | none => exact searched_full h _
  | some fd =>
    rw [searched_eq h (hfd fd h)]
    cases (List.range 20).findSome? (fun i => P.node (path i)) with
    | none => cases (List.range 20).find? (wantedAt P) <;> rfl
    | some answer =>
      cases answer with
      | none => rfl
      | some info => cases (List.range 20).find? (wantedAt P) <;> rfl

/-- A mouse at node 0, a device that does not answer at node 1, and the card at node 2. -/
def threeNodes : Posix where
  node p :=
    if p = devHiddev ++ [48] then some (some ⟨0x046d, 0xc077⟩)
    else if p = devHiddev ++ [49] then some none
    else if p = devHiddev ++ [50] then some (some ⟨0x2933, 0x0101⟩)
    else none
  free t := if t 3 = none then some 3 else none

theorem path_of_lt {i : ℕ} (h : i < 10) : path i = devHiddev ++ [digitChar i] := by
  rw [path, numeral_of_lt h]

theorem rfOpen_eq_sample : rfOpen threeNodes (fun _ => none) =
    .ok (3, Function.update (fun _ => none) 3 (some (path 2))) := by
  have hnode : ∀ {i}, i < 10 →
      threeNodes.node (path i) = threeNodes.node (devHiddev ++ [digitChar i]) :=
    fun h => congrArg _ (path_of_lt h)
  have hfirst : (List.range 20).findSome? (fun i => threeNodes.node (path i)) =
      some (some ⟨0x046d, 0xc077⟩) := by
    rw [show List.range 20 = 0 :: (List.range 19).map Nat.succ from rfl, List.findSome?_cons,
      hnode (by decide)]
    rfl
  have hcard : (List.range 20).find? (wantedAt threeNodes) = some 2 := by
    have h0 : wantedAt threeNodes 0 = false := by
      unfold wantedAt
      rw [hnode (by decide)]
      decide
    have h1 : wantedAt threeNodes 1 = false := by
      unfold wantedAt
      rw [hnode (by decide)]
      decide
    have h2 : wantedAt threeNodes 2 = true := by
      unfold wantedAt
      rw [hnode (by decide)]
      decide
    rw [show List.range 20 = 0 :: 1 :: 2 :: (List.range 17).map (· + 3) from rfl,
      List.find?_cons_of_neg (by simp [h0]), List.find?_cons_of_neg (by simp [h1]),
      List.find?_cons_of_pos h2]
  refine (rfOpen_eq threeNodes (fun _ => none) fun fd h => rfl).trans ?_
  rw [hfirst, hcard]
  rfl

end KernelGadgets.Hid.Search
