import KernelGadgets.Cdev.Handles
import KernelGadgets.Lib.Loading

/-!
# Loading the char device

`simple_init` and `simple_exit` of `simple_cdev.c` over any answers of the kernel. A registered
`cdev` needs the block that it lies in and its region, a device needs its class; the labels of
`simple_init` and `simple_exit` release what was acquired in the opposite order
(`errCdev_ok`, `simpleExit_ok`). The semaphore and the file operations hold nothing.
-/

namespace KernelGadgets.Cdev

open Loading

/-! ## The kernel -/

/-- A block of memory, a region of device numbers, a class, a `cdev` in a block registered for a
number, and a device of a class. -/
inductive Res where
  | block (p : ℕ)
  | region (num : ℕ)
  | cls (c : ℕ)
  | chrdev (p num : ℕ)
  | device (c num : ℕ)
  deriving DecidableEq

/-- What a resource needs as long as it is in use. -/
def requires : Res → List Res
  | .chrdev p num => [.block p, .region num]
  | .device c _ => [.cls c]
  | _ => []

def Needs (r q : Res) : Prop := q ∈ requires r

instance : DecidableRel Needs := fun r q => inferInstanceAs (Decidable (q ∈ requires r))

/-- The fields of `struct simple_cdev` that are read again: `class`, unless it is no pointer, and
`cdev.dev`. -/
structure SimpleCdev where
  cls : Option ℕ
  dev : ℕ

/-- `__sdev`, and what the blocks hold. -/
structure Own where
  sdev : Option ℕ
  structs : ℕ → SimpleCdev

abbrev Kernel := Registry Res Own

/-- A negative return code. -/
abbrev Err := {c : ℤ // c < 0}

/-- What the kernel calls of `simple_init` come to; the codes are 0 where there is no error. -/
structure Answers where
  kmalloc : Option ℕ
  registerChrdevRegion : Option Err
  allocChrdevRegion : Except Err ℕ
  classCreate : Except Err ℕ
  cdevAdd : Option Err
  deviceCreate : Option Err

def mkdev (major minor : ℕ) : ℕ := major * 2 ^ 20 + minor

/-- A call that acquires `r`, and its return code. -/
def acquire (r : Res) : Option Err → Program Kernel ℤ
  | none => do
    hold r
    return 0
  | some e => return e.1

/-- A call that acquires `mk n` and returns a value `n`, or an error. -/
def acquireNew (mk : ℕ → Res) : Except Err ℕ → Program Kernel (Except Err ℕ)
  | .ok n => do
    hold (mk n)
    return .ok n
  | .error e => return .error e

def kmalloc : Option ℕ → Program Kernel (Option ℕ)
  | none => return none
  | some p => do
    hold (.block p)
    return some p

def kfreeBlock (p : ℕ) : Program Kernel Unit := release Needs (.block p)

/-- A read of the `struct simple_cdev` at `p`. -/
def readStruct (p : ℕ) : Program Kernel SimpleCdev := fun k =>
  if .block p ∈ k.live then .ok (k.own.structs p, k) else .fault

def writeStruct (p : ℕ) (f : SimpleCdev → SimpleCdev) : Program Kernel Unit := fun k =>
  if .block p ∈ k.live then
    .ok ((), { k with own.structs := Function.update k.own.structs p (f (k.own.structs p)) })
  else .fault

def setSdev (p : ℕ) : Program Kernel Unit := fun k => .ok ((), { k with own.sdev := some p })

/-- The value of `__sdev` where it is used. -/
def sdev : Program Kernel ℕ := fun k =>
  match k.own.sdev with
  | none => .fault
  | some p => .ok (p, k)

def registerChrdevRegion (num : ℕ) : Option Err → Program Kernel ℤ := acquire (.region num)

def allocChrdevRegion : Except Err ℕ → Program Kernel (Except Err ℕ) := acquireNew .region

def unregisterChrdevRegion (num : ℕ) : Program Kernel Unit := release Needs (.region num)

def classCreate : Except Err ℕ → Program Kernel (Except Err ℕ) := acquireNew .cls

def classDestroy : Option ℕ → Program Kernel Unit
  | none => Program.fault
  | some c => release Needs (.cls c)

/-- `cdev_init` clears the `cdev` at `p`. -/
def cdevInit (p : ℕ) : Program Kernel Unit := writeStruct p fun s => { s with dev := 0 }

/-- The number is stored whether or not the call succeeds. -/
def cdevAdd (p num : ℕ) (answer : Option Err) : Program Kernel ℤ := do
  writeStruct p fun s => { s with dev := num }
  acquire (.chrdev p num) answer

def cdevDel (p : ℕ) : Program Kernel Unit := do
  let s ← readStruct p
  release Needs (.chrdev p s.dev)

def deviceCreate (c : Option ℕ) (num : ℕ) (answer : Option Err) : Program Kernel ℤ :=
  match c with
  | none => Program.fault
  | some c => acquire (.device c num) answer

def deviceDestroy (c : Option ℕ) (num : ℕ) : Program Kernel Unit :=
  match c with
  | none => Program.fault
  | some c => release Needs (.device c num)

/-! ## The code -/

/-- `err_mem:` -/
def errMem (p : ℕ) (res : ℤ) : Program Kernel ℤ := do
  kfreeBlock p
  return res

/-- `err_region:` -/
def errRegion (p num : ℕ) (res : ℤ) : Program Kernel ℤ := do
  unregisterChrdevRegion num
  errMem p res

/-- `err_class:` -/
def errClass (p num : ℕ) (res : ℤ) : Program Kernel ℤ := do
  let s ← readStruct p
  classDestroy s.cls
  errRegion p num res

/-- `err_cdev:` -/
def errCdev (p num : ℕ) (res : ℤ) : Program Kernel ℤ := do
  cdevDel p
  errClass p num res

/-- `cdev_region`: the fixed number, or else the one the kernel gives. -/
def cdevRegion (a : Answers) : Program Kernel (Except Err ℕ) := do
  let res ← registerChrdevRegion (mkdev 251 0) a.registerChrdevRegion
  if res = 0 then return .ok (mkdev 251 0) else allocChrdevRegion a.allocChrdevRegion

/-- `simple_init` from `class_create` on. -/
def simpleInitClass (p num : ℕ) (a : Answers) : Program Kernel ℤ := do
  match ← classCreate a.classCreate with
  | .error e => do
    writeStruct p fun s => { s with cls := none }
    errRegion p num e.1
  | .ok c => do
    writeStruct p fun s => { s with cls := some c }
    cdevInit p
    let res ← cdevAdd p num a.cdevAdd
    if res < 0 then errClass p num res
    else do
      let s ← readStruct p
      let res ← deviceCreate s.cls num a.deviceCreate
      if res < 0 then errCdev p num res else return 0

def simpleInit (a : Answers) : Program Kernel ℤ := do
  match ← kmalloc a.kmalloc with
  | none => return enomem
  | some p => do
    setSdev p
    match ← cdevRegion a with
    | .error e => errMem p e.1
    | .ok num => simpleInitClass p num a

def simpleExit : Program Kernel Unit := do
  let p ← sdev
  let s ← readStruct p
  deviceDestroy s.cls s.dev
  cdevDel p
  let s ← readStruct p
  classDestroy s.cls
  let s ← readStruct p
  unregisterChrdevRegion s.dev
  kfreeBlock p

/-! ## What it should do -/

/-- The number of the region, if there is one. -/
def Answers.region (a : Answers) : Except Err ℕ :=
  if a.registerChrdevRegion = none then .ok (mkdev 251 0) else a.allocChrdevRegion

/-- A return code: that of the first of the five that is refused, for the region that of the second
call for it. -/
def Answers.code (a : Answers) : ℤ :=
  match a.kmalloc, a.region, a.classCreate, a.cdevAdd, a.deviceCreate with
  | none, _, _, _, _ => enomem
  | _, .error e, _, _, _ => e.1
  | _, _, .error e, _, _ => e.1
  | _, _, _, some e, _ => e.1
  | _, _, _, _, some e => e.1
  | _, _, _, _, _ => 0

/-- All that there is to acquire. -/
def full (p num c : ℕ) : Multiset Res :=
  {.device c num, .chrdev p num, .cls c, .region num, .block p}

def Answers.acquires (a : Answers) : Multiset Res :=
  match a.kmalloc, a.region, a.classCreate with
  | some p, .ok num, .ok c => full p num c
  | _, _, _ => 0

/-- What the driver's memory says that it holds. -/
def held (own : Own) : Multiset Res :=
  match own.sdev with
  | none => 0
  | some p =>
    match (own.structs p).cls with
    | none => 0
    | some c => full p (own.structs p).dev c

/-- The kernel gives out what is not in use. -/
structure Promised (live : Multiset Res) (a : Answers) : Prop where
  block : ∀ p, a.kmalloc = some p → .block p ∉ live
  region : ∀ num, a.region = .ok num → .region num ∉ live
  cls : ∀ c, a.classCreate = .ok c → .cls c ∉ live

/-- The driver. -/
def simpleCdev : Driver Res Own Answers where
  needs := Needs
  promised := Promised
  init := simpleInit
  exit := simpleExit
  held := held

/-! ## The labels -/

section

variable {live rest : Multiset Res} {p num c : ℕ} {own : Own}

theorem readStruct_ok (hp : .block p ∈ live) :
    readStruct p ⟨live, own⟩ = .ok (own.structs p, ⟨live, own⟩) :=
  if_pos hp

theorem writeStruct_ok (hp : .block p ∈ live) (f : SimpleCdev → SimpleCdev) :
    writeStruct p f ⟨live, own⟩ = .ok ((),
      ⟨live, { own with structs := Function.update own.structs p (f (own.structs p)) }⟩) :=
  if_pos hp

theorem full_add : full p num c + rest =
    .device c num ::ₘ .chrdev p num ::ₘ .cls c ::ₘ .region num ::ₘ .block p ::ₘ rest := by
  unfold full
  simp only [Multiset.insert_eq_cons, Multiset.cons_add, Multiset.singleton_add]

/-! Each resource is acquired when it is not in use. -/

theorem region_notMem (hnum : .region num ∉ rest) : .region num ∉ .block p ::ₘ rest := by
  simp [hnum]

theorem cls_notMem (hc : .cls c ∉ rest) : .cls c ∉ .region num ::ₘ .block p ::ₘ rest := by
  simp [hc]

section

variable (hrest : Sound Needs rest) (hp : .block p ∉ rest)

include hrest hp

theorem chrdev_notMem : .chrdev p num ∉ .cls c ::ₘ .region num ::ₘ .block p ::ₘ rest := by
  intro hmem
  simp only [Multiset.mem_cons, reduceCtorEq, false_or] at hmem
  exact hp (hrest.closed hmem (by simp [Needs, requires]))

theorem sound_block : Sound Needs (.block p ::ₘ rest) :=
  hrest.cons hp (by simp [Needs, requires])

theorem errMem_ok (res : ℤ) : errMem p res ⟨.block p ::ₘ rest, own⟩ = .ok (res, ⟨rest, own⟩) := by
  rw [errMem, kfreeBlock, Program.bind_of_eq (release_cons hrest hp own)]
  rfl

variable (hnum : .region num ∉ rest)

include hnum

theorem sound_region : Sound Needs (.region num ::ₘ .block p ::ₘ rest) :=
  (sound_block hrest hp).cons (region_notMem hnum) (by simp [Needs, requires])

theorem errRegion_ok (res : ℤ) :
    errRegion p num res ⟨.region num ::ₘ .block p ::ₘ rest, own⟩ = .ok (res, ⟨rest, own⟩) := by
  rw [errRegion, unregisterChrdevRegion,
    Program.bind_of_eq (release_cons (sound_block hrest hp) (region_notMem hnum) own),
    errMem_ok hrest hp]

variable (hc : .cls c ∉ rest)

include hc

theorem sound_cls : Sound Needs (.cls c ::ₘ .region num ::ₘ .block p ::ₘ rest) :=
  (sound_region hrest hp hnum).cons (cls_notMem hc) (by simp [Needs, requires])

theorem sound_chrdev :
    Sound Needs (.chrdev p num ::ₘ .cls c ::ₘ .region num ::ₘ .block p ::ₘ rest) :=
  (sound_cls hrest hp hnum hc).cons (chrdev_notMem hrest hp) (by simp [Needs, requires])

omit hp hnum in
theorem device_notMem :
    .device c num ∉ .chrdev p num ::ₘ .cls c ::ₘ .region num ::ₘ .block p ::ₘ rest := by
  intro hmem
  simp only [Multiset.mem_cons, reduceCtorEq, false_or] at hmem
  exact hc (hrest.closed hmem (by simp [Needs, requires]))

theorem sound_full : Sound Needs (full p num c + rest) := by
  rw [full_add]
  exact (sound_chrdev hrest hp hnum hc).cons (device_notMem hrest hc)
    (by simp [Needs, requires])

variable (hdev : (own.structs p).dev = num)

section

include hdev

theorem cdevDel_ok :
    cdevDel p ⟨.chrdev p num ::ₘ .cls c ::ₘ .region num ::ₘ .block p ::ₘ rest, own⟩ =
      .ok ((), ⟨.cls c ::ₘ .region num ::ₘ .block p ::ₘ rest, own⟩) := by
  rw [cdevDel, Program.bind_of_eq (readStruct_ok (by simp)), hdev]
  exact release_cons (sound_cls hrest hp hnum hc) (chrdev_notMem hrest hp) own

end

variable (hcls : (own.structs p).cls = some c)

include hcls

theorem errClass_ok (res : ℤ) :
    errClass p num res ⟨.cls c ::ₘ .region num ::ₘ .block p ::ₘ rest, own⟩ =
      .ok (res, ⟨rest, own⟩) := by
  rw [errClass, Program.bind_of_eq (readStruct_ok (by simp)), hcls, classDestroy,
    Program.bind_of_eq (release_cons (sound_region hrest hp hnum) (cls_notMem hc) own),
    errRegion_ok hrest hp hnum]

include hdev

theorem errCdev_ok (res : ℤ) :
    errCdev p num res ⟨.chrdev p num ::ₘ .cls c ::ₘ .region num ::ₘ .block p ::ₘ rest, own⟩ =
      .ok (res, ⟨rest, own⟩) := by
  rw [errCdev, Program.bind_of_eq (cdevDel_ok hrest hp hnum hc hdev),
    errClass_ok hrest hp hnum hc hcls]

/-- `simple_exit` releases what the driver holds. -/
theorem simpleExit_ok (hsdev : own.sdev = some p) :
    simpleExit ⟨full p num c + rest, own⟩ = .ok ((), ⟨rest, own⟩) := by
  have hrun : ∀ live, sdev ⟨live, own⟩ = .ok (p, ⟨live, own⟩) := by
    intro live
    simp only [sdev, hsdev]
  have hdevice := release_cons (sound_chrdev hrest hp hnum hc) (device_notMem hrest hc) own
  have hclass := release_cons (sound_region hrest hp hnum) (cls_notMem hc) own
  have hregion := release_cons (sound_block hrest hp) (region_notMem hnum) own
  rw [full_add, simpleExit, Program.bind_of_eq (hrun _),
    Program.bind_of_eq (readStruct_ok (by simp)), hcls, hdev, deviceDestroy,
    Program.bind_of_eq hdevice, Program.bind_of_eq (cdevDel_ok hrest hp hnum hc hdev),
    Program.bind_of_eq (readStruct_ok (by simp)), hcls, classDestroy, Program.bind_of_eq hclass,
    Program.bind_of_eq (readStruct_ok (by simp)), hdev, unregisterChrdevRegion,
    Program.bind_of_eq hregion, kfreeBlock]
  exact release_cons hrest hp own

end
end

/-! ## One load -/

section

variable {a : Answers} {live rest : Multiset Res} {own : Own} {p num c : ℕ} {e : Err}

theorem cdevRegion_ok (h : a.region = .ok num) :
    cdevRegion a ⟨live, own⟩ = .ok (.ok num, ⟨.region num ::ₘ live, own⟩) := by
  unfold Answers.region at h
  unfold cdevRegion
  cases hr : a.registerChrdevRegion with
  | none =>
    rw [if_pos hr] at h
    obtain rfl := Except.ok.inj h
    rfl
  | some e' =>
    rw [if_neg (by simp [hr])] at h
    show (if e'.1 = 0 then _ else _ : Program Kernel _) _ = _
    rw [if_neg (Int.ne_of_lt e'.2), h]
    rfl

theorem cdevRegion_error (h : a.region = .error e) :
    cdevRegion a ⟨live, own⟩ = .ok (.error e, ⟨live, own⟩) := by
  unfold Answers.region at h
  unfold cdevRegion
  cases hr : a.registerChrdevRegion with
  | none =>
    rw [if_pos hr] at h
    cases h
  | some e' =>
    rw [if_neg (by simp [hr])] at h
    show (if e'.1 = 0 then _ else _ : Program Kernel _) _ = _
    rw [if_neg (Int.ne_of_lt e'.2), h]
    rfl

/-- The struct at `p` with its fields. -/
def filled (own : Own) (p num c : ℕ) : Own :=
  { own with structs := Function.update own.structs p ⟨some c, num⟩ }

theorem filled_cls : ((filled own p num c).structs p).cls = some c := by
  simp [filled]

theorem filled_dev : ((filled own p num c).structs p).dev = num := by
  simp [filled]

theorem cdevAdd_filled (hp : .block p ∈ live) (dev : ℕ) (answer : Option Err) :
    cdevAdd p num answer ⟨live, filled own p dev c⟩ =
      acquire (.chrdev p num) answer ⟨live, filled own p num c⟩ := by
  unfold cdevAdd
  rw [Program.bind_of_eq (writeStruct_ok hp _)]
  simp only [filled, Function.update_self, Function.update_idem]

section

variable (hrest : Sound Needs rest) (hp : .block p ∉ rest) (hnum : .region num ∉ rest)

include hrest hp hnum in
theorem simpleInitClass_error (hclass : a.classCreate = .error e) :
    ∃ own', simpleInitClass p num a ⟨.region num ::ₘ .block p ::ₘ rest, own⟩ =
      .ok (e.1, ⟨rest, own'⟩) := by
  have hmem : .block p ∈ (.region num ::ₘ .block p ::ₘ rest) := by
    simp
  refine ⟨{ own with structs := Function.update own.structs p ⟨none, (own.structs p).dev⟩ }, ?_⟩
  have hcall : classCreate (.error e) ⟨.region num ::ₘ .block p ::ₘ rest, own⟩ =
      .ok (.error e, ⟨.region num ::ₘ .block p ::ₘ rest, own⟩) := rfl
  unfold simpleInitClass
  rw [hclass, Program.bind_of_eq hcall]
  dsimp only
  rw [Program.bind_of_eq (writeStruct_ok hmem _), errRegion_ok hrest hp hnum]

variable (hclass : a.classCreate = .ok c)

include hclass

/-- `simple_init` once the class exists. -/
theorem simpleInitClass_created :
    simpleInitClass p num a ⟨.region num ::ₘ .block p ::ₘ rest, own⟩ =
      (do
        let res ← cdevAdd p num a.cdevAdd
        if res < 0 then errClass p num res
        else do
          let s ← readStruct p
          let res ← deviceCreate s.cls num a.deviceCreate
          if res < 0 then errCdev p num res else return 0 : Program Kernel ℤ)
      ⟨.cls c ::ₘ .region num ::ₘ .block p ::ₘ rest, filled own p 0 c⟩ := by
  have hmem : .block p ∈ (.cls c ::ₘ .region num ::ₘ .block p ::ₘ rest) := by
    simp
  unfold simpleInitClass cdevInit
  rw [hclass]
  show (writeStruct p _ >>= fun _ => writeStruct p _ >>= fun _ => _) _ = _
  rw [Program.bind_of_eq (writeStruct_ok hmem _), Program.bind_of_eq (writeStruct_ok hmem _)]
  simp only [filled, Function.update_self, Function.update_idem]

theorem simpleInitClass_added (hadd : a.cdevAdd = none) :
    simpleInitClass p num a ⟨.region num ::ₘ .block p ::ₘ rest, own⟩ =
      (do
        let res ← deviceCreate (some c) num a.deviceCreate
        if res < 0 then errCdev p num res else return 0 : Program Kernel ℤ)
      ⟨.chrdev p num ::ₘ .cls c ::ₘ .region num ::ₘ .block p ::ₘ rest, filled own p num c⟩ := by
  have hadded : cdevAdd p num none
      ⟨.cls c ::ₘ .region num ::ₘ .block p ::ₘ rest, filled own p 0 c⟩ = .ok (0,
      ⟨.chrdev p num ::ₘ .cls c ::ₘ .region num ::ₘ .block p ::ₘ rest, filled own p num c⟩) :=
    cdevAdd_filled (by simp) 0 none
  rw [simpleInitClass_created hclass, hadd, Program.bind_of_eq hadded,
    if_neg (Int.lt_irrefl 0), Program.bind_of_eq (readStruct_ok (by simp)), filled_cls]

theorem simpleInitClass_ok (hadd : a.cdevAdd = none) (hdevice : a.deviceCreate = none) :
    simpleInitClass p num a ⟨.region num ::ₘ .block p ::ₘ rest, own⟩ =
      .ok (0, ⟨full p num c + rest, filled own p num c⟩) := by
  rw [simpleInitClass_added hclass hadd, hdevice, full_add]
  rfl

variable (hc : .cls c ∉ rest)

include hrest hp hnum hc

theorem simpleInitClass_cdevAdd (hadd : a.cdevAdd = some e) :
    simpleInitClass p num a ⟨.region num ::ₘ .block p ::ₘ rest, own⟩ =
      .ok (e.1, ⟨rest, filled own p num c⟩) := by
  have hfailed : cdevAdd p num (some e)
      ⟨.cls c ::ₘ .region num ::ₘ .block p ::ₘ rest, filled own p 0 c⟩ =
      .ok (e.1, ⟨.cls c ::ₘ .region num ::ₘ .block p ::ₘ rest, filled own p num c⟩) :=
    cdevAdd_filled (by simp) 0 (some e)
  rw [simpleInitClass_created hclass, hadd, Program.bind_of_eq hfailed, if_pos e.2,
    errClass_ok hrest hp hnum hc filled_cls]

theorem simpleInitClass_deviceCreate (hadd : a.cdevAdd = none) (hdevice : a.deviceCreate = some e) :
    simpleInitClass p num a ⟨.region num ::ₘ .block p ::ₘ rest, own⟩ =
      .ok (e.1, ⟨rest, filled own p num c⟩) := by
  rw [simpleInitClass_added hclass hadd, hdevice]
  show (if e.1 < 0 then _ else _ : Program Kernel ℤ) _ = _
  rw [if_pos e.2, errCdev_ok hrest hp hnum hc filled_dev filled_cls]

end

/-! ## Histories -/

/-- A load that fails with `e`. -/
theorem failed {k : Kernel} (hcode : a.code = e.1)
    (hrun : ∃ own, simpleInit a k = .ok (e.1, ⟨k.live, own⟩)) :
    (simpleInit a k).Ends fun r => r.1 = a.code ∧
      (0 ≤ a.code → r.2.live = a.acquires + k.live ∧ held r.2.own = a.acquires) ∧
      (a.code < 0 → r.2.live = k.live) := by
  obtain ⟨own, hrun⟩ := hrun
  refine .of_eq hrun ⟨hcode.symm, fun h => ?_, fun _ => rfl⟩
  rw [hcode] at h
  exact absurd e.2 (Int.not_lt.mpr h)

theorem simpleInit_region {k : Kernel} (hp : a.kmalloc = some p) (hregion : a.region = .ok num) :
    simpleInit a k = simpleInitClass p num a
      ⟨.region num ::ₘ .block p ::ₘ k.live, { k.own with sdev := some p }⟩ := by
  have hcall : kmalloc (some p) k = .ok (some p, ⟨.block p ::ₘ k.live, k.own⟩) := rfl
  have hset : setSdev p ⟨.block p ::ₘ k.live, k.own⟩ =
      .ok ((), ⟨.block p ::ₘ k.live, { k.own with sdev := some p }⟩) := rfl
  unfold simpleInit
  rw [hp, Program.bind_of_eq hcall]
  dsimp only
  rw [Program.bind_of_eq hset, Program.bind_of_eq (cdevRegion_ok hregion)]

theorem simpleInit_noRegion {k : Kernel} (hk : Sound Needs k.live) (hp : a.kmalloc = some p)
    (hblock : .block p ∉ k.live) (hregion : a.region = .error e) :
    simpleInit a k = .ok (e.1, ⟨k.live, { k.own with sdev := some p }⟩) := by
  have hcall : kmalloc (some p) k = .ok (some p, ⟨.block p ::ₘ k.live, k.own⟩) := rfl
  have hset : setSdev p ⟨.block p ::ₘ k.live, k.own⟩ =
      .ok ((), ⟨.block p ::ₘ k.live, { k.own with sdev := some p }⟩) := rfl
  unfold simpleInit
  rw [hp, Program.bind_of_eq hcall]
  dsimp only
  rw [Program.bind_of_eq hset, Program.bind_of_eq (cdevRegion_error hregion)]
  exact errMem_ok hk hblock e.1

theorem simpleInit_ok {k : Kernel} (hk : Sound Needs k.live) (ha : Promised k.live a) :
    (simpleInit a k).Ends fun r => r.1 = a.code ∧
      (0 ≤ a.code → r.2.live = a.acquires + k.live ∧ held r.2.own = a.acquires) ∧
      (a.code < 0 → r.2.live = k.live) := by
  cases hmalloc : a.kmalloc with
  | none =>
    have hcode : a.code = (⟨enomem, by decide⟩ : Err).1 := by
      simp [Answers.code, hmalloc]
    refine failed hcode ⟨k.own, ?_⟩
    rw [simpleInit, hmalloc]
    rfl
  | some p =>
    have hblock := ha.block p hmalloc
    cases hregion : a.region with
    | error e =>
      have hcode : a.code = e.1 := by
        simp [Answers.code, hmalloc, hregion]
      exact failed hcode ⟨_, simpleInit_noRegion hk hmalloc hblock hregion⟩
    | ok num =>
      have hnum := ha.region num hregion
      have hrun := simpleInit_region (k := k) hmalloc hregion
      cases hclass : a.classCreate with
      | error e =>
        have hcode : a.code = e.1 := by
          simp [Answers.code, hmalloc, hregion, hclass]
        obtain ⟨own, hown⟩ := simpleInitClass_error hk hblock hnum hclass
        exact failed hcode ⟨own, hrun.trans hown⟩
      | ok c =>
        have hc := ha.cls c hclass
        cases hadd : a.cdevAdd with
        | some e =>
          have hcode : a.code = e.1 := by
            simp [Answers.code, hmalloc, hregion, hclass, hadd]
          exact failed hcode
            ⟨_, hrun.trans (simpleInitClass_cdevAdd hk hblock hnum hclass hc hadd)⟩
        | none =>
          cases hdevice : a.deviceCreate with
          | some e =>
            have hcode : a.code = e.1 := by
              simp [Answers.code, hmalloc, hregion, hclass, hadd, hdevice]
            exact failed hcode
              ⟨_, hrun.trans (simpleInitClass_deviceCreate hk hblock hnum hclass hc hadd hdevice)⟩
          | none =>
            have hcode : a.code = 0 := by
              simp [Answers.code, hmalloc, hregion, hclass, hadd, hdevice]
            have hacquires : a.acquires = full p num c := by
              simp [Answers.acquires, hmalloc, hregion, hclass]
            refine .of_eq (hrun.trans (simpleInitClass_ok hclass hadd hdevice))
              ⟨hcode.symm, fun _ => ⟨?_, ?_⟩, fun h => ?_⟩
            · rw [hacquires]
            · rw [hacquires]
              simp [held, filled]
            · rw [hcode] at h
              exact absurd h (Int.lt_irrefl 0)

end

section

variable {a : Answers} {live rest : Multiset Res} {own : Own}

theorem sound_acquires (hlive : Sound Needs live) (ha : Promised live a) :
    Sound Needs (a.acquires + live) := by
  unfold Answers.acquires
  split
  · rename_i p num c hp hregion hclass
    exact sound_full hlive (ha.block p hp) (ha.region num hregion) (ha.cls c hclass)
  · rw [Multiset.zero_add]
    exact hlive

theorem held_cases (own : Own) : held own = 0 ∨ ∃ p num c, held own = full p num c ∧
    own.sdev = some p ∧ (own.structs p).cls = some c ∧ (own.structs p).dev = num := by
  unfold held
  split
  · exact Or.inl rfl
  · rename_i p hp
    split
    · exact Or.inl rfl
    · rename_i c hc
      exact Or.inr ⟨p, _, c, rfl, hp, hc, rfl⟩

theorem acquires_ne_zero (hcode : 0 ≤ a.code) : a.acquires ≠ 0 := by
  cases hp : a.kmalloc with
  | none =>
    simp only [Answers.code, hp] at hcode
    exact absurd hcode (by decide)
  | some p =>
    cases hregion : a.region with
    | error e =>
      simp only [Answers.code, hp, hregion] at hcode
      exact absurd e.2 (Int.not_lt.mpr hcode)
    | ok num =>
      cases hclass : a.classCreate with
      | error e =>
        simp only [Answers.code, hp, hregion, hclass] at hcode
        exact absurd e.2 (Int.not_lt.mpr hcode)
      | ok c =>
        simp only [Answers.acquires, hp, hregion, hclass, full, Multiset.insert_eq_cons]
        exact Multiset.cons_ne_zero

theorem simpleExit_held {k : Kernel} (hcode : 0 ≤ a.code) (hheld : held k.own = a.acquires)
    (hlive : k.live = a.acquires + rest) (hk : Sound Needs k.live) (hrest : Sound Needs rest) :
    (simpleExit k).Ends fun r => r.2.live = rest := by
  obtain hzero | ⟨p, num, c, hfull, hsdev, hcls, hdev⟩ := held_cases k.own
  · exact absurd (hheld.symm.trans hzero) (acquires_ne_zero hcode)
  rw [← hheld, hfull] at hlive
  have hapart : ∀ {r}, r ∈ full p num c → r ∉ rest := by
    rw [hlive] at hk
    exact fun hr => Multiset.disjoint_left.mp (Multiset.nodup_add.mp hk.nodup).2.2 hr
  have hrun := simpleExit_ok hrest (hapart (by simp [full])) (hapart (by simp [full]))
    (hapart (by simp [full])) hdev hcls hsdev
  obtain ⟨live, own⟩ := k
  obtain rfl : live = full p num c + rest := hlive
  exact .of_eq hrun rfl

theorem simpleCdev_correct : simpleCdev.Correct Answers.code Answers.acquires where
  sound h ha _ := sound_acquires h ha
  init := simpleInit_ok
  exit := simpleExit_held

end

/-- **Loading and unloading.** In every history, a load returns 0 and holds a block, a region, a
class, a registered `cdev` and a device, or returns the code of the first of these that it did not
get and leaves nothing behind; an unload releases them; nothing that others hold is touched. -/
theorem load_unload_histories {s : Site Res Own} (hoff : s.loaded = false)
    (hs : Sound Needs s.registry.live) {events : List (Event Res Answers)}
    (hl : simpleCdev.machine.Legal s events) :
    simpleCdev.machine.Always (simpleCdev.Meets Answers.code Answers.acquires) s events ∧
      (simpleCdev.machine.run s events).Ends fun r =>
        r.2.registry.live = simpleCdev.mine r.2 + Driver.others s.registry.live events :=
  simpleCdev_correct.history_unloaded hoff hs hl

/-- Nothing is in use. -/
def unused : Site Res Own := ⟨false, ⟨0, ⟨none, fun _ => ⟨none, 0⟩⟩⟩⟩

/-- Another driver takes the fixed number before this one is loaded and unloaded. -/
def taken : List (Event Res Answers) :=
  [.acquired (.region (mkdev 251 0)),
    .load ⟨some 1, some ⟨-16, by decide⟩, .ok 7, .ok 2, none, none⟩, .unload]

theorem load_unload_histories_sample :
    (simpleCdev.machine.run unused taken).Ends fun r =>
      r.2.registry.live = simpleCdev.mine r.2 + {.region (mkdev 251 0)} := by
  have hl : simpleCdev.machine.Legal unused taken := by
    refine ⟨⟨Multiset.notMem_zero _, fun q hq => nomatch hq⟩, ⟨rfl, ⟨?_, ?_, ?_⟩⟩, rfl, trivial⟩
    · intro p _
      simp [unused]
    · intro num h
      obtain rfl := Except.ok.inj h
      decide
    · intro c _
      simp [unused]
  exact (load_unload_histories rfl ⟨Multiset.nodup_zero, fun h => absurd h (Multiset.notMem_zero _)⟩
    hl).2

end KernelGadgets.Cdev
