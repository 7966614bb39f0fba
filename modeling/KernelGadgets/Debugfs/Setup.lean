import KernelGadgets.Lib.Loading

/-!
# Loading the debugfs module

`mydebugfs_init` and `mydebugfs_exit` of `debugfs.c` over any answers of debugfs. Without debugfs
`debugfs_create_dir` returns an error pointer, and where it fails `NULL`; a file is created or not.
Directories are not nested, so the files of a directory are what `debugfs_remove_recursive` removes
along with it.
-/

namespace KernelGadgets.Debugfs

open Loading

/-- A directory, or a file in one. -/
inductive Entry where
  | dir (p : ℕ)
  | file (parent : ℕ) (name : String)
  deriving DecidableEq

/-- The directory of a file. -/
def parents : Entry → List Entry
  | .dir _ => []
  | .file parent _ => [.dir parent]

def Within (r q : Entry) : Prop := q ∈ parents r

instance : DecidableRel Within := fun r q => inferInstanceAs (Decidable (q ∈ parents r))

/-- A `struct dentry *`. -/
inductive Dentry where
  | null
  | err
  | ptr (p : ℕ)
  deriving DecidableEq

/-- The registry of a kernel, with `debugfs_root` for the memory of the module. -/
abbrev Tree := Registry Entry Dentry

/-- What the calls of `mydebugfs_init` come to; a file is created or not. -/
structure Answers where
  createDir : Dentry
  createU8 : Bool
  createBlob : Bool

def enoent : ℤ := 2

def debugfsCreateDir : Dentry → Program Tree Dentry
  | .ptr p => do
    hold (.dir p)
    return .ptr p
  | root => return root

/-- `debugfs_create_u8` and `debugfs_create_blob`: whether the pointer returned is not `NULL`. -/
def debugfsCreateFile (parent : ℕ) (name : String) (answer : Bool) : Program Tree Bool :=
  if answer then do
    hold (.file parent name)
    return true
  else return false

def debugfsRemoveRecursive : Dentry → Program Tree Unit
  | .ptr p => fun k =>
    if .dir p ∈ k.live then
      .ok ((), { k with live := k.live.filter fun r => r ≠ .dir p ∧ ¬Within r (.dir p) })
    else .fault
  | _ => return ()

def setRoot (root : Dentry) : Program Tree Unit := fun k => .ok ((), { k with own := root })

def root : Program Tree Dentry := fun k => .ok (k.own, k)

/-! ## The code -/

/-- `Fail:` -/
def fail : Program Tree ℤ := do
  debugfsRemoveRecursive (← root)
  setRoot .null
  return -enoent

def mydebugfsInit (a : Answers) : Program Tree ℤ := do
  setRoot (← debugfsCreateDir a.createDir)
  match ← root with
  | .err => return -enoent
  | .null => return -enoent
  | .ptr p => do
    let rA ← debugfsCreateFile p "u8_a" a.createU8
    if !rA then fail
    else do
      let rB ← debugfsCreateFile p "blob" a.createBlob
      if !rB then fail else return 0

def mydebugfsExit : Program Tree Unit := do
  debugfsRemoveRecursive (← root)

/-! ## What it should do -/

/-- Any failure is `-ENOENT`. -/
def Answers.code (a : Answers) : ℤ :=
  match a with
  | ⟨.ptr _, true, true⟩ => 0
  | _ => -enoent

def full (p : ℕ) : Multiset Entry := {.file p "blob", .file p "u8_a", .dir p}

def heldBy : Dentry → Multiset Entry
  | .ptr p => full p
  | _ => 0

def Answers.acquires (a : Answers) : Multiset Entry := heldBy a.createDir

/-- A new directory is not in use. -/
def Promised (live : Multiset Entry) (a : Answers) : Prop :=
  ∀ p, a.createDir = .ptr p → .dir p ∉ live

/-- The module. -/
def mydebugfs : Driver Entry Dentry Answers where
  needs := Within
  promised := Promised
  init := mydebugfsInit
  exit := mydebugfsExit
  held := heldBy

/-! ## One load -/

section

variable {rest : Multiset Entry} {p : ℕ}

/-- Removing a directory with some of its files. -/
theorem debugfsRemoveRecursive_ok (hrest : Sound Within rest) (hp : .dir p ∉ rest)
    {files : Multiset Entry} (hfiles : ∀ r ∈ files, Within r (.dir p)) (own : Dentry) :
    debugfsRemoveRecursive (.ptr p) ⟨files + .dir p ::ₘ rest, own⟩ = .ok ((), ⟨rest, own⟩) := by
  have hrest' : rest.filter (fun r => r ≠ .dir p ∧ ¬Within r (.dir p)) = rest := by
    rw [Multiset.filter_eq_self]
    exact fun r hr => ⟨fun h => hp (h ▸ hr), hrest.unneeded hp r hr⟩
  have hfiles' : files.filter (fun r => r ≠ .dir p ∧ ¬Within r (.dir p)) = 0 := by
    rw [Multiset.filter_eq_nil]
    exact fun r hr h => h.2 (hfiles r hr)
  unfold debugfsRemoveRecursive
  simp only [Multiset.mem_add, Multiset.mem_cons, true_or, or_true, if_true, Multiset.filter_add,
    hfiles', Multiset.zero_add]
  rw [Multiset.filter_cons_of_neg _ (fun h => h.1 rfl), hrest']

theorem fail_ok (hrest : Sound Within rest) (hp : .dir p ∉ rest)
    {files : Multiset Entry} (hfiles : ∀ r ∈ files, Within r (.dir p)) :
    fail ⟨files + .dir p ::ₘ rest, .ptr p⟩ = .ok (-enoent, ⟨rest, .null⟩) := by
  have hroot : root ⟨files + .dir p ::ₘ rest, .ptr p⟩ =
      .ok (.ptr p, ⟨files + .dir p ::ₘ rest, .ptr p⟩) := rfl
  unfold fail
  rw [Program.bind_of_eq hroot,
    Program.bind_of_eq (debugfsRemoveRecursive_ok hrest hp hfiles _)]
  rfl

theorem full_add :
    full p + rest = .file p "blob" ::ₘ .file p "u8_a" ::ₘ .dir p ::ₘ rest := by
  unfold full
  simp only [Multiset.insert_eq_cons, Multiset.cons_add, Multiset.singleton_add]

theorem within_file (name : String) : Within (.file p name) (.dir p) := List.mem_singleton_self _

theorem code_ne (a : Answers) (h : ∀ p, a ≠ ⟨.ptr p, true, true⟩) : a.code = -enoent := by
  unfold Answers.code
  split
  · exact absurd rfl (h _)
  · rfl

/-- A load that fails. -/
theorem failed {k : Tree} {a : Answers} (h : ∀ p, a ≠ ⟨.ptr p, true, true⟩)
    (hrun : ∃ own, mydebugfsInit a k = .ok (-enoent, ⟨k.live, own⟩)) :
    (mydebugfsInit a k).Ends fun r => r.1 = a.code ∧
      (0 ≤ a.code → r.2.live = a.acquires + k.live ∧ heldBy r.2.own = a.acquires) ∧
      (a.code < 0 → r.2.live = k.live) := by
  obtain ⟨own, hrun⟩ := hrun
  rw [code_ne a h]
  exact .of_eq hrun ⟨rfl, fun hcode => absurd hcode (by decide), fun _ => rfl⟩

/-- A load once there is a directory. -/
theorem mydebugfsInit_dir (k : Tree) (p : ℕ) (u8 blob : Bool) :
    mydebugfsInit ⟨.ptr p, u8, blob⟩ k = (do
      let rA ← debugfsCreateFile p "u8_a" u8
      if !rA then fail
      else do
        let rB ← debugfsCreateFile p "blob" blob
        if !rB then fail else return 0 : Program Tree ℤ) ⟨.dir p ::ₘ k.live, .ptr p⟩ := rfl

theorem mydebugfsInit_u8 (k : Tree) (p : ℕ) (blob : Bool) :
    mydebugfsInit ⟨.ptr p, true, blob⟩ k = (do
      let rB ← debugfsCreateFile p "blob" blob
      if !rB then fail else return 0 : Program Tree ℤ)
      ⟨.file p "u8_a" ::ₘ .dir p ::ₘ k.live, .ptr p⟩ := rfl

theorem mydebugfsInit_ok {k : Tree} {a : Answers} (hk : Sound Within k.live)
    (ha : Promised k.live a) : (mydebugfsInit a k).Ends fun r => r.1 = a.code ∧
      (0 ≤ a.code → r.2.live = a.acquires + k.live ∧ heldBy r.2.own = a.acquires) ∧
      (a.code < 0 → r.2.live = k.live) := by
  obtain ⟨dir, u8, blob⟩ := a
  cases dir with
  | null => exact failed (fun p h => by cases h) ⟨.null, rfl⟩
  | err => exact failed (fun p h => by cases h) ⟨.err, rfl⟩
  | ptr p =>
    have hp := ha p rfl
    cases u8 with
    | false =>
      refine failed (fun p h => by cases h) ⟨.null, ?_⟩
      have hfiles : ∀ r ∈ (0 : Multiset Entry), Within r (.dir p) :=
        fun r hr => absurd hr (Multiset.notMem_zero r)
      have hfail := fail_ok hk hp hfiles
      rw [Multiset.zero_add] at hfail
      rw [mydebugfsInit_dir]
      exact hfail
    | true =>
      cases blob with
      | false =>
        refine failed (fun p h => by cases h) ⟨.null, ?_⟩
        have hfiles : ∀ r ∈ ({.file p "u8_a"} : Multiset Entry), Within r (.dir p) := by
          simp [within_file]
        have hfail := fail_ok hk hp hfiles
        rw [Multiset.singleton_add] at hfail
        rw [mydebugfsInit_u8]
        exact hfail
      | true =>
        have hrun : mydebugfsInit ⟨.ptr p, true, true⟩ k = .ok (0, ⟨full p + k.live, .ptr p⟩) := by
          rw [mydebugfsInit_u8, full_add]
          rfl
        exact .of_eq hrun ⟨rfl, fun _ => ⟨rfl, rfl⟩, fun h => absurd h (Int.lt_irrefl 0)⟩

theorem sound_full (hrest : Sound Within rest) (hp : .dir p ∉ rest) :
    Sound Within (full p + rest) := by
  have hfile : ∀ name, .file p name ∉ rest := fun name h =>
    hp (hrest.closed h (within_file name))
  have hdir : Sound Within (.dir p ::ₘ rest) := hrest.cons hp (by simp [Within, parents])
  have hu8 : Sound Within (.file p "u8_a" ::ₘ .dir p ::ₘ rest) :=
    hdir.cons (by simp [hfile]) (by simp [Within, parents])
  rw [full_add]
  have hblob : .file p "blob" ∉ .file p "u8_a" ::ₘ .dir p ::ₘ rest := by
    simp [hfile]
  exact hu8.cons hblob (by simp [Within, parents])

theorem acquires_ne_zero {a : Answers} (hcode : 0 ≤ a.code) : a.acquires ≠ 0 := by
  obtain ⟨p, rfl⟩ : ∃ p, a = ⟨.ptr p, true, true⟩ := by
    by_contra h
    rw [code_ne a fun p hp => h ⟨p, hp⟩] at hcode
    exact absurd hcode (by decide)
  show full p ≠ 0
  unfold full
  rw [Multiset.insert_eq_cons]
  exact Multiset.cons_ne_zero

theorem mydebugfsExit_ok {k : Tree} {a : Answers} (hcode : 0 ≤ a.code)
    (hheld : heldBy k.own = a.acquires) (hlive : k.live = a.acquires + rest)
    (hk : Sound Within k.live) (hrest : Sound Within rest) :
    (mydebugfsExit k).Ends fun r => r.2.live = rest := by
  obtain ⟨live, own⟩ := k
  have hne : heldBy own ≠ 0 := by
    rw [show heldBy own = a.acquires from hheld]
    exact acquires_ne_zero hcode
  obtain ⟨p, rfl⟩ : ∃ p, own = .ptr p := by
    cases own with
    | ptr p => exact ⟨p, rfl⟩
    | null => exact absurd rfl hne
    | err => exact absurd rfl hne
  have hheld : full p = a.acquires := hheld
  have hlive : live = a.acquires + rest := hlive
  rw [← hheld] at hlive
  subst hlive
  have hp : .dir p ∉ rest :=
    Multiset.disjoint_left.mp (Multiset.nodup_add.mp hk.nodup).2.2 (by simp [full])
  have hfiles : ∀ r ∈ ({.file p "blob", .file p "u8_a"} : Multiset Entry), Within r (.dir p) := by
    simp [within_file]
  have hrun := debugfsRemoveRecursive_ok hrest hp hfiles (.ptr p)
  rw [Multiset.insert_eq_cons, Multiset.cons_add, Multiset.singleton_add, ← full_add] at hrun
  exact .of_eq hrun rfl

theorem mydebugfs_correct : mydebugfs.Correct Answers.code Answers.acquires where
  sound {live a} h ha _ := by
    unfold Answers.acquires
    cases hdir : a.createDir with
    | ptr p => exact sound_full h (ha p hdir)
    | null => exact (Multiset.zero_add live).symm ▸ h
    | err => exact (Multiset.zero_add live).symm ▸ h
  init := mydebugfsInit_ok
  exit := mydebugfsExit_ok

end

/-- **Loading and unloading.** In every history, a load that fails in whatever way returns
`-ENOENT` and leaves no entry, any other leaves the directory with its two files, and an unload
removes these and nothing else. -/
theorem debugfs_histories {s : Site Entry Dentry} (hoff : s.loaded = false)
    (hs : Sound Within s.registry.live) {events : List (Event Entry Answers)}
    (hl : mydebugfs.machine.Legal s events) :
    mydebugfs.machine.Always (mydebugfs.Meets Answers.code Answers.acquires) s events ∧
      (mydebugfs.machine.run s events).Ends fun r =>
        r.2.registry.live = mydebugfs.mine r.2 + Driver.others s.registry.live events :=
  mydebugfs_correct.history_unloaded hoff hs hl

/-- The second file is not created, and then it is. -/
def twoLoads : List (Event Entry Answers) :=
  [.acquired (.dir 1), .load ⟨.ptr 2, true, false⟩, .load ⟨.ptr 3, true, true⟩]

theorem debugfs_histories_sample :
    (mydebugfs.machine.run ⟨false, ⟨0, .null⟩⟩ twoLoads).Ends fun r =>
      r.2.registry.live = mydebugfs.mine r.2 + {.dir 1} := by
  have hl : mydebugfs.machine.Legal ⟨false, ⟨0, .null⟩⟩ twoLoads := by
    refine ⟨⟨Multiset.notMem_zero _, fun q hq => nomatch hq⟩, ⟨rfl, ?_⟩, ⟨rfl, ?_⟩, trivial⟩
    · intro p h
      obtain rfl := Dentry.ptr.inj h
      decide
    · intro p h
      obtain rfl := Dentry.ptr.inj h
      decide
  exact (debugfs_histories rfl ⟨Multiset.nodup_zero, fun h => absurd h (Multiset.notMem_zero _)⟩
    hl).2

end KernelGadgets.Debugfs
