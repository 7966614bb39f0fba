import Mathlib.Data.Multiset.AddSub
import KernelGadgets.Lib.CString
import KernelGadgets.Lib.Program

/-!
# The directory walkers

`dirlist`, `dirlist_r` and `_scandir` print the paths below a directory, each with a recursive call
for every subdirectory. They run in an `Env` that answers `opendir`, `malloc`, `lstat` and `scandir`
in any way; what `readdir` will deliver on a stream, and whether it ends with an error, is part of
the answer to `opendir`.

Streams, buffers and the array and entries of `scandir` are resources. An access to one that is not
live, and a release of one, are undefined behaviour, so a resource is released at most once and not
used afterwards in every run without it. The content of a path buffer is a block of its size.
-/

namespace KernelGadgets.DirList

/-! ## The system -/

/-- What a stream delivers: its names, the answer of `fpathconf` for it (`none` for -1), and the
error that `readdir` ends with, if it does. -/
structure Listing where
  names : List CStr
  nameMax : Option ℕ
  readError : Option ℤ

/-- The file type in `st_mode`. -/
inductive FileKind where
  | regular
  | symlink
  | directory
  deriving DecidableEq

/-- A call of the system answers its argument and leaves `errno` and the system in some state. -/
abbrev SysCall (σ α β : Type) := α → ℤ → σ → β × ℤ × σ

/-- The system around the walkers. -/
structure Env (σ : Type) where
  /-- `offsetof(struct dirent, d_name)`. -/
  dNameOffset : ℕ
  opendir : SysCall σ CStr (Option Listing)
  malloc : SysCall σ ℕ Bool
  lstat : SysCall σ CStr (Option FileKind)
  scandir : SysCall σ CStr (Option (List CStr))

/-- What a walker acquires. -/
inductive Res where
  | stream (id : ℕ)
  | memory (id : ℕ)
  deriving DecidableEq

/-- The state of a run. `scans` records the names that `scandir` has delivered. -/
structure World (σ : Type) where
  env : σ
  errno : ℤ
  live : Multiset Res
  next : ℕ
  out : List CStr
  err : List (String × ℤ)
  scans : List CStr

/-- A program that walks. -/
abbrev Walk (σ α : Type) := Program (World σ) α

variable {σ α β : Type}

def syscall (f : SysCall σ α β) (a : α) : Walk σ β := fun w =>
  .ok ((f a w.errno w.env).1,
    { w with errno := (f a w.errno w.env).2.1, env := (f a w.errno w.env).2.2 })

/-- A new resource. -/
def acquire (mk : ℕ → Res) : Walk σ Res := fun w =>
  .ok (mk w.next, { w with next := w.next + 1, live := mk w.next ::ₘ w.live })

def release (r : Res) : Walk σ Unit := fun w =>
  if r ∈ w.live then .ok ((), { w with live := w.live.erase r }) else .fault

/-- An access to a resource. -/
def touch (r : Res) : Walk σ Unit := fun w =>
  if r ∈ w.live then .ok ((), w) else .fault

/-- Printing is taken to keep `errno`, and so are `free` and `closedir`. -/
def perror (message : String) : Walk σ Unit := fun w =>
  .ok ((), { w with err := w.err ++ [(message, w.errno)] })

/-- `printf("%s\n", line)` -/
def printLine (line : CStr) : Walk σ Unit := fun w =>
  .ok ((), { w with out := w.out ++ [line] })

def getErrno : Walk σ ℤ := fun w => .ok (w.errno, w)

def setErrno (e : ℤ) : Walk σ Unit := fun w => .ok ((), { w with errno := e })

def recordScan (names : List CStr) : Walk σ Unit := fun w =>
  .ok ((), { w with scans := w.scans ++ names })

/-- An open directory stream. -/
structure Dir where
  handle : Res
  listing : Listing

def opendir (env : Env σ) (path : CStr) : Walk σ (Option Dir) := do
  match ← syscall env.opendir path with
  | none => return none
  | some listing => do
    let handle ← acquire .stream
    return some ⟨handle, listing⟩

def closedir (dirp : Dir) : Walk σ Unit := release dirp.handle

def malloc (env : Env σ) (size : ℕ) : Walk σ (Option Res) := do
  match ← syscall env.malloc size with
  | false => return none
  | true => do
    let p ← acquire .memory
    return some p

def free (p : Res) : Walk σ Unit := release p

/-- `memset(p, 0, n)` on a buffer of `n` bytes. -/
def memset (p : Res) (n : ℕ) : Walk σ Block := do
  touch p
  return List.replicate n 0

/-- `sprintf(p + offset, "%s", s)` on a buffer with the content `cur`. -/
def sprintf (p : Res) (cur : Block) (offset : ℕ) (s : CStr) : Walk σ Block := do
  touch p
  Program.lift (cur.copyTo offset s.block)

/-- `memset(currentpath, 0, namelen)` and `sprintf(currentpath, "%s/", pathname)`. -/
def initPath (currentpath : Res) (namelen : ℕ) (pathname : CStr) : Walk σ Block := do
  let cur ← memset currentpath namelen
  sprintf currentpath cur 0 (pathname ++ CStr.slash)

/-- The string that a buffer holds. -/
def readString (p : Res) (cur : Block) : Walk σ CStr := do
  touch p
  Program.lift (CStr.ofBlock cur)

/-! ## The code -/

def direntBufSize (env : Env σ) (dirp : Dir) : Walk σ ℕ := do
  touch dirp.handle
  return env.dNameOffset + dirp.listing.nameMax.getD 255 + 1

def isDotOrDotdot (pathname : Block) : Outcome Bool := do
  let c ← pathname.load 0
  if c = 46 then do
    let d ← pathname.load 1
    let sep ← pathname.load ((if d = 46 then 1 else 0) + 1)
    return sep = 0
  else return false

def isDirectory (env : Env σ) (p : Res) (cur : Block) : Walk σ Bool := do
  let pathname ← readString p cur
  match ← syscall env.lstat pathname with
  | none => do
    perror ":: lstat "
    return false
  | some kind => return kind = .directory

/-- `if (is_directory(currentpath)) walk(currentpath);` -/
def descend (env : Env σ) (walk : CStr → Walk σ ℤ) (p : Res) (cur : Block) : Walk σ Unit := do
  if ← isDirectory env p cur then do
    let pathname ← readString p cur
    let _ ← walk pathname
    return ()
  else return ()

/-- The loop over the entries of a directory that the walkers share: `next` delivers an entry,
`done` is what the walker does with it once its path is printed. -/
def entryLoop {ε : Type} (env : Env σ) (walk : CStr → Walk σ ℤ) (p : Res) (offset : ℕ)
    (next done : ε → Walk σ Unit) (name : ε → CStr) : List ε → Block → Walk σ Unit
  | [], _ => return ()
  | e :: es, cur => do
    next e
    if ← Program.lift (isDotOrDotdot (name e).block) then
      entryLoop env walk p offset next done name es cur
    else do
      let cur ← sprintf p cur offset (name e)
      let line ← readString p cur
      printLine line
      done e
      descend env walk p cur
      entryLoop env walk p offset next done name es cur

/-- The `readdir` that returns NULL, and the test of `errno` after it. -/
def readdirEnd (dirp : Dir) : Walk σ Unit := do
  let olderrno ← getErrno
  touch dirp.handle
  setErrno (dirp.listing.readError.getD olderrno)
  let errno ← getErrno
  if errno ≠ olderrno then perror ":: readdir " else return ()

/-- The body of `dirlist`; `ending` is what follows when `readdir` returns NULL. -/
def dirlistWith (env : Env σ) (ending : Dir → Walk σ Unit) : ℕ → CStr → Walk σ ℤ
  | 0, _ => Program.diverge
  | fuel + 1, pathname => do
    match ← opendir env pathname with
    | none => do
      perror ":: opendir "
      return -1
    | some dirp => do
      let maxPathname ← direntBufSize env dirp
      let namelen := pathname.length + maxPathname + 1
      match ← malloc env namelen with
      | none => do
        perror ":: malloc "
        closedir dirp
        return -1
      | some currentpath => do
        let cur ← initPath currentpath namelen pathname
        entryLoop env (dirlistWith env ending fuel) currentpath (pathname.length + 1)
          (fun _ => touch dirp.handle) (fun _ => return ()) id dirp.listing.names cur
        ending dirp
        free currentpath
        closedir dirp
        return 0

def dirlist (env : Env σ) : ℕ → CStr → Walk σ ℤ := dirlistWith env readdirEnd

/-- `readdir_r(dirp, entry, &dt)`: the name is copied to the entry, a buffer of `size` bytes. -/
def readdirR (env : Env σ) (dirp : Dir) (entry : Res) (size : ℕ) (name : CStr) : Walk σ Unit := do
  touch dirp.handle
  touch entry
  if env.dNameOffset + name.length + 1 ≤ size then return () else Program.fault

def dirlistR (env : Env σ) : ℕ → CStr → Walk σ ℤ
  | 0, _ => Program.diverge
  | fuel + 1, pathname => do
    match ← opendir env pathname with
    | none => do
      perror ":: opendir "
      return -1
    | some dirp => do
      let maxPathname ← direntBufSize env dirp
      match ← malloc env maxPathname with
      | none => do
        perror ":: malloc "
        closedir dirp
        return -1
      | some entry => do
        let namelen := pathname.length + maxPathname + 1
        match ← malloc env namelen with
        | none => do
          perror ":: malloc "
          free entry
          closedir dirp
          return -1
        | some currentpath => do
          let cur ← initPath currentpath namelen pathname
          entryLoop env (dirlistR env fuel) currentpath (pathname.length + 1)
            (readdirR env dirp entry maxPathname) (fun _ => return ()) id dirp.listing.names cur
          touch dirp.handle
          free entry
          free currentpath
          closedir dirp
          return 0

/-- An entry of `scandir` is a block of its own. -/
def acquireEntries : List CStr → Walk σ (List (Res × CStr))
  | [] => return []
  | name :: names => do
    let entry ← acquire .memory
    let entries ← acquireEntries names
    return (entry, name) :: entries

/-- From `scandir` to `free(namelist)`. The entries are taken from the last one on, and one named
`.` or `..` is left by the `continue` before its `free`. -/
def scandirEntries (env : Env σ) (walk : CStr → Walk σ ℤ) (currentpath : Res) (offset : ℕ)
    (cur : Block) : Walk σ Unit := do
  let path ← readString currentpath cur
  match ← syscall env.scandir path with
  | none => perror ":: scandir "
  | some names => do
    recordScan names
    let namelist ← acquire .memory
    let entries ← acquireEntries names
    entryLoop env walk currentpath offset
      (fun e => do
        touch namelist
        touch e.1)
      (fun e => free e.1) Prod.snd entries.reverse cur
    free namelist

/-- `_scandir`. -/
def scandir (env : Env σ) : ℕ → CStr → Walk σ ℤ
  | 0, _ => Program.diverge
  | fuel + 1, pathname => do
    match ← opendir env pathname with
    | none => do
      perror ":: opendir "
      return -1
    | some dirp => do
      let maxPathname ← direntBufSize env dirp
      let namelen := pathname.length + maxPathname + 1
      match ← malloc env namelen with
      | none => do
        perror ":: malloc "
        closedir dirp
        return -1
      | some currentpath => do
        let cur ← initPath currentpath namelen pathname
        scandirEntries env (scandir env fuel) currentpath (pathname.length + 1) cur
        closedir dirp
        free currentpath
        return 0

end KernelGadgets.DirList
