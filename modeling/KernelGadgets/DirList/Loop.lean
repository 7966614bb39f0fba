import KernelGadgets.DirList.Tree
import KernelGadgets.DirList.Walk

/-!
# The loop over the entries of a directory

What the calls come to on live resources, and `entryLoop_triple`, the rule for the loop that the
walkers share. An invariant speaks of the entries that are left; what is to be shown is that an
entry named `.` or `..` keeps it, and that printing any other path, and walking it if it is a
directory, keeps it.
-/

namespace KernelGadgets

namespace DirList

/-! ## The calls on live resources -/

section

variable {σ α β : Type} {w : World σ} {p r : Res}

theorem touch_ok (h : r ∈ w.live) : touch r w = .ok ((), w) := if_pos h

theorem release_ok (h : r ∈ w.live) :
    release r w = .ok ((), { w with live := w.live.erase r }) := if_pos h

theorem memset_ok (h : p ∈ w.live) (n : ℕ) : memset p n w = .ok (List.replicate n 0, w) := by
  rw [memset, Program.bind_of_eq (touch_ok h)]
  rfl

theorem sprintf_ok (h : p ∈ w.live) {cur : Block} {offset : ℕ} {s : CStr}
    (hfit : offset + s.length + 1 ≤ cur.length) :
    sprintf p cur offset s w = .ok (cur.splice offset s.block, w) := by
  rw [sprintf, Program.bind_of_eq (touch_ok h), Block.copyTo_ok (by rw [CStr.length_block]; omega)]
  rfl

/-- A string that does not fit leaves the buffer. -/
theorem sprintf_fault (h : p ∈ w.live) {cur : Block} {offset : ℕ} {s : CStr}
    (hfit : ¬offset + s.length + 1 ≤ cur.length) : sprintf p cur offset s w = .fault := by
  rw [sprintf, Program.bind_of_eq (touch_ok h),
    Block.copyTo_fault (by rw [CStr.length_block]; omega)]
  rfl

theorem readString_ok (h : p ∈ w.live) {cur : Block} {s : CStr} (hs : CStr.ofBlock cur = .ok s) :
    readString p cur w = .ok (s, w) := by
  rw [readString, Program.bind_of_eq (touch_ok h), hs]
  rfl

/-- A name is copied to the entry buffer as far as `fpathconf` allows. -/
theorem readdirR_ok {env : Env σ} {dirp : Dir} {n : CStr} (h : dirp.handle ∈ w.live)
    (hr : r ∈ w.live) (hn : n.length ≤ dirp.listing.nameMax.getD 255) :
    readdirR env dirp r (env.dNameOffset + dirp.listing.nameMax.getD 255 + 1) n w =
      .ok ((), w) := by
  rw [readdirR, Program.bind_of_eq (touch_ok h), Program.bind_of_eq (touch_ok hr),
    if_pos (by omega)]
  rfl

theorem readdirR_fault {env : Env σ} {dirp : Dir} {n : CStr} (h : dirp.handle ∈ w.live)
    (hr : r ∈ w.live) (hn : ¬n.length ≤ dirp.listing.nameMax.getD 255) :
    readdirR env dirp r (env.dNameOffset + dirp.listing.nameMax.getD 255 + 1) n w = .fault := by
  rw [readdirR, Program.bind_of_eq (touch_ok h), Program.bind_of_eq (touch_ok hr),
    if_neg (by omega)]
  rfl

theorem readdirEnd_ok {dirp : Dir} (h : dirp.handle ∈ w.live) : readdirEnd dirp w = .ok ((),
    { w with
      errno := dirp.listing.readError.getD w.errno
      err := if dirp.listing.readError.getD w.errno ≠ w.errno then
        w.err ++ [(":: readdir ", dirp.listing.readError.getD w.errno)] else w.err }) := by
  have herrno : ∀ v : World σ, getErrno v = .ok (v.errno, v) := fun _ => rfl
  have hset : ∀ e, setErrno e w = .ok ((), { w with errno := e }) := fun _ => rfl
  rw [readdirEnd, Program.bind_of_eq (herrno w), Program.bind_of_eq (touch_ok h),
    Program.bind_of_eq (hset _), Program.bind_of_eq (herrno _)]
  by_cases hne : dirp.listing.readError.getD w.errno ≠ w.errno
  · rw [if_pos hne, if_pos hne]
    rfl
  · rw [if_neg hne, if_neg hne]
    rfl

theorem readdirEnd_fault {dirp : Dir} (h : dirp.handle ∉ w.live) :
    readdirEnd dirp w = .fault := by
  have herrno : getErrno w = .ok (w.errno, w) := rfl
  have htouch : touch dirp.handle w = .fault := if_neg h
  rw [readdirEnd, Program.bind_of_eq herrno, Program.bind_apply, htouch]
  rfl

theorem direntBufSize_ok {env : Env σ} {dirp : Dir} (h : dirp.handle ∈ w.live) :
    direntBufSize env dirp w =
      .ok (env.dNameOffset + dirp.listing.nameMax.getD 255 + 1, w) := by
  rw [direntBufSize, Program.bind_of_eq (touch_ok h)]
  rfl

end

/-- The dot test is right for every name. -/
theorem isDotOrDotdot_block (n : CStr) : isDotOrDotdot n.block = .ok (decide n.IsDot) := by
  obtain ⟨bytes, hnul⟩ := n
  unfold CStr.IsDot CStr.block
  match bytes with
  | [] => rfl
  | [a] =>
    by_cases ha : a = 46
    · subst ha
      rfl
    · simp [isDotOrDotdot, Block.load, Block.byte, ha]
  | [a, b] =>
    by_cases ha : a = 46
    · subst ha
      by_cases hb : b = 46
      · subst hb
        rfl
      · have hb0 : b ≠ 0 := fun h => hnul (by simp [h])
        simp [isDotOrDotdot, Block.load, Block.byte, hb, hb0]
    · simp [isDotOrDotdot, Block.load, Block.byte, ha]
  | a :: b :: c :: rest =>
    by_cases ha : a = 46
    · subst ha
      by_cases hb : b = 46
      · subst hb
        have hc0 : c ≠ 0 := fun h => hnul (by simp [h])
        simp [isDotOrDotdot, Block.load, Block.byte, hc0]
      · have hb0 : b ≠ 0 := fun h => hnul (by simp [h])
        simp [isDotOrDotdot, Block.load, Block.byte, hb, hb0]
    · simp [isDotOrDotdot, Block.load, Block.byte, ha]

/-! ## One entry -/

section

variable {σ : Type} {env : Env σ} {walk : CStr → Walk σ ℤ} {p : Res}

/-- What is done with the path of an entry after it is printed. -/
def enter (env : Env σ) (walk : CStr → Walk σ ℤ) (path : CStr) : Walk σ Unit := do
  match ← syscall env.lstat path with
  | none => perror ":: lstat "
  | some .directory => do
    let _ ← walk path
    return ()
  | some _ => return ()

/-- In a buffer that holds a path, `descend` is `enter` on the path. -/
theorem descend_eq {w : World σ} {cur : Block} {path : CStr} (hp : p ∈ w.live)
    (hcur : CStr.ofBlock cur = .ok path) :
    descend env walk p cur w = enter env walk path w := by
  have hsys : syscall env.lstat path w = .ok ((env.lstat path w.errno w.env).1,
    { w with errno := (env.lstat path w.errno w.env).2.1,
             env := (env.lstat path w.errno w.env).2.2 }) := rfl
  unfold descend isDirectory enter
  rw [Program.bind_apply, Program.bind_of_eq (readString_ok hp hcur), Program.bind_of_eq hsys,
    Program.bind_of_eq hsys]
  cases (env.lstat path w.errno w.env).1 with
  | none => rfl
  | some kind =>
    cases kind with
    | directory => simp [readString_ok, hp, hcur]
    | regular => rfl
    | symlink => rfl

variable {ε : Type} {next done : ε → Walk σ Unit} {name : ε → CStr} {path : CStr} {e : ε}
  {es : List ε} {cur : Block} {w w' : World σ}

theorem entryLoop_dot (hnext : next e w = .ok ((), w)) (hd : (name e).IsDot) (offset : ℕ) :
    entryLoop env walk p offset next done name (e :: es) cur w =
      entryLoop env walk p offset next done name es cur w := by
  rw [entryLoop, Program.bind_of_eq hnext, isDotOrDotdot_block, decide_eq_true hd]
  rfl

/-- The path of any other entry is put together in the buffer, printed and entered. -/
theorem entryLoop_name (hnext : next e w = .ok ((), w)) (hd : ¬(name e).IsDot) (hp : p ∈ w.live)
    (hcur : CStr.Starts cur (path ++ CStr.slash))
    (hfit : path.length + 1 + (name e).length + 1 ≤ cur.length)
    (hdone : done e { w with out := w.out ++ [CStr.join path (name e)] } = .ok ((), w'))
    (hp' : p ∈ w'.live) :
    entryLoop env walk p (path.length + 1) next done name (e :: es) cur w =
      (enter env walk (CStr.join path (name e)) >>= fun _ =>
        entryLoop env walk p (path.length + 1) next done name es
          (cur.splice (path.length + 1) (name e).block)) w' := by
  have hstr : CStr.ofBlock (cur.splice (path.length + 1) (name e).block) =
      .ok (CStr.join path (name e)) := by
    rw [← CStr.length_append_slash]
    exact CStr.ofBlock_splice hcur (name e)
  have hline : printLine (CStr.join path (name e)) w =
      .ok ((), { w with out := w.out ++ [CStr.join path (name e)] }) := rfl
  rw [entryLoop, Program.bind_of_eq hnext, isDotOrDotdot_block, decide_eq_false hd,
    Program.bind_of_eq (Program.lift_ok false w), if_neg Bool.false_ne_true,
    Program.bind_of_eq (sprintf_ok hp hfit), Program.bind_of_eq (readString_ok hp hstr),
    Program.bind_of_eq hline, Program.bind_of_eq hdone, Program.bind_apply, descend_eq hp' hstr]
  rfl

/-- A name that does not fit leaves the buffer. -/
theorem entryLoop_fault (hnext : next e w = .ok ((), w)) (hd : ¬(name e).IsDot) (hp : p ∈ w.live)
    {offset : ℕ} (hfit : ¬offset + (name e).length + 1 ≤ cur.length) :
    entryLoop env walk p offset next done name (e :: es) cur w = .fault := by
  rw [entryLoop, Program.bind_of_eq hnext, isDotOrDotdot_block, decide_eq_false hd,
    Program.bind_of_eq (Program.lift_ok false w), if_neg Bool.false_ne_true, Program.bind_apply,
    sprintf_fault hp hfit]
  rfl

/-- **The loop rule.** `I` is kept by `.` and `..`; for any other entry the path is printed, `done`
leads to `M`, and entering the path leads back to `I`. -/
theorem entryLoop_triple {F D : Prop} {I : List ε → World σ → Prop}
    {M : ε → List ε → World σ → Prop} (hlive : ∀ es w, I es w → p ∈ w.live)
    (hnext : ∀ e ∈ es, ∀ rest w, I (e :: rest) w →
      next e w = .ok ((), w) ∨ next e w = .fault ∧ F)
    (hdot : ∀ e es w, (name e).IsDot → I (e :: es) w → I es w)
    (hdone : ∀ e es w, ¬(name e).IsDot → I (e :: es) w →
      ∃ w', done e { w with out := w.out ++ [CStr.join path (name e)] } = .ok ((), w') ∧
        p ∈ w'.live ∧ M e es w')
    (henter : ∀ e es, Triple F D (M e es) (enter env walk (CStr.join path (name e)))
      fun _ => I es)
    (hcur : CStr.Starts cur (path ++ CStr.slash))
    (hfit : ∀ e ∈ es, F ∨ path.length + 1 + (name e).length + 1 ≤ cur.length) :
    Triple F D (I es) (entryLoop env walk p (path.length + 1) next done name es cur)
      fun _ => I [] := by
  induction es generalizing cur with
  | nil =>
    intro w hw
    exact hw
  | cons e es ih =>
    intro w hw
    have hnext' := fun e' he' => hnext e' (List.mem_cons_of_mem e he')
    have hfit' := fun e' he' => hfit e' (List.mem_cons_of_mem e he')
    obtain hn | ⟨hn, hF⟩ := hnext e List.mem_cons_self es w hw
    · by_cases hd : (name e).IsDot
      · rw [entryLoop_dot hn hd]
        exact ih hnext' hcur hfit' w (hdot e es w hd hw)
      · by_cases hle : path.length + 1 + (name e).length + 1 ≤ cur.length
        · obtain ⟨w', hw', hp', hmid⟩ := hdone e es w hd hw
          rw [entryLoop_name hn hd (hlive _ w hw) hcur hle hw' hp']
          have hle' : path.length + 1 + (name e).block.length ≤ cur.length := by
            rw [CStr.length_block]
            omega
          have hcur' : CStr.Starts (cur.splice (path.length + 1) (name e).block)
              (path ++ CStr.slash) := by
            rw [← CStr.length_append_slash] at hle ⊢
            exact CStr.starts_splice hcur hle
          refine (henter e es).bind (fun _ => ih hnext' hcur' ?_) w' hmid
          rw [Block.length_splice hle']
          exact hfit'
        · rw [entryLoop_fault hn hd (hlive _ w hw) hle]
          exact (hfit e List.mem_cons_self).resolve_right hle
    · rw [entryLoop, Program.bind_apply, hn]
      exact hF

end

end DirList

end KernelGadgets
