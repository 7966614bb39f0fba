import Mathlib.Algebra.Order.Group.Multiset
import Mathlib.Tactic.Abel
import KernelGadgets.DirList.Loop

/-!
# What a walker holds while it walks

A condition speaks of the live resources, the lines printed and the names `scandir` has delivered.
`beside B R` says that the resources `B` are live, and `R` of the others. Every call of the system
has a rule that moves what it acquires or releases in or out of `B`. The loop rule becomes
`entryLoop_owned`, for loops whose entries own blocks. Each walker has a rule that reduces it to its
loop (`dirlist_frame`, `dirlistR_frame`, `scandir_frame`): the loop has the path buffer, the stream
and whatever else the walker holds beside what was there before.
-/

namespace KernelGadgets.DirList

/-- A condition on the live resources, the lines printed and the names scanned. -/
abbrev Cond := Multiset Res → List CStr → List CStr → Prop

variable {σ : Type}

/-- One condition implies the other. -/
def Entails (R R' : Cond) : Prop :=
  ∀ live out scans, R live out scans → R' live out scans

/-- The condition holds in the state. -/
def At (R : Cond) (w : World σ) : Prop := R w.live w.out w.scans

/-- The resources `B` are live, and `R` holds of the others. -/
def beside (B : Multiset Res) (R : Cond) : Cond :=
  fun live out scans => ∃ rest, live = B + rest ∧ R rest out scans

variable {F D : Prop} {env : Env σ} {B : Multiset Res} {R : Cond} {r p : Res} {path : CStr}

theorem At.mono {R' : Cond} (h : Entails R R') {w : World σ} (hw : At (beside B R) w) :
    At (beside B R') w := by
  obtain ⟨rest, hlive, hR⟩ := hw
  exact ⟨rest, hlive, h _ _ _ hR⟩

theorem mem_live {w : World σ} (hr : r ∈ B) (h : At (beside B R) w) : r ∈ w.live := by
  obtain ⟨rest, hlive, -⟩ := h
  rw [hlive]
  exact Multiset.mem_add.mpr (.inl hr)

/-! ## The calls -/

theorem touch_triple (hr : r ∈ B) :
    Triple F D (At (beside B R)) (touch r : Walk σ Unit) fun _ => At (beside B R) :=
  Triple.of_eq (g := fun w => ((), w)) (fun _ h => touch_ok (mem_live hr h)) fun _ h => h

theorem perror_triple (message : String) :
    Triple F D (At R) (perror message : Walk σ Unit) fun _ => At R :=
  fun _ h => h

theorem release_triple :
    Triple F D (At (beside (r ::ₘ B) R)) (release r : Walk σ Unit) fun _ => At (beside B R) := by
  intro w h
  rw [release_ok (mem_live (Multiset.mem_cons_self r B) h)]
  obtain ⟨rest, hlive, hR⟩ := h
  refine ⟨rest, ?_, hR⟩
  show w.live.erase r = B + rest
  rw [hlive, Multiset.cons_add, Multiset.erase_cons_head]

theorem acquire_triple (mk : ℕ → Res) :
    Triple F D (At (beside B R)) (acquire mk : Walk σ Res)
      fun r => At (beside (r ::ₘ B) R) := by
  rintro w ⟨rest, hlive, hR⟩
  refine ⟨rest, ?_, hR⟩
  show mk w.next ::ₘ w.live = mk w.next ::ₘ B + rest
  rw [hlive, Multiset.cons_add]

theorem opendir_bind {α : Type} {K : Option Dir → Walk σ α} {Q : α → World σ → Prop}
    (hnone : (∃ e s, (env.opendir path e s).1 = none) →
      Triple F D (At (beside B R)) (K none) Q)
    (hsome : ∀ dirp : Dir, (∃ e s, (env.opendir path e s).1 = some dirp.listing) →
      Triple F D (At (beside (dirp.handle ::ₘ B) R)) (K (some dirp)) Q) :
    Triple F D (At (beside B R)) (opendir env path >>= K) Q := by
  intro w h
  have hsys : syscall env.opendir path w = .ok ((env.opendir path w.errno w.env).1,
    { w with errno := (env.opendir path w.errno w.env).2.1,
             env := (env.opendir path w.errno w.env).2.2 }) := rfl
  rw [Program.bind_apply, opendir, Program.bind_of_eq hsys]
  cases ho : (env.opendir path w.errno w.env).1 with
  | none => exact hnone ⟨_, _, ho⟩ _ h
  | some listing =>
    exact hsome ⟨.stream w.next, listing⟩ ⟨_, _, ho⟩ _ (acquire_triple (F := F) (D := D) _ _ h)

theorem malloc_bind {α : Type} {K : Option Res → Walk σ α} {Q : α → World σ → Prop} {n : ℕ}
    (hnone : (∃ n e s, (env.malloc n e s).1 = false) → Triple F D (At (beside B R)) (K none) Q)
    (hsome : ∀ p, Triple F D (At (beside (p ::ₘ B) R)) (K (some p)) Q) :
    Triple F D (At (beside B R)) (malloc env n >>= K) Q := by
  intro w h
  have hsys : syscall env.malloc n w = .ok ((env.malloc n w.errno w.env).1,
    { w with errno := (env.malloc n w.errno w.env).2.1,
             env := (env.malloc n w.errno w.env).2.2 }) := rfl
  rw [Program.bind_apply, malloc, Program.bind_of_eq hsys]
  cases ho : (env.malloc n w.errno w.env).1 with
  | false => exact hnone ⟨_, _, _, ho⟩ _ h
  | true => exact hsome _ _ (acquire_triple (F := F) (D := D) _ _ h)

theorem direntBufSize_bind {α : Type} {dirp : Dir} (h : dirp.handle ∈ B) {K : ℕ → Walk σ α}
    {Q : α → World σ → Prop}
    (hK : Triple F D (At (beside B R))
      (K (env.dNameOffset + dirp.listing.nameMax.getD 255 + 1)) Q) :
    Triple F D (At (beside B R)) (direntBufSize env dirp >>= K) Q := by
  intro w hw
  rw [Program.bind_of_eq (direntBufSize_ok (mem_live h hw))]
  exact hK w hw

theorem readdirEnd_triple {dirp : Dir} (h : dirp.handle ∈ B) :
    Triple F D (At (beside B R)) (readdirEnd dirp : Walk σ Unit) fun _ => At (beside B R) := by
  intro w hw
  rw [readdirEnd_ok (mem_live h hw)]
  exact hw

/-- The path buffer holds the path and a slash. -/
theorem initPath_triple (hp : p ∈ B) {n : ℕ} (hn : path.length + 1 < n) :
    Triple F D (At (beside B R)) (initPath p n path : Walk σ Block) fun cur w =>
      (CStr.Starts cur (path ++ CStr.slash) ∧ CStr.ofBlock cur = .ok (path ++ CStr.slash) ∧
        cur.length = n) ∧ At (beside B R) w := by
  intro w hw
  have hlen := CStr.length_append_slash path
  have hfit : 0 + (path ++ CStr.slash).length + 1 ≤ (List.replicate n (0 : UInt8)).length := by
    rw [hlen, List.length_replicate]
    omega
  have hle : 0 + (path ++ CStr.slash).block.length ≤ (List.replicate n (0 : UInt8)).length := by
    rw [CStr.length_block]
    omega
  rw [initPath, Program.bind_of_eq (memset_ok (mem_live hp hw) n), sprintf_ok (mem_live hp hw) hfit]
  have hcur : Block.splice (List.replicate n 0) 0 (path ++ CStr.slash).block =
      (path ++ CStr.slash).block ++
        (List.replicate n 0).drop (0 + (path ++ CStr.slash).block.length) := rfl
  refine ⟨⟨?_, ?_, ?_⟩, hw⟩
  · show CStr.Starts _ _
    rw [hcur, CStr.Starts, CStr.block, List.append_assoc]
    exact List.take_left
  · show CStr.ofBlock _ = _
    rw [hcur, CStr.ofBlock_append]
  · rw [Block.length_splice hle, List.length_replicate]

/-- The names that `scandir` delivers are recorded. -/
def recorded (names : List CStr) (R : Cond) : Cond :=
  fun live out scans => ∃ before, scans = before ++ names ∧ R live out before

theorem recordScan_triple (names : List CStr) :
    Triple F D (At (beside B R)) (recordScan names : Walk σ Unit)
      fun _ => At (beside B (recorded names R)) := by
  rintro w ⟨rest, hlive, hR⟩
  exact ⟨rest, hlive, _, rfl, hR⟩

/-- The blocks of the entries. -/
def blocks (entries : List (Res × CStr)) : Multiset Res := ↑(entries.map Prod.fst)

theorem acquireEntries_triple (names : List CStr) :
    Triple F D (At (beside B R)) (acquireEntries names : Walk σ _) fun entries w =>
      entries.map Prod.snd = names ∧ At (beside (blocks entries + B) R) w := by
  induction names generalizing B with
  | nil =>
    refine Triple.pure fun w hw => ⟨rfl, ?_⟩
    show At (beside (0 + B) R) w
    rwa [Multiset.zero_add]
  | cons name names ih =>
    rw [acquireEntries]
    refine (acquire_triple .memory).bind fun entry => ih.bind fun entries => Triple.pure ?_
    rintro w ⟨hnames, hw⟩
    refine ⟨congrArg (List.cons name) hnames, ?_⟩
    have hblocks : blocks ((entry, name) :: entries) + B = blocks entries + entry ::ₘ B := by
      show (entry ::ₘ blocks entries) + B = _
      rw [Multiset.cons_add, Multiset.add_cons]
    rwa [hblocks]

/-- A path is walked if `lstat` says that it is a directory. -/
theorem enter_triple {walk : CStr → Walk σ ℤ} {R' : Cond}
    (hdir : (∃ e s, (env.lstat path e s).1 = some .directory) →
      Triple F D (At R) (walk path) fun _ => At R')
    (hother : (∃ e s, (env.lstat path e s).1 ≠ some .directory) →
      Entails R R') :
    Triple F D (At R) (enter env walk path) fun _ => At R' := by
  intro w hw
  have hsys : syscall env.lstat path w = .ok ((env.lstat path w.errno w.env).1,
    { w with errno := (env.lstat path w.errno w.env).2.1,
             env := (env.lstat path w.errno w.env).2.2 }) := rfl
  rw [enter, Program.bind_of_eq hsys]
  cases hk : (env.lstat path w.errno w.env).1 with
  | none => exact hother ⟨_, _, by rw [hk]; simp⟩ _ _ _ hw
  | some kind =>
    cases kind with
    | directory =>
      have hwalk : Triple F D (At R) (walk path >>= fun _ => (return () : Walk σ Unit))
          fun _ => At R' := (hdir ⟨_, _, hk⟩).bind fun _ => Triple.pure fun _ h => h
      exact hwalk _ hw
    | regular => exact hother ⟨_, _, by rw [hk]; simp⟩ _ _ _ hw
    | symlink => exact hother ⟨_, _, by rw [hk]; simp⟩ _ _ _ hw

/-! ## The loop -/

section

variable {ε : Type} {walk : CStr → Walk σ ℤ} {next done : ε → Walk σ Unit} {name : ε → CStr}
  {es : List ε} {cur : Block}

/-- The blocks of the entries to come. -/
def owned (own : ε → Multiset Res) (es : List ε) : Multiset Res := (es.map own).sum

theorem owned_cons (own : ε → Multiset Res) (e : ε) (es : List ε) :
    owned own (e :: es) = own e + owned own es := by
  rw [owned, List.map_cons, List.sum_cons, owned]

/-- Names have no blocks of their own in `dirlist` and `dirlist_r`. -/
theorem owned_zero (es : List ε) : owned (fun _ => 0) es = 0 := by
  induction es with
  | nil => rfl
  | cons e es ih => rw [owned_cons, ih, Multiset.zero_add]

/-- The entries of `_scandir` own their blocks. -/
theorem owned_blocks (es : List (Res × CStr)) : owned (fun e => {e.1}) es = blocks es := by
  induction es with
  | nil => rfl
  | cons e es ih =>
    rw [owned_cons, ih]
    rfl

theorem owned_reverse (es : List (Res × CStr)) :
    owned (fun e => {e.1}) es.reverse = blocks es := by
  rw [owned_blocks, blocks, List.map_reverse, Multiset.coe_reverse, blocks]

theorem pure_owned {w : World σ} {rest : Multiset Res} (h : w.live = 0 + rest) :
    (return () : Walk σ Unit) w = .ok ((), { w with live := rest }) := by
  have hlive : w.live = rest := h.trans (Multiset.zero_add rest)
  rw [← hlive]
  rfl

theorem free_owned {w : World σ} {rest : Multiset Res} (h : w.live = {r} + rest) :
    free r w = .ok ((), { w with live := rest }) := by
  have hmem : r ∈ w.live := by
    rw [h]
    exact Multiset.mem_add.mpr (.inl (Multiset.mem_singleton_self r))
  rw [free, release_ok hmem, h, Multiset.singleton_add, Multiset.erase_cons_head]

theorem nextEntry_ok {w : World σ} (hp : p ∈ w.live) (hr : r ∈ w.live) :
    (do touch p; touch r : Walk σ Unit) w = .ok ((), w) :=
  (Program.bind_of_eq (touch_ok hp)).trans (touch_ok hr)

/-- The loop rule where every entry to come owns blocks, which `done` releases. `I` speaks of the
resources beside them: the blocks of `.` and `..` come to these. -/
theorem entryLoop_owned (own : ε → Multiset Res) {I : List ε → Cond} {M : ε → List ε → Cond}
    (hp : p ∈ B)
    (hnext : ∀ e ∈ es, ∀ w : World σ, (∀ r ∈ B + own e, r ∈ w.live) →
      next e w = .ok ((), w) ∨ next e w = .fault ∧ F)
    (hdone : ∀ e (w : World σ) rest, w.live = own e + rest →
      done e w = .ok ((), { w with live := rest }))
    (hdot : ∀ e es live out scans, (name e).IsDot → I (e :: es) live out scans →
      I es (own e + live) out scans)
    (hprint : ∀ e es live out scans, ¬(name e).IsDot → I (e :: es) live out scans →
      M e es live (out ++ [CStr.join path (name e)]) scans)
    (henter : ∀ e es, Triple F D (At (beside (owned own es + B) (M e es)))
      (enter env walk (CStr.join path (name e))) fun _ => At (beside (owned own es + B) (I es)))
    (hcur : CStr.Starts cur (path ++ CStr.slash))
    (hfit : ∀ e ∈ es, F ∨ path.length + 1 + (name e).length + 1 ≤ cur.length) :
    Triple F D (At (beside (owned own es + B) (I es)))
      (entryLoop env walk p (path.length + 1) next done name es cur)
      fun _ => At (beside B (I [])) := by
  have hmem : ∀ es, p ∈ owned own es + B := fun es => Multiset.mem_add.mpr (.inr hp)
  have hloop : Triple F D (At (beside (owned own es + B) (I es)))
      (entryLoop env walk p (path.length + 1) next done name es cur)
      fun _ => At (beside (owned own [] + B) (I [])) := by
    refine entryLoop_triple (I := fun es => At (beside (owned own es + B) (I es)))
      (M := fun e es => At (beside (owned own es + B) (M e es)))
      (fun es w => mem_live (hmem es)) ?_ ?_ ?_ henter hcur hfit
    · rintro e he rest w ⟨live, hlive, -⟩
      apply hnext e he
      intro r hr
      rw [hlive, owned_cons]
      simp only [Multiset.mem_add] at hr ⊢
      tauto
    · rintro e es w hd ⟨live, hlive, hI⟩
      refine ⟨own e + live, ?_, hdot e es _ _ _ hd hI⟩
      rw [hlive, owned_cons]
      abel
    · rintro e es w hd ⟨live, hlive, hI⟩
      have hsplit : w.live = own e + (owned own es + B + live) := by
        rw [hlive, owned_cons]
        abel
      refine ⟨_, hdone e _ _ hsplit, ?_, live, rfl, hprint e es _ _ _ hd hI⟩
      exact Multiset.mem_add.mpr (.inl (hmem es))
  have hnil : owned own [] + B = B := Multiset.zero_add B
  rwa [hnil] at hloop

end

/-! ## The walkers -/

section

variable {R' : Cond} {fuel : ℕ}

/-- The size of a path buffer. -/
def namelen (env : Env σ) (path : CStr) (listing : Listing) : ℕ :=
  path.length + (env.dNameOffset + listing.nameMax.getD 255 + 1) + 1

theorem lt_namelen (env : Env σ) (path : CStr) (listing : Listing) :
    path.length + 1 < namelen env path listing := by
  unfold namelen
  omega

/-- There is room for every name that keeps to the limit. -/
theorem le_namelen {listing : Listing} {n : CStr} (h : n.length ≤ listing.nameMax.getD 255) :
    path.length + 1 + n.length + 1 ≤ namelen env path listing := by
  unfold namelen
  omega

/-- A walker that gives up reports the error, releases what it holds and does no more. -/
theorem giveUp (h : Entails R R') (message : String) {x : Walk σ ℤ} {Q : ℤ → World σ → Prop}
    (hx : Triple F D (At (beside B R')) x Q) :
    Triple F D (At (beside B R)) (perror message >>= fun _ => x) Q :=
  (perror_triple message).bind fun _ => hx.mono (fun _ hw => At.mono h hw) fun _ _ hw => hw

/-- `dirlist` does what its loop does, or nothing where it cannot open the directory or gets no
memory. -/
theorem dirlist_frame (hopen : (∃ e s, (env.opendir path e s).1 = none) → Entails R R')
    (hmalloc : (∃ n e s, (env.malloc n e s).1 = false) → Entails R R')
    (hloop : ∀ (dirp : Dir) (p : Res) (cur : Block),
      (∃ e s, (env.opendir path e s).1 = some dirp.listing) →
      CStr.Starts cur (path ++ CStr.slash) → cur.length = namelen env path dirp.listing →
      Triple F D (At (beside (p ::ₘ dirp.handle ::ₘ B) R))
        (entryLoop env (dirlist env fuel) p (path.length + 1) (fun _ => touch dirp.handle)
          (fun _ => return ()) id dirp.listing.names cur)
        fun _ => At (beside (p ::ₘ dirp.handle ::ₘ B) R')) :
    Triple F D (At (beside B R)) (dirlist env (fuel + 1) path) fun _ => At (beside B R') := by
  rw [dirlist, dirlistWith]
  refine opendir_bind (fun he => ?_) fun dirp hlist => ?_
  · exact giveUp (hopen he) _ (Triple.pure fun _ hw => hw)
  refine direntBufSize_bind (Multiset.mem_cons_self _ _) ?_
  refine malloc_bind (fun he => ?_) fun p => ?_
  · exact giveUp (hmalloc he) _ (release_triple.bind fun _ => Triple.pure fun _ hw => hw)
  refine (initPath_triple (Multiset.mem_cons_self _ _)
    (lt_namelen env path dirp.listing)).bind fun cur => Triple.pre ?_
  rintro ⟨hcur, -, hlen⟩
  refine (hloop dirp p cur hlist hcur hlen).bind fun _ => ?_
  refine (readdirEnd_triple (Multiset.mem_cons_of_mem (Multiset.mem_cons_self _ _))).bind
    fun _ => ?_
  exact release_triple.bind fun _ => release_triple.bind fun _ => Triple.pure fun _ hw => hw

/-- `dirlist_r` holds its entry buffer as well. -/
theorem dirlistR_frame (hopen : (∃ e s, (env.opendir path e s).1 = none) → Entails R R')
    (hmalloc : (∃ n e s, (env.malloc n e s).1 = false) → Entails R R')
    (hloop : ∀ (dirp : Dir) (entry p : Res) (cur : Block),
      (∃ e s, (env.opendir path e s).1 = some dirp.listing) →
      CStr.Starts cur (path ++ CStr.slash) → cur.length = namelen env path dirp.listing →
      Triple F D (At (beside (p ::ₘ entry ::ₘ dirp.handle ::ₘ B) R))
        (entryLoop env (dirlistR env fuel) p (path.length + 1)
          (readdirR env dirp entry (env.dNameOffset + dirp.listing.nameMax.getD 255 + 1))
          (fun _ => return ()) id dirp.listing.names cur)
        fun _ => At (beside (p ::ₘ entry ::ₘ dirp.handle ::ₘ B) R')) :
    Triple F D (At (beside B R)) (dirlistR env (fuel + 1) path) fun _ => At (beside B R') := by
  rw [dirlistR]
  refine opendir_bind (fun he => ?_) fun dirp hlist => ?_
  · exact giveUp (hopen he) _ (Triple.pure fun _ hw => hw)
  refine direntBufSize_bind (Multiset.mem_cons_self _ _) ?_
  refine malloc_bind (fun he => ?_) fun entry => ?_
  · exact giveUp (hmalloc he) _ (release_triple.bind fun _ => Triple.pure fun _ hw => hw)
  refine malloc_bind (fun he => ?_) fun p => ?_
  · exact giveUp (hmalloc he) _ (release_triple.bind fun _ =>
      release_triple.bind fun _ => Triple.pure fun _ hw => hw)
  refine (initPath_triple (Multiset.mem_cons_self _ _)
    (lt_namelen env path dirp.listing)).bind fun cur => Triple.pre ?_
  rintro ⟨hcur, -, hlen⟩
  refine (hloop dirp entry p cur hlist hcur hlen).bind fun _ => ?_
  refine (touch_triple (by simp)).bind fun _ => ?_
  rw [Multiset.cons_swap]
  exact release_triple.bind fun _ => release_triple.bind fun _ =>
    release_triple.bind fun _ => Triple.pure fun _ hw => hw

theorem scandirEntries_triple {walk : CStr → Walk σ ℤ} {cur : Block} {offset : ℕ} (hp : p ∈ B)
    (hstr : CStr.ofBlock cur = .ok path)
    (hscan : (∃ e s, (env.scandir path e s).1 = none) → Entails R R')
    (hloop : ∀ (namelist : Res) (entries : List (Res × CStr)),
      (∃ e s, (env.scandir path e s).1 = some (entries.map Prod.snd)) →
      Triple F D
        (At (beside (blocks entries + namelist ::ₘ B) (recorded (entries.map Prod.snd) R)))
        (entryLoop env walk p offset
          (fun e => do
            touch namelist
            touch e.1)
          (fun e => free e.1) Prod.snd entries.reverse cur)
        fun _ => At (beside (namelist ::ₘ B) R')) :
    Triple F D (At (beside B R)) (scandirEntries env walk p offset cur)
      fun _ => At (beside B R') := by
  intro w hw
  have hsys : syscall env.scandir path w = .ok ((env.scandir path w.errno w.env).1,
    { w with errno := (env.scandir path w.errno w.env).2.1,
             env := (env.scandir path w.errno w.env).2.2 }) := rfl
  rw [scandirEntries, Program.bind_of_eq (readString_ok (mem_live hp hw) hstr),
    Program.bind_of_eq hsys]
  cases ho : (env.scandir path w.errno w.env).1 with
  | none => exact At.mono (hscan ⟨_, _, ho⟩) hw
  | some names =>
    refine ((recordScan_triple names).bind fun _ => (acquire_triple .memory).bind fun namelist =>
      (acquireEntries_triple names).bind fun entries => Triple.pre ?_) _ hw
    rintro rfl
    exact (hloop namelist entries ⟨_, _, ho⟩).bind fun _ => release_triple

/-- `_scandir` holds the array and the blocks of its entries as well; what its loop releases of the
blocks is up to the loop. -/
theorem scandir_frame (hopen : (∃ e s, (env.opendir path e s).1 = none) → Entails R R')
    (hmalloc : (∃ n e s, (env.malloc n e s).1 = false) → Entails R R')
    (hscan : (∃ e s, (env.scandir (path ++ CStr.slash) e s).1 = none) → Entails R R')
    (hloop : ∀ (dirp : Dir) (p namelist : Res) (cur : Block) (entries : List (Res × CStr)),
      (∃ e s, (env.opendir path e s).1 = some dirp.listing) →
      (∃ e s, (env.scandir (path ++ CStr.slash) e s).1 = some (entries.map Prod.snd)) →
      CStr.Starts cur (path ++ CStr.slash) → cur.length = namelen env path dirp.listing →
      Triple F D
        (At (beside (blocks entries + namelist ::ₘ p ::ₘ dirp.handle ::ₘ B)
          (recorded (entries.map Prod.snd) R)))
        (entryLoop env (scandir env fuel) p (path.length + 1)
          (fun e => do
            touch namelist
            touch e.1)
          (fun e => free e.1) Prod.snd entries.reverse cur)
        fun _ => At (beside (namelist ::ₘ p ::ₘ dirp.handle ::ₘ B) R')) :
    Triple F D (At (beside B R)) (scandir env (fuel + 1) path) fun _ => At (beside B R') := by
  rw [scandir]
  refine opendir_bind (fun he => ?_) fun dirp hlist => ?_
  · exact giveUp (hopen he) _ (Triple.pure fun _ hw => hw)
  refine direntBufSize_bind (Multiset.mem_cons_self _ _) ?_
  refine malloc_bind (fun he => ?_) fun p => ?_
  · exact giveUp (hmalloc he) _ (release_triple.bind fun _ => Triple.pure fun _ hw => hw)
  refine (initPath_triple (Multiset.mem_cons_self _ _)
    (lt_namelen env path dirp.listing)).bind fun cur => Triple.pre ?_
  rintro ⟨hcur, hstr, hlen⟩
  refine (scandirEntries_triple (Multiset.mem_cons_self _ _) hstr hscan
    fun namelist entries hnames => ?_).bind fun _ => ?_
  · exact hloop dirp p namelist cur entries hlist hnames hcur hlen
  rw [Multiset.cons_swap]
  exact release_triple.bind fun _ => release_triple.bind fun _ => Triple.pure fun _ hw => hw

end

end KernelGadgets.DirList
