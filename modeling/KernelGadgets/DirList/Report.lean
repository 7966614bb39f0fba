import KernelGadgets.DirList.Release

/-!
# Which read errors `dirlist` reports

`dirlist` takes a `readdir` that returns NULL for an error if `errno` is not what it was before the
call. An error with the code that an earlier call has left in `errno` is therefore taken for the
end of the stream.

`dirlistRecorded` is `dirlist` with a record of how the reading of each directory stopped; it runs
as `dirlist` does (`dirlistRecorded_follows`). The messages of a run are one for each stop with
an error exactly if no stop has the code that was in `errno` (`dirlist_reports`).
-/

namespace KernelGadgets.DirList

/-! ## The record -/

/-- How the reading of a directory stopped: `errno` before the last `readdir`, and the error of
that call unless it was at the end of the stream. -/
structure Stop where
  olderrno : ℤ
  readError : Option ℤ
  deriving DecidableEq, Repr

variable {σ : Type}

/-- A call of the system that keeps a record. -/
def recordedCall {α β : Type} (f : SysCall σ α β) : SysCall (σ × List Stop) α β := fun a e s =>
  ((f a e s.1).1, (f a e s.1).2.1, (f a e s.1).2.2, s.2)

/-- The system beside a record. -/
def Env.recorded (env : Env σ) : Env (σ × List Stop) where
  dNameOffset := env.dNameOffset
  opendir := recordedCall env.opendir
  malloc := recordedCall env.malloc
  lstat := recordedCall env.lstat
  scandir := recordedCall env.scandir

/-- The record is put down. -/
def World.forget (w : World (σ × List Stop)) : World σ := { w with env := w.env.1 }

/-- A record is taken up. -/
def World.withStops (w : World σ) (stops : List Stop) : World (σ × List Stop) :=
  { w with env := (w.env, stops) }

@[simp] theorem World.forget_withStops (w : World σ) (stops : List Stop) :
    (w.withStops stops).forget = w := rfl

def recordStop (readError : Option ℤ) : Walk (σ × List Stop) Unit := fun w =>
  .ok ((), { w with env := (w.env.1, w.env.2 ++ [⟨w.errno, readError⟩]) })

def readdirEndRecorded (dirp : Dir) : Walk (σ × List Stop) Unit := do
  recordStop dirp.listing.readError
  readdirEnd dirp

/-- `dirlist` that records how the reading of each directory stops. -/
def dirlistRecorded (env : Env σ) : ℕ → CStr → Walk (σ × List Stop) ℤ :=
  dirlistWith env.recorded readdirEndRecorded

/-! ## Messages -/

/-- The messages of `dirlist` about `readdir`, each with the code of `errno`. -/
def readdirMessages (err : List (String × ℤ)) : List (String × ℤ) :=
  err.filter fun m => m.1 = ":: readdir "

/-- The message that a stop calls for: one for an error, none at the end of the stream. -/
def Stop.due (s : Stop) : Option (String × ℤ) := s.readError.map fun e => (":: readdir ", e)

/-- The message that is printed at a stop. -/
def Stop.printed (s : Stop) : Option (String × ℤ) :=
  if s.readError = some s.olderrno then none else s.due

/-- What was recorded from `w` to `w'` is what was printed. -/
def Adds (w w' : World (σ × List Stop)) : Prop :=
  ∃ stops, w'.env.2 = w.env.2 ++ stops ∧
    readdirMessages w'.err = readdirMessages w.err ++ stops.filterMap Stop.printed

theorem Adds.refl (w : World (σ × List Stop)) : Adds w w :=
  ⟨[], (List.append_nil _).symm, (List.append_nil _).symm⟩

theorem Adds.trans {t u v : World (σ × List Stop)} (h : Adds t u) (h' : Adds u v) : Adds t v := by
  obtain ⟨stops, hs, herr⟩ := h
  obtain ⟨stops', hs', herr'⟩ := h'
  refine ⟨stops ++ stops', ?_, ?_⟩
  · rw [hs', hs, List.append_assoc]
  · rw [herr', herr, List.filterMap_append, List.append_assoc]

/-- A step that prints and records nothing. -/
theorem Adds.of_eq {w w' : World (σ × List Stop)} (hs : w'.env.2 = w.env.2)
    (herr : readdirMessages w'.err = readdirMessages w.err) : Adds w w' :=
  ⟨[], by rw [hs, List.append_nil], by rw [herr, List.filterMap_nil, List.append_nil]⟩

/-! ## The calls -/

/-- A walk with a record does what the walk does, and records what it prints. -/
abbrev Follows {α : Type} (x' : Walk (σ × List Stop) α) (x : Walk σ α) : Prop :=
  Instruments World.forget Adds x' x

namespace Follows

variable {α β : Type}

theorem pure (a : α) : Follows (Pure.pure a : Walk (σ × List Stop) α) (Pure.pure a) :=
  Instruments.pure Adds.refl a

theorem bind {x' : Walk (σ × List Stop) α} {x : Walk σ α} {y' : α → Walk (σ × List Stop) β}
    {y : α → Walk σ β} (hx : Follows x' x) (hy : ∀ a, Follows (y' a) (y a)) :
    Follows (x' >>= y') (x >>= y) :=
  Instruments.bind (R := Adds) Adds.trans hx hy

/-- A part that prints no message about `readdir`. -/
theorem of_quiet {x' : Walk (σ × List Stop) α} {x : Walk σ α}
    {g : World (σ × List Stop) → α × World (σ × List Stop)} (hx' : ∀ w, x' w = .ok (g w))
    (hx : ∀ w, x w.forget = .ok ((g w).1, (g w).2.forget))
    (hs : ∀ w, (g w).2.env.2 = w.env.2)
    (herr : ∀ w, readdirMessages (g w).2.err = readdirMessages w.err) : Follows x' x :=
  Instruments.of_eq hx' hx fun w => Adds.of_eq (hs w) (herr w)

theorem syscall (f : SysCall σ α β) (a : α) :
    Follows (syscall (recordedCall f) a) (syscall f a) :=
  of_quiet (fun _ => rfl) (fun _ => rfl) (fun _ => rfl) fun _ => rfl

theorem acquire (mk : ℕ → Res) : Follows (σ := σ) (acquire mk) (acquire mk) :=
  of_quiet (fun _ => rfl) (fun _ => rfl) (fun _ => rfl) fun _ => rfl

theorem printLine (line : CStr) : Follows (σ := σ) (printLine line) (printLine line) :=
  of_quiet (fun _ => rfl) (fun _ => rfl) (fun _ => rfl) fun _ => rfl

/-- The messages about other calls. -/
theorem perror {message : String} (h : message ≠ ":: readdir ") :
    Follows (σ := σ) (perror message) (perror message) := by
  refine of_quiet (fun _ => rfl) (fun _ => rfl) (fun _ => rfl) fun w => ?_
  show readdirMessages (w.err ++ [(message, w.errno)]) = readdirMessages w.err
  unfold readdirMessages
  rw [List.filter_append, List.filter_cons_of_neg (by simpa using h), List.filter_nil,
    List.append_nil]

theorem touch (r : Res) : Follows (σ := σ) (touch r) (touch r) where
  run w := by
    unfold DirList.touch
    by_cases h : r ∈ w.live
    · rw [if_pos h]
      exact if_pos h
    · rw [if_neg h]
      exact if_neg h
  moves {w w' a} h := by
    unfold DirList.touch at h
    split at h
    · cases h
      exact Adds.refl w
    · cases h

theorem release (r : Res) : Follows (σ := σ) (release r) (release r) where
  run w := by
    unfold DirList.release
    by_cases h : r ∈ w.live
    · rw [if_pos h]
      exact if_pos h
    · rw [if_neg h]
      exact if_neg h
  moves {w w' a} h := by
    unfold DirList.release at h
    split at h
    · cases h
      exact Adds.of_eq rfl rfl
    · cases h

theorem lift (x : Outcome α) : Follows (σ := σ) (Program.lift x) (Program.lift x) :=
  Instruments.lift Adds.refl x

variable (env : Env σ)

theorem opendir (path : CStr) :
    Follows (opendir env.recorded path) (opendir env path) := by
  unfold DirList.opendir
  refine (syscall env.opendir path).bind fun answer => ?_
  cases answer with
  | none => exact pure none
  | some listing => exact (acquire .stream).bind fun handle => pure (some (Dir.mk handle listing))

theorem malloc (size : ℕ) : Follows (malloc env.recorded size) (malloc env size) := by
  unfold DirList.malloc
  refine (syscall env.malloc size).bind fun answer => ?_
  cases answer with
  | false => exact pure none
  | true => exact (acquire .memory).bind fun p => pure (some p)

theorem direntBufSize (dirp : Dir) :
    Follows (direntBufSize env.recorded dirp) (direntBufSize env dirp) := by
  unfold DirList.direntBufSize
  exact (touch dirp.handle).bind fun _ => pure _

theorem sprintf (p : Res) (cur : Block) (offset : ℕ) (s : CStr) :
    Follows (σ := σ) (sprintf p cur offset s) (sprintf p cur offset s) := by
  unfold DirList.sprintf
  exact (touch p).bind fun _ => lift _

theorem initPath (p : Res) (namelen : ℕ) (pathname : CStr) :
    Follows (σ := σ) (initPath p namelen pathname) (initPath p namelen pathname) := by
  unfold DirList.initPath memset
  exact ((touch p).bind fun _ => pure _).bind fun cur => sprintf p cur 0 _

theorem readString (p : Res) (cur : Block) :
    Follows (σ := σ) (readString p cur) (readString p cur) := by
  unfold DirList.readString
  exact (touch p).bind fun _ => lift _

theorem isDirectory (p : Res) (cur : Block) :
    Follows (isDirectory env.recorded p cur) (isDirectory env p cur) := by
  unfold DirList.isDirectory
  refine (readString p cur).bind fun pathname => (syscall env.lstat pathname).bind fun answer => ?_
  cases answer with
  | none => exact (perror (by decide)).bind fun _ => pure false
  | some kind => exact pure _

variable {walk' : CStr → Walk (σ × List Stop) ℤ} {walk : CStr → Walk σ ℤ}
  (hwalk : ∀ path, Follows (walk' path) (walk path))

include hwalk

theorem descend (p : Res) (cur : Block) :
    Follows (descend env.recorded walk' p cur) (descend env walk p cur) := by
  unfold DirList.descend
  refine (isDirectory env p cur).bind fun isDir => ?_
  cases isDir with
  | false => exact pure ()
  | true => exact (readString p cur).bind fun path => (hwalk path).bind fun _ => pure ()

/-- The loop over the names of a directory. -/
theorem entryLoop (p handle : Res) (offset : ℕ) (names : List CStr) (cur : Block) :
    Follows
      (entryLoop env.recorded walk' p offset (fun _ => DirList.touch handle) (fun _ => return ())
        id names cur)
      (entryLoop env walk p offset (fun _ => DirList.touch handle) (fun _ => return ())
        id names cur) := by
  induction names generalizing cur with
  | nil => exact pure ()
  | cons name names ih =>
    unfold DirList.entryLoop
    refine (touch handle).bind fun _ => (lift _).bind fun isDot => ?_
    cases isDot with
    | true => exact ih cur
    | false =>
      refine (sprintf p cur offset name).bind fun cur => (readString p cur).bind fun line => ?_
      refine (printLine line).bind fun _ => (pure ()).bind fun _ => ?_
      exact (descend env hwalk p cur).bind fun _ => ih cur

end Follows

/-! ## The end of a directory -/

/-- What `readdirEnd` prints is what its stop prints. -/
theorem readdirMessages_end (err : List (String × ℤ)) (olderrno : ℤ) (readError : Option ℤ) :
    readdirMessages (if readError.getD olderrno ≠ olderrno then
        err ++ [(":: readdir ", readError.getD olderrno)] else err) =
      readdirMessages err ++ [Stop.mk olderrno readError].filterMap Stop.printed := by
  cases readError with
  | none =>
    rw [Option.getD_none, if_neg (not_not_intro rfl)]
    exact (List.append_nil _).symm
  | some e =>
    by_cases he : e = olderrno
    · have hprinted : (Stop.mk olderrno (some e)).printed = none := if_pos (congrArg some he)
      rw [Option.getD_some, if_neg (not_not_intro he), List.filterMap_cons, hprinted]
      exact (List.append_nil _).symm
    · have hprinted : (Stop.mk olderrno (some e)).printed = some (":: readdir ", e) :=
        if_neg fun h => he (Option.some.inj h)
      rw [Option.getD_some, if_pos he, List.filterMap_cons, hprinted]
      exact List.filter_append ..

theorem Follows.readdirEnd (dirp : Dir) :
    Follows (σ := σ) (readdirEndRecorded dirp) (readdirEnd dirp) := by
  have hstop : ∀ w : World (σ × List Stop), readdirEndRecorded dirp w =
      DirList.readdirEnd dirp
        (w.forget.withStops (w.env.2 ++ [⟨w.errno, dirp.listing.readError⟩])) := fun _ => rfl
  refine ⟨fun w => ?_, fun {w w' a} hrun => ?_⟩
  · rw [hstop]
    by_cases h : dirp.handle ∈ w.live
    · rw [readdirEnd_ok (by exact h), readdirEnd_ok (by exact h)]
      rfl
    · rw [readdirEnd_fault (by exact h), readdirEnd_fault (by exact h)]
      rfl
  · rw [hstop] at hrun
    by_cases h : dirp.handle ∈ w.live
    · rw [readdirEnd_ok (by exact h)] at hrun
      cases hrun
      exact ⟨[⟨w.errno, dirp.listing.readError⟩], rfl, readdirMessages_end ..⟩
    · rw [readdirEnd_fault (by exact h)] at hrun
      cases hrun

/-- **The recorded walk** does what `dirlist` does. -/
theorem dirlistRecorded_follows (env : Env σ) (fuel : ℕ) (path : CStr) :
    Follows (dirlistRecorded env fuel path) (dirlist env fuel path) := by
  induction fuel generalizing path with
  | zero => exact Instruments.diverge
  | succ fuel ih =>
    rw [dirlistRecorded, dirlist, dirlistWith, dirlistWith]
    refine (Follows.opendir env path).bind fun answer => ?_
    cases answer with
    | none => exact (Follows.perror (by decide)).bind fun _ => Follows.pure _
    | some dirp =>
      refine (Follows.direntBufSize env dirp).bind fun size => ?_
      refine (Follows.malloc env _).bind fun answer => ?_
      cases answer with
      | none =>
        exact (Follows.perror (by decide)).bind fun _ => (Follows.release _).bind fun _ =>
          Follows.pure _
      | some currentpath =>
        refine (Follows.initPath currentpath _ path).bind fun cur => ?_
        refine (Follows.entryLoop env ih currentpath dirp.handle _ _ cur).bind fun _ => ?_
        refine (Follows.readdirEnd dirp).bind fun _ => ?_
        exact (Follows.release _).bind fun _ => (Follows.release _).bind fun _ => Follows.pure _

/-! ## Finite trees -/

/-- Below `path` directories are nested less than `h` deep, whatever the system answers. -/
def Env.Shallow (env : Env σ) : ℕ → CStr → Prop
  | 0, _ => False
  | h + 1, path => ∀ listing, (∃ e s, (env.opendir path e s).1 = some listing) →
    ∀ n ∈ listing.names, ¬n.IsDot →
      (∃ e s, (env.lstat (CStr.join path n) e s).1 = some .directory) →
        env.Shallow h (CStr.join path n)

/-- No condition. -/
def anything : Cond := fun _ _ _ => True

/-- The names to come are names of the directory. -/
def namesOf (listing : Listing) (names : List CStr) : Cond := fun _ _ _ =>
  ∀ n ∈ names, n ∈ listing.names

theorem enter_ends {env : Env σ} {walk : CStr → Walk σ ℤ} {B : Multiset Res} {listing : Listing}
    {path n : CStr} {names : List CStr} (hdot : ¬n.IsDot) (hn : n ∈ listing.names)
    (hwalk : ∀ n ∈ listing.names, ¬n.IsDot →
      (∃ e s, (env.lstat (CStr.join path n) e s).1 = some .directory) →
        Triple False False (At (beside B anything)) (walk (CStr.join path n))
          fun _ => At (beside B anything)) :
    Triple False False (At (beside B (namesOf listing names))) (enter env walk (CStr.join path n))
      fun _ => At (beside B (namesOf listing names)) := by
  refine Triple.forall_state ?_
  rintro w ⟨rest, hlive, hnames⟩
  refine Triple.mono (P := At (beside B anything)) (Q := fun _ => At (beside B anything)) ?_ ?_ ?_
  · exact enter_triple (hwalk n hn hdot) fun _ _ _ _ h => h
  · rintro t rfl
    exact ⟨rest, hlive, trivial⟩
  · rintro _ t ⟨rest', hlive', -⟩
    exact ⟨rest', hlive', hnames⟩

/-- The loop ends if the walks do that it starts. -/
theorem entryLoop_ends {env : Env σ} {walk : CStr → Walk σ ℤ} {B : Multiset Res} {dirp : Dir}
    {path : CStr} {p : Res} {cur : Block} (hp : p ∈ B) (hdirp : dirp.handle ∈ B)
    (hwalk : ∀ n ∈ dirp.listing.names, ¬n.IsDot →
      (∃ e s, (env.lstat (CStr.join path n) e s).1 = some .directory) →
        ∀ B, Triple False False (At (beside B anything)) (walk (CStr.join path n))
          fun _ => At (beside B anything))
    (hcur : CStr.Starts cur (path ++ CStr.slash))
    (hfit : ∀ n ∈ dirp.listing.names, path.length + 1 + n.length + 1 ≤ cur.length) :
    Triple False False (At (beside B anything))
      (entryLoop env walk p (path.length + 1) (fun _ => touch dirp.handle) (fun _ => return ())
        id dirp.listing.names cur) fun _ => At (beside B anything) := by
  have hloop : Triple False False
      (At (beside (owned (fun _ => 0) dirp.listing.names + B)
        (namesOf dirp.listing dirp.listing.names)))
      (entryLoop env walk p (path.length + 1) (fun _ => touch dirp.handle) (fun _ => return ())
        id dirp.listing.names cur) fun _ => At (beside B (namesOf dirp.listing [])) := by
    refine entryLoop_owned (fun _ => 0) (I := namesOf dirp.listing)
      (M := fun n names live out scans => (¬n.IsDot ∧ n ∈ dirp.listing.names) ∧
        namesOf dirp.listing names live out scans) hp ?_ (fun _ _ _ => pure_owned) ?_ ?_ ?_ hcur
      fun n hn => .inr (hfit n hn)
    · intro n _ w hlive
      exact .inl (touch_ok (hlive _ (Multiset.mem_add.mpr (.inl hdirp))))
    · intro n names _ _ _ _ hnames m hm
      exact hnames m (List.mem_cons_of_mem n hm)
    · intro n names _ _ _ hdot hnames
      exact ⟨⟨hdot, hnames n List.mem_cons_self⟩, fun m hm => hnames m (List.mem_cons_of_mem n hm)⟩
    · intro n names
      refine Triple.forall_state ?_
      rintro w ⟨rest, hlive, ⟨hdot, hn⟩, hnames⟩
      refine (enter_ends hdot hn fun m hm hd hdir => hwalk m hm hd hdir _).mono ?_ fun _ _ h => h
      rintro t rfl
      exact ⟨rest, hlive, hnames⟩
  rw [owned_zero, Multiset.zero_add] at hloop
  refine hloop.mono ?_ ?_
  · rintro w ⟨rest, hlive, -⟩
    exact ⟨rest, hlive, fun _ h => h⟩
  · rintro _ w ⟨rest, hlive, -⟩
    exact ⟨rest, hlive, trivial⟩

/-- A walk of a finite tree ends, where names keep to the limit of `fpathconf`. -/
theorem dirlist_ends {env : Env σ} (hfits : env.Fits) {h fuel : ℕ} {path : CStr}
    (htree : env.Shallow h path) (hfuel : h ≤ fuel) (B : Multiset Res) :
    Triple False False (At (beside B anything)) (dirlist env fuel path)
      fun _ => At (beside B anything) := by
  induction h generalizing fuel path B with
  | zero => exact htree.elim
  | succ h ih =>
    obtain ⟨fuel, rfl⟩ : ∃ k, fuel = k + 1 := ⟨fuel - 1, by omega⟩
    refine dirlist_frame (fun _ _ _ _ h => h) (fun _ _ _ _ h => h) ?_
    intro dirp p cur hlist hcur hlen
    refine entryLoop_ends (by simp) (by simp) ?_ hcur ?_
    · intro n hn hdot hdir B
      exact ih (htree _ hlist n hn hdot hdir) (by omega) B
    · intro n hn
      obtain ⟨e, s, hopen⟩ := hlist
      rw [hlen]
      exact le_namelen (hfits.readdir hopen n hn)

/-! ## The result -/

/-- From `w` to `w'` one message was printed for each stop with an error, and no other message
about `readdir`. -/
def Reports (w w' : World σ) (stops : List Stop) : Prop :=
  readdirMessages w'.err = readdirMessages w.err ++ stops.filterMap Stop.due

theorem length_printed_le (stops : List Stop) :
    (stops.filterMap Stop.printed).length ≤ (stops.filterMap Stop.due).length := by
  induction stops with
  | nil => exact le_refl _
  | cons s stops ih =>
    rw [List.filterMap_cons, List.filterMap_cons]
    unfold Stop.printed
    split_ifs with hs
    · cases s.due with
      | none => exact ih
      | some m => exact Nat.le_succ_of_le ih
    · cases s.due with
      | none => exact ih
      | some m => exact Nat.succ_le_succ ih

/-- All messages that are due are printed exactly if no error has the code that was in `errno`. -/
theorem printed_eq_due_iff (stops : List Stop) :
    stops.filterMap Stop.printed = stops.filterMap Stop.due ↔
      ∀ s ∈ stops, s.readError ≠ some s.olderrno := by
  induction stops with
  | nil => simp
  | cons s stops ih =>
    rw [List.forall_mem_cons, ← ih, List.filterMap_cons, List.filterMap_cons]
    by_cases hs : s.readError = some s.olderrno
    · have hprinted : s.printed = none := if_pos hs
      have hdue : s.due = some (":: readdir ", s.olderrno) := by
        unfold Stop.due
        rw [hs]
        rfl
      rw [hprinted, hdue]
      refine iff_of_false (fun h => ?_) fun h => h.1 hs
      have hle := length_printed_le stops
      have hlen := congrArg List.length h
      simp only [List.length_cons] at hlen
      omega
    · have hprinted : s.printed = s.due := if_neg hs
      rw [hprinted]
      cases s.due with
      | none => simp [hs]
      | some m => simp [hs]

/-- **Which read errors are reported.** In every system and from every state, a call of `dirlist`
that returns has printed one message about `readdir` for each directory whose reading stopped with
an error, and none for the others, exactly if none of these errors has the code that was in `errno`
before. For finite trees all calls return. -/
theorem dirlist_reports (env : Env σ) (path : CStr) (w : World σ) :
    (∀ fuel r w', dirlist env fuel path w = .ok (r, w') → ∃ stops,
      dirlistRecorded env fuel path (w.withStops []) = .ok (r, w'.withStops stops) ∧
        (Reports w w' stops ↔ ∀ s ∈ stops, s.readError ≠ some s.olderrno)) ∧
    (env.Fits → ∀ h, env.Shallow h path → ∀ fuel, h ≤ fuel →
      ∃ r w', dirlist env fuel path w = .ok (r, w')) := by
  constructor
  · intro fuel r w' hrun
    have hfollows := dirlistRecorded_follows env fuel path
    have hrec := hfollows.run (w.withStops [])
    rw [World.forget_withStops, hrun] at hrec
    obtain ⟨⟨r', v⟩, hv, he⟩ := Outcome.bind_eq_ok.mp hrec.symm
    obtain ⟨rfl, rfl⟩ := Prod.mk.inj (Outcome.ok.inj he)
    refine ⟨v.env.2, hv, ?_⟩
    obtain ⟨stops, hstops, herr⟩ := hfollows.moves hv
    have hstops : v.env.2 = stops := hstops
    have herr : readdirMessages v.forget.err = readdirMessages w.err ++
      stops.filterMap Stop.printed := herr
    unfold Reports
    rw [herr, hstops, List.append_cancel_left_eq, printed_eq_due_iff]
  · intro hfits h htree fuel hfuel
    have hends := (dirlist_ends hfits htree hfuel w.live).ends (s := w)
      ⟨0, (Multiset.add_zero _).symm, trivial⟩
    obtain ⟨⟨r, w'⟩, hrun, -⟩ := hends
    exact ⟨r, w', hrun⟩

/-- A directory with one file `f` on a failing disk: `lstat` and the second `readdir` give `EIO`. -/
def failingEnv : Env Unit where
  dNameOffset := 19
  opendir _ e s := (some ⟨[⟨[102], by decide⟩], some 255, some 5⟩, e, s)
  malloc _ e s := (true, e, s)
  lstat _ _ s := (none, 5, s)
  scandir _ _ s := (none, 5, s)

/-- The directory `d`. -/
def dirName : CStr := ⟨[100], by decide⟩

theorem dirlist_reports_sample :
    ∃ r w', dirlist failingEnv 1 dirName sampleWorld = .ok (r, w') := by
  have hfits : failingEnv.Fits := by
    constructor
    · rintro path e s listing ⟨⟩ n hn
      rw [List.mem_singleton.mp hn]
      decide
    · rintro path e s e' s' listing names - ⟨⟩
  refine (dirlist_reports failingEnv dirName sampleWorld).2 hfits 1 ?_ 1 (le_refl 1)
  rintro listing - n - - ⟨e, s, hdir⟩
  cases hdir

/-- The error of `readdir` has the code that `lstat` left: only the error of `lstat` is reported. -/
theorem read_error_lost : ∃ w', dirlist failingEnv 1 dirName sampleWorld = .ok (0, w') ∧
    dirlistRecorded failingEnv 1 dirName (sampleWorld.withStops []) =
      .ok (0, w'.withStops [⟨5, some 5⟩]) ∧ ¬Reports sampleWorld w' [⟨5, some 5⟩] := by
  have hrec : (dirlistRecorded failingEnv 1 dirName (sampleWorld.withStops [])).Ends fun r =>
      r.1 = 0 ∧ r.2.env.2 = [⟨5, some 5⟩] ∧ readdirMessages r.2.err = [] := by decide +kernel
  obtain ⟨⟨r, ⟨⟨⟨⟩, stops⟩, errno, live, next, out, err, scans⟩⟩, hrun, hr, hstops, herr⟩ := hrec
  cases hr
  cases hstops
  refine ⟨⟨(), errno, live, next, out, err, scans⟩, ?_, hrun, fun h => ?_⟩
  · have hplain := (dirlistRecorded_follows failingEnv 1 dirName).run (sampleWorld.withStops [])
    rw [hrun] at hplain
    exact hplain
  · exact absurd (herr.symm.trans h) (by decide)

end KernelGadgets.DirList
