import KernelGadgets.DirList.Frame

/-!
# What the walkers release

`dirlist` and `dirlist_r` have released everything when they return. `_scandir` leaves the block of
every entry named `.` or `..` that `scandir` gave it: the `continue` for these names stands before
the `free`. The loop invariant `pending` counts them: what is live beside the blocks of the entries
to come is one block for each such name that has been passed.
-/

namespace KernelGadgets.DirList

variable {σ : Type}

/-- The names `.` and `..` in a list. -/
def dots (names : List CStr) : ℕ := names.countP fun n => n.IsDot

theorem dots_append (names names' : List CStr) :
    dots (names ++ names') = dots names + dots names' :=
  List.countP_append

/-- The names of a directory are as long as `fpathconf` says, or 255 if it does not say. -/
structure Env.Fits (env : Env σ) : Prop where
  readdir : ∀ {path e s listing}, (env.opendir path e s).1 = some listing →
    ∀ n ∈ listing.names, n.length ≤ listing.nameMax.getD 255
  scandir : ∀ {path e s e' s' listing names}, (env.opendir path e s).1 = some listing →
    (env.scandir (path ++ CStr.slash) e' s').1 = some names →
    ∀ n ∈ names, n.length ≤ listing.nameMax.getD 255

/-- Nothing is live, and `scandir` has delivered `before`. -/
def idle (before : List CStr) : Cond := fun live _ scans => live = 0 ∧ scans = before

/-- One resource is live for every `.` and `..` that `scandir` has delivered since `before`. A
walker that is `quiet` has not called it. -/
def left (quiet : Prop) (before : List CStr) : Cond := fun live _ scans =>
  ∃ log, scans = before ++ log ∧ live.card = dots log ∧ (quiet → log = [])

/-- What a walker leaves, whatever is live before. -/
def Releases (F quiet : Prop) (walk : CStr → Walk σ ℤ) : Prop :=
  ∀ path B before, Triple F True (At (beside B (idle before))) (walk path)
    fun _ => At (beside B (left quiet before))

/-- Where a walker stops at once, it leaves nothing. -/
theorem left_of_idle {quiet : Prop} {before : List CStr} :
    Entails (idle before) (left quiet before) := by
  rintro live out scans ⟨rfl, rfl⟩
  exact ⟨[], (List.append_nil _).symm, rfl, fun _ => rfl⟩

/-! ## The loop -/

section

variable {ε : Type} {env : Env σ} {walk : CStr → Walk σ ℤ} {p : Res} {next done : ε → Walk σ Unit}
  {name : ε → CStr} {F quiet : Prop} {B : Multiset Res} {before : List CStr} {path : CStr}
  {cur : Block}

/-- The blocks of the entries to come that will not be released. -/
def skipped (own : ε → Multiset Res) (name : ε → CStr) (es : List ε) : ℕ :=
  (es.map fun e => if (name e).IsDot then (own e).card else 0).sum

/-- Beside the blocks of the entries `es` to come, the blocks that have been left are live. -/
def pending (own : ε → Multiset Res) (name : ε → CStr) (quiet : Prop) (before : List CStr)
    (es : List ε) : Cond := fun live _ scans =>
  ∃ log, scans = before ++ log ∧ live.card + skipped own name es = dots log ∧ (quiet → log = [])

/-- The loop leaves the blocks of `.` and `..`. -/
theorem entryLoop_left {es : List ε} (own : ε → Multiset Res) (hwalk : Releases F quiet walk)
    (hp : p ∈ B)
    (hnext : ∀ e ∈ es, ∀ w : World σ, (∀ r ∈ B + own e, r ∈ w.live) →
      next e w = .ok ((), w) ∨ next e w = .fault ∧ F)
    (hdone : ∀ e (w : World σ) rest, w.live = own e + rest →
      done e w = .ok ((), { w with live := rest }))
    (hcur : CStr.Starts cur (path ++ CStr.slash))
    (hfit : ∀ e ∈ es, F ∨ path.length + 1 + (name e).length + 1 ≤ cur.length) :
    Triple F True (At (beside (owned own es + B) (pending own name quiet before es)))
      (entryLoop env walk p (path.length + 1) next done name es cur)
      fun _ => At (beside B (left quiet before)) := by
  refine entryLoop_owned own (I := pending own name quiet before)
    (M := fun _ => pending own name quiet before) hp hnext hdone ?_ ?_ ?_ hcur hfit
  · rintro e es live out scans hd ⟨log, hscans, hcard, hquiet⟩
    simp only [skipped, List.map_cons, List.sum_cons, if_pos hd] at hcard
    refine ⟨log, hscans, ?_, hquiet⟩
    rw [Multiset.card_add, ← hcard, skipped]
    omega
  · rintro e es live out scans hd ⟨log, hscans, hcard, hquiet⟩
    simp only [skipped, List.map_cons, List.sum_cons, if_neg hd, Nat.zero_add] at hcard
    exact ⟨log, hscans, hcard, hquiet⟩
  · intro e es
    refine enter_triple (fun _ => ?_) fun _ _ _ _ h => h
    refine Triple.forall_state ?_
    rintro w ⟨leaked, hlive, log, hscans, hcard, hquiet⟩
    refine (hwalk (CStr.join path (name e)) (owned own es + B + leaked) (before ++ log)).mono ?_ ?_
    · rintro t rfl
      exact ⟨0, by rw [hlive, Multiset.add_zero], rfl, hscans⟩
    · rintro _ t ⟨rest, hlive', log', hscans', hcard', hquiet'⟩
      refine ⟨leaked + rest, ?_, log ++ log', ?_, ?_, ?_⟩
      · rw [hlive', Multiset.add_assoc]
      · rw [hscans', List.append_assoc]
      · rw [Multiset.card_add, hcard', dots_append, ← hcard]
        omega
      · intro hq
        rw [hquiet hq, hquiet' hq, List.append_nil]

end

/-! ## The walkers -/

section

variable {env : Env σ} {B : Multiset Res} {before : List CStr} {path : CStr}

/-- A name that is delivered is short enough, or the system does not keep to its limit. -/
theorem fits_or {listing : Listing} (h : ∃ e s, (env.opendir path e s).1 = some listing) {n : CStr}
    (hn : n ∈ listing.names) : ¬env.Fits ∨ n.length ≤ listing.nameMax.getD 255 := by
  by_cases hfits : env.Fits
  · obtain ⟨e, s, h⟩ := h
    exact .inr (hfits.readdir h n hn)
  · exact .inl hfits

theorem fits_or_scan {listing : Listing} {names : List CStr}
    (h : ∃ e s, (env.opendir path e s).1 = some listing)
    (h' : ∃ e s, (env.scandir (path ++ CStr.slash) e s).1 = some names) {n : CStr}
    (hn : n ∈ names) : ¬env.Fits ∨ n.length ≤ listing.nameMax.getD 255 := by
  by_cases hfits : env.Fits
  · obtain ⟨e, s, h⟩ := h
    obtain ⟨e', s', h'⟩ := h'
    exact .inr (hfits.scandir h h' n hn)
  · exact .inl hfits

/-- The loops of `dirlist` and `dirlist_r` start with nothing left. -/
theorem pending_of_idle {quiet : Prop} {es : List CStr} :
    Entails (idle before) (pending (fun _ => 0) id quiet before es) := by
  rintro live out scans ⟨rfl, rfl⟩
  exact ⟨[], (List.append_nil _).symm, by simp [skipped, dots], fun _ => rfl⟩

theorem releases_dirlist (env : Env σ) (fuel : ℕ) :
    Releases (¬env.Fits) True (dirlist env fuel) := by
  induction fuel with
  | zero =>
    intro path B before
    exact Triple.diverge trivial
  | succ fuel ih =>
    intro path B before
    refine dirlist_frame (fun _ => left_of_idle) (fun _ => left_of_idle) ?_
    intro dirp p cur hlist hcur hlen
    refine (entryLoop_left (fun _ => 0) ih (Multiset.mem_cons_self _ _) ?_ (fun _ _ _ => pure_owned)
      hcur ?_).mono ?_ fun _ _ h => h
    · intro n _ w hlive
      exact .inl (touch_ok (hlive _ (by simp)))
    · intro n hn
      rw [hlen]
      exact (fits_or hlist hn).imp_right le_namelen
    · intro w h
      rw [owned_zero, Multiset.zero_add]
      exact h.mono pending_of_idle

theorem releases_dirlistR (env : Env σ) (fuel : ℕ) :
    Releases (¬env.Fits) True (dirlistR env fuel) := by
  induction fuel with
  | zero =>
    intro path B before
    exact Triple.diverge trivial
  | succ fuel ih =>
    intro path B before
    refine dirlistR_frame (fun _ => left_of_idle) (fun _ => left_of_idle) ?_
    intro dirp entry p cur hlist hcur hlen
    refine (entryLoop_left (fun _ => 0) ih (Multiset.mem_cons_self _ _) ?_ (fun _ _ _ => pure_owned)
      hcur ?_).mono ?_ fun _ _ h => h
    · intro n hn w hlive
      have hd : dirp.handle ∈ w.live := hlive _ (by simp)
      have hentry : entry ∈ w.live := hlive _ (by simp)
      by_cases hle : n.length ≤ dirp.listing.nameMax.getD 255
      · exact .inl (readdirR_ok hd hentry hle)
      · exact .inr ⟨readdirR_fault hd hentry hle, (fits_or hlist hn).resolve_right hle⟩
    · intro n hn
      rw [hlen]
      exact (fits_or hlist hn).imp_right le_namelen
    · intro w h
      rw [owned_zero, Multiset.zero_add]
      exact h.mono pending_of_idle

theorem skipped_blocks (es : List (Res × CStr)) :
    skipped (fun e => {e.1}) Prod.snd es = dots (es.map Prod.snd) := by
  induction es with
  | nil => rfl
  | cons e es ih =>
    rw [skipped, List.map_cons, List.sum_cons, ← skipped, ih, dots, dots, List.map_cons,
      List.countP_cons, Multiset.card_singleton, Nat.add_comm]
    simp

/-- The loop of `_scandir` starts with the blocks of its entries. -/
theorem pending_of_recorded {quiet : Prop} (hquiet : ¬quiet) {entries : List (Res × CStr)} :
    Entails (recorded (entries.map Prod.snd) (idle before))
      (pending (fun e => {e.1}) Prod.snd quiet before entries.reverse) := by
  rintro live out scans ⟨_, hscans, rfl, rfl⟩
  refine ⟨entries.map Prod.snd, hscans, ?_, fun hq => absurd hq hquiet⟩
  rw [skipped_blocks, List.map_reverse, dots, List.countP_reverse, Multiset.card_zero,
    Nat.zero_add, dots]

theorem releases_scandir (env : Env σ) (fuel : ℕ) :
    Releases (¬env.Fits) False (scandir env fuel) := by
  induction fuel with
  | zero =>
    intro path B before
    exact Triple.diverge trivial
  | succ fuel ih =>
    intro path B before
    refine scandir_frame (fun _ => left_of_idle) (fun _ => left_of_idle) (fun _ => left_of_idle) ?_
    intro dirp p namelist cur entries hlist hscan hcur hlen
    have hblocks := owned_reverse entries
    have hp : p ∈ namelist ::ₘ p ::ₘ dirp.handle ::ₘ B := by simp
    refine (entryLoop_left (fun e : Res × CStr => {e.1}) ih hp ?_ (fun _ _ _ => free_owned)
      hcur ?_).mono ?_ fun _ _ h => h
    · intro e _ w hlive
      exact .inl (nextEntry_ok (hlive _ (by simp)) (hlive _ (by simp)))
    · intro e he
      rw [hlen]
      have hmem : e.2 ∈ entries.map Prod.snd :=
        List.mem_map.mpr ⟨e, List.mem_reverse.mp he, rfl⟩
      exact (fits_or_scan hlist hscan hmem).imp_right le_namelen
    · intro w h
      rw [hblocks]
      exact h.mono (pending_of_recorded id)

end

/-! ## The result -/

/-- A call that returns has released what it has acquired. -/
def Restores (walk : Walk σ ℤ) (w : World σ) : Prop :=
  ∀ r w', walk w = .ok (r, w') → w'.live = w.live

/-- In a call that returns, `scandir` has delivered no entry named `.` or `..`. -/
def DotFree (walk : Walk σ ℤ) (w : World σ) : Prop :=
  ∀ r w', walk w = .ok (r, w') → ∀ n ∈ w'.scans.drop w.scans.length, ¬n.IsDot

theorem dots_eq_zero {names : List CStr} : dots names = 0 ↔ ∀ n ∈ names, ¬n.IsDot := by
  simp [dots]

/-- A returned call, seen from what was live before. -/
theorem Releases.post {F quiet : Prop} {walk : CStr → Walk σ ℤ} (h : Releases F quiet walk)
    {path : CStr} {w w' : World σ} {r : ℤ} (hrun : walk path w = .ok (r, w')) :
    ∃ leaked log, w'.live = w.live + leaked ∧ w'.scans = w.scans ++ log ∧
      leaked.card = dots log ∧ (quiet → log = []) := by
  obtain ⟨leaked, hlive, log, hscans, hcard, hquiet⟩ :=
    (h path w.live w.scans).post ⟨0, (Multiset.add_zero _).symm, rfl, rfl⟩ hrun
  exact ⟨leaked, log, hlive, hscans, hcard, hquiet⟩

theorem Releases.not_fault {F quiet : Prop} {walk : CStr → Walk σ ℤ} (h : Releases F quiet walk)
    (hF : ¬F) (path : CStr) (w : World σ) : walk path w ≠ .fault :=
  (h path w.live w.scans).not_fault ⟨0, (Multiset.add_zero _).symm, rfl, rfl⟩ hF

/-- A walker that does not call `scandir` restores. -/
theorem Releases.restores {F : Prop} {walk : CStr → Walk σ ℤ} (h : Releases F True walk)
    (path : CStr) (w : World σ) : Restores (walk path) w := by
  intro r w' hrun
  obtain ⟨leaked, log, hlive, -, hcard, hquiet⟩ := h.post hrun
  rw [hquiet trivial] at hcard
  rw [hlive, Multiset.card_eq_zero.mp hcard, Multiset.add_zero]

/-- Any walker restores exactly if it is given no `.` and no `..`. -/
theorem Releases.restores_iff {F quiet : Prop} {walk : CStr → Walk σ ℤ}
    (h : Releases F quiet walk) (path : CStr) (w : World σ) :
    Restores (walk path) w ↔ DotFree (walk path) w := by
  refine forall_congr' fun r => forall_congr' fun w' => imp_congr_right fun hrun => ?_
  obtain ⟨leaked, log, hlive, hscans, hcard, -⟩ := h.post hrun
  rw [hlive, hscans, List.drop_left, ← dots_eq_zero, ← hcard, Multiset.card_eq_zero]
  exact add_eq_left

/-- **What the walkers release.** In every system and from every state, a call of `dirlist` or
`dirlist_r` that returns has released exactly what it has acquired; a call of `_scandir` has
exactly if `scandir` delivered no entry named `.` or `..` to it. Where the names of a directory
keep to the limit of `fpathconf`, nothing is used or released that is not live. -/
theorem walkers_release (env : Env σ) (fuel : ℕ) (path : CStr) (w : World σ) :
    Restores (dirlist env fuel path) w ∧ Restores (dirlistR env fuel path) w ∧
      (Restores (scandir env fuel path) w ↔ DotFree (scandir env fuel path) w) ∧
      (env.Fits → dirlist env fuel path w ≠ .fault ∧ dirlistR env fuel path w ≠ .fault ∧
        scandir env fuel path w ≠ .fault) := by
  refine ⟨(releases_dirlist env fuel).restores path w, (releases_dirlistR env fuel).restores path w,
    (releases_scandir env fuel).restores_iff path w, fun hfits => ⟨?_, ?_, ?_⟩⟩
  · exact (releases_dirlist env fuel).not_fault (not_not_intro hfits) path w
  · exact (releases_dirlistR env fuel).not_fault (not_not_intro hfits) path w
  · exact (releases_scandir env fuel).not_fault (not_not_intro hfits) path w

/-- The names `.`, `..` and `a`. -/
def sampleNames : List CStr := [.dot, .dotdot, ⟨[97], by decide⟩]

/-- Every directory holds `.`, `..` and a file `a`. -/
def sampleEnv : Env Unit where
  dNameOffset := 19
  opendir _ e s := (some ⟨sampleNames, some 255, none⟩, e, s)
  malloc _ e s := (true, e, s)
  lstat _ e s := (some .regular, e, s)
  scandir _ e s := (some sampleNames, e, s)

def sampleWorld : World Unit :=
  { env := (), errno := 0, live := 0, next := 0, out := [], err := [], scans := [] }

/-- The call returns, and the blocks of `.` and `..` are live. -/
theorem scandir_leaks :
    ¬Restores (scandir sampleEnv 1 ⟨[100], by decide⟩) sampleWorld := by
  have hrun : (scandir sampleEnv 1 ⟨[100], by decide⟩ sampleWorld).Ends
      fun r => r.2.live ≠ sampleWorld.live := by decide +kernel
  obtain ⟨⟨r, w'⟩, hrun, hne⟩ := hrun
  intro h
  exact hne (h r w' hrun)

end KernelGadgets.DirList
