import KernelGadgets.DirList.Frame

/-!
# What the walkers print

`Hosts` says that the system answers as a directory tree does that does not change. From every state
of such a system each walker ends and prints the paths of the tree: the loop invariant is that what
is printed, followed by the paths of the entries to come, is the whole list. `_scandir` takes the
entries from the last one on, so it prints the list of the reversed tree.
-/

namespace KernelGadgets.DirList

variable {σ : Type}

/-! ## Systems with a tree -/

/-- The directory opens, and `readdir` delivers the names, which keep to the limit. -/
def Env.Reads (env : Env σ) (path : CStr) (names : List CStr) : Prop :=
  ∀ e s, ∃ listing, (env.opendir path e s).1 = some listing ∧ listing.names = names ∧
    listing.readError = none ∧ ∀ n ∈ names, n.length ≤ listing.nameMax.getD 255

/-- The directory opens, and `scandir` delivers the names, which keep to the limit. -/
def Env.Scans (env : Env σ) (path : CStr) (names : List CStr) : Prop :=
  (∀ e s, ∃ listing, (env.opendir path e s).1 = some listing ∧
    ∀ n ∈ names, n.length ≤ listing.nameMax.getD 255) ∧
  ∀ e s, (env.scandir (path ++ CStr.slash) e s).1 = some names

/-- The directory does not open. -/
def Env.Refuses (env : Env σ) (path : CStr) : Prop := ∀ e s, (env.opendir path e s).1 = none

/-- No allocation fails. -/
def Env.Allocates (env : Env σ) : Prop := ∀ n e s, (env.malloc n e s).1 = true

/-- The entries below a path are those of a tree. Nothing is said of what a symbolic link leads to,
of `.` and `..`, and of what is below an unopenable directory. -/
def Hosts (env : Env σ) (serves : CStr → List CStr → Prop) : Entries → CStr → Prop
  | .nil, _ => True
  | .leaf name isLink rest, path =>
    (¬name.IsDot → ∀ e s, (env.lstat (CStr.join path name) e s).1 =
      some (if isLink then .symlink else .regular)) ∧ Hosts env serves rest path
  | .dir name opens children rest, path =>
    (¬name.IsDot → (∀ e s, (env.lstat (CStr.join path name) e s).1 = some .directory) ∧
      if opens then
        serves (CStr.join path name) children.names ∧
          Hosts env serves children (CStr.join path name)
      else env.Refuses (CStr.join path name)) ∧ Hosts env serves rest path

/-- What can be seen in a directory with this path is `U`. -/
def Shows (env : Env σ) (serves : CStr → List CStr → Prop) (U : Entries) (path : CStr) : Prop :=
  (serves path U.names ∧ Hosts env serves U path) ∨ (U = .nil ∧ env.Refuses path)

section

variable {env : Env σ} {serves : CStr → List CStr → Prop} {i : Item} {T U : Entries}
  {path : CStr}

theorem hosts_cons_right (h : Hosts env serves (.cons i T) path) : Hosts env serves T path := by
  cases i with
  | leaf name isLink => exact h.2
  | dir name opens children => exact h.2

/-- An entry that `lstat` calls a directory shows what can be seen in it. -/
theorem shows_of_lstat (h : Hosts env serves (.cons i T) path) (hdot : ¬i.name.IsDot)
    (hdir : ∃ e s, (env.lstat (CStr.join path i.name) e s).1 = some .directory) :
    Shows env serves i.inner (CStr.join path i.name) ∧
      i.inner.height < (Entries.cons i T).height := by
  cases i with
  | leaf name isLink =>
    obtain ⟨e, s, hdir⟩ := hdir
    have hkind := (h.1 hdot e s).symm.trans hdir
    cases isLink <;> cases hkind
  | dir name opens children =>
    have hlt : children.height < max (children.height + 1) T.height :=
      lt_of_lt_of_le (Nat.lt_succ_self _) (le_max_left _ _)
    have hopens := (h.1 hdot).2
    cases opens with
    | false => exact ⟨.inr ⟨rfl, hopens⟩, lt_of_le_of_lt (Nat.zero_le _) hlt⟩
    | true => exact ⟨.inl hopens, hlt⟩

/-- Nothing can be seen in any other entry. -/
theorem inner_of_lstat (h : Hosts env serves (.cons i T) path) (hdot : ¬i.name.IsDot)
    (hother : ∃ e s, (env.lstat (CStr.join path i.name) e s).1 ≠ some .directory) :
    i.inner = .nil := by
  cases i with
  | leaf name isLink => rfl
  | dir name opens children =>
    obtain ⟨e, s, hother⟩ := hother
    exact absurd ((h.1 hdot).1 e s) hother

/-! ## The loop -/

/-- These lines are printed. -/
def printed (O : List CStr) : Cond := fun _ out _ => out = O

/-- The program prints these lines, whatever is live and printed before. -/
def PrintsLines {α : Type} (x : Walk σ α) (lines : List CStr) : Prop :=
  ∀ B O, Triple False False (At (beside B (printed O))) x
    fun _ => At (beside B (printed (O ++ lines)))

/-- The walker prints the paths of trees up to a height. -/
def Prints (env : Env σ) (serves : CStr → List CStr → Prop) (bound : ℕ)
    (walk : CStr → Walk σ ℤ) : Prop :=
  ∀ {U path}, Shows env serves U path → U.height < bound → PrintsLines (walk path) (U.lines path)

variable {walk : CStr → Walk σ ℤ} {bound : ℕ}

theorem enter_prints (hwalk : Prints env serves bound walk)
    (h : Hosts env serves (.cons i T) path) (hdot : ¬i.name.IsDot)
    (hbound : (Entries.cons i T).height ≤ bound) :
    PrintsLines (enter env walk (CStr.join path i.name))
      (i.inner.lines (CStr.join path i.name)) := by
  intro B O
  refine enter_triple (fun hdir => ?_) fun hother => ?_
  · obtain ⟨hshows, hlt⟩ := shows_of_lstat h hdot hdir
    exact hwalk hshows (lt_of_lt_of_le hlt hbound) B O
  · rw [inner_of_lstat h hdot hother]
    rintro _ _ _ ⟨rest, hlive, rfl⟩
    exact ⟨rest, hlive, (List.append_nil _).symm⟩

theorem exists_cons {n : CStr} {ns : List CStr} (h : U.names = n :: ns) :
    ∃ i T, U = .cons i T ∧ i.name = n ∧ T.names = ns := by
  cases U with
  | nil => cases h
  | leaf name isLink rest =>
    cases h
    exact ⟨.leaf name isLink, rest, rfl, rfl, rfl⟩
  | dir name opens children rest =>
    cases h
    exact ⟨.dir name opens children, rest, rfl, rfl, rfl⟩

/-- What is left to print of a directory are the paths of the entries to come. -/
def toPrint (env : Env σ) (serves : CStr → List CStr → Prop) (bound : ℕ) (path : CStr)
    (total names : List CStr) : Cond := fun _ out _ =>
  ∃ T, Hosts env serves T path ∧ T.height ≤ bound ∧ T.names = names ∧ out ++ T.lines path = total

section

variable {total ns : List CStr} {n : CStr}

theorem toPrint_dot (hd : n.IsDot) :
    Entails (toPrint env serves bound path total (n :: ns))
      (toPrint env serves bound path total ns) := by
  rintro live out scans ⟨V, hV, hle, hnames, hout⟩
  obtain ⟨i, T, rfl, rfl, hT⟩ := exists_cons hnames
  rw [Entries.lines_cons, if_pos hd] at hout
  exact ⟨T, hosts_cons_right hV, (Entries.height_cons_right i T).trans hle, hT, hout⟩

/-- What is left after an entry are the lines that entering it prints, and the entries behind it. -/
theorem toPrint_name (hwalk : Prints env serves bound walk) (hd : ¬n.IsDot)
    {live : Multiset Res} {out scans : List CStr}
    (h : toPrint env serves bound path total (n :: ns) live out scans) :
    ∃ sub, PrintsLines (enter env walk (CStr.join path n)) sub ∧
      toPrint env serves bound path total ns live (out ++ [CStr.join path n] ++ sub) scans := by
  obtain ⟨V, hV, hle, hnames, hout⟩ := h
  obtain ⟨i, T, rfl, rfl, hT⟩ := exists_cons hnames
  rw [Entries.lines_cons, if_neg hd] at hout
  refine ⟨_, enter_prints hwalk hV hd hle, T, hosts_cons_right hV,
    (Entries.height_cons_right i T).trans hle, hT, ?_⟩
  rw [← hout]
  simp

theorem toPrint_nil : Entails (toPrint env serves bound path total []) (printed total) := by
  rintro live out scans ⟨V, -, -, hnames, hout⟩
  cases V with
  | nil => exact (List.append_nil _).symm.trans hout
  | leaf name isLink rest => cases hnames
  | dir name opens children rest => cases hnames

/-- Entering an entry prints its lines. -/
theorem enter_toPrint (B : Multiset Res) :
    Triple False False
      (At (beside B fun live out scans => ∃ sub,
        PrintsLines (enter env walk (CStr.join path n)) sub ∧
          toPrint env serves bound path total ns live (out ++ sub) scans))
      (enter env walk (CStr.join path n))
      fun _ => At (beside B (toPrint env serves bound path total ns)) := by
  refine Triple.forall_state ?_
  rintro w ⟨live, hlive, sub, hsub, V, hV, hle, hnames, hout⟩
  refine (hsub B w.out).mono ?_ ?_
  · rintro t rfl
    exact ⟨live, hlive, rfl⟩
  · rintro _ t ⟨live', hlive', ht⟩
    refine ⟨live', hlive', V, hV, hle, hnames, ?_⟩
    rw [show t.out = w.out ++ sub from ht]
    exact hout

end

/-- The loop prints the paths of the entries. -/
theorem entryLoop_prints {ε : Type} {name : ε → CStr} {p : Res} {es : List ε} {cur : Block}
    {B : Multiset Res} (next done : ε → Walk σ Unit) (own : ε → Multiset Res) (O : List CStr)
    (hwalk : Prints env serves bound walk) (hU : Hosts env serves U path)
    (hbound : U.height ≤ bound) (hnames : U.names = es.map name) (hp : p ∈ B)
    (hnext : ∀ e ∈ es, ∀ w : World σ, (∀ r ∈ B + own e, r ∈ w.live) → next e w = .ok ((), w))
    (hdone : ∀ e (w : World σ) rest, w.live = own e + rest →
      done e w = .ok ((), { w with live := rest }))
    (hcur : CStr.Starts cur (path ++ CStr.slash))
    (hfit : ∀ e ∈ es, path.length + 1 + (name e).length + 1 ≤ cur.length) :
    Triple False False (At (beside (owned own es + B) (printed O)))
      (entryLoop env walk p (path.length + 1) next done name es cur)
      fun _ => At (beside B (printed (O ++ U.lines path))) := by
  have hloop : Triple False False
      (At (beside (owned own es + B)
        (toPrint env serves bound path (O ++ U.lines path) (es.map name))))
      (entryLoop env walk p (path.length + 1) next done name es cur)
      fun _ => At (beside B (toPrint env serves bound path (O ++ U.lines path) [])) :=
    entryLoop_owned own
      (I := fun es => toPrint env serves bound path (O ++ U.lines path) (es.map name))
      (M := fun e es live out scans => ∃ sub,
        PrintsLines (enter env walk (CStr.join path (name e))) sub ∧
          toPrint env serves bound path (O ++ U.lines path) (es.map name) live (out ++ sub) scans)
      hp (fun e he w h => .inl (hnext e he w h)) hdone
      (fun _ _ _ _ _ hd h => toPrint_dot hd _ _ _ h)
      (fun _ _ _ _ _ hd h => toPrint_name hwalk hd h) (fun _ _ => enter_toPrint _) hcur
      fun e he => .inr (hfit e he)
  refine hloop.mono ?_ fun _ _ h => h.mono toPrint_nil
  rintro w ⟨live, hlive, hout⟩
  refine ⟨live, hlive, U, hU, hbound, hnames, ?_⟩
  rw [show w.out = O from hout]

/-! ## The walkers -/

/-- Where the lines to print are none, nothing is to be done. -/
theorem printed_nil {O : List CStr} :
    Entails (printed O) (printed (O ++ Entries.nil.lines path)) :=
  fun _ _ _ h => Eq.trans h (List.append_nil O).symm

theorem not_false_of_allocates {c : Prop} (h : env.Allocates)
    (hfail : ∃ n e s, (env.malloc n e s).1 = false) : c := by
  obtain ⟨n, e, s, hfail⟩ := hfail
  cases (h n e s).symm.trans hfail

/-- A directory that refuses is not opened. -/
theorem Env.Refuses.not_opens {c : Prop} {listing : Listing} (h : env.Refuses path)
    (hopen : ∃ e s, (env.opendir path e s).1 = some listing) : c := by
  obtain ⟨e, s, hopen⟩ := hopen
  cases (h e s).symm.trans hopen

theorem Env.Reads.opens {names : List CStr} (h : env.Reads path names) {c : Prop}
    (hfail : ∃ e s, (env.opendir path e s).1 = none) : c := by
  obtain ⟨e, s, hfail⟩ := hfail
  obtain ⟨listing, hopen, -⟩ := h e s
  cases hfail.symm.trans hopen

theorem Env.Reads.names {names : List CStr} {listing : Listing} (h : env.Reads path names)
    (hopen : ∃ e s, (env.opendir path e s).1 = some listing) :
    names = listing.names.map id ∧
      ∀ n ∈ listing.names, n.length ≤ listing.nameMax.getD 255 := by
  obtain ⟨e, s, hopen⟩ := hopen
  obtain ⟨listing', hopen', rfl, -, hle⟩ := h e s
  cases hopen.symm.trans hopen'
  exact ⟨(List.map_id _).symm, hle⟩

theorem dirlist_prints (hmem : env.Allocates) (fuel : ℕ) :
    Prints env env.Reads fuel (dirlist env fuel) := by
  induction fuel with
  | zero => exact fun _ h => absurd h (Nat.not_lt_zero _)
  | succ fuel ih =>
    rintro U path (⟨hreads, hhosts⟩ | ⟨rfl, hrefuses⟩) hlt B O
    · refine dirlist_frame (fun h => hreads.opens h) (fun h => not_false_of_allocates hmem h) ?_
      intro dirp p cur hlist hcur hlen
      obtain ⟨hnames, hle⟩ := hreads.names hlist
      have hloop := entryLoop_prints (fun _ => touch dirp.handle) (fun _ => return ())
        (fun _ => 0) O ih hhosts (Nat.le_of_lt_succ hlt) hnames
        (Multiset.mem_cons_self p (dirp.handle ::ₘ B))
        (fun n _ w hlive => touch_ok (hlive _ (by simp))) (fun _ _ _ => pure_owned) hcur
        fun n hn => hlen ▸ le_namelen (hle n hn)
      rwa [owned_zero, Multiset.zero_add] at hloop
    · exact dirlist_frame (fun _ => printed_nil) (fun h => not_false_of_allocates hmem h)
        fun dirp _ _ hlist => hrefuses.not_opens hlist

theorem dirlistR_prints (hmem : env.Allocates) (fuel : ℕ) :
    Prints env env.Reads fuel (dirlistR env fuel) := by
  induction fuel with
  | zero => exact fun _ h => absurd h (Nat.not_lt_zero _)
  | succ fuel ih =>
    rintro U path (⟨hreads, hhosts⟩ | ⟨rfl, hrefuses⟩) hlt B O
    · refine dirlistR_frame (fun h => hreads.opens h) (fun h => not_false_of_allocates hmem h) ?_
      intro dirp entry p cur hlist hcur hlen
      obtain ⟨hnames, hle⟩ := hreads.names hlist
      have hloop := entryLoop_prints
        (readdirR env dirp entry (env.dNameOffset + dirp.listing.nameMax.getD 255 + 1))
        (fun _ => return ()) (fun _ => 0) O ih hhosts (Nat.le_of_lt_succ hlt) hnames
        (Multiset.mem_cons_self p (entry ::ₘ dirp.handle ::ₘ B))
        (fun n hn w hlive => readdirR_ok (hlive dirp.handle (by simp))
          (hlive entry (by simp)) (hle n hn)) (fun _ _ _ => pure_owned) hcur
        fun n hn => hlen ▸ le_namelen (hle n hn)
      rwa [owned_zero, Multiset.zero_add] at hloop
    · exact dirlistR_frame (fun _ => printed_nil) (fun h => not_false_of_allocates hmem h)
        fun dirp _ _ _ hlist => hrefuses.not_opens hlist

/-! ## The reversed tree -/

/-- The names in the order in which `_scandir` takes them. -/
def Env.ScansReversed (env : Env σ) (path : CStr) (names : List CStr) : Prop :=
  env.Scans path names.reverse

theorem hosts_snoc (hT : Hosts env serves T path) (hi : Hosts env serves (.cons i .nil) path) :
    Hosts env serves (T.snoc i) path := by
  induction T with
  | nil => exact hi
  | leaf name isLink rest ih => exact ⟨hT.1, ih hT.2⟩
  | dir name opens children rest _ ih => exact ⟨hT.1, ih hT.2⟩

theorem hosts_reversed (h : Hosts env env.Scans T path) :
    Hosts env env.ScansReversed T.reversed path := by
  induction T generalizing path with
  | nil => exact h
  | leaf name isLink rest ih => exact hosts_snoc (ih h.2) ⟨h.1, trivial⟩
  | dir name opens children rest ihChildren ih =>
    refine hosts_snoc (ih h.2) ⟨fun hdot => ?_, trivial⟩
    obtain ⟨hkind, hopens⟩ := h.1 hdot
    refine ⟨hkind, ?_⟩
    cases opens with
    | false => exact hopens
    | true =>
      refine ⟨?_, ihChildren hopens.2⟩
      rw [Env.ScansReversed, Entries.names_reversed, List.reverse_reverse]
      exact hopens.1

theorem Env.ScansReversed.opens {names : List CStr} (h : env.ScansReversed path names) {c : Prop}
    (hfail : ∃ e s, (env.opendir path e s).1 = none) : c := by
  obtain ⟨e, s, hfail⟩ := hfail
  obtain ⟨listing, hopen, -⟩ := h.1 e s
  cases hfail.symm.trans hopen

theorem Env.ScansReversed.scans {names : List CStr} (h : env.ScansReversed path names) {c : Prop}
    (hfail : ∃ e s, (env.scandir (path ++ CStr.slash) e s).1 = none) : c := by
  obtain ⟨e, s, hfail⟩ := hfail
  cases hfail.symm.trans (h.2 e s)

theorem Env.ScansReversed.names {names : List CStr} {listing : Listing}
    {entries : List (Res × CStr)} (h : env.ScansReversed path names)
    (hopen : ∃ e s, (env.opendir path e s).1 = some listing)
    (hscan : ∃ e s, (env.scandir (path ++ CStr.slash) e s).1 = some (entries.map Prod.snd)) :
    names = entries.reverse.map Prod.snd ∧
      ∀ e ∈ entries.reverse, e.2.length ≤ listing.nameMax.getD 255 := by
  obtain ⟨e, s, hopen⟩ := hopen
  obtain ⟨e', s', hscan⟩ := hscan
  obtain ⟨listing', hopen', hle⟩ := h.1 e s
  cases hopen.symm.trans hopen'
  have hnames : names.reverse = entries.map Prod.snd :=
    Option.some.inj ((h.2 e' s').symm.trans hscan)
  refine ⟨?_, fun e he => hle e.2 ?_⟩
  · rw [List.map_reverse, ← hnames, List.reverse_reverse]
  · rw [hnames]
    exact List.mem_map_of_mem (List.mem_reverse.mp he)

theorem scandir_prints (hmem : env.Allocates) (fuel : ℕ) :
    Prints env env.ScansReversed fuel (scandir env fuel) := by
  induction fuel with
  | zero => exact fun _ h => absurd h (Nat.not_lt_zero _)
  | succ fuel ih =>
    rintro U path (⟨hscans, hhosts⟩ | ⟨rfl, hrefuses⟩) hlt B O
    · refine scandir_frame (fun h => hscans.opens h) (fun h => not_false_of_allocates hmem h)
        (fun h => hscans.scans h) ?_
      intro dirp p namelist cur entries hlist hscan hcur hlen
      obtain ⟨hnames, hle⟩ := hscans.names hlist hscan
      have hp : p ∈ namelist ::ₘ p ::ₘ dirp.handle ::ₘ B := by simp
      have hloop := entryLoop_prints
        (fun e => do
          touch namelist
          touch e.1)
        (fun e => free e.1) (fun e => {e.1}) O ih hhosts (Nat.le_of_lt_succ hlt) hnames hp
        (fun e _ w hlive => nextEntry_ok (hlive _ (by simp)) (hlive _ (by simp)))
        (fun _ _ _ => free_owned) hcur fun e he => hlen ▸ le_namelen (hle e he)
      rw [owned_reverse] at hloop
      refine hloop.mono (fun w h => ?_) fun _ _ h => h
      exact h.mono fun _ _ _ ⟨_, _, hout⟩ => hout
    · exact scandir_frame (fun _ => printed_nil) (fun h => not_false_of_allocates hmem h)
        (fun _ => printed_nil) fun dirp _ _ _ _ hlist => hrefuses.not_opens hlist

end

/-! ## The result -/

/-- The lines are the paths of the entries below the root, each once. -/
def Covers (T : Entries) (root : CStr) (lines : List CStr) : Prop :=
  lines.Nodup ∧ ∀ line, line ∈ lines ↔ ∃ p, T.Below p ∧ line = CStr.render root p

/-- The line of an entry stands right before the lines of what can be seen in it. -/
def Nested (T : Entries) (root : CStr) (lines : List CStr) : Prop :=
  ∀ p S, T.Leads p S → ∃ before after, lines = before ++
    CStr.render root p :: (S.lines (CStr.render root p) ++ after)

theorem covers_lines {T T' : Entries} (hproper : T.Proper) (h : T.Reorder T') (root : CStr) :
    Covers T root (T'.lines root) := by
  have hperm := h.lines root
  refine ⟨hperm.nodup_iff.mp (Entries.nodup_lines hproper root), fun line => ?_⟩
  rw [← hperm.mem_iff]
  exact Entries.mem_lines

/-- A program that prints lines ends. -/
theorem PrintsLines.ends {α : Type} {x : Walk σ α} {lines : List CStr} (h : PrintsLines x lines)
    (w : World σ) : (x w).Ends fun r => r.2.out = w.out ++ lines :=
  ((h 0 w.out).ends ⟨w.live, (Multiset.zero_add _).symm, rfl⟩).mono
    fun _ ⟨_, _, hout⟩ => hout

/-- **What the walkers print.** Let the system hold the tree `T`, with the entries in this order for
`readdir` and in the order of `T'` for `scandir`. Each walker ends, whatever symbolic links lead to,
and never leaves a buffer; it prints the path of every entry that is not below an unopenable
directory once and nothing else, a directory right before what is below it. `dirlist` and
`dirlist_r` print the same, `_scandir` the list of the tree with all entries reversed. -/
theorem walkers_list {env : Env σ} {root : CStr} {T T' : Entries} (hmem : env.Allocates)
    (hproper : T.Proper) (horder : T.Reorder T') (hreads : env.Reads root T.names)
    (hhosts : Hosts env env.Reads T root) (hscans : env.Scans root T'.names)
    (hhosts' : Hosts env env.Scans T' root) :
    (∃ bound, ∀ fuel, bound ≤ fuel → ∀ w : World σ,
      (dirlist env fuel root w).Ends (fun r => r.2.out = w.out ++ T.lines root) ∧
      (dirlistR env fuel root w).Ends (fun r => r.2.out = w.out ++ T.lines root) ∧
      (scandir env fuel root w).Ends fun r => r.2.out = w.out ++ T'.reversed.lines root) ∧
    (Covers T root (T.lines root) ∧ Covers T root (T'.reversed.lines root)) ∧
    Nested T root (T.lines root) ∧ Nested T'.reversed root (T'.reversed.lines root) := by
  have hreverse : T.Reorder T'.reversed := horder.trans (Entries.reorder_reversed T').symm
  have hshows : Shows env env.Reads T root := .inl ⟨hreads, hhosts⟩
  have hshows' : Shows env env.ScansReversed T'.reversed root := by
    refine .inl ⟨?_, hosts_reversed hhosts'⟩
    rw [Env.ScansReversed, Entries.names_reversed, List.reverse_reverse]
    exact hscans
  refine ⟨⟨max T.height T'.reversed.height + 1, fun fuel hfuel w => ?_⟩, ⟨?_, ?_⟩, ?_, ?_⟩
  · have hT : T.height < fuel := by omega
    have hT' : T'.reversed.height < fuel := by omega
    exact ⟨(dirlist_prints hmem fuel hshows hT).ends w,
      (dirlistR_prints hmem fuel hshows hT).ends w, (scandir_prints hmem fuel hshows' hT').ends w⟩
  · exact covers_lines hproper (.refl T) root
  · exact covers_lines hproper hreverse root
  · exact fun p S h => Entries.lines_leads h root
  · exact fun p S h => Entries.lines_leads h root

/-! ## A system with a tree -/

/-- The root `r`. -/
def rootName : CStr := ⟨[114], by decide⟩

/-- A directory `s`. -/
def subName : CStr := ⟨[115], by decide⟩

/-- A symbolic link `l`. -/
def linkName : CStr := ⟨[108], by decide⟩

/-- A directory `u` that does not open. -/
def closedName : CStr := ⟨[117], by decide⟩

/-- `.`, `..` and a file `...`. -/
def sampleSub : Entries :=
  .dir .dot true .nil (.dir .dotdot true .nil (.leaf ⟨[46, 46, 46], by decide⟩ false .nil))

/-- What stands behind `.` and `..`. -/
def sampleRest : Entries :=
  .dir subName true sampleSub (.leaf linkName true (.dir closedName false .nil .nil))

def sampleTree : Entries := .dir .dot true .nil (.dir .dotdot true .nil sampleRest)

/-- `scandir` delivers `..` first. -/
def sampleTree' : Entries := .dir .dotdot true .nil (.dir .dot true .nil sampleRest)

/-- The link leads back to the root. -/
def treeEnv : Env Unit where
  dNameOffset := 19
  opendir path e s :=
    (if path = rootName ∨ path = CStr.join rootName linkName then
      some ⟨sampleTree.names, some 14, none⟩
    else if path = CStr.join rootName subName then some ⟨sampleSub.names, none, none⟩
    else none, e, s)
  malloc _ e s := (true, e, s)
  lstat path e s :=
    (if path = CStr.join rootName subName ∨ path = CStr.join rootName closedName then
      some .directory
    else if path = CStr.join rootName linkName then some .symlink
    else some .regular, e, s)
  scandir path e s :=
    (if path = rootName ++ CStr.slash then some sampleTree'.names
    else if path = CStr.join rootName subName ++ CStr.slash then some sampleSub.names
    else none, e, s)

/-- Each walker prints `r/s`, `r/s/...`, `r/l` and `r/u` in its order. -/
theorem walkers_list_sample :
    ∃ bound, ∀ fuel, bound ≤ fuel → ∀ w : World Unit,
      (dirlist treeEnv fuel rootName w).Ends
        (fun r => r.2.out = w.out ++ sampleTree.lines rootName) ∧
      (dirlistR treeEnv fuel rootName w).Ends
        (fun r => r.2.out = w.out ++ sampleTree.lines rootName) ∧
      (scandir treeEnv fuel rootName w).Ends
        fun r => r.2.out = w.out ++ sampleTree'.reversed.lines rootName := by
  have hdot : ¬¬CStr.dot.IsDot := by decide
  have hdotdot : ¬¬CStr.dotdot.IsDot := by decide
  have hrest : ∀ serves : CStr → List CStr → Prop,
      serves (CStr.join rootName subName) sampleSub.names →
      Hosts treeEnv serves sampleRest rootName := fun serves hserves =>
    ⟨fun _ => ⟨fun _ _ => rfl, hserves, fun h => absurd h hdot, fun h => absurd h hdotdot,
      fun _ _ _ => rfl, trivial⟩, fun _ _ _ => rfl, fun _ => ⟨fun _ _ => rfl, fun _ _ => rfl⟩,
      trivial⟩
  have hreads : treeEnv.Reads rootName sampleTree.names := fun _ _ => ⟨_, rfl, rfl, rfl, by decide⟩
  have hreadsSub : treeEnv.Reads (CStr.join rootName subName) sampleSub.names :=
    fun _ _ => ⟨_, rfl, rfl, rfl, by decide⟩
  have hscans : treeEnv.Scans rootName sampleTree'.names :=
    ⟨fun _ _ => ⟨_, rfl, by decide⟩, fun _ _ => rfl⟩
  have hscansSub : treeEnv.Scans (CStr.join rootName subName) sampleSub.names :=
    ⟨fun _ _ => ⟨_, rfl, by decide⟩, fun _ _ => rfl⟩
  have hhosts : Hosts treeEnv treeEnv.Reads sampleTree rootName :=
    ⟨fun h => absurd h hdot, fun h => absurd h hdotdot, hrest _ hreadsSub⟩
  have hhosts' : Hosts treeEnv treeEnv.Scans sampleTree' rootName :=
    ⟨fun h => absurd h hdotdot, fun h => absurd h hdot, hrest _ hscansSub⟩
  exact (walkers_list (fun _ _ _ => rfl) (by decide)
    (.swap (.dir .dot true .nil) (.dir .dotdot true .nil) sampleRest) hreads hhosts hscans
    hhosts').1

end KernelGadgets.DirList
