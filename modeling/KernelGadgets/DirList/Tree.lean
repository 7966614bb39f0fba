import Mathlib.Data.List.Nodup
import KernelGadgets.Lib.CString

/-!
# Directory trees

The entries of a directory in an order. `Leads` says which sequences of names lead to an entry that
is not below an unopenable directory; `paths` lists these sequences, a directory before what is
below it. The list is complete and has no repetitions (`mem_paths`, `nodup_paths`), also when it is
rendered below the path of a root (`mem_lines`, `nodup_lines`), and another order of the entries
only permutes it (`Reorder.paths`).
-/

namespace KernelGadgets

/-- The name that a directory has for itself. -/
def CStr.dot : CStr := ⟨[46], by decide⟩

/-- The name that a directory has for its parent. -/
def CStr.dotdot : CStr := ⟨[46, 46], by decide⟩

/-- The names that a directory has for itself and its parent. -/
def CStr.IsDot (n : CStr) : Prop := n.bytes = [46] ∨ n.bytes = [46, 46]

instance : DecidablePred CStr.IsDot :=
  fun n => inferInstanceAs (Decidable (n.bytes = [46] ∨ n.bytes = [46, 46]))

namespace DirList

/-- The entries of a directory, in the order in which they are delivered: files, symbolic links, and
directories that open or do not. -/
inductive Entries where
  | nil
  | leaf (name : CStr) (isLink : Bool) (rest : Entries)
  | dir (name : CStr) (opens : Bool) (children rest : Entries)
  deriving DecidableEq

/-- One entry. -/
inductive Item where
  | leaf (name : CStr) (isLink : Bool)
  | dir (name : CStr) (opens : Bool) (children : Entries)
  deriving DecidableEq

namespace Item

def name : Item → CStr
  | leaf name _ => name
  | dir name _ _ => name

/-- What can be seen in an entry. -/
def inner : Item → Entries
  | leaf _ _ => .nil
  | dir _ opens children => if opens then children else .nil

end Item

namespace Entries

/-- An entry in front of others. -/
def cons : Item → Entries → Entries
  | .leaf name isLink, rest => .leaf name isLink rest
  | .dir name opens children, rest => .dir name opens children rest

def items : Entries → List Item
  | nil => []
  | leaf name isLink rest => .leaf name isLink :: rest.items
  | dir name opens children rest => .dir name opens children :: rest.items

def names (T : Entries) : List CStr := T.items.map Item.name

def height : Entries → ℕ
  | nil => 0
  | leaf _ _ rest => rest.height
  | dir _ _ children rest => max (children.height + 1) rest.height

variable {T T' S : Entries} {i j : Item} {n : CStr} {p : List CStr}

@[simp] theorem items_cons (i : Item) (T : Entries) : (cons i T).items = i :: T.items := by
  cases i <;> rfl

@[simp] theorem names_cons (i : Item) (T : Entries) : (cons i T).names = i.name :: T.names := by
  rw [names, items_cons, List.map_cons, names]

theorem height_cons_right (i : Item) (T : Entries) : T.height ≤ (cons i T).height := by
  cases i with
  | leaf name isLink => exact le_refl _
  | dir name opens children => exact le_max_right _ _

/-- Induction over what can be seen. -/
theorem ind {P : Entries → Prop} (nil : P .nil)
    (cons : ∀ i T, P i.inner → P T → P (cons i T)) (T : Entries) : P T := by
  induction T with
  | nil => exact nil
  | leaf name isLink rest ih => exact cons (.leaf name isLink) rest nil ih
  | dir name opens children rest ihChildren ih =>
    refine cons (.dir name opens children) rest ?_ ih
    cases opens with
    | false => exact nil
    | true => exact ihChildren

/-! ## What is below a root -/

/-- The names `p` lead to an entry that is not below an unopenable directory, and `S` can be seen in
this entry. The names `.` and `..` lead to nothing. -/
inductive Leads : Entries → List CStr → Entries → Prop
  | here {T : Entries} {i : Item} (mem : i ∈ T.items) (hdot : ¬i.name.IsDot) :
      Leads T [i.name] i.inner
  | inside {T S : Entries} {i : Item} {p : List CStr} (mem : i ∈ T.items) (hdot : ¬i.name.IsDot)
      (h : Leads i.inner p S) : Leads T (i.name :: p) S

/-- The names `p` lead to an entry that is not below an unopenable directory. -/
def Below (T : Entries) (p : List CStr) : Prop := ∃ S, T.Leads p S

theorem not_leads_nil : ¬nil.Leads p S := by
  rintro (⟨hmem, -⟩ | ⟨hmem, -, -⟩)
  · exact List.not_mem_nil hmem
  · exact List.not_mem_nil hmem

/-- What leads into the first entry, and what leads into another one. -/
theorem leads_cons : (cons i T).Leads p S ↔
    (¬i.name.IsDot ∧ (p = [i.name] ∧ S = i.inner ∨ ∃ q, p = i.name :: q ∧ i.inner.Leads q S)) ∨
      T.Leads p S := by
  constructor
  · rintro (⟨hmem, hdot⟩ | @⟨_, _, j, q, hmem, hdot, h⟩)
    · rw [items_cons, List.mem_cons] at hmem
      obtain rfl | hmem := hmem
      · exact .inl ⟨hdot, .inl ⟨rfl, rfl⟩⟩
      · exact .inr (.here hmem hdot)
    · rw [items_cons, List.mem_cons] at hmem
      obtain rfl | hmem := hmem
      · exact .inl ⟨hdot, .inr ⟨q, rfl, h⟩⟩
      · exact .inr (.inside hmem hdot h)
  · have hhead : i ∈ (cons i T).items := by
      rw [items_cons]
      exact List.mem_cons_self
    have htail : ∀ j ∈ T.items, j ∈ (cons i T).items := by
      intro j hj
      rw [items_cons]
      exact List.mem_cons_of_mem i hj
    rintro (⟨hdot, ⟨rfl, rfl⟩ | ⟨q, rfl, h⟩⟩ | h)
    · exact .here hhead hdot
    · exact .inside hhead hdot h
    · cases h with
      | here hmem hdot => exact .here (htail _ hmem) hdot
      | inside hmem hdot h => exact .inside (htail _ hmem) hdot h

theorem below_cons : (cons i T).Below p ↔
    (¬i.name.IsDot ∧ (p = [i.name] ∨ ∃ q, p = i.name :: q ∧ i.inner.Below q)) ∨ T.Below p := by
  simp only [Below, leads_cons]
  constructor
  · rintro ⟨S, ⟨hdot, ⟨rfl, rfl⟩ | ⟨q, rfl, h⟩⟩ | h⟩
    · exact .inl ⟨hdot, .inl rfl⟩
    · exact .inl ⟨hdot, .inr ⟨q, rfl, S, h⟩⟩
    · exact .inr ⟨S, h⟩
  · rintro (⟨hdot, rfl | ⟨q, rfl, S, h⟩⟩ | ⟨S, h⟩)
    · exact ⟨_, .inl ⟨hdot, .inl ⟨rfl, rfl⟩⟩⟩
    · exact ⟨S, .inl ⟨hdot, .inr ⟨q, rfl, h⟩⟩⟩
    · exact ⟨S, .inr h⟩

/-! ## The list of what is below a root -/

/-- All sequences of names below a root, a directory before what is below it. -/
def paths : Entries → List (List CStr)
  | nil => []
  | leaf name _ rest => if name.IsDot then rest.paths else [name] :: rest.paths
  | dir name opens children rest =>
    if name.IsDot then rest.paths
    else [name] :: ((if opens then children.paths else []).map (name :: ·) ++ rest.paths)

theorem paths_cons (i : Item) (T : Entries) :
    (cons i T).paths = if i.name.IsDot then T.paths
      else [i.name] :: (i.inner.paths.map (i.name :: ·) ++ T.paths) := by
  cases i with
  | leaf name isLink => rfl
  | dir name opens children => cases opens <;> rfl

/-- The list is complete and has nothing else. -/
theorem mem_paths : p ∈ T.paths ↔ T.Below p := by
  induction T using ind generalizing p with
  | nil =>
    constructor
    · intro h
      exact absurd h List.not_mem_nil
    · rintro ⟨S, h⟩
      exact absurd h not_leads_nil
  | cons i T ihInner ih =>
    rw [paths_cons, below_cons]
    by_cases hdot : i.name.IsDot
    · rw [if_pos hdot, ih]
      simp [hdot]
    · rw [if_neg hdot, List.mem_cons, List.mem_append, List.mem_map, ih]
      simp only [ihInner, hdot, not_false_eq_true, true_and, or_assoc, eq_comm, and_comm]

/-- A tree: the names in a directory differ and have no slash. -/
def Proper : Entries → Prop
  | nil => True
  | leaf name _ rest => 47 ∉ name.bytes ∧ name ∉ rest.names ∧ rest.Proper
  | dir name _ children rest =>
    47 ∉ name.bytes ∧ name ∉ rest.names ∧ children.Proper ∧ rest.Proper

instance decidableProper : DecidablePred Proper
  | nil => isTrue trivial
  | leaf name _ rest =>
    have := decidableProper rest
    inferInstanceAs (Decidable (47 ∉ name.bytes ∧ name ∉ rest.names ∧ rest.Proper))
  | dir name _ children rest =>
    have := decidableProper children
    have := decidableProper rest
    inferInstanceAs
      (Decidable (47 ∉ name.bytes ∧ name ∉ rest.names ∧ children.Proper ∧ rest.Proper))

theorem proper_cons (h : (cons i T).Proper) :
    47 ∉ i.name.bytes ∧ i.name ∉ T.names ∧ i.inner.Proper ∧ T.Proper := by
  cases i with
  | leaf name isLink => exact ⟨h.1, h.2.1, trivial, h.2.2⟩
  | dir name opens children =>
    cases opens with
    | false => exact ⟨h.1, h.2.1, trivial, h.2.2.2⟩
    | true => exact h

/-- What leads somewhere starts with a name of the directory. -/
theorem head_of_mem_paths (h : p ∈ T.paths) : ∃ n q, p = n :: q ∧ n ∈ T.names := by
  obtain ⟨S, h⟩ := mem_paths.mp h
  cases h with
  | here hmem _ => exact ⟨_, _, rfl, List.mem_map_of_mem hmem⟩
  | inside hmem _ _ => exact ⟨_, _, rfl, List.mem_map_of_mem hmem⟩

theorem nodup_paths (h : T.Proper) : T.paths.Nodup := by
  induction T using ind with
  | nil => exact List.nodup_nil
  | cons i T ihInner ih =>
    obtain ⟨-, hname, hinner, hT⟩ := proper_cons h
    rw [paths_cons]
    split
    · exact ih hT
    · have hnotail : ∀ q, i.name :: q ∉ T.paths := by
        intro q hq
        obtain ⟨n, q', heq, hn⟩ := head_of_mem_paths hq
        cases heq
        exact hname hn
      have hnonil : [] ∉ i.inner.paths := by
        intro hq
        obtain ⟨n, q', heq, -⟩ := head_of_mem_paths hq
        cases heq
      refine List.nodup_cons.mpr ⟨?_, List.nodup_append.mpr ⟨?_, ih hT, ?_⟩⟩
      · rw [List.mem_append, List.mem_map]
        rintro (⟨q, hq, heq⟩ | hq)
        · cases heq
          exact hnonil hq
        · exact hnotail [] hq
      · exact (ihInner hinner).map fun q q' heq => List.tail_eq_of_cons_eq heq
      · intro q hq q' hq' heq
        obtain ⟨r, -, rfl⟩ := List.mem_map.mp hq
        exact hnotail r (heq ▸ hq')

/-- The components of a path have no slash. -/
theorem noSlash_of_mem_paths (h : T.Proper) (hp : p ∈ T.paths) : ∀ n ∈ p, 47 ∉ n.bytes := by
  induction T using ind generalizing p with
  | nil => exact absurd hp List.not_mem_nil
  | cons i T ihInner ih =>
    obtain ⟨hslash, -, hinner, hT⟩ := proper_cons h
    rw [paths_cons] at hp
    split at hp
    · exact ih hT hp
    · rw [List.mem_cons, List.mem_append, List.mem_map] at hp
      obtain rfl | ⟨q, hq, rfl⟩ | hp := hp
      · simpa using hslash
      · exact List.forall_mem_cons.mpr ⟨hslash, ihInner hinner hq⟩
      · exact ih hT hp

/-- The paths of the entries below the path of a root. -/
def lines (T : Entries) (root : CStr) : List CStr := T.paths.map (CStr.render root)

@[simp] theorem lines_nil (root : CStr) : nil.lines root = [] := rfl

theorem lines_cons (i : Item) (T : Entries) (root : CStr) :
    (cons i T).lines root = if i.name.IsDot then T.lines root
      else CStr.join root i.name ::
        (i.inner.lines (CStr.join root i.name) ++ T.lines root) := by
  rw [lines, paths_cons]
  split
  · rfl
  · rw [List.map_cons, List.map_append, List.map_map]
    rfl

theorem nodup_lines (h : T.Proper) (root : CStr) : (T.lines root).Nodup :=
  (nodup_paths h).map_on fun _ hp _ hq =>
    CStr.render_inj (noSlash_of_mem_paths h hp) (noSlash_of_mem_paths h hq)

theorem mem_lines {root line : CStr} :
    line ∈ T.lines root ↔ ∃ p, T.Below p ∧ line = CStr.render root p := by
  simp only [lines, List.mem_map, mem_paths, eq_comm]

/-- The line of an entry stands right before the lines of what can be seen in it. -/
theorem lines_item (root : CStr) (hmem : i ∈ T.items) (hdot : ¬i.name.IsDot) :
    ∃ before after, T.lines root = before ++
      CStr.join root i.name :: (i.inner.lines (CStr.join root i.name) ++ after) := by
  induction T using ind with
  | nil => exact absurd hmem List.not_mem_nil
  | cons j T _ ih =>
    rw [items_cons, List.mem_cons] at hmem
    rw [lines_cons]
    obtain rfl | hmem := hmem
    · rw [if_neg hdot]
      exact ⟨[], T.lines root, rfl⟩
    · obtain ⟨before, after, heq⟩ := ih hmem
      rw [heq]
      split
      · exact ⟨before, after, rfl⟩
      · refine ⟨CStr.join root j.name :: (j.inner.lines (CStr.join root j.name) ++ before),
          after, ?_⟩
        simp

theorem lines_leads (h : T.Leads p S) (root : CStr) :
    ∃ before after, T.lines root = before ++
      CStr.render root p :: (S.lines (CStr.render root p) ++ after) := by
  induction h generalizing root with
  | here hmem hdot => exact lines_item root hmem hdot
  | @inside T S i p hmem hdot _ ih =>
    obtain ⟨before, after, heq⟩ := lines_item root hmem hdot
    obtain ⟨before', after', heq'⟩ := ih (CStr.join root i.name)
    refine ⟨before ++ CStr.join root i.name :: before', after' ++ after, ?_⟩
    rw [heq, heq', CStr.render_cons]
    simp

/-! ## Orders -/

/-- The same tree, with the entries of each directory in any other order. -/
inductive Reorder : Entries → Entries → Prop
  | nil : Reorder nil nil
  | leaf (name : CStr) (isLink : Bool) {T T' : Entries} (h : Reorder T T') :
      Reorder (leaf name isLink T) (leaf name isLink T')
  | dir (name : CStr) (opens : Bool) {S S' T T' : Entries} (hS : Reorder S S')
      (h : Reorder T T') : Reorder (dir name opens S T) (dir name opens S' T')
  | swap (i j : Item) (T : Entries) : Reorder (cons i (cons j T)) (cons j (cons i T))
  | trans {T T' T'' : Entries} (h : Reorder T T') (h' : Reorder T' T'') : Reorder T T''

theorem Reorder.refl (T : Entries) : Reorder T T := by
  induction T with
  | nil => exact .nil
  | leaf name isLink rest ih => exact .leaf name isLink ih
  | dir name opens children rest ihChildren ih => exact .dir name opens ihChildren ih

theorem Reorder.symm (h : Reorder T T') : Reorder T' T := by
  induction h with
  | nil => exact .nil
  | leaf name isLink _ ih => exact .leaf name isLink ih
  | dir name opens _ _ ihS ih => exact .dir name opens ihS ih
  | swap i j T => exact .swap j i T
  | trans _ _ ih ih' => exact .trans ih' ih

/-- The same paths are listed in another order. -/
theorem Reorder.paths (h : Reorder T T') : T.paths.Perm T'.paths := by
  induction h with
  | nil => exact .refl _
  | leaf name isLink _ ih =>
    simp only [Entries.paths]
    split
    · exact ih
    · exact ih.cons _
  | dir name opens _ _ ihS ih =>
    simp only [Entries.paths]
    split
    · exact ih
    · cases opens with
      | false => exact ih.cons _
      | true => exact ((ihS.map _).append ih).cons _
  | swap i j T =>
    simp only [paths_cons]
    by_cases hi : i.name.IsDot
    · simp [hi]
    · by_cases hj : j.name.IsDot
      · simp [hi, hj]
      · simp only [if_neg hi, if_neg hj, ← List.cons_append, ← List.append_assoc]
        exact List.perm_append_comm.append_right _
  | trans _ _ ih ih' => exact ih.trans ih'

theorem Reorder.lines (h : Reorder T T') (root : CStr) :
    (T.lines root).Perm (T'.lines root) :=
  h.paths.map _

/-- An entry behind the others. -/
def snoc : Entries → Item → Entries
  | nil, i => cons i nil
  | leaf name isLink rest, i => leaf name isLink (rest.snoc i)
  | dir name opens children rest, i => dir name opens children (rest.snoc i)

/-- The entries of each directory in reverse. -/
def reversed : Entries → Entries
  | nil => nil
  | leaf name isLink rest => rest.reversed.snoc (.leaf name isLink)
  | dir name opens children rest => rest.reversed.snoc (.dir name opens children.reversed)

theorem items_snoc (T : Entries) (i : Item) : (T.snoc i).items = T.items ++ [i] := by
  induction T with
  | nil => exact items_cons i nil
  | leaf name isLink rest ih => exact congrArg _ ih
  | dir name opens children rest ihChildren ih => exact congrArg _ ih

theorem names_reversed (T : Entries) : T.reversed.names = T.names.reverse := by
  induction T with
  | nil => rfl
  | leaf name isLink rest ih =>
    rw [reversed, names, items_snoc, List.map_append, ← names, ih]
    exact List.reverse_cons.symm
  | dir name opens children rest _ ih =>
    rw [reversed, names, items_snoc, List.map_append, ← names, ih]
    exact List.reverse_cons.symm

theorem reorder_snoc (T : Entries) (i : Item) : Reorder (T.snoc i) (cons i T) := by
  induction T with
  | nil => exact .refl _
  | leaf name isLink rest ih => exact .trans (.leaf name isLink ih) (.swap (.leaf name isLink) i _)
  | dir name opens children rest _ ih =>
    exact .trans (.dir name opens (.refl _) ih) (.swap (.dir name opens children) i _)

theorem reorder_reversed (T : Entries) : Reorder T.reversed T := by
  induction T with
  | nil => exact .nil
  | leaf name isLink rest ih => exact .trans (reorder_snoc _ _) (.leaf name isLink ih)
  | dir name opens children rest ihChildren ih =>
    exact .trans (reorder_snoc _ _) (.dir name opens ihChildren ih)

end Entries

end DirList

end KernelGadgets
