import Ucb.Fs.MkdirP
import Ucb.Lib.FileSpots

/-!
Contract: a file system with contents, and what may become of it.

Owns:
- `Disk`, finitely many entries with directories down to each of them;
- its changes: an entry replaced or adjusted, and a subtree moved;
- the relations that say where two disks may differ.

A location is the list of its names, the deepest first. No file has two names.

Does not own: what a path names, and the calls.
-/

namespace Ucb.Fs

open Ucb.Lib Ucb.Path

/-! ## Entries -/

abbrev Name := List UInt8

abbrev Loc := List Name

def IsName (name : Name) : Prop :=
  IsSegment pathIsSep name ∧ name ≠ [dot] ∧ name ≠ dotdot

instance (name : Name) : Decidable (IsName name) :=
  have : Decidable (∀ c ∈ name, pathIsSep c = false) := List.decidableBAll _ name
  inferInstanceAs (Decidable
    ((name ≠ [] ∧ ∀ c ∈ name, pathIsSep c = false) ∧ name ≠ [dot] ∧ name ≠ dotdot))

/-- What `ucb_fs_copy_file` and `ucb_fs_copy_tree` copy of `ucb_fs_stat`. -/
structure Attrs where
  mode : Nat
  mtime : Int
deriving DecidableEq, Repr

inductive Entry where
  | dir (attrs : Attrs)
  | file (bytes : List UInt8) (attrs : Attrs)
  | link (target : List UInt8)
  | other (attrs : Attrs)
deriving DecidableEq, Repr

namespace Entry

/-- What the entry is for a path that goes through it. -/
def node : Entry → Node Name
  | dir _ => .dir
  | file _ _ => .file
  | link target => .link (isRooted target) (pathSegments target)
  | other _ => .other

/-- `fs_unix_kind_from_mode`. -/
def kind (entry : Entry) : UcbFsKind :=
  nodeKind entry.node

/-- What `stat` finds; it does not stop at a link. -/
def attrs : Entry → Option Attrs
  | dir attrs | file _ attrs | other attrs => some attrs
  | link _ => none

def setAttrs (change : Attrs → Attrs) : Entry → Entry
  | dir attrs => dir (change attrs)
  | file bytes attrs => file bytes (change attrs)
  | link target => link target
  | other attrs => other (change attrs)

/-- An entry whose directory entries change has another time. -/
def touch (time : Int) : Entry → Entry
  | dir attrs => dir { attrs with mtime := time }
  | entry => entry

@[simp] theorem node_setAttrs (change : Attrs → Attrs) (entry : Entry) :
    (entry.setAttrs change).node = entry.node := by
  cases entry <;> rfl

@[simp] theorem node_touch (time : Int) (entry : Entry) : (entry.touch time).node = entry.node := by
  cases entry <;> rfl

theorem node_dir_iff (entry : Entry) : entry.node = .dir ↔ ∃ attrs, entry = .dir attrs := by
  cases entry <;> simp [node]

end Entry

def IsDir (item : Option Entry) : Prop :=
  ∃ attrs, item = some (.dir attrs)

instance (item : Option Entry) : Decidable (IsDir item) :=
  match item with
  | some (.dir attrs) => isTrue ⟨attrs, rfl⟩
  | some (.file _ _) | some (.link _) | some (.other _) | none =>
      isFalse fun ⟨_, absent⟩ => by cases absent

/-- The same directory, but for the time of its last change. -/
def DirSame (old new : Option Entry) : Prop :=
  ∃ attrs attrs', old = some (.dir attrs) ∧ new = some (.dir attrs') ∧ attrs'.mode = attrs.mode

def DirKept (old new : Option Entry) : Prop :=
  (old = none ∧ IsDir new) ∨ DirSame old new

theorem DirSame.trans {first second third : Option Entry} (left : DirSame first second)
    (right : DirSame second third) : DirSame first third := by
  obtain ⟨attrs, attrs', rfl, rfl, mode⟩ := left
  obtain ⟨attrs₁, attrs₂, same, rfl, mode'⟩ := right
  obtain rfl : attrs' = attrs₁ := by simpa using same
  exact ⟨attrs, attrs₂, rfl, rfl, mode'.trans mode⟩

theorem DirSame.left {old new : Option Entry} (same : DirSame old new) : IsDir old := by
  obtain ⟨attrs, -, found, -, -⟩ := same
  exact ⟨attrs, found⟩

theorem DirSame.right {old new : Option Entry} (same : DirSame old new) : IsDir new := by
  obtain ⟨-, attrs, -, found, -⟩ := same
  exact ⟨attrs, found⟩

theorem DirKept.right {old new : Option Entry} (kept : DirKept old new) : IsDir new :=
  kept.elim And.right DirSame.right

theorem DirKept.trans {first second third : Option Entry} (left : DirKept first second)
    (right : DirKept second third) : DirKept first third := by
  rcases right with ⟨none, dir⟩ | same
  · obtain ⟨attrs, found⟩ := left.right
    rw [none] at found
    cases found
  · rcases left with ⟨none, -⟩ | same'
    · exact .inl ⟨none, same.right⟩
    · exact .inr (same'.trans same)

/-! ## Disks -/

structure Disk where
  entry : Loc → Option Entry
  root : IsDir (entry [])
  above : ∀ name loc, entry (name :: loc) ≠ none → IsDir (entry loc)
  named : ∀ name loc, entry (name :: loc) ≠ none → IsName name
  finite : ∃ locs : List Loc, ∀ loc, entry loc ≠ none → loc ∈ locs
  cwd : Loc

namespace Disk

theorem isDir_node {item : Option Entry} (dir : IsDir item) :
    item.map Entry.node = some .dir := by
  obtain ⟨attrs, rfl⟩ := dir
  rfl

theorem node_above {disk : Disk} (name : Name) (loc : Loc)
    (some : (disk.entry (name :: loc)).map Entry.node ≠ none) :
    (disk.entry loc).map Entry.node = .some .dir :=
  isDir_node (disk.above name loc fun absent => some (by rw [absent]; rfl))

def tree (disk : Disk) : FileTree Name where
  node := fun loc => (disk.entry loc).map Entry.node
  root := isDir_node disk.root
  above := node_above
  cwd := []
  cwd_dir := isDir_node disk.root

theorem tree_node (disk : Disk) (loc : Loc) :
    disk.tree.node loc = (disk.entry loc).map Entry.node := rfl

theorem tree_dir_iff (disk : Disk) (loc : Loc) :
    disk.tree.node loc = some .dir ↔ IsDir (disk.entry loc) := by
  rw [tree_node]
  constructor
  · intro found
    obtain ⟨entry, some, dir⟩ := Option.map_eq_some_iff.mp found
    obtain ⟨attrs, rfl⟩ := entry.node_dir_iff.mp dir
    exact ⟨attrs, some⟩
  · exact isDir_node

theorem tree_none_iff (disk : Disk) (loc : Loc) :
    disk.tree.node loc = none ↔ disk.entry loc = none := by
  rw [tree_node, Option.map_eq_none_iff]

theorem below_none {disk : Disk} {loc : Loc} (none : disk.entry loc = none) (rest : Loc) :
    disk.entry (rest ++ loc) = .none := by
  induction rest with
  | nil => exact none
  | cons name rest inductionHypothesis =>
      by_contra some
      obtain ⟨attrs, found⟩ : IsDir (disk.entry (rest ++ loc)) := disk.above _ _ some
      rw [inductionHypothesis] at found
      cases found

theorem above_dir {disk : Disk} {rest loc : Loc} (some : disk.entry (rest ++ loc) ≠ none)
    (below : rest ≠ []) : IsDir (disk.entry loc) := by
  induction rest with
  | nil => exact absurd rfl below
  | cons name rest inductionHypothesis =>
      have dir : IsDir (disk.entry (rest ++ loc)) := disk.above _ _ some
      by_cases last : rest = []
      · subst last
        exact dir
      · obtain ⟨attrs, found⟩ := dir
        exact inductionHypothesis (by rw [found]; exact Option.some_ne_none _) last

theorem below_of_not_dir {disk : Disk} {loc : Loc} (notDir : ¬ IsDir (disk.entry loc)) {rest : Loc}
    (below : rest ≠ []) : disk.entry (rest ++ loc) = none := by
  by_contra some
  exact notDir (disk.above_dir some below)

/-! ## Changes -/

section Adjust

variable {disk : Disk} {loc : Loc} {change : Entry → Entry}

theorem isDir_map (keeps : ∀ entry, (change entry).node = entry.node) {item : Option Entry} :
    IsDir (item.map change) ↔ IsDir item := by
  cases item with
  | none => rfl
  | some entry =>
      have both := (change entry).node_dir_iff
      rw [keeps, entry.node_dir_iff] at both
      simpa [IsDir] using both.symm

theorem adjust_isDir (keeps : ∀ entry, (change entry).node = entry.node) (other : Loc) :
    IsDir (if other = loc then (disk.entry other).map change else disk.entry other) ↔
      IsDir (disk.entry other) := by
  split
  · exact isDir_map keeps
  · rfl

theorem adjust_ne_none {other : Loc}
    (some : (if other = loc then (disk.entry other).map change else disk.entry other) ≠ none) :
    disk.entry other ≠ none := by
  intro absent
  rw [absent] at some
  split at some
  · exact some rfl
  · exact some rfl

end Adjust

def adjust (disk : Disk) (loc : Loc) (change : Entry → Entry)
    (keeps : ∀ entry, (change entry).node = entry.node) : Disk where
  entry := fun other => if other = loc then (disk.entry other).map change else disk.entry other
  root := (adjust_isDir keeps []).mpr disk.root
  above := fun name other some =>
    (adjust_isDir keeps other).mpr (disk.above name other (adjust_ne_none some))
  named := fun name other some => disk.named name other (adjust_ne_none some)
  finite := disk.finite.imp fun _ all other some => all other (adjust_ne_none some)
  cwd := disk.cwd

/-- The time of a directory is that of a change of its entries. -/
def touch (disk : Disk) (loc : Loc) (time : Int) : Disk :=
  disk.adjust loc (.touch time) (Entry.node_touch time)

/-- What may stand for the entry at a location. -/
structure Fits (disk : Disk) (loc : Loc) (new : Option Entry) : Prop where
  root : loc ≠ []
  above : new ≠ none → IsDir (disk.entry loc.tail)
  named : new ≠ none → ∀ name ∈ loc.head?, IsName name
  below : ¬ IsDir new → ∀ name, disk.entry (name :: loc) = none

section Replace

variable {disk : Disk} {loc : Loc} {new : Option Entry}

theorem replace_above (fits : disk.Fits loc new) (name : Name) (other : Loc)
    (some : (if name :: other = loc then new else disk.entry (name :: other)) ≠ none) :
    IsDir (if other = loc then new else disk.entry other) := by
  by_cases here : name :: other = loc
  · rw [if_pos here] at some
    have different : other ≠ loc := by
      rintro rfl
      simpa using congrArg List.length here
    rw [if_neg different]
    have dir := fits.above some
    rw [← here] at dir
    exact dir
  · rw [if_neg here] at some
    split
    next same =>
      subst same
      by_contra notDir
      exact some (fits.below notDir name)
    next => exact disk.above name other some

theorem replace_named (fits : disk.Fits loc new) (name : Name) (other : Loc)
    (some : (if name :: other = loc then new else disk.entry (name :: other)) ≠ none) :
    IsName name := by
  split at some
  next here => exact fits.named some name (by rw [← here]; rfl)
  next => exact disk.named name other some

theorem replace_finite (disk : Disk) (loc : Loc) (new : Option Entry) :
    ∃ locs : List Loc, ∀ other, (if other = loc then new else disk.entry other) ≠ none →
      other ∈ locs := by
  obtain ⟨locs, all⟩ := disk.finite
  refine ⟨loc :: locs, fun other some => ?_⟩
  by_cases here : other = loc
  · rw [here]
    exact List.mem_cons_self
  · rw [if_neg here] at some
    exact List.mem_cons_of_mem _ (all other some)

theorem replace_root (fits : disk.Fits loc new) :
    IsDir (if ([] : Loc) = loc then new else disk.entry []) := by
  rw [if_neg (Ne.symm fits.root)]
  exact disk.root

end Replace

/-- An entry is made, replaced or taken away. -/
def replace (disk : Disk) (loc : Loc) (new : Option Entry) (fits : disk.Fits loc new) : Disk where
  entry := fun other => if other = loc then new else disk.entry other
  root := replace_root fits
  above := replace_above fits
  named := replace_named fits
  finite := replace_finite disk loc new
  cwd := disk.cwd

/-- The subtree at `src` can become the one at `dst`. -/
structure Movable (disk : Disk) (src dst : Loc) : Prop where
  there : disk.entry src ≠ none
  root : dst ≠ []
  above : IsDir (disk.entry dst.tail)
  named : ∀ name ∈ dst.head?, IsName name
  empty : ∀ name, disk.entry (name :: dst) = none
  outside : ¬ src <:+ dst

def movedEntry (disk : Disk) (src dst : Loc) (loc : Loc) : Option Entry :=
  if dst <:+ loc then disk.entry (loc.take (loc.length - dst.length) ++ src)
  else if src <:+ loc then none
  else disk.entry loc

theorem movedEntry_inside (disk : Disk) (src dst rest : Loc) :
    disk.movedEntry src dst (rest ++ dst) = disk.entry (rest ++ src) := by
  rw [movedEntry, if_pos (List.suffix_append _ _)]
  congr 2
  simp

section Move

variable {disk : Disk} {src dst : Loc}

theorem moved_root (movable : disk.Movable src dst) : IsDir (disk.movedEntry src dst []) := by
  have notDst : ¬ dst <:+ [] := fun inside => movable.root (List.suffix_nil.mp inside)
  have notSrc : ¬ src <:+ [] := by
    intro inside
    rw [List.suffix_nil.mp inside] at movable
    exact movable.outside (List.nil_suffix)
  rw [movedEntry, if_neg notDst, if_neg notSrc]
  exact disk.root

theorem moved_above (movable : disk.Movable src dst) (name : Name) (loc : Loc)
    (some : disk.movedEntry src dst (name :: loc) ≠ none) :
    IsDir (disk.movedEntry src dst loc) := by
  by_cases inside : dst <:+ name :: loc
  · obtain ⟨rest, split⟩ := inside
    rw [← split, movedEntry_inside] at some
    cases rest with
    | nil =>
        -- the directory that the subtree gets into is not a part of it
        obtain rfl : dst = name :: loc := split
        have notDst : ¬ name :: loc <:+ loc := fun inside =>
          Nat.not_succ_le_self _ inside.length_le
        have notSrc : ¬ src <:+ loc := fun inside =>
          movable.outside (inside.trans (List.suffix_cons _ _))
        rw [movedEntry, if_neg notDst, if_neg notSrc]
        exact movable.above
    | cons first rest =>
        obtain ⟨rfl, behind⟩ := List.cons.inj split
        rw [← behind]
        show IsDir (disk.movedEntry src dst (rest ++ dst))
        rw [movedEntry_inside]
        exact disk.above _ _ some
  · rw [movedEntry, if_neg inside] at some
    split at some
    · exact absurd rfl some
    next notSrc =>
      have notSrc' : ¬ src <:+ loc := fun below => notSrc (below.trans (List.suffix_cons _ _))
      have notDst' : ¬ dst <:+ loc := fun below => inside (below.trans (List.suffix_cons _ _))
      rw [movedEntry, if_neg notDst', if_neg notSrc']
      exact disk.above _ _ some

theorem moved_named (movable : disk.Movable src dst) (name : Name) (loc : Loc)
    (some : disk.movedEntry src dst (name :: loc) ≠ none) : IsName name := by
  by_cases inside : dst <:+ name :: loc
  · obtain ⟨rest, split⟩ := inside
    rw [← split, movedEntry_inside] at some
    cases rest with
    | nil =>
        obtain rfl : dst = name :: loc := split
        exact movable.named name rfl
    | cons first rest =>
        obtain ⟨rfl, rfl⟩ := List.cons.inj split
        exact disk.named _ _ some
  · rw [movedEntry, if_neg inside] at some
    split at some
    · exact absurd rfl some
    · exact disk.named _ _ some

theorem moved_finite (disk : Disk) (src dst : Loc) :
    ∃ locs : List Loc, ∀ loc, disk.movedEntry src dst loc ≠ none → loc ∈ locs := by
  obtain ⟨locs, all⟩ := disk.finite
  refine ⟨locs ++ locs.map fun loc => loc.take (loc.length - src.length) ++ dst, fun loc some => ?_⟩
  by_cases inside : dst <:+ loc
  · obtain ⟨rest, rfl⟩ := inside
    rw [movedEntry_inside] at some
    refine List.mem_append_right _ (List.mem_map.mpr ⟨_, all _ some, ?_⟩)
    simp
  · rw [movedEntry, if_neg inside] at some
    split at some
    · exact absurd rfl some
    · exact List.mem_append_left _ (all loc some)

end Move

def move (disk : Disk) (src dst : Loc) (movable : disk.Movable src dst) : Disk where
  entry := disk.movedEntry src dst
  root := moved_root movable
  above := moved_above movable
  named := moved_named movable
  finite := moved_finite disk src dst
  cwd := disk.cwd

section Entries

variable (disk : Disk) (loc other : Loc)

@[simp] theorem adjust_entry (change : Entry → Entry)
    (keeps : ∀ entry, (change entry).node = entry.node) :
    (disk.adjust loc change keeps).entry other =
      if other = loc then (disk.entry other).map change else disk.entry other := rfl

theorem touch_entry (time : Int) :
    (disk.touch loc time).entry other =
      if other = loc then (disk.entry other).map (.touch time) else disk.entry other := rfl

theorem replace_entry (new : Option Entry) (fits : disk.Fits loc new) :
    (disk.replace loc new fits).entry other = if other = loc then new else disk.entry other := rfl

end Entries

end Disk

end Ucb.Fs
