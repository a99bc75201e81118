import Ucb.Fs.Disk

/-!
Contract: where two disks may differ.

Owns:
- `Differs`, and its rules;
- the differences that making, copying and removing leave, and how they follow from
  each other;
- what they mean for a path: everything is kept, or nothing is new.

A difference in the time of a directory is left by every change of its entries.
-/

namespace Ucb.Fs

open Ucb.Lib Ucb.Path

/-! ## Locations -/

/-- Neither location lies below the other one. -/
def Apart (left right : Loc) : Prop :=
  ¬ left <:+ right ∧ ¬ right <:+ left

theorem Apart.symm {left right : Loc} (apart : Apart left right) : Apart right left :=
  ⟨apart.2, apart.1⟩

/-- What lies below two such locations is apart too. -/
theorem Apart.below {left right : Loc} (apart : Apart left right) (rest rest' : Loc) :
    Apart (rest ++ left) (rest' ++ right) := by
  have no {left right : Loc} (apart : Apart left right) (rest rest' : Loc) :
      ¬ rest ++ left <:+ rest' ++ right := by
    intro inside
    rcases List.suffix_or_suffix_of_suffix ((List.suffix_append _ _).trans inside)
      (List.suffix_append rest' right) with down | up
    · exact apart.1 down
    · exact apart.2 up
  exact ⟨no apart rest rest', no apart.symm rest' rest⟩

/-- Two entries of one directory. -/
theorem apart_names {name name' : Name} (different : name ≠ name') (loc : Loc) :
    Apart (name :: loc) (name' :: loc) := by
  have no {name name' : Name} (different : name ≠ name') : ¬ name :: loc <:+ name' :: loc := by
    intro inside
    exact different (List.cons.inj (inside.eq_of_length rfl)).1
  exact ⟨no different, no different.symm⟩

theorem not_suffix_tail {name : Name} {loc : Loc} : ¬ name :: loc <:+ loc :=
  fun inside => Nat.not_succ_le_self _ inside.length_le

theorem ne_tail {loc : Loc} (below : loc ≠ []) : loc ≠ loc.tail := by
  obtain ⟨name, above, rfl⟩ := List.exists_cons_of_ne_nil below
  exact fun same => Nat.succ_ne_self _ (congrArg List.length same)

/-! ## Differences -/

/-- Two disks differ only as it is allowed for a location, an old and a new entry. -/
structure Differs (allows : Loc → Option Entry → Option Entry → Prop) (disk disk' : Disk) :
    Prop where
  cwd : disk'.cwd = disk.cwd
  entry : ∀ loc, disk'.entry loc = disk.entry loc ∨
    allows loc (disk.entry loc) (disk'.entry loc)

namespace Differs

variable {allows allows' : Loc → Option Entry → Option Entry → Prop} {disk disk' disk'' : Disk}

theorem refl (allows : Loc → Option Entry → Option Entry → Prop) (disk : Disk) :
    Differs allows disk disk :=
  ⟨rfl, fun _ => .inl rfl⟩

theorem mono (differs : Differs allows disk disk')
    (more : ∀ loc, allows loc (disk.entry loc) (disk'.entry loc) →
      allows' loc (disk.entry loc) (disk'.entry loc)) : Differs allows' disk disk' :=
  ⟨differs.cwd, fun loc => (differs.entry loc).imp_right (more loc)⟩

theorem trans (first : Differs allows disk disk') (second : Differs allows disk' disk'')
    (both : ∀ loc old mid new, allows loc old mid → allows loc mid new → allows loc old new) :
    Differs allows disk disk'' := by
  refine ⟨second.cwd.trans first.cwd, fun loc => ?_⟩
  rcases first.entry loc with same | allowed
  · rw [← same]
    exact second.entry loc
  · rcases second.entry loc with same | allowed'
    · rw [same]
      exact .inr allowed
    · exact .inr (both loc _ _ _ allowed allowed')

end Differs

/-- Everything is still there, and a directory may have another time. -/
abbrev Kept : Disk → Disk → Prop :=
  Differs fun _ old new => old = none ∨ DirSame old new

/-- One entry may differ, and the time of its directory. -/
abbrev OnlyAt (loc : Loc) : Disk → Disk → Prop :=
  Differs fun other old new => other = loc ∨ (other = loc.tail ∧ DirSame old new)

/-- Directories may be new down to a location. -/
abbrev MadeDirs (loc : Loc) : Disk → Disk → Prop :=
  Differs fun other old new => other <:+ loc ∧ DirKept old new

/-- A subtree may differ, and directories may be new down to it. -/
abbrev Toward (loc : Loc) : Disk → Disk → Prop :=
  Differs fun other old new => loc <:+ other ∨ (other <:+ loc ∧ DirKept old new)

/-- What is below a location may differ, and directories may be new down to it. -/
abbrev Filled (loc : Loc) : Disk → Disk → Prop :=
  Differs fun other old new =>
    (loc <:+ other ∧ other ≠ loc) ∨ (other <:+ loc ∧ DirKept old new)

/-- Parts of a subtree may be gone, and directories with less entries have another time. -/
abbrev PrunedIn (loc : Loc) : Disk → Disk → Prop :=
  Differs fun other old new => loc <:+ other ∧ (new = none ∨ DirSame old new)

/-- The same, and the subtree itself may be gone. -/
abbrev Pruned (loc : Loc) : Disk → Disk → Prop :=
  Differs fun other old new =>
    (loc <:+ other ∧ (new = none ∨ DirSame old new)) ∨ (other = loc.tail ∧ DirSame old new)

section Rules

variable {disk disk' disk'' : Disk} {loc : Loc} {name : Name}

theorem OnlyAt.trans (first : OnlyAt loc disk disk') (second : OnlyAt loc disk' disk'') :
    OnlyAt loc disk disk'' := by
  refine Differs.trans first second fun other old mid new left right => ?_
  rcases left with here | ⟨above, same⟩
  · exact .inl here
  · rcases right with here | ⟨-, same'⟩
    · exact .inl here
    · exact .inr ⟨above, same.trans same'⟩

theorem MadeDirs.trans (first : MadeDirs loc disk disk') (second : MadeDirs loc disk' disk'') :
    MadeDirs loc disk disk'' :=
  Differs.trans first second fun _ _ _ _ left right => ⟨left.1, left.2.trans right.2⟩

theorem Toward.trans (first : Toward loc disk disk') (second : Toward loc disk' disk'') :
    Toward loc disk disk'' := by
  refine Differs.trans first second fun other old mid new left right => ?_
  rcases left with inside | ⟨above, kept⟩
  · exact .inl inside
  · rcases right with inside | ⟨-, kept'⟩
    · exact .inl inside
    · exact .inr ⟨above, kept.trans kept'⟩

theorem Filled.trans (first : Filled loc disk disk') (second : Filled loc disk' disk'') :
    Filled loc disk disk'' := by
  refine Differs.trans first second fun other old mid new left right => ?_
  rcases left with inside | ⟨above, kept⟩
  · exact .inl inside
  · rcases right with inside | ⟨-, kept'⟩
    · exact .inl inside
    · exact .inr ⟨above, kept.trans kept'⟩

theorem pruned_trans {old mid new : Option Entry} (left : mid = none ∨ DirSame old mid)
    (right : new = none ∨ DirSame mid new) : new = none ∨ DirSame old new := by
  rcases right with gone | same
  · exact .inl gone
  · rcases left with gone | same'
    · obtain ⟨attrs, found⟩ := same.left
      rw [gone] at found
      cases found
    · exact .inr (same'.trans same)

theorem PrunedIn.trans (first : PrunedIn loc disk disk') (second : PrunedIn loc disk' disk'') :
    PrunedIn loc disk disk'' :=
  Differs.trans first second fun _ _ _ _ left right => ⟨left.1, pruned_trans left.2 right.2⟩

theorem Pruned.trans (first : Pruned loc disk disk') (second : Pruned loc disk' disk'') :
    Pruned loc disk disk'' := by
  refine Differs.trans first second fun other old mid new left right => ?_
  rcases left with ⟨inside, gone⟩ | ⟨above, same⟩
  · rcases right with ⟨-, gone'⟩ | ⟨-, same'⟩
    · exact .inl ⟨inside, pruned_trans gone gone'⟩
    · exact .inl ⟨inside, pruned_trans gone (.inr same')⟩
  · rcases right with ⟨inside, gone⟩ | ⟨-, same'⟩
    · exact .inl ⟨inside, pruned_trans (.inr same) gone⟩
    · exact .inr ⟨above, same.trans same'⟩

/-! ## Weaker differences -/

theorem MadeDirs.kept (made : MadeDirs loc disk disk') : Kept disk disk' :=
  Differs.mono made fun _ allowed => allowed.2.imp_left And.left

theorem OnlyAt.kept (only : OnlyAt loc disk disk') (new : disk.entry loc = none) :
    Kept disk disk' := by
  refine Differs.mono only fun other allowed => ?_
  rcases allowed with rfl | ⟨-, same⟩
  · exact .inl new
  · exact .inr same

theorem Toward.kept (toward : Toward loc disk disk') (new : disk.entry loc = none) :
    Kept disk disk' := by
  refine Differs.mono toward fun other allowed => ?_
  rcases allowed with ⟨rest, rfl⟩ | ⟨-, kept⟩
  · exact .inl (Disk.below_none new rest)
  · exact kept.imp_left And.left

theorem MadeDirs.toward (made : MadeDirs loc disk disk') : Toward loc disk disk' :=
  Differs.mono made fun _ allowed => .inr allowed

theorem MadeDirs.lower (made : MadeDirs loc disk disk') {low : Loc} (inside : loc <:+ low) :
    MadeDirs low disk disk' :=
  Differs.mono made fun _ allowed => ⟨allowed.1.trans inside, allowed.2⟩

theorem OnlyAt.toward (only : OnlyAt loc disk disk') : Toward loc disk disk' := by
  refine Differs.mono only fun other allowed => ?_
  rcases allowed with rfl | ⟨rfl, same⟩
  · exact .inl List.suffix_rfl
  · exact .inr ⟨List.tail_suffix loc, .inr same⟩

theorem MadeDirs.filled (made : MadeDirs loc disk disk') : Filled loc disk disk' :=
  Differs.mono made fun _ allowed => .inr allowed

/-- A difference of an entry is one below its directory. -/
theorem Toward.filled (toward : Toward (name :: loc) disk disk') : Filled loc disk disk' := by
  refine Differs.mono toward fun other allowed => ?_
  rcases allowed with inside | ⟨above, kept⟩
  · refine .inl ⟨(List.suffix_cons _ _).trans inside, ?_⟩
    rintro rfl
    exact not_suffix_tail inside
  · rcases List.suffix_cons_iff.mp above with rfl | above
    · exact .inl ⟨List.suffix_cons _ _, fun same => Nat.succ_ne_self _ (congrArg List.length same)⟩
    · exact .inr ⟨above, kept⟩

theorem Filled.toward (filled : Filled loc disk disk') : Toward loc disk disk' :=
  Differs.mono filled fun _ allowed => allowed.imp_left And.left

theorem Filled.kept (filled : Filled loc disk disk')
    (empty : ∀ rest, rest ≠ [] → disk.entry (rest ++ loc) = none) : Kept disk disk' := by
  refine Differs.mono filled fun other allowed => ?_
  rcases allowed with ⟨⟨rest, rfl⟩, different⟩ | ⟨-, kept⟩
  · exact .inl (empty rest fun none => different (by rw [none]; rfl))
  · exact kept.imp_left And.left

theorem PrunedIn.pruned (pruned : PrunedIn loc disk disk') : Pruned loc disk disk' :=
  Differs.mono pruned fun _ allowed => .inl allowed

theorem Pruned.above (pruned : Pruned (name :: loc) disk disk') : PrunedIn loc disk disk' := by
  refine Differs.mono pruned fun other allowed => ?_
  rcases allowed with ⟨inside, gone⟩ | ⟨rfl, same⟩
  · exact ⟨(List.suffix_cons _ _).trans inside, gone⟩
  · exact ⟨List.suffix_rfl, .inr same⟩

/-! ## Single entries -/

theorem Toward.outside (toward : Toward loc disk disk') {other : Loc} (apart : Apart loc other) :
    disk'.entry other = disk.entry other := by
  rcases toward.entry other with same | inside | ⟨above, -⟩
  · exact same
  · exact absurd inside apart.1
  · exact absurd above apart.2

theorem Pruned.outside (pruned : Pruned loc disk disk') {other : Loc} (notInside : ¬ loc <:+ other)
    (notAbove : other ≠ loc.tail) : disk'.entry other = disk.entry other := by
  rcases pruned.entry other with same | ⟨inside, -⟩ | ⟨above, -⟩
  · exact same
  · exact absurd inside notInside
  · exact absurd above notAbove

theorem OnlyAt.outside (only : OnlyAt loc disk disk') {other : Loc} (notHere : other ≠ loc)
    (notDir : ¬ IsDir (disk.entry other)) : disk'.entry other = disk.entry other := by
  rcases only.entry other with same | here | ⟨-, same⟩
  · exact same
  · exact absurd here notHere
  · exact absurd same.left notDir

theorem Kept.entry {entry : Entry} (kept : Kept disk disk') (there : disk.entry loc = some entry) :
    disk'.entry loc = some entry ∨ DirSame (disk.entry loc) (disk'.entry loc) := by
  rcases Differs.entry kept loc with same | absent | dir
  · exact .inl (same.trans there)
  · rw [there] at absent
    cases absent
  · exact .inr dir

theorem Kept.isDir (kept : Kept disk disk') (dir : IsDir (disk.entry loc)) :
    IsDir (disk'.entry loc) := by
  obtain ⟨attrs, found⟩ := dir
  rcases kept.entry found with same | same
  · exact ⟨attrs, same⟩
  · exact same.right

/-! ## Paths -/

theorem DirSame.node {old new : Option Entry} (same : DirSame old new) :
    new.map Entry.node = old.map Entry.node := by
  obtain ⟨attrs, attrs', rfl, rfl, -⟩ := same
  rfl

/-- What leads somewhere still does. -/
theorem Kept.grows (kept : Kept disk disk') : disk.tree.Grows disk'.tree := by
  refine ⟨fun loc node found => ?_, rfl⟩
  rw [Disk.tree_node] at found ⊢
  rcases Differs.entry kept loc with same | none | same
  · rw [same, found]
  · rw [none] at found
    cases found
  · rw [same.node, found]

/-- What leads somewhere did before. -/
theorem Pruned.shrinks (pruned : Pruned loc disk disk') : disk'.tree.Grows disk.tree := by
  have gone {loc : Loc} {node : Node Name} {old : Option Entry}
      (found : (disk'.entry loc).map Entry.node = some node)
      (allowed : disk'.entry loc = none ∨ DirSame old (disk'.entry loc)) :
      old.map Entry.node = some node := by
    rcases allowed with none | same
    · rw [none] at found
      cases found
    · rw [← same.node, found]
  refine ⟨fun other node found => ?_, rfl⟩
  rw [Disk.tree_node] at found ⊢
  rcases pruned.entry other with same | ⟨-, allowed⟩ | ⟨-, same⟩
  · rw [← same, found]
  · exact gone found allowed
  · exact gone found (.inr same)

/-- Where only directories are new on the way, a path aims where it did. -/
theorem Toward.aims (toward : Toward loc disk disk') (kept : Kept disk disk') {links : Nat}
    {here : Loc} {comps : List Name} {target : Loc} (outside : ¬ loc <:+ target)
    (aims : disk.tree.Aims [dot] dotdot links here comps target) :
    disk'.tree.Aims [dot] dotdot links here comps target := by
  refine aims.grows kept.grows fun low above absent => ?_
  rw [Disk.tree_none_iff] at absent
  rw [Disk.tree_none_iff, Disk.tree_dir_iff]
  rcases toward.entry low with same | inside | ⟨-, made⟩
  · exact .inl (same.trans absent)
  · exact absurd (inside.trans above) outside
  · exact .inr made.right

/-- The same where only what is below the target is new. -/
theorem Filled.aims (filled : Filled loc disk disk') (kept : Kept disk disk') {links : Nat}
    {here : Loc} {comps : List Name} (aims : disk.tree.Aims [dot] dotdot links here comps loc) :
    disk'.tree.Aims [dot] dotdot links here comps loc := by
  refine aims.grows kept.grows fun low above absent => ?_
  rw [Disk.tree_none_iff] at absent
  rw [Disk.tree_none_iff, Disk.tree_dir_iff]
  rcases filled.entry low with same | ⟨inside, different⟩ | ⟨-, made⟩
  · exact .inl (same.trans absent)
  · exact absurd (above.eq_of_length (le_antisymm above.length_le inside.length_le)) different
  · exact .inr made.right

theorem MadeDirs.aims (made : MadeDirs loc disk disk') {links : Nat} {here : Loc}
    {comps : List Name} {target : Loc}
    (aims : disk.tree.Aims [dot] dotdot links here comps target) :
    disk'.tree.Aims [dot] dotdot links here comps target := by
  refine aims.grows made.kept.grows fun low above absent => ?_
  rw [Disk.tree_none_iff] at absent
  rw [Disk.tree_none_iff, Disk.tree_dir_iff]
  rcases made.entry low with same | ⟨-, dir⟩
  · exact .inl (same.trans absent)
  · exact .inr dir.right

end Rules

end Ucb.Fs
