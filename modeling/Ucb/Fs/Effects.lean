import Ucb.Fs.Rules

/-!
Contract: what single calls leave of a disk.

Owns:
- where a new entry fits, and where one can be taken away;
- the difference that a changed entry makes;
- rules for the calls that ask, make and remove.
-/

namespace Ucb.Fs

open Ucb.Lib Ucb.Path

/-! ## Changed entries -/

abbrev JustAt (loc : Loc) : Disk → Disk → Prop :=
  Differs fun other _ _ => other = loc

section Changes

variable {host : Host} {disk disk' disk'' : Disk} {path : List UInt8} {loc : Loc}

theorem JustAt.trans (first : JustAt loc disk disk') (second : JustAt loc disk' disk'') :
    JustAt loc disk disk'' :=
  Differs.trans first second fun _ _ _ _ here _ => here

theorem JustAt.onlyAt (just : JustAt loc disk disk') : OnlyAt loc disk disk' :=
  Differs.mono just fun _ here => .inl here

theorem JustAt.entry (just : JustAt loc disk disk') {other : Loc} (different : other ≠ loc) :
    disk'.entry other = disk.entry other :=
  (Differs.entry just other).resolve_right different

theorem fits_new (vacant : host.vacant disk path = .ok loc) (entry : Entry) :
    disk.Fits loc (some entry) := by
  obtain ⟨slot, none⟩ := Host.vacant_iff.mp vacant
  obtain ⟨root, named⟩ := Host.spot_named slot
  exact ⟨root, fun _ => Host.spot_above slot, fun _ => named,
    fun _ name => disk.below_none none [name]⟩

/-- An entry with nothing below it can be taken away. -/
theorem fits_gone (slot : host.spot disk path = .ok (.slot loc))
    (empty : ∀ name, disk.entry (name :: loc) = none) : disk.Fits loc none :=
  ⟨(Host.spot_named slot).1, fun absent => absurd rfl absent, fun absent => absurd rfl absent,
    fun _ => empty⟩

theorem dirSame_touch {item : Option Entry} (dir : IsDir item) (time : Int) :
    DirSame item (item.map (.touch time)) := by
  obtain ⟨attrs, rfl⟩ := dir
  exact ⟨attrs, _, rfl, rfl, rfl⟩

theorem touch_not_dir {item : Option Entry} (notDir : ¬ IsDir item) (time : Int) :
    item.map (.touch time) = item := by
  cases item with
  | none => rfl
  | some entry =>
      cases entry with
      | dir attrs => exact absurd ⟨attrs, rfl⟩ notDir
      | file bytes attrs => rfl
      | link target => rfl
      | other attrs => rfl

/-- A touched entry is the same, or a directory that is the same but for its time. -/
theorem touch_cases (disk : Disk) (touched : Loc) (time : Int) (other : Loc) :
    (disk.touch touched time).entry other = disk.entry other ∨
      (other = touched ∧ DirSame (disk.entry other) ((disk.touch touched time).entry other)) := by
  rw [Disk.touch_entry]
  split
  next here =>
    by_cases dir : IsDir (disk.entry other)
    · exact .inr ⟨here, dirSame_touch dir time⟩
    · exact .inl (touch_not_dir dir time)
  next => exact .inl rfl

variable {new : Option Entry} {time : Int} {fits : disk.Fits loc new}

theorem change_here : (disk.change loc new time fits).entry loc = new := by
  rw [Disk.change, Disk.touch_entry, if_neg (ne_tail fits.root), Disk.replace_entry, if_pos rfl]

theorem change_onlyAt : OnlyAt loc disk (disk.change loc new time fits) := by
  refine ⟨rfl, fun other => ?_⟩
  by_cases here : other = loc
  · exact .inr (.inl here)
  · have before : (disk.replace loc new fits).entry other = disk.entry other := by
      rw [Disk.replace_entry, if_neg here]
    rcases touch_cases (disk.replace loc new fits) loc.tail time other with same | ⟨above, same⟩
    · exact .inl (same.trans before)
    · rw [before] at same
      exact .inr (.inr ⟨above, same⟩)

/-- A new directory is a directory made on the way to it. -/
theorem OnlyAt.madeDirs (only : OnlyAt loc disk disk') (none : disk.entry loc = none)
    (dir : IsDir (disk'.entry loc)) : MadeDirs loc disk disk' := by
  refine Differs.mono only fun other allowed => ?_
  rcases allowed with rfl | ⟨rfl, same⟩
  · exact ⟨List.suffix_rfl, .inl ⟨none, dir⟩⟩
  · exact ⟨List.tail_suffix loc, .inr same⟩

theorem OnlyAt.pruned (only : OnlyAt loc disk disk') (none : disk'.entry loc = none) :
    Pruned loc disk disk' := by
  refine Differs.mono only fun other allowed => ?_
  rcases allowed with rfl | above
  · exact .inl ⟨List.suffix_rfl, .inl none⟩
  · exact .inr above

/-! ## Adjusted entries -/

theorem adjust_justAt (disk : Disk) (loc : Loc) (change : Entry → Entry)
    (keeps : ∀ entry, (change entry).node = entry.node) :
    JustAt loc disk (disk.adjust loc change keeps) := by
  refine ⟨rfl, fun other => ?_⟩
  by_cases here : other = loc
  · exact .inr here
  · exact .inl (by rw [Disk.adjust_entry, if_neg here])

theorem adjust_here (disk : Disk) (loc : Loc) (change : Entry → Entry)
    (keeps : ∀ entry, (change entry).node = entry.node) :
    (disk.adjust loc change keeps).entry loc = (disk.entry loc).map change := by
  rw [Disk.adjust_entry, if_pos rfl]

/-- Every path is read the same on two disks. -/
structure SamePaths (disk disk' : Disk) : Prop where
  cwd : disk'.cwd = disk.cwd
  tree : disk'.tree = disk.tree

theorem tree_eq (same : ∀ loc, disk'.tree.node loc = disk.tree.node loc) :
    disk'.tree = disk.tree := by
  have nodes : disk'.tree.node = disk.tree.node := funext same
  simp only [Disk.tree, FileTree.mk.injEq] at nodes ⊢
  exact ⟨nodes, trivial⟩

theorem adjust_samePaths (disk : Disk) (loc : Loc) (change : Entry → Entry)
    (keeps : ∀ entry, (change entry).node = entry.node) :
    SamePaths disk (disk.adjust loc change keeps) := by
  refine ⟨rfl, tree_eq fun other => ?_⟩
  rw [Disk.tree_node, Disk.tree_node, Disk.adjust_entry]
  split
  · rw [Option.map_map]
    exact congrArg (fun node => (disk.entry other).map node) (funext keeps)
  · rfl

theorem setAttrs_justAt (disk : Disk) (loc : Loc) (change : Attrs → Attrs) :
    JustAt loc disk (disk.setAttrs loc change) :=
  adjust_justAt disk loc _ (Entry.node_setAttrs change)

theorem setAttrs_here (disk : Disk) (loc : Loc) (change : Attrs → Attrs) :
    (disk.setAttrs loc change).entry loc = (disk.entry loc).map (.setAttrs change) :=
  adjust_here disk loc _ (Entry.node_setAttrs change)

theorem setAttrs_samePaths (disk : Disk) (loc : Loc) (change : Attrs → Attrs) :
    SamePaths disk (disk.setAttrs loc change) :=
  adjust_samePaths disk loc _ (Entry.node_setAttrs change)

theorem SamePaths.start (same : SamePaths disk disk') :
    Host.start disk' path = Host.start disk path := by
  have dir : IsDir (disk'.entry disk.cwd) ↔ IsDir (disk.entry disk.cwd) := by
    rw [← Disk.tree_dir_iff, ← Disk.tree_dir_iff, same.tree]
  simp only [Host.start, same.cwd, dir]

theorem SamePaths.reaches (same : SamePaths disk disk') :
    host.reaches disk' path = host.reaches disk path := by
  have absent (loc : Loc) : disk'.entry loc = none ↔ disk.entry loc = none := by
    rw [← Disk.tree_none_iff, ← Disk.tree_none_iff, same.tree]
  simp only [Host.reaches, Host.final, same.start, same.tree, absent]

end Changes

/-! ## Calls that ask -/

section Ask

variable {host : Host} {inv : Disk → Prop} {system : System} {path : List UInt8}

/-- `lstat` says what is there, or why nothing is. -/
theorem ensured_kind {ok : UcbFsKind → System → Prop} {failed : UcbError → System → Prop}
    (here : inv system.disk)
    (found : ∀ loc entry, host.finds system.disk path = .ok loc →
      system.disk.entry loc = some entry → ok entry.kind system)
    (refused : ∀ error, (error.code = .errsysEnoent →
        host.finds system.disk path = .error .missing) →
      (host.reliable = true → ∃ refusal, host.finds system.disk path = .error refusal ∧
        error.code = refusalCode refusal) → failed error system) :
    Ensured host inv (platform (.kind path true) rfl) system ok failed := by
  refine ensured_platform (fun _ _ reply => reply) here ?_ ?_
  · rintro kind after ⟨rfl, loc, entry, finds, there, rfl⟩
    exact ⟨here, found loc entry finds there⟩
  · intro error truthful unable
    have why : host.refusal system.disk (.kind path true) =
        whyNot (host.finds system.disk path) := rfl
    refine refused error (fun missing => ?_) fun reliable => ?_
    · have absent := truthful.missing missing
      rw [why] at absent
      cases finds : host.finds system.disk path with
      | ok loc =>
          rw [finds] at absent
          cases absent
      | error refusal =>
          rw [finds] at absent
          rw [Option.some.inj absent]
    · cases finds : host.finds system.disk path with
      | ok loc =>
          obtain ⟨entry, there⟩ := Option.ne_none_iff_exists'.mp (Host.finds_ne_none finds)
          exact absurd ⟨rfl, loc, entry, finds, there, rfl⟩ (unable reliable entry.kind system)
      | error refusal =>
          refine ⟨refusal, rfl, truthful.told reliable refusal ?_⟩
          rw [why, finds]
          rfl

theorem ensured_kindExists {ok : Option UcbFsKind → System → Prop}
    {failed : UcbError → System → Prop} (here : inv system.disk)
    (found : ∀ loc entry, host.finds system.disk path = .ok loc →
      system.disk.entry loc = some entry → ok (some entry.kind) system)
    (absent : host.finds system.disk path = .error .missing → ok none system)
    (refused : ∀ error, (host.reliable = true → ∃ refusal, refusal ≠ .missing ∧
      host.finds system.disk path = .error refusal) → failed error system) :
    Ensured host inv (fsKindExists path true) system ok failed := by
  refine ensured_bind (ensured_outcome (ensured_kind here ?_ ?_))
  · intro loc entry finds there
    exact ensured_pure (found loc entry finds there)
  · intro error missing told
    show Ensured host inv (if error.code = .errsysEnoent then pure none else throw error) _ _ _
    split
    next isMissing => exact ensured_pure (absent (missing isMissing))
    next notMissing =>
      refine ensured_throw (refused error fun reliable => ?_)
      obtain ⟨refusal, finds, code⟩ := told reliable
      refine ⟨refusal, fun isMissing => notMissing ?_, finds⟩
      rw [code, isMissing]
      rfl

end Ask

/-! ## Calls that remove -/

section Remove

variable {host : Host} {inv : Disk → Prop} {system : System} {path : List UInt8}
  {ok : Unit → System → Prop} {failed : UcbError → System → Prop}

/-- `unlink` takes an entry away that is no directory. -/
theorem ensured_removeFile (here : inv system.disk)
    (done : ∀ loc after, host.spot system.disk path = .ok (.slot loc) →
      system.disk.entry loc ≠ none → ¬ IsDir (system.disk.entry loc) →
      OnlyAt loc system.disk after → after.entry loc = none →
      inv after ∧ ok () (system.on after))
    (refused : ∀ error, (host.reliable = true → ∀ loc, host.finds system.disk path = .ok loc →
      IsDir (system.disk.entry loc)) → failed error system) :
    Ensured host inv (platform (.removeFile path) rfl) system ok failed := by
  refine ensured_platform (fun _ _ reply => reply) here ?_ ?_
  · rintro value after ⟨loc, entry, time, fits, slot, there, notDir, rfl⟩
    rw [← there] at notDir
    exact done loc _ slot (by rw [there]; exact Option.some_ne_none _) notDir change_onlyAt
      change_here
  · intro error truthful unable
    refine refused error fun reliable loc finds => ?_
    by_contra notDir
    have slot := Host.slot_of_finds finds notDir
    obtain ⟨entry, there⟩ := Option.ne_none_iff_exists'.mp (Host.finds_ne_none finds)
    have fits : system.disk.Fits loc none :=
      fits_gone slot fun name => Disk.below_of_not_dir notDir (List.cons_ne_nil name [])
    rw [there] at notDir
    exact unable reliable () _ ⟨loc, entry, 0, fits, slot, there, notDir, rfl⟩

/-- `rmdir` takes a directory away that has no entries. -/
theorem ensured_removeDir (here : inv system.disk)
    (done : ∀ loc after, host.spot system.disk path = .ok (.slot loc) →
      IsDir (system.disk.entry loc) → OnlyAt loc system.disk after → after.entry loc = none →
      inv after ∧ ok () (system.on after))
    (refused : ∀ error, (host.reliable = true → ∀ loc,
      host.spot system.disk path = .ok (.slot loc) → IsDir (system.disk.entry loc) →
      ∃ name, system.disk.entry (name :: loc) ≠ none) → failed error system) :
    Ensured host inv (platform (.removeDir path) rfl) system ok failed := by
  refine ensured_platform (fun _ _ reply => reply) here ?_ ?_
  · rintro value after ⟨loc, time, fits, slot, dir, rfl⟩
    exact done loc _ slot dir change_onlyAt change_here
  · intro error truthful unable
    refine refused error fun reliable loc slot dir => ?_
    by_contra none
    have fits : system.disk.Fits loc .none :=
      fits_gone slot fun name => by
        by_contra some
        exact none ⟨name, some⟩
    exact unable reliable () _ ⟨loc, 0, fits, slot, dir, rfl⟩

end Remove

end Ucb.Fs
