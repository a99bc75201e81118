import Ucb.Fs.RemoveTree
import Ucb.Fs.MakePath

/-!
Contract: `ucb_fs_move` loses nothing.

Owns:
- what a rename has done;
- a move to another device, which copies and then removes;
- that at any time the source is as it was, or everything of it is at the destination.

A rename says that the devices differ only where they do.
-/

namespace Ucb.Fs

open Ucb.Lib Ucb.Path

/-! ## What a move may leave -/

def Destination (host : Host) (disk : Disk) (path : List UInt8) (loc : Loc) : Prop :=
  AimsAt host disk path loc ∨ host.spot disk path = .ok (.slot loc)

/-- What is below one location is below another one on the other disk, with its contents and
attributes. -/
def Arrived (disk : Disk) (origin : Loc) (disk' : Disk) (loc : Loc) : Prop :=
  ∀ rest, disk'.entry (rest ++ loc) = disk.entry (rest ++ origin)

/-- Everything is kept but what is moved and what is at its destination. -/
abbrev Others (origin loc : Loc) : Disk → Disk → Prop :=
  Differs fun other old new => other = loc ∨ origin <:+ other ∨ old = none ∨ DirSame old new

/-- Everything of the source has arrived. -/
structure Delivered (host : Host) (dst : List UInt8) (origin loc : Loc) (disk disk' : Disk) :
    Prop where
  destination : Destination host disk dst loc
  arrived : Arrived disk origin disk' loc
  others : Others origin loc disk disk'

/-- The source is as it was, or everything of it has arrived. -/
def Safe (host : Host) (dst : List UInt8) (origin : Loc) (disk disk' : Disk) : Prop :=
  (Kept disk disk' ∧ Arrived disk origin disk' origin) ∨
    ∃ loc, Delivered host dst origin loc disk disk'

/-- Everything has arrived, and the source is gone. -/
def Done (host : Host) (dst : List UInt8) (origin : Loc) (disk disk' : Disk) : Prop :=
  ∃ loc, Delivered host dst origin loc disk disk' ∧ (disk'.entry origin = none ∨ loc = origin)

section Safe

variable {host : Host} {dst : List UInt8} {disk disk' disk'' : Disk} {origin loc : Loc}

theorem Safe.refl (host : Host) (dst : List UInt8) (origin : Loc) (disk : Disk) :
    Safe host dst origin disk disk :=
  .inl ⟨.refl _ _, fun _ => rfl⟩

theorem Done.safe (done : Done host dst origin disk disk') : Safe host dst origin disk disk' :=
  .inr (done.imp fun _ both => both.1)

theorem Delivered.of_careless (delivered : Delivered host.careless dst origin loc disk disk') :
    Delivered host dst origin loc disk disk' :=
  ⟨delivered.destination, delivered.arrived, delivered.others⟩

theorem Safe.of_careless (safe : Safe host.careless dst origin disk disk') :
    Safe host dst origin disk disk' :=
  safe.imp_right fun some => some.imp fun _ delivered => delivered.of_careless

theorem Done.of_careless (done : Done host.careless dst origin disk disk') :
    Done host dst origin disk disk' :=
  done.imp fun _ both => ⟨both.1.of_careless, both.2⟩

/-- What has arrived stays when the source is removed. -/
theorem Delivered.pruned (delivered : Delivered host dst origin loc disk disk')
    (apart : Apart origin loc) (pruned : Pruned origin disk' disk'') :
    Delivered host dst origin loc disk disk'' := by
  refine ⟨delivered.destination, fun rest => ?_, pruned.cwd.trans delivered.others.cwd,
    fun other => ?_⟩
  · rw [← delivered.arrived rest]
    refine pruned.outside (apart.below [] rest).1 fun above => apart.2 ?_
    exact (show loc <:+ origin.tail from ⟨rest, above⟩).trans (List.tail_suffix origin)
  · rcases pruned.entry other with same | ⟨inside, -⟩ | ⟨-, dir⟩
    · rw [same]
      exact delivered.others.entry other
    · exact .inr (.inr (.inl inside))
    · rcases delivered.others.entry other with same | here | inside | none | dir'
      · rw [same] at dir
        exact .inr (.inr (.inr (.inr dir)))
      · exact .inr (.inl here)
      · exact .inr (.inr (.inl inside))
      · exact .inr (.inr (.inr (.inl none)))
      · exact .inr (.inr (.inr (.inr (dir'.trans dir))))

end Safe

/-! ## A rename -/

section Rename

variable {disk : Disk} {old new : Loc}

theorem move_others (movable : disk.Movable old new) (left entered : Int) :
    Others old new disk
      (((disk.move old new movable).touch old.tail left).touch new.tail entered) := by
  obtain ⟨-, -, outside⟩ := move_arrived movable left entered
  refine ⟨rfl, fun other => ?_⟩
  by_cases inNew : new <:+ other
  · obtain ⟨rest, rfl⟩ := inNew
    by_cases here : rest = []
    · exact .inr (.inl (by rw [here]; rfl))
    · exact .inr (.inr (.inr (.inl (movable.below here))))
  · by_cases inOld : old <:+ other
    · exact .inr (.inr (.inl inOld))
    · exact (outside other inNew inOld).imp_right fun same => .inr (.inr (.inr same))

end Rename

/-! ## What is to be done -/

/-- What is moved, by canonical paths. It has no special files, and does not get into itself; a link
gets where there is nothing. -/
structure MoveJob (host : Host) (disk : Disk) (src dst : List UInt8) (origin : Loc) : Prop where
  srcPath : ∃ lead comps, Canonical lead comps src
  dstPath : ∃ lead comps, Canonical lead comps dst
  srcCanon : ucbFsCanon host.conf src = src
  dstCanon : ucbFsCanon host.conf dst = dst
  finds : host.finds disk src = .ok origin
  plain : Plain disk origin
  outside : ∀ target, AimsAt host disk dst target → ¬ origin <:+ target
  fresh : (∃ target, disk.entry origin = some (.link target)) →
    host.finds disk dst = .error .missing

section Moves

variable {host : Host} {inv : Disk → Prop} {system : System} {src dst : List UInt8} {origin : Loc}
  {flags : UcbFsFlags} {fuel : Nat}

theorem ensured_rename (job : MoveJob host system.disk src dst origin) (overwrite : Bool)
    (here : inv system.disk)
    (keeps : ∀ disk, Done host dst origin system.disk disk → inv disk) :
    Ensured host inv (platform (.rename src dst overwrite) rfl) system
      (fun _ after => Done host dst origin system.disk after.disk)
      (fun error after => after = system ∧
        (error.code = errsysExdev → ¬ host.SameDevice system.disk src dst)) := by
  refine ensured_platform (fun _ _ reply => reply) here ?_ ?_
  · rintro value after ⟨-, old, new, slotOld, slotNew, ⟨rfl, some, rfl⟩ | moved⟩
    · -- both paths name the same entry
      have same := Host.finds_iff.mpr (.inr ⟨slotOld, some⟩)
      obtain rfl : old = origin := Except.ok.inj (same.symm.trans job.finds)
      have done : Done host dst old after.disk after.disk :=
        ⟨old, ⟨.inr slotNew, fun _ => rfl, .refl _ _⟩, .inr rfl⟩
      exact ⟨here, done⟩
    · obtain ⟨movable, left, entered, -, rfl⟩ := moved
      have same := Host.finds_iff.mpr (.inr ⟨slotOld, movable.there⟩)
      obtain rfl : old = origin := Except.ok.inj (same.symm.trans job.finds)
      obtain ⟨arrived, gone, -⟩ := move_arrived movable left entered
      have done : Done host dst old system.disk
          (((system.disk.move old new movable).touch old.tail left).touch new.tail entered) :=
        ⟨new, ⟨.inr slotNew, arrived, move_others movable left entered⟩, .inl gone⟩
      exact ⟨keeps _ done, done⟩
  · intro error truthful unable
    exact ⟨rfl, truthful.device src dst overwrite rfl⟩

/-! ## A move to another device -/

/-- A copied file leaves the path of the source as it was. -/
theorem MoveJob.findsOnly {disk disk' : Disk} (job : MoveJob host disk src dst origin) {loc : Loc}
    {entry : Entry} (there : disk.entry origin = some entry) (notDir : ¬ IsDir (some entry))
    (slot : host.spot disk dst = .ok (.slot loc)) (put : Put loc disk disk')
    (arrived : disk'.entry loc = some entry) : FindsOnly host disk' src origin := by
  intro found finds
  by_cases absent : disk.entry loc = none
  · have kept : Kept disk disk' := Differs.mono put fun other allowed => by
      rcases allowed with rfl | same
      · exact .inl absent
      · exact .inr same
    exact Except.ok.inj (finds.symm.trans (kept.extends_.finds job.finds))
  · -- the new file is in no other place of a path than at its end
    have file : ∃ bytes attrs, entry = .file bytes attrs := by
      cases entry with
      | dir attrs => exact absurd ⟨attrs, rfl⟩ notDir
      | file bytes attrs => exact ⟨bytes, attrs, rfl⟩
      | other attrs => exact absurd there (job.plain [] attrs)
      | link target =>
          have missing := job.fresh ⟨target, there⟩
          rw [Host.finds_iff.mpr (.inr ⟨slot, absent⟩)] at missing
          cases missing
    obtain ⟨bytes, attrs, rfl⟩ := file
    have passes : disk'.tree.Passes disk.tree := by
      intro other node isNode through
      rw [Disk.tree_node] at isNode ⊢
      rcases Differs.entry put other with same | rfl | dir
      · rw [← same, isNode]
      · rw [arrived] at isNode
        obtain rfl : Node.file = node := Option.some.inj isNode
        rcases through with absurd_ | ⟨rooted, target, absurd_⟩
        · cases absurd_
        · cases absurd_
      · rw [← dir.node, isNode]
    rw [← there] at notDir
    have ends := Host.slot_of_finds job.finds notDir
    rcases Host.finds_iff.mp finds with inside | ⟨slot', -⟩
    · have same := (spot_of_passes put.cwd passes inside).symm.trans ends
      cases same
    · have same := (spot_of_passes put.cwd passes slot').symm.trans ends
      exact Spot.slot.inj (Except.ok.inj same)

/-- A source that is no directory is apart from its destination. -/
theorem apart_of_slot {disk : Disk} {loc : Loc} (some : disk.entry origin ≠ none)
    (notDir : ¬ IsDir (disk.entry origin)) (slot : host.spot disk dst = .ok (.slot loc))
    (notDir' : ¬ IsDir (disk.entry loc)) (different : loc ≠ origin) : Apart origin loc := by
  constructor
  · rintro ⟨rest, rfl⟩
    have dir := Host.spot_above slot
    cases rest with
    | nil => exact different rfl
    | cons name rest =>
        cases rest with
        | nil => exact notDir dir
        | cons name' rest =>
            obtain ⟨attrs, found⟩ := dir
            have none := Disk.below_of_not_dir notDir (List.cons_ne_nil name' rest)
            rw [List.cons_append, List.tail_cons] at found
            cases none.symm.trans found
  · rintro ⟨rest, rfl⟩
    refine notDir' (Disk.above_dir some fun none => different ?_)
    rw [none]
    rfl

/-- A file or a link is copied and then removed. -/
theorem ensured_moveFile (unreliable : host.reliable = false)
    (noFollow : flags.follow = false)
    (job : MoveJob host system.disk src dst origin) {entry : Entry}
    (there : system.disk.entry origin = some entry) (notDir : ¬ IsDir (some entry))
    (across : ¬ host.SameDevice system.disk src dst)
    (keeps : ∀ disk, Safe host dst origin system.disk disk → inv disk) :
    Ensured host inv (moveAcross host.conf fuel src dst entry.kind flags) system
      (fun _ after => Done host dst origin system.disk after.disk)
      (fun _ after => Safe host dst origin system.disk after.disk) := by
  have notDirKind : entry.kind ≠ .dir := mt (kind_dir_iff entry).mp notDir
  have notDirOrigin : ¬ IsDir (system.disk.entry origin) := by
    rw [there]
    exact notDir
  have someOrigin := Host.finds_ne_none job.finds
  have keptSafe (disk : Disk) (kept : Kept system.disk disk) :
      Safe host dst origin system.disk disk := by
    have same : disk.entry origin = system.disk.entry origin := by
      rcases kept.entry there with same | dir
      · rw [same, there]
      · exact absurd dir.left notDirOrigin
    refine .inl ⟨kept, fun rest => ?_⟩
    by_cases top : rest = []
    · rw [top]
      exact same
    · rw [Disk.below_of_not_dir notDirOrigin top,
        Disk.below_of_not_dir (by rw [same]; exact notDirOrigin) top]
  -- what a copy has done
  have copied {disk : Disk} (done : Copied host (ucbFsCanon host.conf src)
      (ucbFsCanon host.conf dst) system.disk disk) :
      ∃ loc, Delivered host dst origin loc system.disk disk ∧ Apart origin loc ∧
        FindsOnly host disk src origin ∧ ¬ IsDir (disk.entry origin) := by
    rw [job.srcCanon, job.dstCanon] at done
    obtain ⟨origin', entry', loc, finds, there', -, slot, notDirLoc, put, copies⟩ := done
    obtain rfl : origin = origin' := Except.ok.inj (job.finds.symm.trans finds)
    obtain rfl : entry = entry' := Option.some.inj (there.symm.trans there')
    have different : loc ≠ origin := by
      rintro rfl
      exact across ⟨loc, loc, Host.slot_of_finds job.finds notDirOrigin, slot, rfl⟩
    have arrived : disk.entry loc = some entry :=
      copies.2 fun attrs special => job.plain [] attrs (by rw [← special]; exact there)
    have apart := apart_of_slot someOrigin notDirOrigin slot notDirLoc different
    refine ⟨loc, ⟨.inr slot, fun rest => ?_, put.cwd, fun other => ?_⟩, apart,
      job.findsOnly there notDir slot put arrived, ?_⟩
    · by_cases top : rest = []
      · rw [top]
        exact arrived.trans there.symm
      · rw [Disk.below_of_not_dir notDirOrigin top,
          Disk.below_of_not_dir (by rw [arrived]; exact notDir) top]
    · rcases Differs.entry put other with same | here | dir
      · exact .inl same
      · exact .inr (.inl here)
      · exact .inr (.inr (.inr (.inr dir)))
    · rcases Differs.entry put origin with same | here | dir
      · rw [same]
        exact notDirOrigin
      · exact absurd here.symm different
      · exact absurd dir.left notDirOrigin
  have here : inv system.disk := keeps _ (.refl _ _ _ _)
  rw [moveAcross, if_neg notDirKind, if_neg notDirKind]
  refine ensured_bind ((ensured_copyFile host.conf unreliable noFollow
    (fun disk kept => keeps disk (keptSafe disk kept)) fun disk done => ?_).mono ?_ ?_)
  · obtain ⟨loc, delivered, -⟩ := copied done
    exact keeps disk (.inr ⟨loc, delivered⟩)
  · rintro - mid ⟨-, done⟩
    obtain ⟨loc, delivered, apart, only, notDirMid⟩ := copied done
    have safe : Safe host dst origin system.disk mid.disk := .inr ⟨loc, delivered⟩
    obtain ⟨lead, comps, srcPath⟩ := job.srcPath
    rw [ucbFsRemove]
    refine ensured_bind (ensured_checkPath (fun _ => ?_) fun _ empty =>
      absurd empty srcPath.nonempty)
    dsimp only
    rw [job.srcCanon]
    refine ensured_bind (ensured_kind (keeps _ safe) ?_ fun _ _ _ => safe)
    intro found entry' finds found'
    obtain rfl := only found finds
    rw [found'] at notDirMid
    rw [if_neg (mt (kind_dir_iff entry').mp notDirMid)]
    refine ensured_removeFile (keeps _ safe) ?_ fun _ _ => safe
    intro loc' disk slot some _ onlyAt gone
    obtain rfl := only loc' (Host.finds_iff.mpr (.inr ⟨slot, some⟩))
    have delivered' := delivered.pruned apart (onlyAt.pruned gone)
    have done' : Done host dst loc' system.disk disk := ⟨loc, delivered', .inl gone⟩
    exact ⟨keeps _ done'.safe, done'⟩
  · rintro error after ⟨-, kept⟩
    exact keptSafe _ kept

/-- A directory is not copied to a path that does not lead to one. -/
theorem ensured_copyTree_unaimed (posix : WritesSlash host.conf)
    (unreliable : host.reliable = false)
    (job : MoveJob host system.disk src dst origin)
    (missing : host.finds system.disk dst = .error .missing)
    (here : inv system.disk) (unaimed : ∀ target, ¬ AimsAt host system.disk dst target) :
    Ensured host inv (ucbFsCopyTree host.conf fuel src dst flags) system (fun _ _ => False)
      (fun _ after => after = system) := by
  obtain ⟨lead, comps, dstPath⟩ := job.dstPath
  rw [ucbFsCopyTree, job.srcCanon, job.dstCanon]
  refine ensured_bind (ensured_checkPath (fun _ => ?_) fun _ _ => rfl)
  refine ensured_bind (ensured_checkPath (fun _ => ?_) fun _ _ => rfl)
  dsimp only
  split
  · exact ensured_throw rfl
  · refine ensured_bind (ensured_platform (fun _ _ reply => reply) here ?_ fun _ _ _ => rfl)
    rintro kind after ⟨rfl, -⟩
    refine ⟨here, ?_⟩
    split
    · exact ensured_throw rfl
    · refine ensured_bind (ensured_kindExists here ?_ ?_ fun _ _ => rfl)
      · intro loc entry finds
        rw [missing] at finds
        cases finds
      · intro _
        exact ensured_bind ((ensured_mkdirP_unaimed posix unreliable here dstPath.toComposed
          dstPath.parentsFirst unaimed).mono (fun _ _ absent => absent.elim) fun _ _ same => same)

/-- A directory is copied with everything in it and then removed. -/
theorem ensured_moveDir (posix : WritesSlash host.conf) (unreliable : host.reliable = false)
    (noFollow : flags.follow = false) (job : MoveJob host system.disk src dst origin)
    (dir : IsDir (system.disk.entry origin))
    (missing : host.finds system.disk dst = .error .missing)
    (keeps : ∀ disk, Safe host dst origin system.disk disk → inv disk) :
    Ensured host inv (moveAcross host.conf fuel src dst .dir flags) system
      (fun _ after => Done host dst origin system.disk after.disk)
      (fun _ after => Safe host dst origin system.disk after.disk) := by
  obtain ⟨lead, comps, srcPath⟩ := job.srcPath
  obtain ⟨lead', comps', dstPath⟩ := job.dstPath
  have here : inv system.disk := keeps _ (.refl _ _ _ _)
  rw [moveAcross, if_pos rfl, if_pos rfl]
  by_cases aimed : ∃ target, AimsAt host system.disk dst target
  · obtain ⟨target, aims⟩ := aimed
    have absent : system.disk.entry target = none := by
      rcases aims.cases with isDir | none
      · obtain ⟨found, finds⟩ := Host.finds_of_leads (aims.leads_of_dir isDir)
        cases missing.symm.trans finds
      · exact none
    have treeJob : TreeJob host system.disk src dst origin target := by
      refine ⟨srcPath.nonempty, dstPath.nonempty, ?_, ?_, absent, job.outside target aims⟩
      · rw [job.srcCanon]
        exact Host.leads_of_finds job.finds dir
      · rw [job.dstCanon]
        exact aims
    have copyJob := treeJob.copyJob posix
    have towardSafe (disk : Disk) (toward : Toward target system.disk disk) :
        Safe host dst origin system.disk disk :=
      .inl ⟨toward.kept absent, copyJob.source toward⟩
    refine ensured_bind ((ensured_copyTree posix noFollow treeJob
      (fun disk toward => keeps disk (towardSafe disk toward)) fun reliable => ?_).mono ?_ ?_)
    · rw [unreliable] at reliable
      cases reliable
    · rintro - mid ⟨-, toward, matches_⟩
      have kept := toward.kept absent
      have delivered : Delivered host dst origin target system.disk mid.disk := by
        refine ⟨.inl aims, fun rest => (matches_ rest).eq (job.plain rest), kept.cwd,
          fun other => ?_⟩
        exact (Differs.entry kept other).imp_right fun allowed => .inr (.inr allowed)
      have safe (disk : Disk) (pruned : Pruned origin mid.disk disk) :
          Delivered host dst origin target system.disk disk := delivered.pruned copyJob.apart pruned
      have finds : host.finds mid.disk (ucbFsCanon host.conf src) = .ok origin := by
        rw [job.srcCanon]
        exact kept.extends_.finds job.finds
      refine (ensured_removeAll posix srcPath.nonempty finds
        (fun disk pruned => keeps disk (.inr ⟨target, safe disk pruned⟩)) fun reliable => ?_).mono
          ?_ ?_
      · rw [unreliable] at reliable
        cases reliable
      · rintro - after ⟨pruned, -, gone⟩
        exact ⟨target, safe _ pruned, .inl gone⟩
      · rintro error after ⟨-, pruned⟩
        exact .inr ⟨target, safe _ pruned⟩
    · rintro error after ⟨-, -, toward⟩
      exact towardSafe _ toward
  · refine ensured_bind ((ensured_copyTree_unaimed posix unreliable job missing here
      fun target aims => aimed ⟨target, aims⟩).mono (fun _ _ absent => absent.elim) ?_)
    rintro error after rfl
    exact .refl _ _ _ _

end Moves

/-! ## The whole function -/

section Move

variable {host : Host} {inv : Disk → Prop} {system last : System} {src dst : List UInt8}
  {origin : Loc} {flags : UcbFsFlags} {fuel : Nat} {visited : List System}
  {result : Option (Except UcbError Unit)}

/-- A rename, or a copy and a removal where the devices differ. -/
theorem ensured_moveChecked (posix : WritesSlash host.conf) (unreliable : host.reliable = false)
    (noFollow : flags.follow = false)
    (job : MoveJob host system.disk src dst origin) {entry : Entry}
    (there : system.disk.entry origin = some entry)
    (free : IsDir (some entry) → host.finds system.disk dst = .error .missing)
    (keeps : ∀ disk, Safe host dst origin system.disk disk → inv disk) :
    Ensured host inv (moveChecked host.conf fuel src dst entry.kind flags) system
      (fun _ after => Done host dst origin system.disk after.disk)
      (fun _ after => Safe host dst origin system.disk after.disk) := by
  have stays : Safe host dst origin system.disk system.disk := .refl _ _ _ _
  rw [moveChecked]
  refine ensured_bind (ensured_outcome ((ensured_rename job flags.overwrite (keeps _ stays)
    fun disk done => keeps disk done.safe).mono ?_ ?_))
  · rintro - after done
    exact ensured_pure done
  · rintro error after ⟨rfl, across⟩
    show Ensured host inv (if error.code ≠ errsysExdev then _ else _) _ _ _
    split
    next => exact ensured_throw stays
    next isDevice =>
      by_cases dir : IsDir (some entry)
      · rw [(kind_dir_iff entry).mpr dir]
        exact ensured_moveDir posix unreliable noFollow job (by rw [there]; exact dir) (free dir)
          keeps
      · exact ensured_moveFile unreliable noFollow job there dir
          (across (not_not.mp isDevice)) keeps

theorem ensured_move (posix : WritesSlash host.conf) (unreliable : host.reliable = false)
    (noFollow : flags.follow = false)
    (job : MoveJob host system.disk (ucbFsCanon host.conf src) (ucbFsCanon host.conf dst) origin)
    (keeps : ∀ disk, Safe host (ucbFsCanon host.conf dst) origin system.disk disk → inv disk) :
    Ensured host inv (ucbFsMove host.conf fuel src dst flags) system
      (fun _ after => Done host (ucbFsCanon host.conf dst) origin system.disk after.disk)
      (fun _ after => Safe host (ucbFsCanon host.conf dst) origin system.disk after.disk) := by
  have stays : Safe host (ucbFsCanon host.conf dst) origin system.disk system.disk := .refl _ _ _ _
  have here : inv system.disk := keeps _ stays
  have failed {run : FsM Unit} {error : UcbError} (thrown : run = throw error) :
      Ensured host inv run system
        (fun _ after => Done host (ucbFsCanon host.conf dst) origin system.disk after.disk)
        (fun _ after => Safe host (ucbFsCanon host.conf dst) origin system.disk after.disk) := by
    rw [thrown]
    exact ensured_throw stays
  rw [ucbFsMove]
  refine ensured_bind (ensured_checkPath (fun _ => ?_) fun _ _ => stays)
  refine ensured_bind (ensured_checkPath (fun _ => ?_) fun _ _ => stays)
  refine ensured_bind (ensured_kindExists here ?_ (fun _ => ensured_throw stays) fun _ _ => stays)
  intro loc entry finds there
  obtain rfl : origin = loc := Except.ok.inj (job.finds.symm.trans finds)
  refine ensured_bind (ensured_kindExists here ?_ ?_ fun _ _ => stays)
  · intro loc old findsDst oldThere
    split
    next => exact failed rfl
    next =>
      split
      next => exact failed rfl
      next notDir =>
        split
        next => exact failed rfl
        next =>
          refine ensured_moveChecked posix unreliable noFollow job there (fun dir => ?_) keeps
          exact absurd ⟨rfl, (kind_dir_iff entry).mpr dir⟩ notDir
  · intro missing
    rw [if_neg (by intro absent; cases absent), if_neg (by intro absent; cases absent.1),
      if_neg (by intro absent; cases absent.1)]
    exact ensured_moveChecked posix unreliable noFollow job there (fun _ => missing) keeps

/-- Whatever fails, a move loses nothing: at any time the source is as it was and everything else is
kept, or everything of the source is at the destination. After a success the source is gone. -/
theorem move_safe (posix : WritesSlash host.conf) (noFollow : flags.follow = false)
    (finds : host.finds system.disk (ucbFsCanon host.conf src) = .ok origin)
    (plain : Plain system.disk origin)
    (outside : ∀ target, AimsAt host system.disk (ucbFsCanon host.conf dst) target →
      ¬ origin <:+ target)
    (fresh : (∃ target, system.disk.entry origin = some (.link target)) →
      host.finds system.disk (ucbFsCanon host.conf dst) = .error .missing)
    (runs : (ucbFsMove host.conf fuel src dst flags).run.Runs host system visited result last) :
    (∀ passed ∈ visited,
        Safe host (ucbFsCanon host.conf dst) origin system.disk passed.disk) ∧
      (result = some (.ok ()) →
        Done host (ucbFsCanon host.conf dst) origin system.disk last.disk) := by
  have ensured : Ensured host.careless (Safe host (ucbFsCanon host.conf dst) origin system.disk)
      (ucbFsMove host.conf fuel src dst flags) system
      (fun _ after => Done host (ucbFsCanon host.conf dst) origin system.disk after.disk)
      (fun _ _ => True) := by
    by_cases nonempty : src ≠ [] ∧ dst ≠ []
    · obtain ⟨lead, srcPath⟩ := canonical_canon posix nonempty.1
      obtain ⟨lead', dstPath⟩ := canonical_canon posix nonempty.2
      have posix' : WritesSlash host.careless.conf := posix
      exact (ensured_move posix' rfl noFollow ⟨⟨lead, _, srcPath⟩, ⟨lead', _, dstPath⟩,
        canon_idempotent posix nonempty.1, canon_idempotent posix nonempty.2, finds, plain, outside,
        fresh⟩
        fun _ safe => safe.of_careless).mono (fun _ _ done => done.of_careless)
          fun _ _ _ => trivial
    · rw [ucbFsMove]
      refine ensured_bind (ensured_checkPath (fun some => ?_) fun _ _ => trivial)
      exact ensured_bind (ensured_checkPath (fun some' => absurd ⟨some, some'⟩ nonempty)
        fun _ _ => trivial)
  obtain ⟨between, ends⟩ := ensured.runs runs.careless
  refine ⟨between, ?_⟩
  rintro rfl
  rcases ends with ⟨value, -, done⟩ | ⟨error, absent, -⟩ | ⟨absent, -⟩
  · exact done
  · cases absent
  · cases absent

/-- `/d` is moved to `/e`. -/
theorem move_safe_sample : ∃ visited result last,
    (ucbFsMove .posix 100 dirPath newPath ⟨false, false⟩).run.Runs sampleHost sampleSystem
        visited result last ∧
      ∀ passed ∈ visited, Safe sampleHost (ucbFsCanon .posix newPath) [[0x64]] sampleDisk
        passed.disk := by
  obtain ⟨visited, result, last, runs⟩ := FsProg.exists_run sampleHost
    (ucbFsMove .posix 100 dirPath newPath ⟨false, false⟩).run sampleSystem
  have posix : WritesSlash sampleHost.conf := rfl
  refine ⟨visited, result, last, runs, (move_safe posix rfl
    (Host.finds_iff.mpr (.inr ⟨spot_dirPath _, Option.some_ne_none _⟩)) sample_plain ?_ ?_ runs).1⟩
  · intro target aims
    rw [canon_newPath] at aims
    have slot : sampleHost.spot sampleDisk newPath = .ok (.slot [[0x65]]) :=
      spot_root _ (by decide) (by decide) (by decide)
    rw [← aims.slot slot (.inl rfl)]
    decide
  · rintro ⟨target, link⟩
    cases link

end Move

end Ucb.Fs
