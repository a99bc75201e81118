import Ucb.Fs.CopyFile

/-!
Contract: an existing destination of `ucb_fs_copy_file` survives every failure.

Owns:
- staging: a copy next to the destination, and a rename over it;
- that a failed copy has kept everything that was there, and a good one has changed no
  other entry;
- the same for a destination that is missing.
-/

namespace Ucb.Fs

open Ucb.Lib Ucb.Path

/-- One entry may differ, and the times of directories. -/
abbrev Put (loc : Loc) : Disk → Disk → Prop :=
  Differs fun other old new => other = loc ∨ DirSame old new

theorem OnlyAt.put {loc : Loc} {disk disk' : Disk} (only : OnlyAt loc disk disk') :
    Put loc disk disk' :=
  Differs.mono only fun _ allowed => allowed.imp_right And.right

theorem Attempt.kept {host : Host} {path : List UInt8} {disk disk' : Disk}
    (attempt : Attempt host path disk disk') : Kept disk disk' := by
  rcases attempt with same | ⟨loc, vacant, only, -⟩
  · rw [same]
    exact .refl _ _
  · exact only.kept (Host.vacant_iff.mp vacant).2

/-! ## Staging -/

section Staging

variable {host : Host} {inv : Disk → Prop} {system : System} {src dst : List UInt8} {origin : Loc}
  {entry : Entry} {flags : UcbFsFlags} {fuel : Nat}

/-- `fs_temp_sibling` finds a path with nothing at it. -/
theorem ensured_tempSibling (attempts : Nat) (here : inv system.disk) :
    Ensured host inv (fsTempSibling dst attempts) system
      (fun result after => after = system ∧ ∀ tmp ∈ result,
        host.finds system.disk tmp = .error .missing)
      (fun _ _ => False) := by
  induction attempts with
  | zero => exact ensured_pure ⟨rfl, fun tmp absent => by cases absent⟩
  | succ attempts inductionHypothesis =>
      rw [fsTempSibling]
      refine ensured_bind (ensured_perform ?_)
      rintro suffix after ⟨rfl, -⟩
      refine ⟨here, ensured_bind (ensured_outcome (ensured_kind here ?_ ?_))⟩
      · intro loc found finds there
        exact inductionHypothesis
      · intro error missing told
        show Ensured host inv (if error.code = .errsysEnoent then _ else _) _ _ _
        split
        next isMissing =>
          refine ensured_pure ⟨rfl, fun tmp same => ?_⟩
          rw [← Option.some.inj same]
          exact missing isMissing
        next => exact inductionHypothesis

/-- A subtree that is moved arrives whole, and elsewhere at most the times of directories
differ. -/
theorem move_arrived {disk : Disk} {old new : Loc} (movable : disk.Movable old new)
    (left entered : Int) :
    let moved := ((disk.move old new movable).touch old.tail left).touch new.tail entered
    (∀ rest, moved.entry (rest ++ new) = disk.entry (rest ++ old)) ∧ moved.entry old = none ∧
      ∀ other, ¬ new <:+ other → ¬ old <:+ other → moved.entry other = disk.entry other ∨
        DirSame (disk.entry other) (moved.entry other) := by
  intro moved
  have touched (other : Loc) : moved.entry other = disk.movedEntry old new other ∨
      ((other = old.tail ∨ other = new.tail) ∧
        DirSame (disk.movedEntry old new other) (moved.entry other)) := by
    rcases touch_cases (disk.move old new movable) old.tail left other with first | ⟨here, first⟩
    · rcases touch_cases ((disk.move old new movable).touch old.tail left) new.tail entered other
        with second | ⟨here, second⟩
      · exact .inl (second.trans first)
      · rw [first] at second
        exact .inr ⟨.inr here, second⟩
    · rcases touch_cases ((disk.move old new movable).touch old.tail left) new.tail entered other
        with second | ⟨-, second⟩
      · exact .inr ⟨.inl here, by rw [← second] at first; exact first⟩
      · exact .inr ⟨.inl here, first.trans second⟩
  have notBelow : ¬ new <:+ old := by
    rintro ⟨rest, rfl⟩
    cases rest using List.reverseRecOn with
    | nil => exact movable.outside List.suffix_rfl
    | append_singleton rest name =>
        have some := movable.there
        rw [List.append_assoc] at some
        exact some (disk.below_none (movable.empty name) rest)
  have atNew (rest : Loc) : moved.entry (rest ++ new) = disk.entry (rest ++ old) := by
    rcases touched (rest ++ new) with same | ⟨above | above, -⟩
    · rw [same, Disk.movedEntry_inside]
    · have inside : new <:+ old.tail := ⟨rest, above⟩
      exact absurd (inside.trans (List.tail_suffix old)) notBelow
    · have long := congrArg List.length above
      have positive := List.length_pos_of_ne_nil movable.root
      rw [List.length_append, List.length_tail] at long
      omega
  have atOld : disk.movedEntry old new old = none := by
    rw [Disk.movedEntry, if_neg notBelow, if_pos List.suffix_rfl]
  refine ⟨atNew, ?_, fun other notNew notOld => ?_⟩
  · rcases touched old with same | ⟨-, dir⟩
    · rw [same, atOld]
    · obtain ⟨attrs, found⟩ := dir.left
      rw [atOld] at found
      cases found
  · have same : disk.movedEntry old new other = disk.entry other := by
      rw [Disk.movedEntry, if_neg notNew, if_neg notOld]
    rw [← same]
    exact (touched other).imp_right And.right

theorem Disk.Movable.below {disk : Disk} {old new : Loc} (movable : disk.Movable old new)
    {rest : Loc} (below : rest ≠ []) : disk.entry (rest ++ new) = none := by
  obtain ⟨front, name, rfl⟩ := List.eq_nil_or_concat rest |>.resolve_left below
  rw [List.concat_eq_append, List.append_assoc]
  exact disk.below_none (movable.empty name) front

/-- A renamed file has replaced the entry at its destination. -/
theorem move_put {disk : Disk} {old new : Loc} (movable : disk.Movable old new)
    (oldFile : ¬ IsDir (disk.entry old)) (left entered : Int) :
    let moved := ((disk.move old new movable).touch old.tail left).touch new.tail entered
    moved.entry new = disk.entry old ∧ moved.entry old = none ∧
      ∀ other, other ≠ new → other ≠ old → moved.entry other = disk.entry other ∨
        DirSame (disk.entry other) (moved.entry other) := by
  intro moved
  obtain ⟨atNew, atOld, outside⟩ := move_arrived movable left entered
  refine ⟨atNew [], atOld, fun other notNew notOld => ?_⟩
  by_cases inNew : new <:+ other
  · obtain ⟨rest, rfl⟩ := inNew
    have below : rest ≠ [] := fun none => notNew (by rw [none]; rfl)
    rw [movable.below below]
    exact .inl ((atNew rest).trans (Disk.below_of_not_dir oldFile below))
  · by_cases inOld : old <:+ other
    · obtain ⟨rest, rfl⟩ := inOld
      rw [Disk.below_of_not_dir oldFile fun none => notOld (by rw [none]; rfl)]
      exact .inl (Disk.below_none atOld rest)
    · exact outside other inNew inOld

/-- The copy is made next to the destination and renamed over it, so the destination is as it was
until its new content is complete. -/
theorem ensured_copyStaged (unreliable : host.reliable = false) (noFollow : flags.follow = false)
    (findsSrc : host.finds system.disk src = .ok origin)
    (there : system.disk.entry origin = some entry) (notDir : ¬ IsDir (some entry)) {loc : Loc}
    (findsDst : host.finds system.disk dst = .ok loc) (dstFile : ¬ IsDir (system.disk.entry loc))
    (keeps : ∀ disk, Kept system.disk disk → inv disk)
    (keepsPut : ∀ disk, Put loc system.disk disk → Copies entry (disk.entry loc) → inv disk) :
    Ensured host inv (copyChecked fuel src entry.kind flags dst true) system
      (fun _ after => Quiet system after ∧ Put loc system.disk after.disk ∧
        Copies entry (after.disk.entry loc))
      (fun _ after => Quiet system after ∧ Kept system.disk after.disk) := by
  have here : inv system.disk := keeps _ (.refl _ _)
  rw [copyChecked, if_pos rfl]
  refine ensured_bind ((ensured_tempSibling 64 here).mono ?_ fun _ _ absent => absent.elim)
  rintro result after ⟨rfl, missing⟩
  cases result with
  | none => exact ensured_throw ⟨.refl _, .refl _ _⟩
  | some tmp =>
      have missing := missing tmp rfl
      have copyable : Copyable host after.disk fuel src tmp origin entry :=
        ⟨findsSrc, there, notDir, missing, fun reliable => by
          rw [unreliable] at reliable
          cases reliable⟩
      have keepsTmp (disk : Disk) (attempt : Attempt host tmp after.disk disk) : inv disk :=
        keeps disk attempt.kept
      -- a failed copy, or a copy that could not be renamed, is removed
      have remove {mid : System} {error : UcbError} (quiet : Quiet after mid)
          (attempt : Attempt host tmp after.disk mid.disk) :
          Ensured host inv (do
              let _ ← outcome (platform (.removeFile tmp) rfl)
              throw error : FsM Unit) mid
            (fun _ last => Quiet after last ∧ Put loc after.disk last.disk ∧
              Copies entry (last.disk.entry loc))
            (fun _ last => Quiet after last ∧ Kept after.disk last.disk) := by
        refine ensured_bind (ensured_outcome (ensured_removeFile (keepsTmp _ attempt) ?_ ?_))
        · intro loc' disk slot some fileThere only gone
          have removed : Kept after.disk disk := by
            rcases attempt with same | ⟨made, vacant, only', -⟩
            · rw [same] at slot some
              have found : host.finds after.disk tmp = .ok loc' :=
                Host.finds_iff.mpr (.inr ⟨slot, some⟩)
              rw [missing] at found
              cases found
            · obtain ⟨slot', none⟩ := Host.vacant_iff.mp vacant
              have same := ((only'.kept none).extends_.spot slot').symm.trans slot
              obtain rfl : made = loc' := Spot.slot.inj (Except.ok.inj same)
              exact (only'.trans only).kept none
          exact ⟨keeps _ removed, ensured_throw ⟨quiet.trans (quiet_on _ _), removed⟩⟩
        · intro error' truthful
          exact ensured_throw ⟨quiet, attempt.kept⟩
      refine ensured_bind (ensured_outcome (ensured_bind
        ((ensured_copyPayload copyable noFollow true keepsTmp).mono ?_ ?_)))
      · rintro - mid ⟨quiet, made, vacant, only, copies⟩
        obtain ⟨slotTmp, none⟩ := Host.vacant_iff.mp vacant
        have kept := only.kept none
        have attempt : Attempt host tmp after.disk mid.disk := .inr ⟨made, vacant, only, copies.1⟩
        have slotDst := kept.extends_.spot (Host.slot_of_finds findsDst dstFile)
        have different : loc ≠ made := fun same => Host.finds_ne_none findsDst (same ▸ none)
        refine ensured_platform (fun _ _ reply => reply) (keeps _ kept) ?_ ?_
        · rintro value last ⟨-, old, new, slotOld, slotNew, ⟨rfl, -⟩ | renamed⟩
          · -- the two names are of different entries
            obtain rfl : loc = old := Spot.slot.inj (Except.ok.inj (slotDst.symm.trans slotNew))
            have same := (kept.extends_.spot slotTmp).symm.trans slotOld
            exact absurd (Spot.slot.inj (Except.ok.inj same)).symm different
          · obtain ⟨movable, left, entered, -, rfl⟩ := renamed
            obtain rfl : loc = new := Spot.slot.inj (Except.ok.inj (slotDst.symm.trans slotNew))
            obtain rfl : made = old :=
              Spot.slot.inj (Except.ok.inj ((kept.extends_.spot slotTmp).symm.trans slotOld))
            obtain ⟨atNew, atOld, others⟩ := move_put movable copies.1 left entered
            have put : Put loc after.disk (((mid.disk.move made loc movable).touch made.tail
                left).touch loc.tail entered) := by
              refine ⟨only.cwd, fun other => ?_⟩
              by_cases isNew : other = loc
              · exact .inr (.inl isNew)
              · by_cases isOld : other = made
                · exact .inl (by rw [isOld, atOld, none])
                · rcases only.entry other with same | atMade | ⟨-, same⟩
                  · rw [← same]
                    exact (others other isNew isOld).imp_right .inr
                  · exact absurd atMade isOld
                  · rcases others other isNew isOld with same' | same'
                    · rw [same']
                      exact .inr (.inr same)
                    · exact .inr (.inr (same.trans same'))
            have copies' : Copies entry ((((mid.disk.move made loc movable).touch made.tail
                left).touch loc.tail entered).entry loc) := by
              rw [atNew]
              exact copies
            exact ⟨keepsPut _ put copies', ensured_pure ⟨quiet.trans (quiet_on _ _), put, copies'⟩⟩
        · intro error truthful unable
          exact remove quiet attempt
      · rintro error mid ⟨-, quiet, attempt⟩
        exact remove quiet attempt

end Staging

/-! ## The whole function -/

section CopyFile

variable {host : Host} {inv : Disk → Prop} {system : System} {src dst : List UInt8}
  {flags : UcbFsFlags} {fuel : Nat}

theorem ensured_checkPath {path : List UInt8} {ok : Unit → System → Prop}
    {failed : UcbError → System → Prop} (passed : path ≠ [] → ok () system)
    (refused : ∀ error, path = [] → failed error system) :
    Ensured host inv (fsCheckPath path) system ok failed := by
  rw [fsCheckPath]
  split
  next empty => exact ensured_throw (refused _ empty)
  next nonempty => exact ensured_pure (passed nonempty)

/-- What a copy of one entry has done: the destination is a copy, and nothing else differs. -/
def Copied (host : Host) (src dst : List UInt8) (disk disk' : Disk) : Prop :=
  ∃ origin entry loc, host.finds disk src = .ok origin ∧ disk.entry origin = some entry ∧
    ¬ IsDir (some entry) ∧ host.spot disk dst = .ok (.slot loc) ∧
    ¬ IsDir (disk.entry loc) ∧ Put loc disk disk' ∧ Copies entry (disk'.entry loc)

/-- `ucb_fs_copy_file` where calls may fail. -/
theorem ensured_copyFile (conf : UcbPathStyle) (unreliable : host.reliable = false)
    (noFollow : flags.follow = false) (keeps : ∀ disk, Kept system.disk disk → inv disk)
    (keepsCopied : ∀ disk,
      Copied host (ucbFsCanon conf src) (ucbFsCanon conf dst) system.disk disk → inv disk) :
    Ensured host inv (ucbFsCopyFile conf fuel src dst flags) system
      (fun _ after => Quiet system after ∧
        Copied host (ucbFsCanon conf src) (ucbFsCanon conf dst) system.disk after.disk)
      (fun _ after => Quiet system after ∧ Kept system.disk after.disk) := by
  have here : inv system.disk := keeps _ (.refl _ _)
  have stays : Quiet system system ∧ Kept system.disk system.disk := ⟨.refl _, .refl _ _⟩
  rw [ucbFsCopyFile]
  refine ensured_bind (ensured_checkPath (fun srcNonempty => ?_) fun _ _ => stays)
  refine ensured_bind (ensured_checkPath (fun dstNonempty => ?_) fun _ _ => stays)
  refine ensured_bind (ensured_kindExists here ?_ (fun _ => ensured_throw stays) fun _ _ => stays)
  intro origin entry finds there
  have failed {run : FsM Unit} {error : UcbError} (thrown : run = throw error) :
      Ensured host inv run system
        (fun _ after => Quiet system after ∧
          Copied host (ucbFsCanon conf src) (ucbFsCanon conf dst) system.disk after.disk)
        (fun _ after => Quiet system after ∧ Kept system.disk after.disk) := by
    rw [thrown]
    exact ensured_throw stays
  refine ensured_bind (ensured_kindExists here ?_ ?_ fun _ _ => stays)
  · intro loc old findsDst oldThere
    split
    next => exact failed rfl
    next notDir =>
      split
      next => exact failed rfl
      next =>
        split
        next => exact failed rfl
        next srcFile =>
          rw [Option.some.injEq, kind_dir_iff, ← oldThere] at notDir
          rw [kind_dir_iff] at srcFile
          have slot := Host.slot_of_finds findsDst notDir
          refine (ensured_copyStaged unreliable noFollow finds there srcFile findsDst notDir keeps
            fun disk put copies => keepsCopied disk ⟨origin, entry, loc, finds, there, srcFile,
              slot, notDir, put, copies⟩).mono ?_ fun _ _ fails => fails
          rintro - after ⟨quiet, put, copies⟩
          exact ⟨quiet, origin, entry, loc, finds, there, srcFile, slot, notDir, put, copies⟩
  · intro missing
    split
    next absent => cases absent
    next =>
      split
      next absent => cases absent.1
      next =>
        split
        next => exact failed rfl
        next srcFile =>
          rw [kind_dir_iff] at srcFile
          have copyable : Copyable host system.disk fuel (ucbFsCanon conf src)
              (ucbFsCanon conf dst) origin entry :=
            ⟨finds, there, srcFile, missing, fun reliable => by
              rw [unreliable] at reliable
              cases reliable⟩
          refine (ensured_copyFresh copyable noFollow fun disk attempt =>
            keeps disk attempt.kept).mono ?_ ?_
          · rintro - after ⟨quiet, loc, vacant, only, copies⟩
            obtain ⟨slot, none⟩ := Host.vacant_iff.mp vacant
            refine ⟨quiet, origin, entry, loc, finds, there, srcFile, slot, ?_, only.put, copies⟩
            rw [none]
            rintro ⟨attrs, absent⟩
            cases absent
          · rintro - after ⟨-, quiet, attempt⟩
            exact ⟨quiet, attempt.kept⟩

/-- `ucb_fs_copy_file` with nothing at the destination. -/
theorem ensured_copyFile_new {origin : Loc} {entry : Entry} (conf : UcbPathStyle)
    (srcNonempty : src ≠ []) (dstNonempty : dst ≠ [])
    (copyable : Copyable host system.disk fuel (ucbFsCanon conf src) (ucbFsCanon conf dst) origin
      entry)
    (noFollow : flags.follow = false)
    (keeps : ∀ disk, Attempt host (ucbFsCanon conf dst) system.disk disk → inv disk) :
    Ensured host inv (ucbFsCopyFile conf fuel src dst flags) system
      (fun _ after => Quiet system after ∧ ∃ loc,
        host.vacant system.disk (ucbFsCanon conf dst) = .ok loc ∧
        OnlyAt loc system.disk after.disk ∧ Copies entry (after.disk.entry loc))
      (fun _ after => host.reliable = false ∧ Quiet system after ∧
        Attempt host (ucbFsCanon conf dst) system.disk after.disk) := by
  have here : inv system.disk := keeps _ (.inl rfl)
  obtain ⟨finds, there, notDir, missing, -⟩ := id copyable
  have unreliable (lies : host.reliable = true → ∃ refusal, refusal ≠ .missing ∧
      host.finds system.disk (ucbFsCanon conf dst) = .error refusal) : host.reliable = false := by
    by_contra reliable
    obtain ⟨refusal, other, refused⟩ := lies (by simpa using reliable)
    rw [missing] at refused
    exact other (Except.error.inj refused).symm
  rw [ucbFsCopyFile]
  refine ensured_bind (ensured_checkPath (fun _ => ?_) fun _ empty => absurd empty srcNonempty)
  refine ensured_bind (ensured_checkPath (fun _ => ?_) fun _ empty => absurd empty dstNonempty)
  refine ensured_bind (ensured_kindExists here ?_ ?_ ?_)
  · intro origin' entry' finds' there'
    obtain rfl : origin = origin' := Except.ok.inj (finds.symm.trans finds')
    obtain rfl : entry = entry' := Option.some.inj (there.symm.trans there')
    refine ensured_bind (ensured_kindExists here ?_ ?_ ?_)
    · intro loc old found
      rw [missing] at found
      cases found
    · intro _
      rw [if_neg (by intro absent; cases absent), if_neg (by intro absent; cases absent.1),
        if_neg (mt (kind_dir_iff entry).mp notDir)]
      exact ensured_copyFresh copyable noFollow keeps
    · intro error lies
      exact ⟨unreliable lies, .refl _, .inl rfl⟩
  · intro absent
    rw [finds] at absent
    cases absent
  · intro error lies
    refine ⟨?_, .refl _, .inl rfl⟩
    by_contra reliable
    obtain ⟨refusal, -, refused⟩ := lies (by simpa using reliable)
    rw [finds] at refused
    cases refused

/-- Whatever fails, everything that was there is kept until the copy is complete, and a copy that
fails has changed nothing that was there. -/
theorem copyFile_safe {last : System} {visited : List System}
    {result : Option (Except UcbError Unit)} (noFollow : flags.follow = false)
    (runs : (ucbFsCopyFile host.conf fuel src dst flags).run.Runs host system visited result last) :
    (∀ passed ∈ visited, Kept system.disk passed.disk ∨ Copied host (ucbFsCanon host.conf src)
        (ucbFsCanon host.conf dst) system.disk passed.disk) ∧
      (result = some (.ok ()) → Copied host (ucbFsCanon host.conf src) (ucbFsCanon host.conf dst)
        system.disk last.disk) ∧
      ∀ error, result = some (.error error) → Kept system.disk last.disk := by
  have ensured : Ensured host.careless (fun disk => Kept system.disk disk ∨
      Copied host (ucbFsCanon host.conf src) (ucbFsCanon host.conf dst) system.disk disk)
      (ucbFsCopyFile host.conf fuel src dst flags) system _ _ :=
    ensured_copyFile host.conf rfl noFollow (fun _ kept => .inl kept) fun _ copied => .inr copied
  obtain ⟨between, ends⟩ := ensured.runs runs.careless
  refine ⟨between, ?_, ?_⟩
  · rintro rfl
    rcases ends with ⟨value, -, quiet, copied⟩ | ⟨error, absent, -⟩ | ⟨absent, -⟩
    · exact copied
    · cases absent
    · cases absent
  · rintro error rfl
    rcases ends with ⟨value, absent, -⟩ | ⟨error', -, quiet, kept⟩ | ⟨absent, -⟩
    · cases absent
    · exact kept
    · cases absent

theorem copyFile_safe_sample : ∃ visited result last,
    (ucbFsCopyFile sampleHost.conf 9 [slash, 0x66] [slash, 0x67] ⟨true, false⟩).run.Runs sampleHost
        sampleSystem visited result last ∧
      ∀ error, result = some (.error error) → Kept sampleDisk last.disk := by
  obtain ⟨visited, result, last, runs⟩ := FsProg.exists_run sampleHost
    (ucbFsCopyFile sampleHost.conf 9 [slash, 0x66] [slash, 0x67] ⟨true, false⟩).run sampleSystem
  exact ⟨visited, result, last, runs, (copyFile_safe rfl runs).2.2⟩

end CopyFile

end Ucb.Fs
