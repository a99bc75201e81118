import Ucb.Fs.CopyDir

/-!
Contract: `ucb_fs_copy_tree` to where there is nothing.

Owns:
- what it has changed at any time, whatever fails;
- that on a reliable system the copy is the source, entry for entry.

Does not own: copies into a directory that is there, and copies that follow links.
-/

namespace Ucb.Fs

open Ucb.Lib Ucb.Path

/-- A directory is to be copied to a path that aims at nothing, and not into itself. -/
structure TreeJob (host : Host) (disk : Disk) (src dst : List UInt8) (origin target : Loc) :
    Prop where
  srcNonempty : src ≠ []
  dstNonempty : dst ≠ []
  leads : host.leads disk (ucbFsCanon host.conf src) = .ok origin
  aims : AimsAt host disk (ucbFsCanon host.conf dst) target
  absent : disk.entry target = none
  outside : ¬ origin <:+ target

section Tree

variable {host : Host} {inv : Disk → Prop} {system : System} {src dst path : List UInt8}
  {origin target : Loc} {flags : UcbFsFlags} {fuel : Nat}

theorem TreeJob.careless {disk : Disk} (job : TreeJob host disk src dst origin target) :
    TreeJob host.careless disk src dst origin target :=
  ⟨job.srcNonempty, job.dstNonempty, job.leads, job.aims, job.absent, job.outside⟩

theorem TreeJob.copyJob {disk : Disk} (posix : WritesSlash host.conf)
    (job : TreeJob host disk src dst origin target) :
    CopyJob host disk (ucbFsCanon host.conf src) (ucbFsCanon host.conf dst) origin target := by
  obtain ⟨lead, srcPath⟩ := canonical_canon posix job.srcNonempty
  obtain ⟨lead', dstPath⟩ := canonical_canon posix job.dstNonempty
  refine ⟨⟨lead, _, srcPath⟩, ⟨lead', _, dstPath⟩, job.leads, job.aims, job.outside, ?_⟩
  -- nothing is below the destination, and the source is there
  rintro ⟨rest, rfl⟩
  obtain ⟨attrs, found⟩ := Host.leads_dir job.leads
  rw [Disk.below_none job.absent] at found
  cases found

/-- Nothing is found at a path that aims at nothing. -/
theorem AimsAt.finds_missing {disk : Disk} (aims : AimsAt host disk path target)
    (absent : disk.entry target = none) : host.finds disk path = .error .missing := by
  refine Host.finds_error_iff.mpr ?_
  rcases aims.vacant absent with vacant | vacant
  · exact .inr ⟨target, (Host.vacant_iff.mp vacant).1, absent, rfl⟩
  · rcases Host.vacant_error vacant with refused | ⟨same, -⟩
    · exact .inl refused
    · cases same

/-- Whatever fails, only what is at the destination differs, and directories on the way to it are
new. -/
theorem ensured_copyTree (posix : WritesSlash host.conf) (noFollow : flags.follow = false)
    (job : TreeJob host system.disk src dst origin target)
    (keeps : ∀ disk, Toward target system.disk disk → inv disk)
    (ready : host.reliable = true →
      fsIsWithin (ucbFsCanon host.conf dst) (ucbFsCanon host.conf src) = false ∧
      ∃ height size spare,
        Suffices system.disk origin (ucbFsCanon host.conf dst) height size spare ∧
        (height + 1) * (size + 3) + spare ≤ fuel) :
    Ensured host inv (ucbFsCopyTree host.conf fuel src dst flags) system
      (fun _ after => TreeCopied system origin target after)
      (fun _ after => host.reliable = false ∧ Quiet system after ∧
        Toward target system.disk after.disk) := by
  have here : inv system.disk := keeps _ (.refl _ _)
  have reaches := Host.reaches_of_leads job.leads
  obtain ⟨attrs, there⟩ := Host.leads_dir job.leads
  have missing := job.aims.finds_missing job.absent
  rw [ucbFsCopyTree]
  refine ensured_bind (ensured_checkPath (fun _ => ?_) fun _ empty => absurd empty job.srcNonempty)
  refine ensured_bind (ensured_checkPath (fun _ => ?_) fun _ empty => absurd empty job.dstNonempty)
  dsimp only
  split
  next within =>
    refine ensured_throw ⟨?_, .refl _, .refl _ _⟩
    by_contra reliable
    rw [(ready (by simpa using reliable)).1] at within
    cases within
  next =>
    refine ensured_bind (ensured_platform (fun _ _ reply => reply) here ?_ ?_)
    · rintro kind after ⟨rfl, loc, entry, reaches', found, rfl⟩
      refine ⟨here, ?_⟩
      obtain rfl : origin = loc := Except.ok.inj (reaches.symm.trans reaches')
      obtain rfl : Entry.dir attrs = entry := Option.some.inj (there.symm.trans found)
      have isDir : (Entry.dir attrs).kind = .dir := rfl
      rw [if_neg (not_not.mpr isDir)]
      refine ensured_bind (ensured_kindExists here ?_ ?_ ?_)
      · intro loc entry finds
        rw [missing] at finds
        cases finds
      · intro _
        exact ensured_copyDirTo posix (copies host posix noFollow fuel).1 (job.copyJob posix)
          job.absent keeps fun reliable => (ready reliable).2
      · intro error told
        refine ⟨?_, .refl _, .refl _ _⟩
        by_contra reliable
        obtain ⟨refusal, other, refused⟩ := told (by simpa using reliable)
        rw [missing] at refused
        exact other (Except.error.inj refused).symm
    · intro error truthful unable
      refine ⟨?_, .refl _, .refl _ _⟩
      by_contra reliable
      exact unable (by simpa using reliable) _ _ ⟨rfl, origin, _, reaches, there, rfl⟩

variable {last : System} {visited : List System} {result : Option (Except UcbError Unit)}

/-- Whatever fails, everything that was there is kept, the source is not changed, and new is nothing
but the copy and directories on the way to it. After a success nothing is missing in the copy. -/
theorem copyTree_safe (posix : WritesSlash host.conf) (noFollow : flags.follow = false)
    (job : TreeJob host system.disk src dst origin target)
    (runs : (ucbFsCopyTree host.conf fuel src dst flags).run.Runs host system visited result last) :
    (∀ passed ∈ visited, Kept system.disk passed.disk ∧ Toward target system.disk passed.disk ∧
        ∀ rest, passed.disk.entry (rest ++ origin) = system.disk.entry (rest ++ origin)) ∧
      (result = some (.ok ()) → ∀ rest,
        Matches (system.disk.entry (rest ++ origin)) (last.disk.entry (rest ++ target))) := by
  have ensured : Ensured host.careless (Toward target system.disk)
      (ucbFsCopyTree host.conf fuel src dst flags) system _ _ :=
    ensured_copyTree posix noFollow job.careless (fun _ toward => toward)
      fun absent => absurd absent Bool.false_ne_true
  obtain ⟨between, ends⟩ := ensured.runs runs.careless
  refine ⟨fun passed member => ?_, ?_⟩
  · have toward := between passed member
    exact ⟨toward.kept job.absent, toward, (job.copyJob posix).source toward⟩
  · rintro rfl
    rcases ends with ⟨value, -, done⟩ | ⟨error, absent, -⟩ | ⟨absent, -⟩
    · exact done.2.2
    · cases absent
    · cases absent

/-- Where no call fails without need, a tree of files, links and directories whose names are UTF-8
is copied entry for entry. -/
theorem copyTree_copies (posix : WritesSlash host.conf) (noFollow : flags.follow = false)
    (reliable : host.reliable = true) (job : TreeJob host system.disk src dst origin target)
    (outside : fsIsWithin (ucbFsCanon host.conf dst) (ucbFsCanon host.conf src) = false)
    (plain : Plain system.disk origin) (utf8 : NamesUtf8 system.disk origin) :
    ∃ enough, ∀ fuel, enough ≤ fuel → ∀ visited result last,
      (ucbFsCopyTree host.conf fuel src dst flags).run.Runs host system visited result last →
      result = some (.ok ()) ∧ Toward target system.disk last.disk ∧
        ∀ rest, last.disk.entry (rest ++ target) = system.disk.entry (rest ++ origin) := by
  obtain ⟨height, size, bounded⟩ := exists_bounded utf8
  obtain ⟨spare, deep⟩ : ∃ spare,
      (pathSegments (ucbFsCanon host.conf dst)).length + height < spare := ⟨_, Nat.lt_succ_self _⟩
  refine ⟨(height + 1) * (size + 3) + spare, fun fuel few visited result last runs => ?_⟩
  have ensured :
      Ensured host (fun _ => True) (ucbFsCopyTree host.conf fuel src dst flags) system _ _ :=
    ensured_copyTree posix noFollow job (fun _ _ => trivial) fun _ =>
      ⟨outside, height, size, spare, ⟨plain, bounded, deep⟩, few⟩
  obtain ⟨-, ⟨value, rfl, done⟩ | ⟨error, -, unreliable, -⟩ | ⟨-, unreliable⟩⟩ := ensured.runs runs
  · exact ⟨rfl, done.2.1, fun rest => (done.2.2 rest).eq (plain rest)⟩
  · rw [unreliable] at reliable
    cases reliable
  · rw [unreliable] at reliable
    cases reliable

end Tree

/-! ## A copy of `/d` -/

def newPath : List UInt8 := [slash, 0x65]

theorem canon_newPath : ucbFsCanon sampleHost.conf newPath = newPath := by
  rw [ucbFsCanon_eq rfl (by decide)]
  decide

theorem sample_job :
    TreeJob sampleHost sampleSystem.disk dirPath newPath [[0x64]] [[0x65]] := by
  refine ⟨by decide, by decide, Host.leads_of_slot (spot_dirPath _) ⟨_, rfl⟩, ?_, rfl, by decide⟩
  rw [canon_newPath]
  exact aimsAt_root (by decide) (by decide) (by decide) rfl

theorem copyTree_safe_sample : ∃ visited result last,
    (ucbFsCopyTree .posix 100 dirPath newPath ⟨false, false⟩).run.Runs sampleHost sampleSystem
        visited result last ∧
      ∀ passed ∈ visited, Kept sampleDisk passed.disk := by
  obtain ⟨visited, result, last, runs⟩ := FsProg.exists_run sampleHost
    (ucbFsCopyTree .posix 100 dirPath newPath ⟨false, false⟩).run sampleSystem
  have posix : WritesSlash sampleHost.conf := rfl
  exact ⟨visited, result, last, runs, fun passed member =>
    ((copyTree_safe posix rfl sample_job runs).1 passed member).1⟩

theorem sample_plain : Plain sampleDisk [[0x64]] := by
  intro rest attrs special
  rw [sampleDisk, Disk.replace_entry] at special
  split at special
  · cases special
  · rw [dirDisk, Disk.replace_entry] at special
    split at special
    · cases special
    · change (if rest ++ [[0x64]] = [] then some (Entry.dir ⟨0o755, 0⟩) else none) = _ at special
      split at special
      · cases special
      · cases special

theorem sample_utf8 : NamesUtf8 sampleDisk [[0x64]] := by
  intro rest name some
  rw [sampleDisk, Disk.replace_entry] at some
  split at some
  next same =>
    obtain ⟨rfl, -⟩ := List.cons.inj same
    exact ⟨[⟨0x66, by decide⟩], by decide⟩
  next =>
    rw [dirDisk, Disk.replace_entry] at some
    split at some
    next same => exact absurd (List.cons.inj same).2 (List.append_ne_nil_of_right_ne_nil _ (by simp))
    next => exact absurd (show bareDisk.entry _ = none from if_neg (List.cons_ne_nil _ _)) some

theorem copyTree_copies_sample : ∃ enough, ∀ fuel, enough ≤ fuel → ∀ visited result last,
    (ucbFsCopyTree sampleHost.conf fuel dirPath newPath ⟨false, false⟩).run.Runs sampleHost
        sampleSystem visited result last →
      result = some (.ok ()) ∧ Toward [[0x65]] sampleDisk last.disk ∧
        ∀ rest, last.disk.entry (rest ++ [[0x65]]) = sampleDisk.entry (rest ++ [[0x64]]) := by
  have outside :
      fsIsWithin (ucbFsCanon sampleHost.conf newPath) (ucbFsCanon sampleHost.conf dirPath) =
      false := by
    rw [canon_newPath, show ucbFsCanon sampleHost.conf dirPath = dirPath from canon_dirPath]
    decide
  exact copyTree_copies rfl rfl rfl sample_job outside sample_plain sample_utf8

end Ucb.Fs
