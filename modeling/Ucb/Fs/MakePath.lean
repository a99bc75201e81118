import Ucb.Fs.Children

/-!
Contract: `ucb_fs_mkdir_p` where every call may fail.

Owns:
- a path that would not lead to a directory if directories were made on the way;
- what `ucb_fs_mkdir_p` has made at any time.
-/

namespace Ucb.Fs

open Ucb.Lib Ucb.Path

section Unaimed

variable {host : Host} {inv : Disk → Prop} {system : System} {disk : Disk} {lead fuel : Nat}
  {comps before : List Name} {last : Name} {text above : List UInt8} {loc : Loc}

theorem Canonical.parentsFirst (canonical : Canonical lead comps text) : ParentsFirst comps := by
  obtain ⟨count, names, split, absent, -⟩ := canonical.parents
  exact ⟨count, names, split, absent⟩

/-- A path aims somewhere if the path in front does, unless there is something else. -/
theorem aimsAt_of_front (composed : Composed lead (before ++ [last]) text)
    (first : ParentsFirst (before ++ [last])) (composed' : Composed lead before above)
    (aims : AimsAt host disk above loc)
    (free : ∀ found, host.spot disk text = .ok (.slot found) → disk.entry found = none) :
    ∃ target, AimsAt host disk text target := by
  obtain ⟨here, starts, inTree⟩ := aims
  rw [composed'.pathSegments] at inTree
  have starts' := (start_composed composed' composed).trans starts
  have aims' {target : Loc}
      (inTree' : disk.tree.Aims [dot] dotdot host.links here (before ++ [last]) target) :
      ∃ target, AimsAt host disk text target :=
    ⟨target, here, starts', by rw [composed.pathSegments]; exact inTree'⟩
  by_cases isCur : last = [dot]
  · subst isCur
    exact aims' (.same inTree)
  · by_cases isParent : last = dotdot
    · -- every component is a `..`
      obtain ⟨count, all⟩ := first.front.2 isParent
      obtain ⟨⟨target, left⟩, leads⟩ : ∃ place, disk.tree.walk [dot] dotdot host.links here
          (List.replicate (count + 1) dotdot) = .ok place := FileTree.walk_parents (count + 1)
      have walks : disk.tree.walk [dot] dotdot host.links here (before ++ [last]) =
          .ok (target, left) := by
        rw [isParent, all, ← List.replicate_succ']
        exact leads
      exact aims' (.leads walks)
    · by_cases absent : disk.entry (last :: loc) = none
      · exact aims' (.name inTree isCur isParent (.inl ((disk.tree_none_iff _).mpr absent)))
      · have dir : disk.tree.node loc = some .dir :=
          (disk.tree_dir_iff loc).mpr (disk.above last loc absent)
        obtain ⟨left, walks⟩ := FileTree.aims_dir inTree dir
        refine absurd (free (last :: loc) ?_) absent
        rw [Host.spot_eq starts', composed.pathSegments, FileTree.spot_concat walks, if_neg isCur,
          if_neg isParent]

theorem aimsAt_of_vacant (vacant : host.vacant disk text = .ok loc) :
    AimsAt host disk text loc := by
  obtain ⟨slot, none⟩ := Host.vacant_iff.mp vacant
  obtain ⟨here, starts, inTree⟩ := Host.spot_of_ok slot
  obtain ⟨front, name, place, split, rfl, notCur, notParent, walks⟩ := FileTree.spot_slot inTree
  refine ⟨here, starts, ?_⟩
  rw [split]
  exact .name (.leads walks) notCur notParent (.inl ((disk.tree_none_iff _).mpr none))

/-- Where a path does not lead to a directory even then, nothing is made. The induction is on the
fuel: a directory that is missed in front is not made either. -/
theorem ensured_mkdirP_unaimed {conf : UcbPathStyle} (posix : WritesSlash conf)
    (unreliable : host.reliable = false) (here : inv system.disk)
    (composed : Composed lead comps text)
    (first : ParentsFirst comps) (unaimed : ∀ target, ¬ AimsAt host system.disk text target) :
    Ensured host inv (fsMkdirP conf fuel text) system (fun _ _ => False)
      (fun _ after => after = system) := by
  induction fuel generalizing comps text with
  | zero => exact ensured_exhausted unreliable
  | succ fuel inductionHypothesis =>
      rw [fsMkdirP]
      refine ensured_bind (ensured_outcome (ensured_mkdir here ?_ ?_))
      · intro loc disk vacant
        exact absurd (aimsAt_of_vacant vacant) (unaimed loc)
      · intro error missing told
        show Ensured host inv (if error.code = .errsysEexist then _ else _) _ _ _
        split
        next present =>
          refine ensured_bind (ensured_kind here ?_ fun _ _ _ => rfl)
          intro loc entry finds there
          split
          next isDir =>
            rw [kind_dir_iff, ← there] at isDir
            exact absurd (aimsAt_of_leads (Host.leads_of_finds finds isDir)) (unaimed loc)
          next => exact ensured_throw rfl
        next notPresent =>
          split
          next => exact ensured_throw rfl
          next isMissing =>
            have vacant := missing (not_not.mp isMissing)
            have refused : host.spot system.disk text = .error .missing := by
              rcases Host.vacant_error vacant with refused | ⟨absent, -⟩
              · exact refused
              · cases absent
            dsimp only
            split
            next => exact ensured_throw rfl
            next above =>
              have parent := fsParent_text posix composed
              rcases List.eq_nil_or_concat' comps with rfl | ⟨before, last, rfl⟩
              · -- a root is its own parent
                exact absurd (.inr (parent.trans composed.text_eq.symm)) above
              · rw [List.dropLast_concat] at parent
                have composed' : Composed lead before (ucbFsParent conf text) :=
                  ⟨composed.few, composed.proper.left, parent, fun empty => above (.inl empty)⟩
                refine ensured_bind ((inductionHypothesis composed' first.front.1
                  fun loc aims => ?_).mono (fun _ _ absent => absent.elim) fun _ _ same => same)
                obtain ⟨target, aims'⟩ := aimsAt_of_front composed first composed' aims
                  fun found slot => by
                    rw [refused] at slot
                    cases slot
                exact unaimed target aims'

end Unaimed

section MakePath

variable {host : Host} {inv : Disk → Prop} {system last : System} {path : List UInt8} {fuel : Nat}
  {visited : List System} {result : Option (Except UcbError Unit)}

/-- Directories on the way to what a path aims at are made, or nothing. -/
def MadePath (host : Host) (path : List UInt8) (disk disk' : Disk) : Prop :=
  disk' = disk ∨ ∃ target, AimsAt host disk path target ∧ MadeDirs target disk disk'

/-- `fs_mkdir_p` with any path. -/
theorem ensured_makePath (posix : WritesSlash host.conf) (unreliable : host.reliable = false)
    (nonempty : path ≠ [])
    (keeps : ∀ disk, MadePath host (ucbFsCanon host.conf path) system.disk disk → inv disk) :
    Ensured host inv (fsMkdirP host.conf fuel (ucbFsCanon host.conf path)) system
      (fun _ after => MadePath host (ucbFsCanon host.conf path) system.disk after.disk)
      (fun _ after => MadePath host (ucbFsCanon host.conf path) system.disk after.disk) := by
  obtain ⟨lead, canonical⟩ := canonical_canon posix nonempty
  by_cases aimed : ∃ target, AimsAt host system.disk (ucbFsCanon host.conf path) target
  · obtain ⟨target, aims⟩ := aimed
    refine (ensured_mkdirP posix canonical.toComposed aims
      (fun disk made => keeps disk (.inr ⟨target, aims, made⟩)) fun reliable => ?_).mono ?_ ?_
    · rw [unreliable] at reliable
      cases reliable
    · rintro - after ⟨-, made, -⟩
      exact .inr ⟨target, aims, made⟩
    · rintro error after ⟨-, -, made⟩
      exact .inr ⟨target, aims, made⟩
  · refine (ensured_mkdirP_unaimed posix unreliable (keeps _ (.inl rfl)) canonical.toComposed
      canonical.parentsFirst fun target aims => aimed ⟨target, aims⟩).mono
        (fun _ _ absent => absent.elim) ?_
    rintro error after rfl
    exact .inl rfl

/-- Whatever fails, at most directories on the way to what the path aims at are made, and nothing
where it aims at nothing. -/
theorem mkdirP_safe (posix : WritesSlash host.conf)
    (runs : (ucbFsMkdirP host.conf fuel path).run.Runs host system visited result last) :
    ∀ passed ∈ visited, MadePath host (ucbFsCanon host.conf path) system.disk passed.disk := by
  have ensured : Ensured host.careless (MadePath host (ucbFsCanon host.conf path) system.disk)
      (ucbFsMkdirP host.conf fuel path) system (fun _ _ => True) (fun _ _ => True) := by
    rw [ucbFsMkdirP]
    refine ensured_bind (ensured_checkPath (fun nonempty => ?_) fun _ _ => trivial)
    have posix' : WritesSlash host.careless.conf := posix
    exact (ensured_makePath posix' rfl nonempty fun _ made => made).mono
      (fun _ _ _ => trivial) fun _ _ _ => trivial
  exact (ensured.runs runs.careless).1

theorem mkdirP_safe_sample : ∃ visited result last,
    (ucbFsMkdirP .posix 9 dirPath).run.Runs sampleHost sampleSystem visited result last ∧
      ∀ passed ∈ visited,
        MadePath sampleHost (ucbFsCanon .posix dirPath) sampleDisk passed.disk := by
  obtain ⟨visited, result, last, runs⟩ := FsProg.exists_run sampleHost
    (ucbFsMkdirP .posix 9 dirPath).run sampleSystem
  have posix : WritesSlash sampleHost.conf := rfl
  exact ⟨visited, result, last, runs, mkdirP_safe posix runs⟩

end MakePath

end Ucb.Fs
