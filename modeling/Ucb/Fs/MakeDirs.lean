import Ucb.Fs.Overwrite

/-!
Contract: `fs_mkdir_p` where every call may fail.

Owns:
- what a path aims at on a disk;
- that nothing but directories on the way there is made, whatever fails;
- that on a reliable system the directory is there.

A `mkdir` may fail with `EEXIST` where nothing is there, and the last one is believed.
-/

namespace Ucb.Fs

open Ucb.Lib Ucb.Path

/-- A path leads to a directory, or would if directories were made on the way. -/
def AimsAt (host : Host) (disk : Disk) (path : List UInt8) (target : Loc) : Prop :=
  ∃ here, Host.start disk path = .ok here ∧
    disk.tree.Aims [dot] dotdot host.links here (pathSegments path) target

section Aims

variable {host : Host} {disk disk' : Disk} {path : List UInt8} {target loc : Loc}

theorem aimsAt_of_leads (leads : host.leads disk path = .ok loc) : AimsAt host disk path loc := by
  obtain ⟨here, left, starts, walks⟩ := Host.walk_of_leads leads
  exact ⟨here, starts, .leads walks⟩

theorem AimsAt.leads (aims : AimsAt host disk path target)
    (leads : host.leads disk path = .ok loc) : loc = target := by
  obtain ⟨here, starts, aims⟩ := aims
  obtain ⟨here', left, starts', walks⟩ := Host.walk_of_leads leads
  obtain rfl : here = here' := Except.ok.inj (starts.symm.trans starts')
  exact FileTree.aims_walk aims walks

theorem AimsAt.leads_of_dir (aims : AimsAt host disk path target)
    (dir : IsDir (disk.entry target)) : host.leads disk path = .ok target := by
  obtain ⟨here, starts, aims⟩ := aims
  obtain ⟨left, walks⟩ := FileTree.aims_dir aims ((disk.tree_dir_iff target).mpr dir)
  exact Host.leads_ok starts walks

theorem AimsAt.cases (aims : AimsAt host disk path target) :
    IsDir (disk.entry target) ∨ disk.entry target = none := by
  obtain ⟨here, starts, aims⟩ := aims
  rcases FileTree.aims_cases aims with ⟨left, walks⟩ | ⟨-, absent⟩
  · exact .inl (Host.leads_dir (Host.leads_ok starts walks))
  · exact .inr ((disk.tree_none_iff target).mp absent)

theorem AimsAt.slot (aims : AimsAt host disk path target)
    (ends : host.spot disk path = .ok (.slot loc))
    (free : disk.entry loc = none ∨ IsDir (disk.entry loc)) : loc = target := by
  obtain ⟨here, starts, aims⟩ := aims
  rw [Host.spot_eq starts] at ends
  refine FileTree.aims_slot aims ends ?_
  rwa [Disk.tree_none_iff, Disk.tree_dir_iff]

theorem AimsAt.made (aims : AimsAt host disk path target) (made : MadeDirs loc disk disk') :
    AimsAt host disk' path target := by
  obtain ⟨here, starts, aims⟩ := aims
  exact ⟨here, made.kept.extends_.start starts, MadeDirs.aims made aims⟩

theorem AimsAt.toward (aims : AimsAt host disk path target) (toward : Toward loc disk disk')
    (kept : Kept disk disk') (outside : ¬ loc <:+ target) : AimsAt host disk' path target := by
  obtain ⟨here, starts, aims⟩ := aims
  exact ⟨here, kept.extends_.start starts, Toward.aims toward kept outside aims⟩

theorem AimsAt.filled (aims : AimsAt host disk path target) (filled : Filled target disk disk')
    (kept : Kept disk disk') : AimsAt host disk' path target := by
  obtain ⟨here, starts, aims⟩ := aims
  exact ⟨here, kept.extends_.start starts, Filled.aims filled kept aims⟩

/-- What is missing can be made, or something in front of it is missing too. -/
theorem AimsAt.vacant (aims : AimsAt host disk path target) (absent : disk.entry target = none) :
    host.vacant disk path = .ok target ∨ host.vacant disk path = .error .missing := by
  obtain ⟨here, starts, inTree⟩ := id aims
  cases vacant : host.vacant disk path with
  | ok loc =>
      obtain ⟨slot, none⟩ := Host.vacant_iff.mp vacant
      rw [aims.slot slot (.inl none)]
      exact .inl rfl
  | error refusal =>
      refine .inr (congrArg Except.error ?_)
      have notDir {loc : Loc} (leads : host.leads disk path = .ok loc) : False := by
        obtain ⟨attrs, found⟩ := Host.leads_dir leads
        rw [aims.leads leads, absent] at found
        cases found
      rcases Host.vacant_error vacant with refused | ⟨-, ⟨loc, inside⟩ | ⟨loc, slot, some⟩⟩
      · rw [Host.spot_eq starts] at refused
        obtain ⟨front, last, split, walks⟩ := FileTree.spot_error refused
        rw [split] at inTree
        obtain ⟨above, aimsFront, -⟩ := FileTree.aims_front inTree walks
        exact (FileTree.aims_refused aimsFront walks).1
      · exact (notDir (Host.leads_of_inside inside)).elim
      · rw [Host.spot_eq starts] at slot
        obtain ⟨front, last, place, split, rfl, notCur, notParent, walks⟩ :=
          FileTree.spot_slot slot
        rw [split] at inTree
        rcases FileTree.aims_concat inTree with
          ⟨left, walks'⟩ | ⟨-, -, above, rfl, aimsFront, -⟩ | ⟨isCur, -⟩
        · exact (notDir (Host.leads_ok starts (by rw [split]; exact walks'))).elim
        · rw [FileTree.aims_walk aimsFront walks] at some
          exact absurd absent some
        · exact absurd isCur notCur

end Aims

/-! ## The recursion -/

section MkdirP

variable {host : Host} {inv : Disk → Prop} {system : System} {path : List UInt8}

/-- `mkdir` makes a directory where there is nothing. -/
theorem ensured_mkdir {ok : Unit → System → Prop} {failed : UcbError → System → Prop}
    (here : inv system.disk)
    (done : ∀ loc disk, host.vacant system.disk path = .ok loc → OnlyAt loc system.disk disk →
      IsDir (disk.entry loc) → inv disk ∧ ok () (system.on disk))
    (refused : ∀ error, (error.code = .errsysEnoent →
        host.vacant system.disk path = .error .missing) →
      (host.reliable = true → ∃ refusal, host.vacant system.disk path = .error refusal ∧
        error.code = refusalCode refusal) → failed error system) :
    Ensured host inv (platform (.mkdir path) rfl) system ok failed := by
  refine ensured_platform (fun _ _ reply => reply) here ?_ ?_
  · rintro value after ⟨loc, attrs, time, fits, vacant, rfl⟩
    exact done loc _ vacant change_onlyAt ⟨attrs, change_here⟩
  · intro error truthful unable
    have why : host.refusal system.disk (.mkdir path) =
        whyNot (host.vacant system.disk path) := rfl
    refine refused error (fun missing => ?_) fun reliable => ?_
    · have absent := truthful.missing missing
      rw [why] at absent
      cases vacant : host.vacant system.disk path with
      | ok loc =>
          rw [vacant] at absent
          cases absent
      | error refusal =>
          rw [vacant] at absent
          rw [Option.some.inj absent]
    · cases vacant : host.vacant system.disk path with
      | ok loc =>
          exact absurd ⟨loc, ⟨0, 0⟩, 0, fits_new vacant _, vacant, rfl⟩ (unable reliable () _)
      | error refusal =>
          refine ⟨refusal, rfl, truthful.told reliable refusal ?_⟩
          rw [why, vacant]
          rfl

theorem start_composed {disk : Disk} {lead : Nat} {comps comps' : List Name}
    {text text' : List UInt8} (composed : Composed lead comps text)
    (composed' : Composed lead comps' text') :
    Host.start disk text' = Host.start disk text := by
  unfold Host.start
  rw [if_neg composed.nonempty, if_neg composed'.nonempty, composed.isRooted, composed'.isRooted]

/-- The recursion makes at most directories on the way to what the path aims at. The induction is
on the fuel: a call that misses a directory goes on with the path in front. -/
theorem ensured_mkdirP {conf : UcbPathStyle} (posix : WritesSlash conf) {lead fuel : Nat}
    {comps : List Name} {text : List UInt8} {target : Loc} (composed : Composed lead comps text)
    (aims : AimsAt host system.disk text target)
    (keeps : ∀ disk, MadeDirs target system.disk disk → inv disk)
    (ready : host.reliable = true → system.disk.entry target = none ∧ comps.length < fuel) :
    Ensured host inv (fsMkdirP conf fuel text) system
      (fun _ after => Quiet system after ∧ MadeDirs target system.disk after.disk ∧
        (host.reliable = true → IsDir (after.disk.entry target)))
      (fun _ after => host.reliable = false ∧ Quiet system after ∧
        MadeDirs target system.disk after.disk) := by
  induction fuel generalizing comps text target system inv with
  | zero =>
      refine ensured_exhausted ?_
      by_contra reliable
      exact absurd (ready (by simpa using reliable)).2 (Nat.not_lt_zero _)
  | succ fuel inductionHypothesis =>
      have here : inv system.disk := keeps _ (.refl _ _)
      have stays : Quiet system system ∧ MadeDirs target system.disk system.disk :=
        ⟨.refl _, .refl _ _⟩
      have nothing (reliable : host.reliable = true) := aims.vacant (ready reliable).1
      rw [fsMkdirP]
      refine ensured_bind (ensured_outcome (ensured_mkdir here ?_ ?_))
      · intro loc disk vacant only dir
        obtain ⟨slot, none⟩ := Host.vacant_iff.mp vacant
        obtain rfl := aims.slot slot (.inl none)
        have made := only.madeDirs none dir
        exact ⟨keeps _ made, ensured_pure ⟨quiet_on _ _, made, fun _ => dir⟩⟩
      · intro error missing told
        show Ensured host inv (if error.code = .errsysEexist then _ else _) _ _ _
        -- on a reliable system the first call can only miss something
        have onlyMissing (reliable : host.reliable = true) : error.code = .errsysEnoent := by
          obtain ⟨refusal, vacant, code⟩ := told reliable
          rcases nothing reliable with ok | refused
          · rw [ok] at vacant
            cases vacant
          · rw [refused] at vacant
            rw [code, ← Except.error.inj vacant]
            rfl
        split
        next present =>
          have unreliable : host.reliable = false := by
            by_contra reliable
            have code := onlyMissing (by simpa using reliable)
            rw [present] at code
            cases code
          refine ensured_bind (ensured_kind here ?_ fun _ _ _ => ⟨unreliable, stays⟩)
          intro loc entry finds there
          split
          next isDir =>
            refine ensured_pure ⟨stays.1, stays.2, fun reliable => ?_⟩
            rw [unreliable] at reliable
            cases reliable
          next => exact ensured_throw ⟨unreliable, stays⟩
        next notPresent =>
          split
          next notMissing =>
            refine ensured_throw ⟨?_, stays⟩
            by_contra reliable
            exact notMissing (onlyMissing (by simpa using reliable))
          next isMissing =>
            have vacant := missing (not_not.mp isMissing)
            obtain ⟨start, starts, inTree⟩ := id aims
            have refused : host.spot system.disk text = .error .missing := by
              rcases Host.vacant_error vacant with refused | ⟨absent, -⟩
              · exact refused
              · cases absent
            rw [Host.spot_eq starts, composed.pathSegments] at refused
            rw [composed.pathSegments] at inTree
            obtain ⟨front, last, rfl, walks⟩ := FileTree.spot_error refused
            have someFront : front ≠ [] := by
              rintro rfl
              rw [FileTree.walk_nil] at walks
              cases walks
            obtain ⟨composedFront, above⟩ := fsParent_above posix composed someFront
            obtain ⟨aboveLoc, aimsFront, inside, isName, isCur⟩ :=
              FileTree.aims_front inTree walks
            have aimsParent : AimsAt host system.disk (ucbFsParent conf text) aboveLoc :=
              ⟨start, (start_composed composed composedFront).trans starts, by
                rw [composedFront.pathSegments]
                exact aimsFront⟩
            dsimp only
            rw [if_neg above]
            refine ensured_bind ((inductionHypothesis composedFront aimsParent
              (fun disk made => keeps disk (MadeDirs.lower made inside)) ?_).mono ?_ ?_)
            · intro reliable
              refine ⟨(system.disk.tree_none_iff _).mp (FileTree.aims_refused aimsFront walks).2,
                ?_⟩
              have few := (ready reliable).2
              rw [List.length_append, List.length_singleton] at few
              omega
            · rintro - mid ⟨quiet, madeAbove, dirAbove⟩
              have made : MadeDirs target system.disk mid.disk := madeAbove.lower inside
              have aimsMid := aims.made made
              have aboveMid := aimsParent.made made
              refine ensured_bind (ensured_outcome (ensured_mkdir (keeps _ made) ?_ ?_))
              · intro loc disk vacant only dir
                obtain ⟨slot, none⟩ := Host.vacant_iff.mp vacant
                obtain rfl := aimsMid.slot slot (.inl none)
                have made' := MadeDirs.trans made (only.madeDirs none dir)
                exact ⟨keeps _ made',
                  ensured_pure ⟨quiet.trans (quiet_on _ _), made', fun _ => dir⟩⟩
              · intro error' missing' told'
                show Ensured host inv (if error'.code = .errsysEexist then _ else _) _ _ _
                split
                next present =>
                  refine ensured_pure ⟨quiet, made, fun reliable => ?_⟩
                  rcases aimsMid.cases with dir | none
                  · exact dir
                  · obtain ⟨refusal, vacant', code⟩ := told' reliable
                    rcases aimsMid.vacant none with ok | refused'
                    · rw [ok] at vacant'
                      cases vacant'
                    · rw [refused'] at vacant'
                      rw [code, ← Except.error.inj vacant'] at present
                      cases present
                next notPresent' =>
                  refine ensured_throw ⟨?_, quiet, made⟩
                  by_contra reliable
                  have reliable : host.reliable = true := by simpa using reliable
                  obtain ⟨refusal, vacant', code⟩ := told' reliable
                  rcases Host.vacant_error vacant' with refused' | ⟨rfl, -⟩
                  · -- the directory in front is there by now
                    obtain ⟨start', starts', aimsTree⟩ := id aboveMid
                    rw [composedFront.pathSegments] at aimsTree
                    obtain ⟨left, walks'⟩ := FileTree.aims_dir aimsTree
                      ((mid.disk.tree_dir_iff _).mpr (dirAbove reliable))
                    rw [Host.spot_eq ((start_composed composedFront composed).trans starts'),
                      composed.pathSegments, FileTree.spot_concat walks'] at refused'
                    split at refused'
                    · cases refused'
                    · split at refused'
                      · cases refused'
                      · cases refused'
                  · exact notPresent' (by rw [code]; rfl)
            · rintro error' after ⟨unreliable, quiet, made⟩
              exact ⟨unreliable, quiet, MadeDirs.lower made inside⟩

end MkdirP

end Ucb.Fs
