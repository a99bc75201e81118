import Mathlib.Algebra.Order.BigOperators.Group.List
import Mathlib.Algebra.Order.Group.Nat
import Mathlib.Data.List.Dedup
import Mathlib.Data.List.Nodup
import Mathlib.Data.List.Perm.Subperm
import Ucb.Fs.Children

/-!
Contract: the recursion of `fs_copy_dir`.

Owns:
- `Mirrors`, what a directory and its copy have in common;
- the fuel that the entries below a directory take;
- one entry, the loop over the entries, and the recursion over the tree, with every
  pattern of failures.

The copy lies apart from the source, and nothing is below it before.
-/

namespace Ucb.Fs

open Ucb.Lib Ucb.Path

/-! ## Copies of trees -/

/-- The same entry, or something that is no directory for a special file. -/
def Matches (old new : Option Entry) : Prop :=
  new = old ∨ ((∃ attrs, old = some (.other attrs)) ∧ ¬ IsDir new)

/-- What is below one location is below the other one too. -/
def Mirrors (disk : Disk) (src : Loc) (disk' : Disk) (dst : Loc) : Prop :=
  ∀ rest, rest ≠ [] → Matches (disk.entry (rest ++ src)) (disk'.entry (rest ++ dst))

/-- No entry of a subtree is a special file. -/
def Plain (disk : Disk) (loc : Loc) : Prop :=
  ∀ rest attrs, disk.entry (rest ++ loc) ≠ some (.other attrs)

theorem Plain.congr {disk disk' : Disk} {loc : Loc} (plain : Plain disk loc)
    (same : ∀ rest, disk'.entry (rest ++ loc) = disk.entry (rest ++ loc)) : Plain disk' loc := by
  intro rest attrs
  rw [same]
  exact plain rest attrs

theorem Plain.child {disk : Disk} {loc : Loc} (plain : Plain disk loc) (name : Name) :
    Plain disk (name :: loc) := by
  intro rest attrs
  rw [List.append_cons]
  exact plain _ attrs

theorem Matches.eq {old new : Option Entry} (matches_ : Matches old new)
    (plain : ∀ attrs, old ≠ some (.other attrs)) : new = old := by
  rcases matches_ with same | ⟨⟨attrs, special⟩, -⟩
  · exact same
  · exact absurd special (plain attrs)

/-- Of an entry that is no directory the copy is complete. -/
theorem matches_of_copies {disk disk' : Disk} {src dst : Loc} {entry : Entry}
    (there : disk.entry src = some entry) (notDir : ¬ IsDir (some entry))
    (copies : Copies entry (disk'.entry dst)) (rest : Loc) :
    Matches (disk.entry (rest ++ src)) (disk'.entry (rest ++ dst)) := by
  by_cases top : rest = []
  · subst top
    show Matches (disk.entry src) (disk'.entry dst)
    rw [there]
    cases entry with
    | other attrs => exact .inr ⟨⟨attrs, rfl⟩, copies.1⟩
    | dir attrs => exact .inl (copies.2 fun _ absent => by cases absent)
    | file bytes attrs => exact .inl (copies.2 fun _ absent => by cases absent)
    | link target => exact .inl (copies.2 fun _ absent => by cases absent)
  · rw [← there] at notDir
    rw [Disk.below_of_not_dir notDir top, Disk.below_of_not_dir copies.1 top]
    exact .inl rfl

/-! ## Fuel -/

def NamesUtf8 (disk : Disk) (loc : Loc) : Prop :=
  ∀ rest name, disk.entry (name :: (rest ++ loc)) ≠ none → Unicode.ValidUtf8 name

/-- How deep a subtree is, how large its files and directories are, and that its names can be
read. -/
structure Bounded (disk : Disk) (loc : Loc) (height size : Nat) : Prop where
  deep : ∀ rest, disk.entry (rest ++ loc) ≠ none → rest.length ≤ height
  files : ∀ rest bytes, HasBytes disk (rest ++ loc) bytes → bytes.length ≤ size
  names : ∀ rest (names : List Name), names.Nodup →
    (∀ name ∈ names, disk.entry (name :: (rest ++ loc)) ≠ none) → names.length ≤ size
  utf8 : NamesUtf8 disk loc

theorem Bounded.congr {disk disk' : Disk} {loc : Loc} {height size : Nat}
    (bounded : Bounded disk loc height size)
    (same : ∀ rest, disk'.entry (rest ++ loc) = disk.entry (rest ++ loc)) :
    Bounded disk' loc height size := by
  refine ⟨fun rest some => ?_, fun rest bytes has => ?_, fun rest names nodup there => ?_,
    fun rest name some => ?_⟩
  · rw [same] at some
    exact bounded.deep rest some
  · rw [HasBytes, same] at has
    exact bounded.files rest bytes has
  · refine bounded.names rest names nodup fun name member => ?_
    rw [← List.cons_append, ← same]
    exact there name member
  · rw [← List.cons_append, same] at some
    exact bounded.utf8 rest name some

/-- How many bytes a regular file has. -/
def fileSize : Option Entry → Nat
  | some (.file bytes _) => bytes.length
  | _ => 0

theorem exists_bounded {disk : Disk} {loc : Loc} (utf8 : NamesUtf8 disk loc) :
    ∃ height size, Bounded disk loc height size := by
  obtain ⟨locs, all⟩ := disk.finite
  refine ⟨(locs.map List.length).sum,
    (locs.map fun loc => fileSize (disk.entry loc)).sum + locs.length, ?_, ?_, ?_, utf8⟩
  · intro rest some
    have le := List.le_sum_of_mem (List.mem_map_of_mem (f := List.length) (all _ some))
    rw [List.length_append] at le
    exact (Nat.le_add_right _ _).trans le
  · rintro rest content ⟨attrs, found⟩
    have member := all (rest ++ loc) (by rw [found]; exact Option.some_ne_none _)
    have le := List.le_sum_of_mem
      (List.mem_map_of_mem (f := fun loc => fileSize (disk.entry loc)) member)
    rw [found] at le
    exact le.trans (Nat.le_add_right _ _)
  · intro rest names nodup there
    have nodup' : (names.map (· :: (rest ++ loc))).Nodup :=
      nodup.map fun _ _ same => (List.cons.inj same).1
    have subset : names.map (· :: (rest ++ loc)) ⊆ locs := by
      intro other member
      obtain ⟨name, inside, rfl⟩ := List.mem_map.mp member
      exact all _ (there name inside)
    have le := (nodup'.subperm subset).length_le
    rw [List.length_map] at le
    exact le.trans (Nat.le_add_left _ _)

theorem Bounded.child {disk : Disk} {loc : Loc} {height size : Nat}
    (bounded : Bounded disk loc height size) {name : Name}
    (some : disk.entry (name :: loc) ≠ none) :
    ∃ lower, height = lower + 1 ∧ Bounded disk (name :: loc) lower size := by
  have positive : 1 ≤ height := bounded.deep [name] some
  have split (rest : Loc) : rest ++ name :: loc = (rest ++ [name]) ++ loc := by simp
  refine ⟨height - 1, by omega, ?_, ?_, ?_, ?_⟩
  · intro rest there
    rw [split] at there
    have le := bounded.deep _ there
    rw [List.length_append, List.length_singleton] at le
    omega
  · intro rest bytes has
    rw [split] at has
    exact bounded.files _ bytes has
  · intro rest names nodup there
    rw [split] at there
    exact bounded.names _ names nodup there
  · intro rest other there
    rw [split] at there
    exact bounded.utf8 _ other there

/-- The next name of an iterator over the directory does not abort. -/
theorem Bounded.returns {system : System} {disk : Disk} {loc : Loc} {height size dir : Nat}
    (bounded : Bounded disk loc height size)
    (there : ∀ name ∈ system.dirs dir, disk.entry (name :: loc) ≠ none) :
    ¬ system.Aborts (.dirNext dir) := by
  rintro ⟨name, next, invalid⟩
  exact invalid (bounded.utf8 [] name (there name (List.mem_of_mem_head? next)))

/-! ## What is to be done -/

/-- A directory is to be copied to where a path aims. -/
structure CopyJob (host : Host) (disk : Disk) (src dst : List UInt8) (origin target : Loc) :
    Prop where
  srcPath : ∃ lead comps, Canonical lead comps src
  dstPath : ∃ lead comps, Canonical lead comps dst
  leads : host.leads disk src = .ok origin
  aims : AimsAt host disk dst target
  apart : Apart origin target

/-- What a reliable system needs: no special files, and fuel. -/
structure Suffices (disk : Disk) (origin : Loc) (dst : List UInt8) (height size spare : Nat) :
    Prop where
  plain : Plain disk origin
  bounded : Bounded disk origin height size
  deep : (pathSegments dst).length + height < spare

theorem Suffices.congr {disk disk' : Disk} {origin : Loc} {dst : List UInt8}
    {height size spare : Nat} (suffices_ : Suffices disk origin dst height size spare)
    (same : ∀ rest, disk'.entry (rest ++ origin) = disk.entry (rest ++ origin)) :
    Suffices disk' origin dst height size spare :=
  ⟨suffices_.plain.congr same, suffices_.bounded.congr same, suffices_.deep⟩

/-- A directory in the source is lower, and its path is longer. -/
theorem Suffices.child {disk : Disk} {origin : Loc} {dst : List UInt8}
    {height size spare lead : Nat} {comps : List Name} {name : Name}
    (suffices_ : Suffices disk origin dst height size spare) (canonical : Canonical lead comps dst)
    (isName : IsName name) (some : disk.entry (name :: origin) ≠ none) :
    ∃ lower, height = lower + 1 ∧
      Suffices disk (name :: origin) (ucbFsJoin dst name) lower size spare := by
  obtain ⟨lower, rfl, bounded⟩ := suffices_.bounded.child some
  refine ⟨lower, rfl, suffices_.plain.child name, bounded, ?_⟩
  have deep := suffices_.deep
  rw [canonical.segments] at deep
  rw [(canonical.child isName).segments, List.length_append, List.length_singleton]
  omega

section Job

variable {host : Host} {disk disk' : Disk} {src dst : List UInt8} {origin target : Loc}
  {name : Name}

/-- The source is not changed by what is done at the destination. -/
theorem CopyJob.source (job : CopyJob host disk src dst origin target)
    (toward : Toward target disk disk') (rest : Loc) :
    disk'.entry (rest ++ origin) = disk.entry (rest ++ origin) :=
  toward.outside ((job.apart.symm).below [] rest)

theorem CopyJob.after (job : CopyJob host disk src dst origin target) (kept : Kept disk disk')
    (aims : AimsAt host disk' dst target) : CopyJob host disk' src dst origin target :=
  ⟨job.srcPath, job.dstPath, kept.extends_.leads job.leads, aims, job.apart⟩

/-- The same for a directory in the source. -/
theorem CopyJob.child (job : CopyJob host disk src dst origin target) (isName : IsName name)
    (dir : IsDir (disk.entry (name :: origin)))
    (aims : AimsAt host disk (ucbFsJoin dst name) (name :: target)) :
    CopyJob host disk (ucbFsJoin src name) (ucbFsJoin dst name) (name :: origin)
      (name :: target) := by
  obtain ⟨lead, comps, srcPath⟩ := job.srcPath
  obtain ⟨lead', comps', dstPath⟩ := job.dstPath
  exact ⟨⟨lead, _, srcPath.child isName⟩, ⟨lead', _, dstPath.child isName⟩,
    leads_child srcPath isName job.leads dir, aims, job.apart.below [name] [name]⟩

theorem AimsAt.reaches {path : List UInt8} {loc : Loc} (aims : AimsAt host disk path target)
    (reaches : host.reaches disk path = .ok loc) :
    loc = target ∧ IsDir (disk.entry target) := by
  rcases aims.cases with dir | none
  · have reached := Host.reaches_of_leads (aims.leads_of_dir dir)
    exact ⟨Except.ok.inj (reaches.symm.trans reached), dir⟩
  · obtain ⟨final, some⟩ := Host.final_of_reaches reaches
    rcases aims.vacant none with vacant | vacant
    · have slot := (Host.vacant_iff.mp vacant).1
      have final' := Host.final_of_slot slot fun target link => by
        rw [none] at link
        cases link
      rw [Except.ok.inj (final.symm.trans final'), none] at some
      exact absurd rfl some
    · obtain ⟨here, starts, -⟩ := aims
      rcases Host.vacant_error vacant with refused | ⟨absent, -⟩
      · rw [Host.spot_eq starts] at refused
        rw [Host.final_eq starts, FileTree.final_of_spot_error refused] at final
        cases final
      · cases absent

theorem CopyJob.vacant (job : CopyJob host disk src dst origin target)
    (posix : WritesSlash host.conf) (isName : IsName name) {loc : Loc}
    (vacant : host.vacant disk (ucbFsCanon host.conf (ucbFsJoin dst name)) = .ok loc) :
    loc = name :: target := by
  obtain ⟨lead, comps, dstPath⟩ := job.dstPath
  rw [vacant_canon posix (dstPath.child isName) isName] at vacant
  obtain ⟨slot, -⟩ := Host.vacant_iff.mp vacant
  obtain ⟨above, leads, same⟩ := leads_of_spot_child dstPath isName slot
  rw [Spot.slot.inj same, job.aims.leads leads]

end Job

/-! ## One entry -/

section Child

variable {host : Host} {inv : Disk → Prop} {system : System} {src dst : List UInt8}
  {origin target : Loc} {name : Name} {flags : UcbFsFlags} {fuel : Nat}

/-- What the copy of one entry, and of what is below it, has done. -/
def TreeCopied (system : System) (origin target : Loc) (after : System) : Prop :=
  Quiet system after ∧ Toward target system.disk after.disk ∧
    ∀ rest, Matches (system.disk.entry (rest ++ origin)) (after.disk.entry (rest ++ target))

theorem ensured_copyChildFile (posix : WritesSlash host.conf) (noFollow : flags.follow = false)
    (job : CopyJob host system.disk src dst origin target) (isName : IsName name) {entry : Entry}
    (there : system.disk.entry (name :: origin) = some entry) (notDir : ¬ IsDir (some entry))
    (absent : system.disk.entry (name :: target) = none)
    (keeps : ∀ disk, Toward (name :: target) system.disk disk → inv disk)
    (ready : host.reliable = true → IsDir (system.disk.entry target) ∧
      (∀ attrs, entry ≠ .other attrs) ∧
      ∀ bytes attrs, entry = .file bytes attrs → bytes.length < fuel) :
    Ensured host inv
      (ucbFsCopyFile host.conf fuel (ucbFsJoin src name) (ucbFsJoin dst name) flags) system
      (fun _ after => TreeCopied system (name :: origin) (name :: target) after)
      (fun _ after => host.reliable = false ∧ Quiet system after ∧
        Toward (name :: target) system.disk after.disk) := by
  obtain ⟨lead, comps, srcPath⟩ := job.srcPath
  obtain ⟨lead', comps', dstPath⟩ := job.dstPath
  have srcChild := srcPath.child isName
  have dstChild := dstPath.child isName
  have some : system.disk.entry (name :: origin) ≠ none := by
    rw [there]
    exact Option.some_ne_none _
  have copyable : Copyable host system.disk fuel (ucbFsCanon host.conf (ucbFsJoin src name))
      (ucbFsCanon host.conf (ucbFsJoin dst name)) (name :: origin) entry := by
    refine ⟨?_, there, notDir, ?_, fun reliable => ?_⟩
    · rw [finds_canon posix srcChild isName]
      exact finds_child srcPath isName job.leads some
    · rw [finds_canon posix dstChild isName]
      exact job.aims.missing dstPath isName absent
    · obtain ⟨dir, notOther, few⟩ := ready reliable
      refine ⟨notOther, few, name :: target, ?_⟩
      rw [vacant_canon posix dstChild isName]
      exact Host.vacant_iff.mpr ⟨spot_child dstPath isName (job.aims.leads_of_dir dir), absent⟩
  have toward (disk : Disk)
      (attempt : Attempt host (ucbFsCanon host.conf (ucbFsJoin dst name)) system.disk disk) :
      Toward (name :: target) system.disk disk := by
    rcases attempt with same | ⟨loc, vacant, only, -⟩
    · rw [same]
      exact .refl _ _
    · rw [← job.vacant posix isName vacant]
      exact only.toward
  refine (ensured_copyFile_new host.conf srcChild.nonempty dstChild.nonempty copyable noFollow
    fun disk attempt => keeps disk (toward disk attempt)).mono ?_ ?_
  · rintro - after ⟨quiet, loc, vacant, only, copies⟩
    obtain rfl := job.vacant posix isName vacant
    exact ⟨quiet, only.toward, matches_of_copies there notDir copies⟩
  · rintro - after ⟨unreliable, quiet, attempt⟩
    exact ⟨unreliable, quiet, toward _ attempt⟩

/-- What `fs_copy_dir` ensures: below the destination there is a copy, or on the way to one. -/
def CopiesDirs (host : Host) (flags : UcbFsFlags) (fuel : Nat) : Prop :=
  ∀ (inv : Disk → Prop) (system : System) (src dst : List UInt8) (origin target : Loc),
    CopyJob host system.disk src dst origin target →
    (∀ rest, rest ≠ [] → system.disk.entry (rest ++ target) = none) →
    (∀ disk, Filled target system.disk disk → inv disk) →
    (host.reliable = true → IsDir (system.disk.entry target) ∧ ∃ height size spare,
      Suffices system.disk origin dst height size spare ∧
      (height + 1) * (size + 3) + spare ≤ fuel) →
    Ensured host inv (fsCopyDir host.conf flags fuel src dst) system
      (fun _ after => Quiet system after ∧ Filled target system.disk after.disk ∧
        Mirrors system.disk origin after.disk target)
      (fun _ after => host.reliable = false ∧ Quiet system after ∧
        Filled target system.disk after.disk)

/-- A directory where there is nothing yet: it is made, filled and gets the attributes. -/
theorem ensured_copyDirTo (posix : WritesSlash host.conf) (spec : CopiesDirs host flags fuel)
    (job : CopyJob host system.disk src dst origin target)
    (absent : system.disk.entry target = none)
    (keeps : ∀ disk, Toward target system.disk disk → inv disk)
    (ready : host.reliable = true → ∃ height size spare,
      Suffices system.disk origin dst height size spare ∧
      (height + 1) * (size + 3) + spare ≤ fuel) :
    Ensured host inv (do
        fsMkdirP host.conf fuel dst
        fsCopyDir host.conf flags fuel src dst
        fsCopyMeta src dst) system
      (fun _ after => TreeCopied system origin target after)
      (fun _ after => host.reliable = false ∧ Quiet system after ∧
        Toward target system.disk after.disk) := by
  obtain ⟨lead, comps, dstPath⟩ := job.dstPath
  have empty (rest : Loc) (_ : rest ≠ []) : system.disk.entry (rest ++ target) = none :=
    Disk.below_none absent rest
  refine ensured_bind ((ensured_mkdirP posix dstPath.toComposed job.aims
    (fun disk made => keeps disk made.toward) fun reliable => ⟨absent, ?_⟩).mono ?_ ?_)
  · obtain ⟨height, size, spare, enough, few⟩ := ready reliable
    have deep := enough.deep
    rw [dstPath.segments] at deep
    omega
  · rintro - made ⟨quiet, madeDirs, madeDir⟩
    have jobMade := job.after madeDirs.kept (job.aims.made madeDirs)
    have source := job.source madeDirs.toward
    refine ensured_bind ((spec inv made _ _ _ _ jobMade ?_ ?_ ?_).mono ?_ ?_)
    · intro rest below
      rcases madeDirs.entry (rest ++ target) with same | ⟨inside, -⟩
      · rw [same]
        exact empty rest below
      · have long := inside.length_le
        rw [List.length_append] at long
        exact absurd (List.length_eq_zero_iff.mp (by omega)) below
    · exact fun disk filled => keeps disk (madeDirs.filled.trans filled).toward
    · intro reliable
      obtain ⟨height, size, spare, enough, few⟩ := ready reliable
      exact ⟨madeDir reliable, height, size, spare, enough.congr source, few⟩
    · rintro - filled ⟨quiet', filledBelow, mirrors⟩
      have whole := madeDirs.filled.trans filledBelow
      have jobFilled := job.after (whole.kept empty) (job.aims.filled whole (whole.kept empty))
      have toTarget {loc : Loc} (reaches : host.reaches filled.disk dst = .ok loc) :
          target = loc ∧ IsDir (filled.disk.entry target) :=
        (jobFilled.aims.reaches reaches).imp_left Eq.symm
      have reachesSrc := Host.reaches_of_leads jobFilled.leads
      refine (ensured_copyMeta (keeps _ whole.toward) ?_ fun reliable => ?_).mono ?_ ?_
      · intro loc disk change reaches just _
        obtain ⟨rfl, -⟩ := toTarget reaches
        exact keeps disk (whole.toward.trans just.onlyAt.toward)
      · obtain ⟨attrs, found⟩ := Host.leads_dir jobFilled.leads
        refine ⟨⟨origin, _, attrs, reachesSrc, found, rfl⟩, target, ?_⟩
        refine Host.reaches_of_leads (jobFilled.aims.leads_of_dir ?_)
        rcases filledBelow.entry target with same | ⟨-, different⟩ | ⟨-, kept⟩
        · rw [same]
          exact madeDir reliable
        · exact absurd rfl different
        · exact kept.right
      · rintro - last ⟨quiet'', loc, entry, attrs, loc', reaches, there, has, reaches', just, here⟩
        obtain rfl : origin = loc := Except.ok.inj (reachesSrc.symm.trans reaches)
        obtain ⟨rfl, attrs', old⟩ := toTarget reaches'
        refine ⟨quiet.trans (quiet'.trans quiet''), whole.toward.trans just.onlyAt.toward, ?_⟩
        intro rest
        by_cases top : rest = []
        · subst top
          refine .inl ?_
          show last.disk.entry target = system.disk.entry origin
          have same : filled.disk.entry origin = system.disk.entry origin :=
            job.source whole.toward []
          obtain ⟨attrs₀, found⟩ := Host.leads_dir job.leads
          rw [same, found] at there
          obtain rfl := Option.some.inj there
          obtain rfl : attrs₀ = attrs := Option.some.inj has
          rw [here, old, found]
          rfl
        · have below : last.disk.entry (rest ++ target) = filled.disk.entry (rest ++ target) :=
            just.entry fun same => top (List.append_left_eq_self.mp same)
          rw [below, ← source]
          exact mirrors rest top
      · rintro error last ⟨unreliable, quiet'', same | ⟨loc, change, reaches, just, -⟩⟩
        · exact ⟨unreliable, quiet.trans (quiet'.trans quiet''), by rw [same]; exact whole.toward⟩
        · obtain ⟨rfl, -⟩ := toTarget reaches
          exact ⟨unreliable, quiet.trans (quiet'.trans quiet''),
            whole.toward.trans just.onlyAt.toward⟩
    · rintro error after ⟨unreliable, quiet', filledBelow⟩
      exact ⟨unreliable, quiet.trans quiet', (madeDirs.filled.trans filledBelow).toward⟩
  · rintro error after ⟨unreliable, quiet, madeDirs⟩
    exact ⟨unreliable, quiet, madeDirs.toward⟩

end Child

/-! ## The loop and the recursion -/

/-- Where the loop of `fs_copy_dir` is: the names an iterator has returned are copied, and nothing
is at the names that are left. -/
structure Midway (host : Host) (base system : System) (src dst : List UInt8) (origin target : Loc)
    (dir : Nat) : Prop where
  job : CopyJob host system.disk src dst origin target
  quiet : Quiet base system
  later : base.opened ≤ dir
  opened : dir < system.opened
  nodup : (system.dirs dir).Nodup
  left : ∀ name ∈ system.dirs dir, system.disk.entry (name :: origin) ≠ none ∧
    system.disk.entry (name :: target) = none
  done : ∀ name ∉ system.dirs dir, ∀ rest,
    Matches (system.disk.entry (rest ++ name :: origin))
    (system.disk.entry (rest ++ name :: target))

/-- What the loop of `fs_copy_dir` ensures from there. -/
def CopiesEntries (host : Host) (flags : UcbFsFlags) (fuel : Nat) : Prop :=
  ∀ (inv : Disk → Prop) (base system : System) (src dst : List UInt8) (origin target : Loc)
    (dir : Nat), Midway host base system src dst origin target dir →
    (∀ disk, Filled target system.disk disk → inv disk) →
    (host.reliable = true → IsDir (system.disk.entry target) ∧ ∃ height size spare,
      Suffices system.disk origin dst height size spare ∧
      height * (size + 3) + spare + 2 + (system.dirs dir).length ≤ fuel) →
    Ensured host inv (copyEntries host.conf flags fuel src dst dir) system
      (fun _ after => Quiet base after ∧ Filled target system.disk after.disk ∧
        Mirrors system.disk origin after.disk target)
      (fun _ after => host.reliable = false ∧ Quiet base after ∧
        Filled target system.disk after.disk)

section Loop

variable {host : Host} {inv : Disk → Prop} {base system : System} {src dst : List UInt8}
  {origin target : Loc} {dir : Nat} {name : Name} {names : List Name} {flags : UcbFsFlags}
  {fuel : Nat}

theorem Midway.mirrors (midway : Midway host base system src dst origin target dir)
    (none : system.dirs dir = []) : Mirrors system.disk origin system.disk target := by
  intro rest below
  obtain ⟨front, name, rfl⟩ := List.eq_nil_or_concat rest |>.resolve_left below
  rw [List.concat_eq_append, List.append_assoc, List.append_assoc]
  refine midway.done name ?_ front
  rw [none]
  exact List.not_mem_nil

/-- An iterator is asked for its next name. -/
theorem Quiet.leave (quiet : Quiet base system) (later : base.opened ≤ dir) (names : List Name) :
    Quiet base (system.leave dir names) := by
  refine ⟨quiet.opened, fun other open_ => ?_⟩
  rw [← quiet.dirs other open_]
  exact if_neg (open_.trans_le later).ne

/-- The next name is returned and its entry is copied. -/
theorem Midway.step (midway : Midway host base system src dst origin target dir)
    (next : system.dirs dir = name :: names) {after : System}
    (copied : TreeCopied (system.leave dir names) (name :: origin) (name :: target) after) :
    Midway host base after src dst origin target dir ∧ after.dirs dir = names := by
  obtain ⟨quiet, toward, matches_⟩ := copied
  have absent : system.disk.entry (name :: target) = none :=
    (midway.left name (by rw [next]; exact List.mem_cons_self)).2
  have source := midway.job.source (Toward.filled toward).toward
  have same {other : Name} (different : other ≠ name) (rest : Loc) :
      after.disk.entry (rest ++ other :: target) = system.disk.entry (rest ++ other :: target) :=
    toward.outside ((apart_names different.symm target).below [] rest)
  have kept : Kept system.disk after.disk := toward.kept absent
  have left : after.dirs dir = names := by
    rw [quiet.dirs dir midway.opened]
    exact if_pos rfl
  have nodup := midway.nodup
  rw [next, List.nodup_cons] at nodup
  refine ⟨⟨midway.job.after kept (midway.job.aims.toward toward kept not_suffix_tail),
    (midway.quiet.leave midway.later names).trans quiet, midway.later,
    midway.opened.trans_le quiet.opened, by rw [left]; exact nodup.2, ?_, ?_⟩, left⟩
  · intro other member
    rw [left] at member
    have different : other ≠ name := by
      rintro rfl
      exact nodup.1 member
    obtain ⟨there, missing⟩ := midway.left other (by rw [next]; exact List.mem_cons_of_mem _ member)
    have old : after.disk.entry (other :: origin) = system.disk.entry (other :: origin) :=
      source [other]
    exact ⟨by rw [old]; exact there, (same different []).trans missing⟩
  · intro other notLeft rest
    rw [left] at notLeft
    have old : after.disk.entry (rest ++ other :: origin) =
        system.disk.entry (rest ++ other :: origin) := by
      rw [List.append_cons]
      exact source _
    rw [old]
    by_cases here : other = name
    · subst here
      exact matches_ rest
    · rw [same here rest]
      refine midway.done other ?_ rest
      rw [next, List.mem_cons, not_or]
      exact ⟨here, notLeft⟩

/-- One turn of the loop, and what is left of it. -/
theorem copiesEntries_succ (posix : WritesSlash host.conf) (noFollow : flags.follow = false)
    (dirs : CopiesDirs host flags fuel) (entries : CopiesEntries host flags fuel) :
    CopiesEntries host flags (fuel + 1) := by
  intro inv base system src dst origin target dir midway keeps ready
  have here : inv system.disk := keeps _ (.refl _ _)
  rw [copyEntries]
  refine ensured_bind (ensured_platform (fun _ _ reply => reply.1) here ?_ ?_ fun aborts => ?_)
  · rintro item after ⟨rfl, rfl⟩
    refine ⟨here, ?_⟩
    cases next : system.dirs dir with
    | nil =>
        exact ensured_pure ⟨midway.quiet.leave midway.later _, .refl _ _, midway.mirrors next⟩
    | cons name names =>
        obtain ⟨there, absent⟩ := midway.left name (by rw [next]; exact List.mem_cons_self)
        have isName := system.disk.named name origin there
        obtain ⟨lead, comps, srcPath⟩ := midway.job.srcPath
        obtain ⟨lead', comps', dstPath⟩ := midway.job.dstPath
        have finds := finds_child srcPath isName midway.job.leads there
        have job : CopyJob host (system.leave dir names).disk src dst origin target := midway.job
        have keepsChild (disk : Disk) (toward : Toward (name :: target) system.disk disk) :
            inv disk := keeps disk toward.filled
        -- what is left of the loop after the entry is copied
        have rest (after : System)
            (copied : TreeCopied (system.leave dir names) (name :: origin) (name :: target) after) :
            Ensured host inv (copyEntries host.conf flags fuel src dst dir) after
              (fun _ last => Quiet base last ∧ Filled target system.disk last.disk ∧
                Mirrors system.disk origin last.disk target)
              (fun _ last => host.reliable = false ∧ Quiet base last ∧
                Filled target system.disk last.disk) := by
          obtain ⟨midway', left⟩ := midway.step next copied
          have filled : Filled target system.disk after.disk := copied.2.1.filled
          have source := midway.job.source filled.toward
          refine (entries inv base after src dst origin target dir midway' ?_ ?_).mono ?_ ?_
          · exact fun disk more => keeps disk (filled.trans more)
          · intro reliable
            obtain ⟨isDir, height, size, spare, enough, few⟩ := ready reliable
            refine ⟨?_, height, size, spare, enough.congr source, ?_⟩
            · exact (copied.2.1.kept absent).isDir isDir
            · rw [next, List.length_cons] at few
              rw [left]
              omega
          · rintro - last ⟨quiet, more, mirrors⟩
            refine ⟨quiet, filled.trans more, fun rest below => ?_⟩
            rw [← source]
            exact mirrors rest below
          · rintro error last ⟨unreliable, quiet, more⟩
            exact ⟨unreliable, quiet, filled.trans more⟩
        have failed (error : UcbError) (after : System) (fails : host.reliable = false ∧
            Quiet (system.leave dir names) after ∧
            Toward (name :: target) system.disk after.disk) :
            host.reliable = false ∧ Quiet base after ∧ Filled target system.disk after.disk :=
          ⟨fails.1, (midway.quiet.leave midway.later names).trans fails.2.1, fails.2.2.filled⟩
        show Ensured host inv (do
          let kind ← platform (.kind (ucbFsJoin src name) (!flags.follow)) rfl
          if kind = .dir then do
            fsMkdirP host.conf fuel (ucbFsJoin dst name)
            fsCopyDir host.conf flags fuel (ucbFsJoin src name) (ucbFsJoin dst name)
            fsCopyMeta (ucbFsJoin src name) (ucbFsJoin dst name)
          else ucbFsCopyFile host.conf fuel (ucbFsJoin src name) (ucbFsJoin dst name) flags
          copyEntries host.conf flags fuel src dst dir) (system.leave dir names) _ _
        rw [noFollow]
        refine ensured_bind (ensured_kind here ?_ ?_)
        · intro loc entry finds' found
          obtain rfl : name :: origin = loc := Except.ok.inj (finds.symm.trans finds')
          split
          next isDir =>
            rw [kind_dir_iff, ← found] at isDir
            have aims := job.aims.child dstPath isName (.inl absent)
            have turn := ensured_bind ((ensured_copyDirTo posix dirs (job.child isName isDir aims)
              absent keepsChild fun reliable => by
                obtain ⟨-, height, size, spare, enough, few⟩ := ready reliable
                obtain ⟨lower, rfl, child⟩ := enough.child dstPath isName there
                exact ⟨lower, size, spare, child, by omega⟩).mono (fun _ => rest) failed)
            simpa only [bind_assoc] using turn
          next notDir =>
            rw [kind_dir_iff] at notDir
            refine ensured_bind ((ensured_copyChildFile posix noFollow job isName found notDir
              absent keepsChild fun reliable => ?_).mono (fun _ => rest) failed)
            obtain ⟨isDir, height, size, spare, enough, few⟩ := ready reliable
            refine ⟨isDir, fun attrs special => ?_, fun bytes attrs isFile => ?_⟩
            · rw [special] at found
              exact enough.plain [name] attrs found
            · rw [isFile] at found
              have le := enough.bounded.files [name] bytes ⟨attrs, found⟩
              obtain ⟨lower, rfl, -⟩ := enough.bounded.child there
              rw [Nat.add_mul] at few
              omega
        · intro error missing told
          refine failed error _ ⟨?_, .refl _, .refl _ _⟩
          by_contra reliable
          obtain ⟨refusal, refused, -⟩ := told (by simpa using reliable)
          cases finds.symm.trans refused
  · intro error truthful unable
    refine ⟨?_, midway.quiet, .refl _ _⟩
    by_contra reliable
    exact unable (by simpa using reliable) _ _ ⟨rfl, rfl⟩
  · by_contra reliable
    obtain ⟨-, height, size, spare, enough, -⟩ := ready (by simpa using reliable)
    exact enough.bounded.returns (fun name member => (midway.left name member).1) aborts

/-- Directories have finitely many entries. -/
theorem exists_names (disk : Disk) (loc : Loc) : ∃ names : List Name, names.Nodup ∧
    ∀ name, name ∈ names ↔ disk.entry (name :: loc) ≠ none := by
  obtain ⟨locs, all⟩ := disk.finite
  refine ⟨(locs.filterMap List.head?).dedup.filter fun name =>
    (disk.entry (name :: loc)).isSome, (List.nodup_dedup _).filter _, fun name => ?_⟩
  rw [List.mem_filter, List.mem_dedup, Option.isSome_iff_ne_none]
  refine ⟨And.right, fun some => ⟨?_, some⟩⟩
  exact List.mem_filterMap.mpr ⟨name :: loc, all _ some, rfl⟩

/-- The directory is opened, and the loop starts with all of its names. -/
theorem copiesDirs_succ (posix : WritesSlash host.conf) (entries : CopiesEntries host flags fuel) :
    CopiesDirs host flags (fuel + 1) := by
  intro inv system src dst origin target job empty keeps ready
  have here : inv system.disk := keeps _ (.refl _ _)
  obtain ⟨lead, comps, srcPath⟩ := job.srcPath
  have leads : host.leads system.disk (ucbFsCanon host.conf src) = .ok origin :=
    (leads_canon posix srcPath).trans job.leads
  rw [fsCopyDir]
  refine ensured_bind (ensured_platform (fun _ _ reply => reply) here ?_ ?_)
  · rintro dir after ⟨loc, names, leads', nodup, all, rfl, rfl⟩
    obtain rfl : origin = loc := Except.ok.inj (leads.symm.trans leads')
    have names_eq : (system.openDir names).dirs system.opened = names := if_pos rfl
    have midway :
        Midway host system (system.openDir names) src dst origin target system.opened := by
      refine ⟨job, ⟨Nat.le_succ _, fun dir open_ => if_neg open_.ne⟩, Nat.le_refl _,
        Nat.lt_succ_self _, by rw [names_eq]; exact nodup, ?_, ?_⟩
      · intro name member
        rw [names_eq] at member
        exact ⟨(all name).mp member, empty [name] (List.cons_ne_nil _ _)⟩
      · intro name notLeft rest
        rw [names_eq] at notLeft
        have none : system.disk.entry (name :: origin) = .none := by
          by_contra some
          exact notLeft ((all name).mpr some)
        refine .inl ?_
        show system.disk.entry (rest ++ name :: target) = system.disk.entry (rest ++ name :: origin)
        rw [Disk.below_none none]
        exact Disk.below_none (empty [name] (List.cons_ne_nil _ _)) rest
    refine ⟨here, ensured_bind (ensured_outcome ((entries inv system (system.openDir names) src dst
      origin target system.opened midway keeps ?_).mono ?_ ?_))⟩
    · intro reliable
      obtain ⟨isDir, height, size, spare, enough, few⟩ := ready reliable
      refine ⟨isDir, height, size, spare, enough, ?_⟩
      have count := enough.bounded.names [] names nodup fun name => (all name).mp
      rw [names_eq]
      rw [Nat.add_mul] at few
      omega
    · rintro - last ⟨quiet, filled, mirrors⟩
      refine ensured_bind (ensured_perform fun _ _ freed => ?_)
      obtain rfl : _ = last := freed
      exact ⟨keeps _ filled, ensured_lift ⟨quiet, filled, mirrors⟩⟩
    · rintro error last ⟨unreliable, quiet, filled⟩
      refine ensured_bind (ensured_perform fun _ _ freed => ?_)
      obtain rfl : _ = last := freed
      exact ⟨keeps _ filled, ensured_lift ⟨unreliable, quiet, filled⟩⟩
  · intro error truthful unable
    refine ⟨?_, .refl _, .refl _ _⟩
    by_contra reliable
    obtain ⟨names, nodup, all⟩ := exists_names system.disk origin
    exact unable (by simpa using reliable) _ _ ⟨origin, names, leads, nodup, all, rfl, rfl⟩

end Loop

theorem copies (host : Host) (posix : WritesSlash host.conf) {flags : UcbFsFlags}
    (noFollow : flags.follow = false) (fuel : Nat) :
    CopiesDirs host flags fuel ∧ CopiesEntries host flags fuel := by
  induction fuel with
  | zero =>
      refine ⟨fun inv system src dst origin target job empty keeps ready => ?_,
        fun inv base system src dst origin target dir midway keeps ready => ?_⟩
      · refine ensured_exhausted ?_
        by_contra reliable
        obtain ⟨-, height, size, spare, -, few⟩ := ready (by simpa using reliable)
        have positive : 0 < (height + 1) * (size + 3) := Nat.mul_pos (Nat.succ_pos _) (by omega)
        omega
      · refine ensured_exhausted ?_
        by_contra reliable
        obtain ⟨-, height, size, spare, -, few⟩ := ready (by simpa using reliable)
        omega
  | succ fuel inductionHypothesis =>
      exact ⟨copiesDirs_succ posix inductionHypothesis.2,
        copiesEntries_succ posix noFollow inductionHypothesis.1 inductionHypothesis.2⟩

end Ucb.Fs
