import Ucb.Fs.CopyTree

/-!
Contract: `ucb_fs_remove_all` where every call may fail.

Owns:
- a disk without what is below a location, and the paths that do not lead through it;
- the recursion of `fs_remove_all` and its loop;
- what is removed at any time, and what a success means.

What a link leads to is outside of what is removed.
-/

namespace Ucb.Fs

open Ucb.Lib Ucb.Path

/-! ## Emptied directories -/

/-- The entries that are left if everything below a location is gone. -/
def Disk.emptiedEntry (disk : Disk) (loc other : Loc) : Option Entry :=
  if loc <:+ other ∧ other ≠ loc then none else disk.entry other

section Emptied

variable {disk disk' : Disk} {loc other : Loc}

theorem Disk.emptiedEntry_some (some : disk.emptiedEntry loc other ≠ none) :
    disk.emptiedEntry loc other = disk.entry other ∧ (loc <:+ other → other = loc) := by
  rw [emptiedEntry] at some ⊢
  split at some
  · exact absurd rfl some
  next outside =>
    rw [if_neg outside]
    exact ⟨rfl, fun inside => by_contra fun different => outside ⟨inside, different⟩⟩

theorem Disk.emptied_above (name : Name) (other : Loc)
    (some : disk.emptiedEntry loc (name :: other) ≠ none) :
    IsDir (disk.emptiedEntry loc other) := by
  obtain ⟨same, outside⟩ := emptiedEntry_some some
  rw [same] at some
  rw [emptiedEntry, if_neg fun both => ?_]
  · exact disk.above name other some
  · have here := outside (both.1.trans (List.suffix_cons _ _))
    rw [← here] at both
    exact not_suffix_tail both.1

theorem Disk.emptied_root : IsDir (disk.emptiedEntry loc []) := by
  rw [emptiedEntry, if_neg fun both => both.2 (List.suffix_nil.mp both.1).symm]
  exact disk.root

theorem Disk.ne_none_of_emptied (some : disk.emptiedEntry loc other ≠ none) :
    disk.entry other ≠ none :=
  (emptiedEntry_some some).1 ▸ some

/-- A disk without what is below a location. -/
def Disk.emptied (disk : Disk) (loc : Loc) : Disk where
  entry := disk.emptiedEntry loc
  root := emptied_root
  above := emptied_above
  named := fun name other some => disk.named name other (ne_none_of_emptied some)
  finite := disk.finite.imp fun _ all other some => all other (ne_none_of_emptied some)
  cwd := disk.cwd

theorem Disk.emptied_here (disk : Disk) (loc : Loc) :
    (disk.emptied loc).entry loc = disk.entry loc :=
  if_neg fun both => both.2 rfl

theorem emptied_pruned (disk : Disk) (loc : Loc) : PrunedIn loc disk (disk.emptied loc) := by
  refine ⟨rfl, fun other => ?_⟩
  by_cases below : loc <:+ other ∧ other ≠ loc
  · exact .inr ⟨below.1, .inl (if_pos below)⟩
  · exact .inl (if_neg below)

/-- Two disks with directories at the same place, and the same links. -/
theorem extends_of_nodes (cwd : disk'.cwd = disk.cwd)
    (same : ∀ other, disk.entry other ≠ none →
      (disk'.entry other).map Entry.node = (disk.entry other).map Entry.node) :
    Extends disk disk' := by
  refine ⟨cwd, fun other node found => ?_, rfl⟩
  rw [Disk.tree_node] at found ⊢
  rw [same other fun absent => ?_, found]
  rw [absent] at found
  cases found

/-- What is left after everything is removed is there all the time. -/
theorem emptied_extends (pruned : PrunedIn loc disk disk') (some : disk'.entry loc ≠ none) :
    Extends (disk.emptied loc) disk' := by
  refine extends_of_nodes pruned.cwd fun other there => ?_
  obtain ⟨same, outside⟩ := Disk.emptiedEntry_some there
  show _ = (disk.emptiedEntry loc other).map Entry.node
  rw [same]
  rcases pruned.entry other with same' | ⟨inside, gone | dir⟩
  · rw [same']
  · rw [outside inside] at gone
    exact absurd gone some
  · exact dir.node

/-- A disk where everything is removed has no more than that. -/
theorem extends_emptied (pruned : PrunedIn loc disk disk')
    (empty : ∀ name, disk'.entry (name :: loc) = none) : Extends disk' (disk.emptied loc) := by
  refine extends_of_nodes pruned.cwd.symm fun other there => ?_
  have outside : ¬ (loc <:+ other ∧ other ≠ loc) := by
    rintro ⟨⟨rest, rfl⟩, different⟩
    obtain ⟨front, name, rfl⟩ := List.eq_nil_or_concat rest |>.resolve_left fun none =>
      different (by rw [none]; rfl)
    rw [List.concat_eq_append, List.append_assoc] at there
    exact there (Disk.below_none (empty name) front)
  show (disk.emptiedEntry loc other).map Entry.node = _
  rw [Disk.emptiedEntry, if_neg outside]
  rcases pruned.entry other with same | ⟨-, gone | dir⟩
  · rw [same]
  · exact absurd gone there
  · exact dir.node.symm

end Emptied

/-- A path names an entry even if everything below it is gone. -/
def Steady (host : Host) (disk : Disk) (path : List UInt8) (loc : Loc) : Prop :=
  host.spot (disk.emptied loc) path = .ok (.slot loc)

/-- A path names nothing but one entry. -/
def FindsOnly (host : Host) (disk : Disk) (path : List UInt8) (loc : Loc) : Prop :=
  ∀ found, host.finds disk path = .ok found → found = loc

/-- A path leads to nothing but one directory. -/
def LeadsOnly (host : Host) (disk : Disk) (path : List UInt8) (loc : Loc) : Prop :=
  ∀ found, host.leads disk path = .ok found → found = loc

section Steady

variable {host : Host} {disk disk' : Disk} {path : List UInt8} {loc : Loc} {name : Name}
  {lead : Nat} {comps : List Name}

theorem Steady.after (steady : Steady host disk path loc) (pruned : PrunedIn loc disk disk')
    (some : disk'.entry loc ≠ none) : Steady host disk' path loc := by
  refine (emptied_extends (pruned.trans (emptied_pruned disk' loc)) ?_).spot steady
  rw [Disk.emptied_here]
  exact some

theorem Steady.spot (steady : Steady host disk path loc) :
    host.spot disk path = .ok (.slot loc) :=
  (emptied_pruned disk loc).pruned.extends_.spot steady

theorem Steady.finds (steady : Steady host disk path loc) (some : disk.entry loc ≠ none) :
    host.finds disk path = .ok loc :=
  Host.finds_iff.mpr (.inr ⟨steady.spot, some⟩)

theorem Steady.child (steady : Steady host disk path loc) (canonical : Canonical lead comps path)
    (isName : IsName name) (dir : IsDir (disk.entry loc)) :
    Steady host disk (ucbFsJoin path name) (name :: loc) := by
  refine spot_child canonical isName ?_
  have dir' : IsDir ((disk.emptied loc).entry loc) := by
    rw [Disk.emptied_here]
    exact dir
  have some : (disk.emptied (name :: loc)).entry loc ≠ none := by
    rw [(emptied_pruned disk (name :: loc)).entry loc |>.resolve_right fun below =>
      not_suffix_tail below.1]
    obtain ⟨attrs, found⟩ := dir
    rw [found]
    exact Option.some_ne_none _
  exact (emptied_extends (emptied_pruned disk _).pruned.above some).leads
    (Host.leads_of_slot steady dir')

theorem LeadsOnly.after (only : LeadsOnly host disk path loc) (less : Extends disk' disk) :
    LeadsOnly host disk' path loc :=
  fun found leads => only found (less.leads leads)

theorem leadsOnly_of_finds (finds : host.finds disk path = .ok loc)
    (dir : IsDir (disk.entry loc)) : LeadsOnly host disk path loc :=
  fun _ leads => Except.ok.inj (leads.symm.trans (Host.leads_of_finds finds dir))

theorem LeadsOnly.child (only : LeadsOnly host disk path loc)
    (canonical : Canonical lead comps path) (isName : IsName name) :
    FindsOnly host disk (ucbFsJoin path name) (name :: loc) := by
  intro found finds
  rcases Host.finds_iff.mp finds with inside | ⟨slot, -⟩
  · obtain ⟨above, -, absent⟩ := leads_of_spot_child canonical isName inside
    cases absent
  · obtain ⟨above, leads, same⟩ := leads_of_spot_child canonical isName slot
    rw [Spot.slot.inj same, only above leads]

end Steady

/-! ## The recursion -/

/-- What `fs_remove_all` ensures: parts of what the path names are gone, and after a success all of
it. -/
def Removes (host : Host) (fuel : Nat) : Prop :=
  ∀ (inv : Disk → Prop) (system : System) (path : List UInt8) (loc : Loc),
    (∃ lead comps, Canonical lead comps path) → FindsOnly host system.disk path loc →
    (∀ disk, Pruned loc system.disk disk → inv disk) →
    (host.reliable = true → Steady host system.disk path loc ∧ ∃ height size,
      Bounded system.disk loc height size ∧ (height + 1) * (size + 3) ≤ fuel) →
    Ensured host inv (fsRemoveAll fuel path) system
      (fun _ after => Quiet system after ∧ Pruned loc system.disk after.disk ∧
        ∀ found, host.finds system.disk path = .ok found →
          Steady host system.disk path found ∧ after.disk.entry found = none)
      (fun _ after => host.reliable = false ∧ Quiet system after ∧
        Pruned loc system.disk after.disk)

/-- What the loop of `fs_remove_all` ensures with the names that its iterator is left with. -/
def Empties (host : Host) (fuel : Nat) : Prop :=
  ∀ (inv : Disk → Prop) (base system : System) (path : List UInt8) (loc : Loc) (dir : Nat),
    (∃ lead comps, Canonical lead comps path) → LeadsOnly host system.disk path loc →
    Quiet base system → base.opened ≤ dir → dir < system.opened →
    (∀ name ∈ system.dirs dir, IsName name) →
    (∀ disk, PrunedIn loc system.disk disk → inv disk) →
    (host.reliable = true → IsDir (system.disk.entry loc) ∧ Steady host system.disk path loc ∧
      (system.dirs dir).Nodup ∧
      (∀ name, name ∈ system.dirs dir ↔ system.disk.entry (name :: loc) ≠ none) ∧
      ∃ height size, Bounded system.disk loc height size ∧
        height * (size + 3) + 2 + (system.dirs dir).length ≤ fuel) →
    Ensured host inv (removeEntries fuel path dir) system
      (fun _ after => Quiet base after ∧ PrunedIn loc system.disk after.disk ∧
        (host.reliable = true → IsDir (after.disk.entry loc) ∧
          ∀ name, after.disk.entry (name :: loc) = none))
      (fun _ after => host.reliable = false ∧ Quiet base after ∧
        PrunedIn loc system.disk after.disk)

section Recursion

variable {host : Host} {fuel : Nat}

theorem ne_none_of_dir {item : Option Entry} (dir : IsDir item) : item ≠ none := by
  obtain ⟨attrs, rfl⟩ := dir
  exact Option.some_ne_none _

theorem cons_ne_self {name : Name} {loc : Loc} : name :: loc ≠ loc :=
  fun same => Nat.succ_ne_self _ (congrArg List.length same)

/-- The directory of what is removed stays. -/
theorem Pruned.isDir_above {disk disk' : Disk} {loc : Loc} {name : Name}
    (pruned : Pruned (name :: loc) disk disk') (dir : IsDir (disk.entry loc)) :
    IsDir (disk'.entry loc) := by
  rcases pruned.entry loc with same | ⟨inside, -⟩ | ⟨-, same⟩
  · rw [same]
    exact dir
  · exact absurd inside not_suffix_tail
  · exact same.right

theorem Bounded.pruned {disk disk' : Disk} {loc : Loc} {height size : Nat}
    (bounded : Bounded disk loc height size) (pruned : PrunedIn loc disk disk') :
    Bounded disk' loc height size := by
  have less {other : Loc} (some : disk'.entry other ≠ none) : disk.entry other ≠ none := by
    rcases pruned.entry other with same | ⟨-, gone | dir⟩
    · rw [← same]
      exact some
    · exact absurd gone some
    · obtain ⟨attrs, found⟩ := dir.left
      rw [found]
      exact Option.some_ne_none _
  refine ⟨fun rest some => bounded.deep rest (less some), fun rest bytes has => ?_,
    fun rest names nodup there => bounded.names rest names nodup fun name member =>
      less (there name member), fun rest name some => bounded.utf8 rest name (less some)⟩
  refine bounded.files rest bytes ?_
  rcases pruned.entry (rest ++ loc) with same | ⟨-, gone | dir⟩
  · rw [HasBytes, ← same]
    exact has
  · exact absurd gone has.ne_none
  · exact absurd dir.right has.not_dir

/-- One turn of the loop, and what is left of it. -/
theorem empties_succ (removes : Removes host fuel) (empties : Empties host fuel) :
    Empties host (fuel + 1) := by
  intro inv base system path loc dir canonical only quiet later opened isName keeps ready
  have here : inv system.disk := keeps _ (.refl _ _)
  rw [removeEntries]
  refine ensured_bind (ensured_platform (fun _ _ reply => reply.1) here ?_ ?_ fun aborts => ?_)
  · rintro item after ⟨rfl, rfl⟩
    refine ⟨here, ?_⟩
    cases next : system.dirs dir with
    | nil =>
        refine ensured_pure ⟨quiet.leave later _, .refl _ _, fun reliable => ?_⟩
        obtain ⟨isDir, -, -, all, -⟩ := ready reliable
        refine ⟨isDir, fun name => ?_⟩
        by_contra some
        have member := (all name).mpr some
        rw [next] at member
        exact List.not_mem_nil member
    | cons name names =>
        obtain ⟨lead, comps, canonical⟩ := canonical
        have isName' := isName name (by rw [next]; exact List.mem_cons_self)
        show Ensured host inv (do
          fsRemoveAll fuel (ucbFsJoin path name)
          removeEntries fuel path dir) (system.leave dir names) _ _
        refine ensured_bind ((removes inv (system.leave dir names) _ (name :: loc)
          ⟨lead, _, canonical.child isName'⟩ (only.child canonical isName')
          (fun disk pruned => keeps disk pruned.above) fun reliable => ?_).mono ?_ ?_)
        · obtain ⟨isDir, steady, nodup, all, height, size, bounded, few⟩ := ready reliable
          have there := (all name).mp (by rw [next]; exact List.mem_cons_self)
          obtain ⟨lower, rfl, child⟩ := bounded.child there
          exact ⟨steady.child canonical isName' isDir, lower, size, child, by omega⟩
        · rintro - after ⟨quiet', pruned, gone⟩
          have prunedIn := pruned.above
          have left : after.dirs dir = names := by
            rw [quiet'.dirs dir opened]
            exact if_pos rfl
          refine (empties inv base after path loc dir ⟨lead, comps, canonical⟩
            (only.after prunedIn.pruned.extends_) ((quiet.leave later names).trans quiet') later
            (opened.trans_le quiet'.opened) ?_ ?_ ?_).mono ?_ ?_
          · intro other member
            rw [left] at member
            exact isName other (by rw [next]; exact List.mem_cons_of_mem _ member)
          · exact fun disk more => keeps disk (prunedIn.trans more)
          · intro reliable
            obtain ⟨isDir, steady, nodup, all, height, size, bounded, few⟩ := ready reliable
            have isDir' := pruned.isDir_above isDir
            rw [next, List.nodup_cons] at nodup
            rw [left]
            refine ⟨isDir', steady.after prunedIn (ne_none_of_dir isDir'), nodup.2, fun other => ?_,
              height, size, bounded.pruned prunedIn, ?_⟩
            · by_cases here : other = name
              · subst here
                have there := (all other).mp (by rw [next]; exact List.mem_cons_self)
                have none := (gone _ ((steady.child canonical isName' isDir).finds there)).2
                exact ⟨fun member => absurd member nodup.1, fun some => absurd none some⟩
              · have same := pruned.outside (apart_names (Ne.symm here) loc).1 cons_ne_self
                have before := all other
                rw [next, List.mem_cons, or_iff_right here] at before
                rw [same]
                exact before
            · rw [next, List.length_cons] at few
              omega
          · rintro - last ⟨quiet'', more, done⟩
            exact ⟨quiet'', prunedIn.trans more, done⟩
          · rintro error last ⟨unreliable, quiet'', more⟩
            exact ⟨unreliable, quiet'', prunedIn.trans more⟩
        · rintro error after ⟨unreliable, quiet', pruned⟩
          exact ⟨unreliable, (quiet.leave later names).trans quiet', pruned.above⟩
  · intro error truthful unable
    refine ⟨?_, quiet, .refl _ _⟩
    by_contra reliable
    exact unable (by simpa using reliable) _ _ ⟨rfl, rfl⟩
  · by_contra reliable
    obtain ⟨-, -, -, all, height, size, bounded, -⟩ := ready (by simpa using reliable)
    exact bounded.returns (fun name => (all name).mp) aborts

/-- An entry that is no directory is removed, and a directory after everything in it. -/
theorem removes_succ (posix : WritesSlash host.conf) (empties : Empties host fuel) :
    Removes host (fuel + 1) := by
  intro inv system path loc canonical only keeps ready
  have here : inv system.disk := keeps _ (.refl _ _)
  rw [fsRemoveAll]
  refine ensured_bind (ensured_outcome (ensured_kind here ?_ ?_))
  · intro found entry finds there
    obtain rfl := only found finds
    show Ensured host inv (if entry.kind ≠ .dir then _ else _) _ _ _
    split
    next notDir =>
      rw [ne_eq, kind_dir_iff, ← there] at notDir
      have empty (name : Name) : system.disk.entry (name :: found) = none :=
        Disk.below_of_not_dir notDir (List.cons_ne_nil name [])
      refine ensured_removeFile here ?_ ?_
      · intro loc disk slot some _ only' gone
        obtain rfl := only loc (Host.finds_iff.mpr (.inr ⟨slot, some⟩))
        have pruned := only'.pruned gone
        refine ⟨keeps _ pruned, quiet_on _ _, pruned, fun other finds' => ?_⟩
        obtain rfl := only other finds'
        exact ⟨(extends_emptied (.refl _ _) empty).spot slot, gone⟩
      · intro error lies
        refine ⟨?_, .refl _, .refl _ _⟩
        by_contra reliable
        exact notDir (lies (by simpa using reliable) found finds)
    next isDir =>
      rw [ne_eq, not_not, kind_dir_iff, ← there] at isDir
      have onlyDir := leadsOnly_of_finds finds isDir
      obtain ⟨lead, comps, path'⟩ := canonical
      have leads : host.leads system.disk (ucbFsCanon host.conf path) = .ok found :=
        (leads_canon posix path').trans (Host.leads_of_finds finds isDir)
      refine ensured_bind (ensured_platform (fun _ _ reply => reply) here ?_ ?_)
      · rintro dir after ⟨loc, names, leads', nodup, all, rfl, rfl⟩
        obtain rfl : found = loc := Except.ok.inj (leads.symm.trans leads')
        have names_eq : (system.openDir names).dirs system.opened = names := if_pos rfl
        refine ⟨here, ensured_bind (ensured_outcome ((empties inv system (system.openDir names) path
          found system.opened ⟨lead, comps, path'⟩ onlyDir
          ⟨Nat.le_succ _, fun dir open_ => if_neg open_.ne⟩ (Nat.le_refl _) (Nat.lt_succ_self _)
          ?_ (fun disk pruned => keeps disk pruned.pruned) ?_).mono ?_ ?_))⟩
        · intro name member
          rw [names_eq] at member
          exact system.disk.named name found ((all name).mp member)
        · intro reliable
          obtain ⟨steady, height, size, bounded, few⟩ := ready reliable
          rw [names_eq]
          refine ⟨isDir, steady, nodup, all, height, size, bounded, ?_⟩
          have count := bounded.names [] names nodup fun name => (all name).mp
          rw [Nat.add_mul] at few
          omega
        · rintro - mid ⟨quiet, pruned, done⟩
          refine ensured_bind (ensured_perform fun _ _ freed => ?_)
          obtain rfl : _ = mid := freed
          refine ⟨keeps _ pruned.pruned, ensured_bind (ensured_lift ?_)⟩
          refine ensured_removeDir (keeps _ pruned.pruned) ?_ ?_
          · intro loc disk slot dir only' gone
            obtain rfl := only loc (pruned.pruned.extends_.finds
              (Host.finds_iff.mpr (.inr ⟨slot, ne_none_of_dir dir⟩)))
            have pruned' := pruned.pruned.trans (only'.pruned gone)
            refine ⟨keeps _ pruned', quiet.trans (quiet_on _ _), pruned', fun other finds' => ?_⟩
            obtain rfl := only other finds'
            refine ⟨(extends_emptied pruned fun name => ?_).spot slot, gone⟩
            -- a directory that can be removed has no entries
            rcases only'.entry (name :: other) with same | same | ⟨same, -⟩
            · rw [← same]
              exact Disk.below_none gone [name]
            · exact absurd same cons_ne_self
            · have long := congrArg List.length same
              rw [List.length_cons, List.length_tail] at long
              omega
          · intro error lies
            refine ⟨?_, quiet, pruned.pruned⟩
            by_contra reliable
            have reliable : host.reliable = true := by simpa using reliable
            obtain ⟨isDir', empty⟩ := done reliable
            have slot := ((ready reliable).1.after pruned (ne_none_of_dir isDir')).spot
            obtain ⟨name, some⟩ := lies reliable found slot isDir'
            exact some (empty name)
        · rintro error mid ⟨unreliable, quiet, pruned⟩
          refine ensured_bind (ensured_perform fun _ _ freed => ?_)
          obtain rfl : _ = mid := freed
          exact ⟨keeps _ pruned.pruned, ensured_bind (ensured_lift ⟨unreliable, quiet,
            pruned.pruned⟩)⟩
      · intro error truthful unable
        refine ⟨?_, .refl _, .refl _ _⟩
        by_contra reliable
        obtain ⟨names, nodup, all⟩ := exists_names system.disk found
        exact unable (by simpa using reliable) _ _ ⟨found, names, leads, nodup, all, rfl, rfl⟩
  · intro error missing told
    show Ensured host inv (if error.code = .errsysEnoent then pure () else throw error) _ _ _
    split
    next isMissing =>
      refine ensured_pure ⟨.refl _, .refl _ _, fun found finds => ?_⟩
      rw [missing isMissing] at finds
      cases finds
    next notMissing =>
      refine ensured_throw ⟨?_, .refl _, .refl _ _⟩
      by_contra reliable
      have reliable : host.reliable = true := by simpa using reliable
      obtain ⟨refusal, refused, code⟩ := told reliable
      rcases Host.finds_error_iff.mp refused with absent | ⟨-, -, -, rfl⟩
      · rw [(ready reliable).1.spot] at absent
        cases absent
      · exact notMissing code

theorem removes (host : Host) (posix : WritesSlash host.conf) (fuel : Nat) :
    Removes host fuel ∧ Empties host fuel := by
  induction fuel with
  | zero =>
      refine ⟨fun inv system path loc canonical only keeps ready => ?_,
        fun inv base system path loc dir canonical only quiet later opened isName keeps ready => ?_⟩
      · refine ensured_exhausted ?_
        by_contra reliable
        obtain ⟨-, height, size, -, few⟩ := ready (by simpa using reliable)
        have positive : 0 < (height + 1) * (size + 3) := Nat.mul_pos (Nat.succ_pos _) (by omega)
        omega
      · refine ensured_exhausted ?_
        by_contra reliable
        obtain ⟨-, -, -, -, height, size, -, few⟩ := ready (by simpa using reliable)
        omega
  | succ fuel inductionHypothesis =>
      exact ⟨removes_succ posix inductionHypothesis.2,
        empties_succ inductionHypothesis.1 inductionHypothesis.2⟩

end Recursion

/-! ## The whole function -/

section RemoveAll

variable {host : Host} {inv : Disk → Prop} {system last : System} {path : List UInt8} {loc : Loc}
  {fuel : Nat} {visited : List System} {result : Option (Except UcbError Unit)}

/-- A root has no name, so nothing is ready to be removed there. -/
theorem not_steady_root {lead : Nat} {comps : List Name} {disk : Disk}
    (canonical : Canonical lead comps path) (isRoot : ucbFsIsRoot path = true) :
    ¬ Steady host disk path loc := by
  have allSlash : ∀ c ∈ path, c = slash := by
    intro c member
    have all := (Bool.and_eq_true_iff.mp isRoot).2
    exact eq_of_beq (List.all_eq_true.mp all c member)
  have none : comps = [] := by
    by_contra some
    obtain ⟨nonempty, last⟩ := joined_getLast canonical.proper some
    have ends : path.getLast? = (joined comps).getLast? := by
      rw [canonical.text_eq, List.getLast?_append_of_ne_nil _ nonempty]
    rw [← ends, List.getLast?_eq_some_getLast canonical.nonempty] at last
    exact last (congrArg Option.some (allSlash _ (List.getLast_mem _)))
  intro steady
  obtain ⟨here, -, inTree⟩ := Host.spot_of_ok steady
  rw [canonical.segments, none] at inTree
  cases inTree

/-- Nothing is found, so nothing is done. -/
theorem ensured_removeAll_missing {refusal : Refusal} {disk : Disk} (same : system.disk = disk)
    (refused : host.finds disk (ucbFsCanon host.conf path) = .error refusal) :
    Ensured host.careless (· = disk) (ucbFsRemoveAll host.conf fuel path) system
      (fun _ after => after.disk = disk) (fun _ after => after.disk = disk) := by
  rw [ucbFsRemoveAll]
  refine ensured_bind (ensured_checkPath (fun _ => ?_) fun _ _ => same)
  dsimp only
  split
  · exact ensured_throw same
  · cases fuel with
    | zero => exact ensured_exhausted rfl
    | succ fuel =>
        rw [fsRemoveAll]
        refine ensured_bind (ensured_outcome (ensured_kind same ?_ fun error _ _ => ?_))
        · intro found entry finds
          rw [same] at finds
          cases refused.symm.trans finds
        · show Ensured host.careless (· = disk)
            (if error.code = .errsysEnoent then pure () else throw error) _ _ _
          split
          · exact ensured_pure same
          · exact ensured_throw same

theorem ensured_removeAll (posix : WritesSlash host.conf) (nonempty : path ≠ [])
    (finds : host.finds system.disk (ucbFsCanon host.conf path) = .ok loc)
    (keeps : ∀ disk, Pruned loc system.disk disk → inv disk)
    (ready : host.reliable = true → Steady host system.disk (ucbFsCanon host.conf path) loc ∧
      ∃ height size, Bounded system.disk loc height size ∧ (height + 1) * (size + 3) ≤ fuel) :
    Ensured host inv (ucbFsRemoveAll host.conf fuel path) system
      (fun _ after => Pruned loc system.disk after.disk ∧
        Steady host system.disk (ucbFsCanon host.conf path) loc ∧ after.disk.entry loc = none)
      (fun _ after => host.reliable = false ∧ Pruned loc system.disk after.disk) := by
  obtain ⟨lead, canonical⟩ := canonical_canon posix nonempty
  rw [ucbFsRemoveAll]
  refine ensured_bind (ensured_checkPath (fun _ => ?_) fun _ empty => absurd empty nonempty)
  dsimp only
  split
  next isRoot =>
    refine ensured_throw ⟨?_, .refl _ _⟩
    by_contra reliable
    exact not_steady_root canonical isRoot (ready (by simpa using reliable)).1
  next =>
    refine ((removes host posix fuel).1 inv system _ loc ⟨lead, _, canonical⟩
      (fun found finds' => Except.ok.inj (finds'.symm.trans finds)) keeps ready).mono ?_ ?_
    · rintro - after ⟨-, pruned, gone⟩
      exact ⟨pruned, gone loc finds⟩
    · rintro error after ⟨unreliable, -, pruned⟩
      exact ⟨unreliable, pruned⟩

/-- Whatever fails, nothing is changed but that parts of what the path names are gone, links at its
end not followed, and the time of its directory. After a success all of it is gone. -/
theorem removeAll_safe (posix : WritesSlash host.conf)
    (runs : (ucbFsRemoveAll host.conf fuel path).run.Runs host system visited result last) :
    (∀ passed ∈ visited, passed.disk = system.disk ∨
      ∃ loc, host.finds system.disk (ucbFsCanon host.conf path) = .ok loc ∧
        Pruned loc system.disk passed.disk) ∧
      (result = some (.ok ()) → ∀ loc,
        host.finds system.disk (ucbFsCanon host.conf path) = .ok loc →
          last.disk.entry loc = none) := by
  have runs' := runs.careless
  by_cases empty : path = []
  · rw [empty, ucbFsRemoveAll] at runs'
    cases runs'
    exact ⟨fun passed absent => absurd absent List.not_mem_nil, fun absent => by cases absent⟩
  · cases finds : host.finds system.disk (ucbFsCanon host.conf path) with
    | error refusal =>
        have ensured : Ensured host.careless (· = system.disk) (ucbFsRemoveAll host.conf fuel path)
            system _ _ := ensured_removeAll_missing rfl finds
        obtain ⟨between, -⟩ := ensured.runs runs'
        exact ⟨fun passed member => .inl (between passed member),
          fun _ loc absent => by cases absent⟩
    | ok loc =>
        have ensured : Ensured host.careless (Pruned loc system.disk)
            (ucbFsRemoveAll host.conf fuel path) system _ _ :=
          ensured_removeAll posix empty finds (fun _ pruned => pruned)
            fun absent => absurd absent Bool.false_ne_true
        obtain ⟨between, ends⟩ := ensured.runs runs'
        refine ⟨fun passed member => .inr ⟨loc, rfl, between passed member⟩, ?_⟩
        rintro rfl loc' same
        obtain rfl := Except.ok.inj same
        rcases ends with ⟨value, -, done⟩ | ⟨error, absent, -⟩ | ⟨absent, -⟩
        · exact done.2.2
        · cases absent
        · cases absent

theorem removeAll_safe_sample : ∃ visited result last,
    (ucbFsRemoveAll .posix 100 dirPath).run.Runs sampleHost sampleSystem visited result last ∧
      ∀ passed ∈ visited, passed.disk = sampleDisk ∨ ∃ loc,
        sampleHost.finds sampleDisk (ucbFsCanon .posix dirPath) = .ok loc ∧
          Pruned loc sampleDisk passed.disk := by
  obtain ⟨visited, result, last, runs⟩ := FsProg.exists_run sampleHost
    (ucbFsRemoveAll .posix 100 dirPath).run sampleSystem
  have posix : WritesSlash sampleHost.conf := rfl
  exact ⟨visited, result, last, runs, (removeAll_safe posix runs).1⟩

/-- Where no call fails without need, a tree whose names are UTF-8 is removed if and only if its
path does not lead through it. -/
theorem removeAll_iff (posix : WritesSlash host.conf) (reliable : host.reliable = true)
    (nonempty : path ≠ [])
    (finds : host.finds system.disk (ucbFsCanon host.conf path) = .ok loc)
    (utf8 : NamesUtf8 system.disk loc) :
    ∃ enough, ∀ fuel, enough ≤ fuel → ∀ visited result last,
      (ucbFsRemoveAll host.conf fuel path).run.Runs host system visited result last →
      (result = some (.ok ()) ↔ Steady host system.disk (ucbFsCanon host.conf path) loc) := by
  obtain ⟨height, size, bounded⟩ := exists_bounded utf8
  refine ⟨(height + 1) * (size + 3),
    fun fuel few visited result last runs => ⟨?_, fun steady => ?_⟩⟩
  · rintro rfl
    have ensured : Ensured host.careless (fun _ => True) (ucbFsRemoveAll host.conf fuel path) system
        _ _ :=
      ensured_removeAll posix nonempty finds (fun _ _ => trivial)
        fun absent => absurd absent Bool.false_ne_true
    obtain ⟨-, ⟨value, -, done⟩ | ⟨error, absent, -⟩ | ⟨absent, -⟩⟩ := ensured.runs runs.careless
    · exact done.2.1
    · cases absent
    · cases absent
  · have ensured : Ensured host (fun _ => True) (ucbFsRemoveAll host.conf fuel path) system _ _ :=
      ensured_removeAll posix nonempty finds (fun _ _ => trivial) fun _ =>
        ⟨steady, height, size, bounded, few⟩
    obtain ⟨-, ⟨value, rfl, -⟩ | ⟨error, -, unreliable, -⟩ | ⟨-, unreliable⟩⟩ := ensured.runs runs
    · rfl
    · rw [unreliable] at reliable
      cases reliable
    · rw [unreliable] at reliable
      cases reliable

theorem removeAll_iff_sample : ∃ enough, ∀ fuel, enough ≤ fuel → ∀ visited result last,
    (ucbFsRemoveAll sampleHost.conf fuel dirPath).run.Runs sampleHost sampleSystem visited result
        last →
      (result = some (.ok ()) ↔
        Steady sampleHost sampleDisk (ucbFsCanon sampleHost.conf dirPath) [[0x64]]) :=
  removeAll_iff rfl rfl (by decide)
    (Host.finds_iff.mpr (.inr ⟨spot_dirPath _, Option.some_ne_none _⟩)) sample_utf8

end RemoveAll

end Ucb.Fs
