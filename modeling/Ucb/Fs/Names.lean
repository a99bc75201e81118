import Ucb.Fs.Platform

/-!
Contract: what paths name on a disk, and on one with more entries.

Owns:
- how the readings of a path depend on each other;
- what is left of them when entries are made or taken away.
-/

namespace Ucb.Fs

open Ucb.Lib Ucb.Path

namespace Host

section Readings

variable {host : Host} {disk : Disk} {path : List UInt8} {here loc : Loc} {refusal : Refusal}

theorem start_cases (disk : Disk) (path : List UInt8) :
    (∃ here, start disk path = .ok here ∧ disk.tree.node here = some .dir) ∨
      start disk path = .error .missing := by
  unfold start
  split
  · exact .inr rfl
  · split
    · exact .inl ⟨[], rfl, disk.tree.root⟩
    · split
      next dir => exact .inl ⟨disk.cwd, rfl, (disk.tree_dir_iff _).mpr dir⟩
      next => exact .inr rfl

theorem leads_eq (starts : start disk path = .ok here) :
    host.leads disk path =
      (disk.tree.walk [dot] dotdot host.links here (pathSegments path)).map Prod.fst := by
  rw [leads, starts]
  show (disk.tree.walk _ _ _ _ _ >>= fun place => pure place.1) = _
  cases disk.tree.walk [dot] dotdot host.links here (pathSegments path) with
  | error refusal => rfl
  | ok place => rfl

theorem spot_eq (starts : start disk path = .ok here) :
    host.spot disk path = disk.tree.spot [dot] dotdot host.links here (pathSegments path) := by
  rw [spot, starts]
  rfl

theorem final_eq (starts : start disk path = .ok here) :
    host.final disk path =
      disk.tree.final [dot] dotdot (host.links + 1) host.links here (pathSegments path) := by
  rw [final, starts]
  rfl

theorem leads_ok (starts : start disk path = .ok here) {left : Nat}
    (walks : disk.tree.walk [dot] dotdot host.links here (pathSegments path) = .ok (loc, left)) :
    host.leads disk path = .ok loc := by
  rw [leads_eq starts, walks]
  rfl

theorem walk_of_leads (leads : host.leads disk path = .ok loc) :
    ∃ here left, start disk path = .ok here ∧
      disk.tree.walk [dot] dotdot host.links here (pathSegments path) = .ok (loc, left) := by
  rcases start_cases disk path with ⟨here, starts, -⟩ | starts
  · rw [leads_eq starts] at leads
    cases walks : disk.tree.walk [dot] dotdot host.links here (pathSegments path) with
    | error refusal =>
        rw [walks] at leads
        cases leads
    | ok place =>
        rw [walks] at leads
        exact ⟨here, place.2, starts, by rw [walks, ← Except.ok.inj leads]⟩
  · rw [Host.leads, starts] at leads
    cases leads

theorem leads_dir (leads : host.leads disk path = .ok loc) : IsDir (disk.entry loc) := by
  obtain ⟨here, left, starts, walks⟩ := walk_of_leads leads
  rcases start_cases disk path with ⟨here', starts', dir⟩ | missing
  · rw [starts] at starts'
    obtain rfl := Except.ok.inj starts'
    exact (disk.tree_dir_iff loc).mp (FileTree.walk_dir dir walks)
  · rw [starts] at missing
    cases missing

theorem spot_of_ok {found : Spot Name} (ends : host.spot disk path = .ok found) :
    ∃ here, start disk path = .ok here ∧
      disk.tree.spot [dot] dotdot host.links here (pathSegments path) = .ok found := by
  rcases start_cases disk path with ⟨here, starts, -⟩ | starts
  · rw [spot_eq starts] at ends
    exact ⟨here, starts, ends⟩
  · rw [spot, starts] at ends
    cases ends

/-- A new entry gets into a directory. -/
theorem spot_above (ends : host.spot disk path = .ok (.slot loc)) :
    IsDir (disk.entry loc.tail) := by
  obtain ⟨here, starts, ends⟩ := spot_of_ok ends
  obtain ⟨front, last, place, -, rfl, -, -, walks⟩ := FileTree.spot_slot ends
  rcases start_cases disk path with ⟨here', starts', dir⟩ | missing
  · rw [starts] at starts'
    obtain rfl := Except.ok.inj starts'
    exact (disk.tree_dir_iff _).mp (FileTree.walk_dir dir walks)
  · rw [starts] at missing
    cases missing

/-- A new entry gets a name. -/
theorem spot_named (ends : host.spot disk path = .ok (.slot loc)) :
    loc ≠ [] ∧ ∀ name ∈ loc.head?, IsName name := by
  obtain ⟨here, -, ends⟩ := spot_of_ok ends
  obtain ⟨front, last, place, split, rfl, notCur, notParent, -⟩ := FileTree.spot_slot ends
  refine ⟨List.cons_ne_nil _ _, fun name isLast => ?_⟩
  obtain rfl : last = name := by simpa using isLast
  refine ⟨proper_pathSegments path last ?_, notCur, notParent⟩
  rw [split]
  exact List.mem_append_right _ (List.mem_singleton_self _)

theorem leads_of_inside (ends : host.spot disk path = .ok (.inside loc)) :
    host.leads disk path = .ok loc := by
  obtain ⟨here, starts, ends⟩ := spot_of_ok ends
  obtain ⟨left, walks⟩ := FileTree.spot_inside ends
  exact leads_ok starts walks

theorem leads_of_slot (ends : host.spot disk path = .ok (.slot loc))
    (dir : IsDir (disk.entry loc)) : host.leads disk path = .ok loc := by
  obtain ⟨here, starts, ends⟩ := spot_of_ok ends
  obtain ⟨left, walks⟩ := FileTree.walk_of_slot ends ((disk.tree_dir_iff loc).mpr dir)
  exact leads_ok starts walks

theorem finds_iff : host.finds disk path = .ok loc ↔
    host.spot disk path = .ok (.inside loc) ∨
      (host.spot disk path = .ok (.slot loc) ∧ disk.entry loc ≠ none) := by
  rw [finds]
  cases ends : host.spot disk path with
  | error refusal =>
      constructor
      · intro absent
        cases absent
      · rintro (absent | ⟨absent, -⟩)
        · cases absent
        · cases absent
  | ok found =>
      cases found with
      | inside loc' =>
          constructor
          · intro same
            exact .inl (by rw [Except.ok.inj same])
          · rintro (same | ⟨absent, -⟩)
            · rw [Spot.inside.inj (Except.ok.inj same)]
              rfl
            · cases absent
      | slot loc' =>
          show (if disk.entry loc' = none then _ else _) = _ ↔ _
          constructor
          · intro same
            split at same
            · cases same
            next some =>
              obtain rfl := Except.ok.inj same
              exact .inr ⟨rfl, some⟩
          · rintro (absent | ⟨same, some⟩)
            · cases absent
            · obtain rfl := Spot.slot.inj (Except.ok.inj same)
              rw [if_neg some]
              rfl

theorem finds_error_iff : host.finds disk path = .error refusal ↔
    host.spot disk path = .error refusal ∨
      ∃ loc, host.spot disk path = .ok (.slot loc) ∧ disk.entry loc = none ∧
        refusal = .missing := by
  rw [finds]
  cases ends : host.spot disk path with
  | error found =>
      constructor
      · intro same
        exact .inl (by rw [Except.error.inj same])
      · rintro (same | ⟨loc, absent, -⟩)
        · rw [Except.error.inj same]
          rfl
        · cases absent
  | ok found =>
      cases found with
      | inside loc =>
          constructor
          · intro absent
            cases absent
          · rintro (absent | ⟨loc, absent, -⟩)
            · cases absent
            · cases absent
      | slot loc =>
          show (if disk.entry loc = none then _ else _) = _ ↔ _
          constructor
          · intro same
            split at same
            next none => exact .inr ⟨loc, rfl, none, (Except.error.inj same).symm⟩
            next => cases same
          · rintro (absent | ⟨loc', same, none, rfl⟩)
            · cases absent
            · obtain rfl := Spot.slot.inj (Except.ok.inj same)
              rw [if_pos none]

theorem vacant_iff : host.vacant disk path = .ok loc ↔
    host.spot disk path = .ok (.slot loc) ∧ disk.entry loc = none := by
  rw [vacant]
  cases ends : host.spot disk path with
  | error refusal =>
      constructor
      · intro absent
        cases absent
      · rintro ⟨absent, -⟩
        cases absent
  | ok found =>
      cases found with
      | inside loc' =>
          constructor
          · intro absent
            cases absent
          · rintro ⟨absent, -⟩
            cases absent
      | slot loc' =>
          show (if disk.entry loc' = none then _ else _) = _ ↔ _
          constructor
          · intro same
            split at same
            next none =>
              obtain rfl := Except.ok.inj same
              exact ⟨rfl, none⟩
            next => cases same
          · rintro ⟨same, none⟩
            obtain rfl := Spot.slot.inj (Except.ok.inj same)
            rw [if_pos none]
            rfl

theorem vacant_error (refused : host.vacant disk path = .error refusal) :
    host.spot disk path = .error refusal ∨
      (refusal = .present ∧ ((∃ loc, host.spot disk path = .ok (.inside loc)) ∨
        ∃ loc, host.spot disk path = .ok (.slot loc) ∧ disk.entry loc ≠ none)) := by
  rw [vacant] at refused
  cases ends : host.spot disk path with
  | error found =>
      rw [ends] at refused
      exact .inl (by rw [Except.error.inj refused])
  | ok found =>
      rw [ends] at refused
      cases found with
      | inside loc => exact .inr ⟨(Except.error.inj refused).symm, .inl ⟨loc, rfl⟩⟩
      | slot loc =>
          change (if disk.entry loc = none then _ else _) = _ at refused
          split at refused
          · cases refused
          next some => exact .inr ⟨(Except.error.inj refused).symm, .inr ⟨loc, rfl, some⟩⟩

theorem finds_ne_none (finds : host.finds disk path = .ok loc) : disk.entry loc ≠ none := by
  rcases finds_iff.mp finds with inside | ⟨-, some⟩
  · obtain ⟨attrs, found⟩ := leads_dir (leads_of_inside inside)
    rw [found]
    exact Option.some_ne_none _
  · exact some

theorem leads_of_finds (finds : host.finds disk path = .ok loc) (dir : IsDir (disk.entry loc)) :
    host.leads disk path = .ok loc := by
  rcases finds_iff.mp finds with inside | ⟨slot, -⟩
  · exact leads_of_inside inside
  · exact leads_of_slot slot dir

/-- What leads somewhere names something. -/
theorem finds_of_leads (leads : host.leads disk path = .ok loc) :
    ∃ found, host.finds disk path = .ok found := by
  obtain ⟨here, left, starts, walks⟩ := walk_of_leads leads
  rcases FileTree.spot_of_walk walks with inside | ⟨found, slot, some⟩
  · exact ⟨_, finds_iff.mpr (.inl ((spot_eq starts).trans inside))⟩
  · refine ⟨found, finds_iff.mpr (.inr ⟨(spot_eq starts).trans slot, ?_⟩)⟩
    exact mt (disk.tree_none_iff found).mpr some

theorem slot_of_finds (finds : host.finds disk path = .ok loc)
    (notDir : ¬ IsDir (disk.entry loc)) : host.spot disk path = .ok (.slot loc) := by
  rcases finds_iff.mp finds with inside | ⟨slot, -⟩
  · exact absurd (leads_dir (leads_of_inside inside)) notDir
  · exact slot

theorem reaches_of_final (final : host.final disk path = .ok loc) (some : disk.entry loc ≠ none) :
    host.reaches disk path = .ok loc := by
  rw [reaches, final]
  show (if disk.entry loc = none then _ else _) = _
  rw [if_neg some]
  rfl

theorem final_of_reaches (reaches : host.reaches disk path = .ok loc) :
    host.final disk path = .ok loc ∧ disk.entry loc ≠ none := by
  rw [Host.reaches] at reaches
  cases final : host.final disk path with
  | error refusal =>
      rw [final] at reaches
      cases reaches
  | ok found =>
      rw [final] at reaches
      change (if disk.entry found = none then _ else _) = _ at reaches
      split at reaches
      · cases reaches
      next some =>
        obtain rfl := Except.ok.inj reaches
        exact ⟨rfl, some⟩

theorem final_of_leads (leads : host.leads disk path = .ok loc) :
    host.final disk path = .ok loc := by
  obtain ⟨here, left, starts, walks⟩ := walk_of_leads leads
  rw [final_eq starts]
  exact FileTree.final_of_walk (Nat.lt_succ_self _) walks

theorem reaches_of_leads (leads : host.leads disk path = .ok loc) :
    host.reaches disk path = .ok loc := by
  refine reaches_of_final (final_of_leads leads) ?_
  obtain ⟨attrs, found⟩ := leads_dir leads
  rw [found]
  exact Option.some_ne_none _

theorem final_of_slot (ends : host.spot disk path = .ok (.slot loc))
    (notLink : ∀ target, disk.entry loc ≠ some (.link target)) :
    host.final disk path = .ok loc := by
  obtain ⟨here, starts, ends⟩ := spot_of_ok ends
  rw [final_eq starts]
  refine FileTree.final_of_slot ends fun rooted target link => ?_
  rw [Disk.tree_node] at link
  obtain ⟨entry, found, isLink⟩ := Option.map_eq_some_iff.mp link
  cases entry with
  | dir attrs => cases isLink
  | file bytes attrs => cases isLink
  | link text => exact notLink text found
  | other attrs => cases isLink

theorem reaches_of_finds (finds : host.finds disk path = .ok loc)
    (notLink : ∀ target, disk.entry loc ≠ some (.link target)) :
    host.reaches disk path = .ok loc := by
  rcases finds_iff.mp finds with inside | ⟨slot, some⟩
  · exact reaches_of_leads (leads_of_inside inside)
  · exact reaches_of_final (final_of_slot slot notLink) some

/-- Where nothing is found, a file is created at the place of the last name. -/
theorem vacant_of_final (missing : host.finds disk path = .error .missing)
    (final : host.final disk path = .ok loc) : host.vacant disk path = .ok loc := by
  rcases finds_error_iff.mp missing with refused | ⟨loc', slot, none, -⟩
  · rcases start_cases disk path with ⟨here, starts, -⟩ | starts
    · rw [spot_eq starts] at refused
      rw [final_eq starts, FileTree.final_of_spot_error refused] at final
      cases final
    · rw [Host.final, starts] at final
      cases final
  · rw [final_of_slot slot fun target link => by rw [none] at link; cases link] at final
    obtain rfl := Except.ok.inj final
    exact vacant_iff.mpr ⟨slot, none⟩

end Readings

end Host

/-! ## More entries -/

structure Extends (disk disk' : Disk) : Prop where
  cwd : disk'.cwd = disk.cwd
  tree : disk.tree.Grows disk'.tree

theorem Kept.extends_ {disk disk' : Disk} (kept : Kept disk disk') : Extends disk disk' :=
  ⟨kept.cwd, kept.grows⟩

theorem Pruned.extends_ {disk disk' : Disk} {loc : Loc} (pruned : Pruned loc disk disk') :
    Extends disk' disk :=
  ⟨pruned.cwd.symm, pruned.shrinks⟩

namespace Extends

variable {host : Host} {disk disk' : Disk} {path : List UInt8} {loc : Loc}

theorem isDir (more : Extends disk disk') (dir : IsDir (disk.entry loc)) :
    IsDir (disk'.entry loc) :=
  (disk'.tree_dir_iff loc).mp (more.tree.kept _ _ ((disk.tree_dir_iff loc).mpr dir))

theorem ne_none (more : Extends disk disk') (some : disk.entry loc ≠ none) :
    disk'.entry loc ≠ none := by
  intro absent
  obtain ⟨node, found⟩ := Option.ne_none_iff_exists'.mp (mt (disk.tree_none_iff loc).mp some)
  have kept := more.tree.kept _ _ found
  rw [(disk'.tree_none_iff loc).mpr absent] at kept
  cases kept

theorem start (more : Extends disk disk') (starts : Host.start disk path = .ok loc) :
    Host.start disk' path = .ok loc := by
  unfold Host.start at starts ⊢
  rw [more.cwd]
  split at starts
  · cases starts
  next some =>
    rw [if_neg some]
    split at starts
    next rooted =>
      rw [if_pos rooted]
      exact starts
    next relative =>
      rw [if_neg relative]
      split at starts
      next dir =>
        rw [if_pos (more.isDir dir)]
        exact starts
      next => cases starts

theorem leads (more : Extends disk disk') (leads : host.leads disk path = .ok loc) :
    host.leads disk' path = .ok loc := by
  obtain ⟨here, left, starts, walks⟩ := Host.walk_of_leads leads
  exact Host.leads_ok (more.start starts) (more.tree.walk walks)

theorem spot (more : Extends disk disk') {found : Spot Name}
    (ends : host.spot disk path = .ok found) : host.spot disk' path = .ok found := by
  obtain ⟨here, starts, ends⟩ := Host.spot_of_ok ends
  rw [Host.spot_eq (more.start starts)]
  exact more.tree.spot ends

theorem finds (more : Extends disk disk') (finds : host.finds disk path = .ok loc) :
    host.finds disk' path = .ok loc := by
  rw [Host.finds_iff] at finds ⊢
  rcases finds with inside | ⟨slot, some⟩
  · exact .inl (more.spot inside)
  · exact .inr ⟨more.spot slot, more.ne_none some⟩

end Extends

/-- A path ends where it did if everything it may lead through was there before. -/
theorem spot_of_passes {host : Host} {disk disk' : Disk} {path : List UInt8} {found : Spot Name}
    (cwd : disk'.cwd = disk.cwd) (passes : disk'.tree.Passes disk.tree)
    (ends : host.spot disk' path = .ok found) : host.spot disk path = .ok found := by
  obtain ⟨here, starts, ends⟩ := Host.spot_of_ok ends
  have starts' : Host.start disk path = .ok here := by
    unfold Host.start at starts ⊢
    rw [← cwd]
    split at starts
    · cases starts
    next some =>
      rw [if_neg some]
      split at starts
      next rooted =>
        rw [if_pos rooted]
        exact starts
      next relative =>
        rw [if_neg relative]
        split at starts
        next dir =>
          have node := (disk'.tree_dir_iff _).mpr dir
          rw [if_pos ((disk.tree_dir_iff _).mp (passes _ _ node (.inl rfl)))]
          exact starts
        next => cases starts
  rw [Host.spot_eq starts']
  exact passes.spot ends

end Ucb.Fs
