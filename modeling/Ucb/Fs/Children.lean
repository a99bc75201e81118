import Ucb.Fs.MakeDirs

/-!
Contract: the paths that a walk over a tree makes.

Owns:
- `Canonical`, a canonical path, and the path of an entry below it;
- that canonicalizing such a path again changes nothing of what it names;
- what a path below a directory names and aims at.
-/

namespace Ucb.Fs

open Ucb.Lib Ucb.Path

/-- A path that is composed, and has every `..` in front and below no root. -/
structure Canonical (lead : Nat) (comps : List Name) (text : List UInt8) : Prop
    extends Composed lead comps text where
  parents : ∃ count names, comps = List.replicate count dotdot ++ names ∧ dotdot ∉ names ∧
    (lead ≠ 0 → count = 0)

section Texts

variable {conf : UcbPathStyle} {lead : Nat} {comps : List Name} {text : List UInt8} {name : Name}

theorem canonical_canon (posix : WritesSlash conf) {path : List UInt8} (nonempty : path ≠ []) :
    ∃ lead, Canonical lead (keptSegments path) (ucbFsCanon conf path) := by
  obtain ⟨lead, composed, rooted⟩ := composed_canon posix nonempty
  refine ⟨lead, composed, ?_⟩
  unfold keptSegments
  split
  next parent =>
    unfold normalizedSegments
    split
    · exact ⟨0, [[dot]], rfl, by decide, fun _ => rfl⟩
    · obtain ⟨count, names, split, absent, -, root⟩ :=
        settled_resolve [dot] dotdot (isRooted path) (pathSegments path)
      refine ⟨count, names, split, absent, fun notRelative => root ?_⟩
      rw [← rooted]
      exact decide_eq_true notRelative
  next noParent =>
    exact ⟨0, pathSegments path, rfl, fun member => noParent (dotdot_mem_of_pathSegments member),
      fun _ => rfl⟩

theorem Canonical.segments (canonical : Canonical lead comps text) : pathSegments text = comps :=
  canonical.toComposed.pathSegments

theorem join_text (canonical : Canonical lead comps text) (name : Name) :
    ucbFsJoin text name = List.replicate lead slash ++ joined (comps ++ [name]) := by
  rw [ucbFsJoin]
  by_cases empty : comps = []
  · subst empty
    have text_eq : text = List.replicate lead slash := by
      rw [canonical.text_eq]
      exact List.append_nil _
    have ends : text.getLast? = some slash := by
      have nonempty := canonical.nonempty
      rw [text_eq] at nonempty ⊢
      rw [List.getLast?_replicate, if_neg (by simpa using nonempty)]
    rw [if_neg fun both => both.2 ends, text_eq, List.nil_append, joined_single]
  · obtain ⟨some, last⟩ := joined_getLast canonical.proper empty
    have ends : text.getLast? ≠ .some slash := by
      rw [canonical.text_eq, List.getLast?_append_of_ne_nil _ some]
      exact last
    rw [if_pos ⟨canonical.nonempty, ends⟩, joined_concat comps empty, canonical.text_eq]
    simp only [List.append_assoc, List.singleton_append]

theorem Canonical.child (canonical : Canonical lead comps text) (isName : IsName name) :
    Canonical lead (comps ++ [name]) (ucbFsJoin text name) := by
  have proper : Proper (comps ++ [name]) := by
    intro segment member
    rcases List.mem_append.mp member with inFront | isLast
    · exact canonical.proper segment inFront
    · rw [List.mem_singleton.mp isLast]
      exact isName.1
  refine ⟨⟨canonical.few, proper, join_text canonical name, ?_⟩, ?_⟩
  · rw [join_text canonical name]
    intro empty
    exact (joined_getLast proper (by simp)).1 (List.append_eq_nil_iff.mp empty).2
  · obtain ⟨count, names, split, absent, root⟩ := canonical.parents
    refine ⟨count, names ++ [name], by rw [split, List.append_assoc], ?_, root⟩
    rw [List.mem_append, List.mem_singleton, not_or]
    exact ⟨absent, Ne.symm isName.2.2⟩

theorem resolve_filter (rooted : Bool) (segs : List Name) :
    resolve [dot] dotdot rooted (segs.filter (· ≠ [dot])) = resolve [dot] dotdot rooted segs := by
  have run : ∀ (segs stack : List Name),
      (segs.filter (· ≠ [dot])).foldl (resolveStep [dot] dotdot rooted) stack =
        segs.foldl (resolveStep [dot] dotdot rooted) stack := by
    intro segs
    induction segs with
    | nil => exact fun _ => rfl
    | cons first rest inductionHypothesis =>
        intro stack
        by_cases isCur : first = [dot]
        · have skipped : resolveStep [dot] dotdot rooted stack first = stack := by
            unfold resolveStep
            exact if_pos isCur
          rw [List.filter_cons_of_neg (by simp [isCur]), inductionHypothesis, List.foldl_cons,
            skipped]
        · rw [List.filter_cons_of_pos (by simp [isCur]), List.foldl_cons, List.foldl_cons,
            inductionHypothesis]
  rw [resolve, resolve, run]

/-- The components of a canonical path are resolved, but for `.`. -/
theorem Canonical.resolved (canonical : Canonical lead comps text) :
    lexicalSegments text = comps.filter (· ≠ [dot]) := by
  rw [lexicalSegments, canonical.segments, Ucb.Path.resolved, ← resolve_filter]
  refine resolve_of_settled ?_
  obtain ⟨count, names, split, absent, root⟩ := canonical.parents
  refine ⟨count, names.filter (· ≠ [dot]), ?_, fun member => absent (List.mem_filter.mp member).1,
    fun member => ?_, fun rooted => root ?_⟩
  · rw [split, List.filter_append]
    congr 1
    rw [List.filter_eq_self]
    intro segment member
    rw [List.eq_of_mem_replicate member]
    decide
  · simpa using (List.mem_filter.mp member).2
  · rw [canonical.toComposed.isRooted] at rooted
    exact of_decide_eq_true rooted

/-- Canonicalizing again keeps the last name and, but for `.`, what is in front of it. -/
theorem Canonical.kept (canonical : Canonical lead (comps ++ [name]) text) (isName : IsName name) :
    ∃ front, keptSegments text = front ++ [name] ∧
      front.filter (· ≠ [dot]) = comps.filter (· ≠ [dot]) := by
  have plain : (comps ++ [name]).filter (· ≠ [dot]) = comps.filter (· ≠ [dot]) ++ [name] := by
    rw [List.filter_append, List.filter_cons_of_pos (by simpa using isName.2.1), List.filter_nil]
  by_cases parent : HasParent text
  · refine ⟨comps.filter (· ≠ [dot]), ?_, ?_⟩
    · have resolved := canonical.resolved
      rw [lexicalSegments, plain] at resolved
      rw [keptSegments, if_pos parent, normalizedSegments, resolved,
        if_neg fun both => absurd both.2 (by simp)]
    · rw [List.filter_filter]
      simp
  · exact ⟨comps, by rw [keptSegments, if_neg parent, canonical.segments], rfl⟩

end Texts

/-! ## What they name -/

section Names

variable {host : Host} {disk : Disk} {lead : Nat} {comps : List Name} {text : List UInt8}
  {name : Name} {loc target : Loc}

theorem start_canon {conf : UcbPathStyle} (posix : WritesSlash conf) {path : List UInt8}
    (nonempty : path ≠ []) : Host.start disk (ucbFsCanon conf path) = Host.start disk path := by
  unfold Host.start
  rw [if_neg nonempty, if_neg (canon_ne_nil posix nonempty), isRooted_canon posix nonempty]

theorem walk_same {front front' : List Name} {links : Nat} {here : Loc}
    (same : front.filter (· ≠ [dot]) = front'.filter (· ≠ [dot])) :
    disk.tree.walk [dot] dotdot links here front =
      disk.tree.walk [dot] dotdot links here front' := by
  rw [← FileTree.walk_filter front, same, FileTree.walk_filter]

/-- A canonical path leads where it leads if it is canonicalized again. -/
theorem leads_canon {conf : UcbPathStyle} (posix : WritesSlash conf)
    (canonical : Canonical lead comps text) :
    host.leads disk (ucbFsCanon conf text) = host.leads disk text := by
  have starts : Host.start disk (ucbFsCanon conf text) = Host.start disk text :=
    start_canon posix canonical.nonempty
  have same : (pathSegments (ucbFsCanon conf text)).filter (· ≠ [dot]) =
      (pathSegments text).filter (· ≠ [dot]) := by
    rw [pathSegments_canon posix canonical.nonempty, ← lexicalSegments_eq, canonical.resolved,
      canonical.segments]
  simp only [Host.leads, starts, walk_same same]

/-- An entry is at the same place if its path is canonicalized again. -/
theorem spot_canon {conf : UcbPathStyle} (posix : WritesSlash conf)
    (canonical : Canonical lead (comps ++ [name]) text) (isName : IsName name) :
    host.spot disk (ucbFsCanon conf text) = host.spot disk text := by
  have starts : Host.start disk (ucbFsCanon conf text) = Host.start disk text :=
    start_canon posix canonical.nonempty
  obtain ⟨front, kept, same⟩ := canonical.kept isName
  have ends (here : Loc) :
      disk.tree.spot [dot] dotdot host.links here (pathSegments (ucbFsCanon conf text)) =
        disk.tree.spot [dot] dotdot host.links here (pathSegments text) := by
    rw [pathSegments_canon posix canonical.nonempty, kept, canonical.segments]
    exact FileTree.spot_congr name (walk_same same)
  simp only [Host.spot, starts, ends]

theorem finds_canon {conf : UcbPathStyle} (posix : WritesSlash conf)
    (canonical : Canonical lead (comps ++ [name]) text) (isName : IsName name) :
    host.finds disk (ucbFsCanon conf text) = host.finds disk text := by
  rw [Host.finds, Host.finds, spot_canon posix canonical isName]

theorem vacant_canon {conf : UcbPathStyle} (posix : WritesSlash conf)
    (canonical : Canonical lead (comps ++ [name]) text) (isName : IsName name) :
    host.vacant disk (ucbFsCanon conf text) = host.vacant disk text := by
  rw [Host.vacant, Host.vacant, spot_canon posix canonical isName]

/-- The entries of a directory that a path leads to. -/
theorem spot_child (canonical : Canonical lead comps text) (isName : IsName name)
    (leads : host.leads disk text = .ok loc) :
    host.spot disk (ucbFsJoin text name) = .ok (.slot (name :: loc)) := by
  have child := canonical.child isName
  obtain ⟨here, left, starts, walks⟩ := Host.walk_of_leads leads
  rw [canonical.segments] at walks
  rw [Host.spot_eq ((start_composed canonical.toComposed child.toComposed).trans starts),
    child.segments, FileTree.spot_concat walks, if_neg isName.2.1, if_neg isName.2.2]

/-- A path below one that leads nowhere leads nowhere. -/
theorem leads_of_spot_child (canonical : Canonical lead comps text) (isName : IsName name)
    {found : Spot Name} (ends : host.spot disk (ucbFsJoin text name) = .ok found) :
    ∃ loc, host.leads disk text = .ok loc ∧ found = .slot (name :: loc) := by
  have child := canonical.child isName
  obtain ⟨here, starts, inTree⟩ := Host.spot_of_ok ends
  rw [child.segments] at inTree
  cases walks : disk.tree.walk [dot] dotdot host.links here comps with
  | error refusal =>
      rw [FileTree.spot_refused walks] at inTree
      cases inTree
  | ok place =>
      have leads : host.leads disk text = .ok place.1 :=
        Host.leads_ok ((start_composed child.toComposed canonical.toComposed).trans starts)
          (by rw [canonical.segments]; exact walks)
      refine ⟨place.1, leads, ?_⟩
      exact (Except.ok.inj ((spot_child canonical isName leads).symm.trans ends)).symm

theorem finds_child (canonical : Canonical lead comps text) (isName : IsName name)
    (leads : host.leads disk text = .ok loc) (some : disk.entry (name :: loc) ≠ none) :
    host.finds disk (ucbFsJoin text name) = .ok (name :: loc) :=
  Host.finds_iff.mpr (.inr ⟨spot_child canonical isName leads, some⟩)

theorem leads_child (canonical : Canonical lead comps text) (isName : IsName name)
    (leads : host.leads disk text = .ok loc) (dir : IsDir (disk.entry (name :: loc))) :
    host.leads disk (ucbFsJoin text name) = .ok (name :: loc) :=
  Host.leads_of_slot (spot_child canonical isName leads) dir

/-- A path below one that aims at a directory aims below it. -/
theorem AimsAt.child (aims : AimsAt host disk text target) (canonical : Canonical lead comps text)
    (isName : IsName name)
    (free : disk.entry (name :: target) = none ∨ IsDir (disk.entry (name :: target))) :
    AimsAt host disk (ucbFsJoin text name) (name :: target) := by
  have child := canonical.child isName
  obtain ⟨here, starts, inTree⟩ := aims
  refine ⟨here, (start_composed canonical.toComposed child.toComposed).trans starts, ?_⟩
  rw [canonical.segments] at inTree
  rw [child.segments]
  refine .name inTree isName.2.1 isName.2.2 ?_
  rwa [Disk.tree_none_iff, Disk.tree_dir_iff]

/-- Nothing is found below a directory that is aimed at where there is nothing. -/
theorem AimsAt.missing (aims : AimsAt host disk text target)
    (canonical : Canonical lead comps text) (isName : IsName name)
    (absent : disk.entry (name :: target) = none) :
    host.finds disk (ucbFsJoin text name) = .error .missing := by
  have child := canonical.child isName
  obtain ⟨here, starts, inTree⟩ := id aims
  rw [canonical.segments] at inTree
  have starts' := (start_composed canonical.toComposed child.toComposed).trans starts
  refine Host.finds_error_iff.mpr ?_
  cases walks : disk.tree.walk [dot] dotdot host.links here comps with
  | error refusal =>
      rw [(FileTree.aims_refused inTree walks).1] at walks
      refine .inl ?_
      rw [Host.spot_eq starts', child.segments, FileTree.spot_refused walks]
  | ok place =>
      refine .inr ⟨name :: target, ?_, absent, rfl⟩
      rw [Host.spot_eq starts', child.segments, FileTree.spot_concat walks, if_neg isName.2.1,
        if_neg isName.2.2, FileTree.aims_walk inTree walks]

end Names

/-! ## Entries of the root -/

section Root

variable {host : Host} {disk : Disk} {path : List UInt8} {name : Name}

/-- The path of an entry of the root names it whatever there is. -/
theorem spot_root (disk : Disk) (rooted : isRooted path = true)
    (segments : pathSegments path = [name])
    (isName : IsName name) : host.spot disk path = .ok (.slot [name]) := by
  have starts : Host.start disk path = .ok [] := by
    rw [Host.start, if_neg, if_pos rooted]
    rintro rfl
    cases rooted
  rw [Host.spot_eq starts, segments, ← List.nil_append [name],
    FileTree.spot_concat FileTree.walk_nil, if_neg isName.2.1, if_neg isName.2.2]
  rfl

theorem aimsAt_root (rooted : isRooted path = true) (segments : pathSegments path = [name])
    (isName : IsName name) (absent : disk.entry [name] = none) : AimsAt host disk path [name] := by
  refine ⟨[], ?_, ?_⟩
  · rw [Host.start, if_neg, if_pos rooted]
    rintro rfl
    cases rooted
  · rw [segments, ← List.nil_append [name]]
    exact .name (.leads FileTree.walk_nil) isName.2.1 isName.2.2
      (.inl ((disk.tree_none_iff [name]).mpr absent))

end Root

def dirPath : List UInt8 := [slash, 0x64]

theorem canon_dirPath : ucbFsCanon .posix dirPath = dirPath := by
  rw [ucbFsCanon_eq rfl (by decide)]
  decide

theorem spot_dirPath (disk : Disk) :
    sampleHost.spot disk (ucbFsCanon sampleHost.conf dirPath) = .ok (.slot [[0x64]]) := by
  rw [show ucbFsCanon sampleHost.conf dirPath = dirPath from canon_dirPath]
  exact spot_root disk (by decide) (by decide) (by decide)

end Ucb.Fs
