import Ucb.Fs.Guards
import Ucb.Path.NormalForm
import Ucb.Path.Restyle

/-!
Contract: `ucb_fs_canon` as a canonical form.

Owns:
- what a canonical form of a path string has to do;
- on which paths, and under which default path styles, `ucb_fs_canon` does it.

The default style decides which separator is written, and `..` is looked for
between `\` too, where components end at `/` only.
-/

namespace Ucb.Fs

open Ucb.Lib Ucb.Path

/-! ## What a canonical form does -/

/-- The components a canonical form has: those of the path, resolved if there is a `..`. -/
def canonicalComponents (path : List UInt8) : List (List UInt8) :=
  if dotdot ∈ pathSegments path then normalizedSegments (isRooted path) (pathSegments path)
  else pathSegments path

/-- `ucb_fs_canon` under one default style gives a canonical form of the path, and under
another the same. -/
structure StableCanon (conf other : UcbPathStyle) (path : List UInt8) : Prop where
  idempotent : ucbFsCanon conf (ucbFsCanon conf path) = ucbFsCanon conf path
  anchor : isRooted (ucbFsCanon conf path) = isRooted path
  components : pathSegments (ucbFsCanon conf path) = canonicalComponents path
  style : ucbFsCanon other path = ucbFsCanon conf path

def WritesSlash (conf : UcbPathStyle) : Prop :=
  pathSepOf conf .default = slash

instance (conf : UcbPathStyle) : Decidable (WritesSlash conf) := by
  unfold WritesSlash
  infer_instance

/-- A `..` that `ucb_fs_canon` finds is a component, or there is no `.` to be resolved
because of it. -/
def ParentIsComponent (path : List UInt8) : Prop :=
  HasParent path → dotdot ∈ pathSegments path ∨ [dot] ∉ pathSegments path

/-- A relative path whose canonical form is one component, in which no separator has to be
written. Where it has a `..`, no backslash is taken for a separator. -/
def OneComponent (path : List UInt8) : Prop :=
  isRooted path = false ∧ (canonicalComponents path).length = 1 ∧
    (HasParent path → backslash ∉ path)

/-! ## Styles that write `/` -/

section Slash

variable {conf : UcbPathStyle} (posix : WritesSlash conf) {path : List UInt8}
  (nonempty : path ≠ [])
include posix nonempty

theorem leadCount_canon : ∃ count ≤ 2, pathLead path = List.replicate count slash ∧
    leadCount (ucbFsCanon conf path) = count ∧ decide (count ≠ 0) = isRooted path := by
  obtain ⟨count, atMostTwo, lead, rooted⟩ := pathLead_replicate path
  refine ⟨count, atMostTwo, lead, ?_, rooted⟩
  rw [ucbFsCanon_eq posix nonempty, lead]
  exact leadCount_replicate (joined_head (proper_keptSegments path)) count

theorem isRooted_canon : isRooted (ucbFsCanon conf path) = isRooted path := by
  obtain ⟨count, -, -, count_eq, rooted⟩ := leadCount_canon posix nonempty
  rw [isRooted, count_eq, rooted]

theorem pathLead_canon : pathLead (ucbFsCanon conf path) = pathLead path := by
  obtain ⟨count, atMostTwo, lead, count_eq, -⟩ := leadCount_canon posix nonempty
  rw [lead, pathLead, count_eq]
  obtain rfl | rfl | rfl : count = 0 ∨ count = 1 ∨ count = 2 := by omega
  · rfl
  · rfl
  · rfl

theorem pathSegments_canon : pathSegments (ucbFsCanon conf path) = keptSegments path := by
  obtain ⟨count, -, lead, -, -⟩ := leadCount_canon posix nonempty
  rw [ucbFsCanon_eq posix nonempty, lead, pathSegments, segments_seps_append]
  · exact pathSegments_joined (proper_keptSegments path)
  · intro c member
    rw [List.eq_of_mem_replicate member]
    decide

theorem keptSegments_canon : keptSegments (ucbFsCanon conf path) = keptSegments path := by
  rw [keptSegments.eq_def (ucbFsCanon conf path), isRooted_canon posix nonempty,
    pathSegments_canon posix nonempty]
  by_cases parent : HasParent path
  · have kept : keptSegments path = normalizedSegments (isRooted path) (pathSegments path) :=
      if_pos parent
    rw [kept, normalizedSegments_idempotent, ite_self]
  · have kept : keptSegments path = pathSegments path := if_neg parent
    have same : ucbFsCanon conf path = pathLead path ++ joined (pathSegments path) := by
      rw [ucbFsCanon_eq posix nonempty, kept]
    rw [same, if_neg (mt (hasParent_composed path).mp parent)]

theorem canon_idempotent : ucbFsCanon conf (ucbFsCanon conf path) = ucbFsCanon conf path := by
  rw [ucbFsCanon_eq posix (canon_ne_nil posix nonempty), pathLead_canon posix nonempty,
    keptSegments_canon posix nonempty, ucbFsCanon_eq posix nonempty]

end Slash

/-- The components that are left are those of a canonical form, exactly when a `..` that is
found is a component or there is no `.`. -/
theorem keptSegments_eq_iff (path : List UInt8) :
    keptSegments path = canonicalComponents path ↔ ParentIsComponent path := by
  rw [keptSegments, canonicalComponents, ParentIsComponent]
  by_cases parent : HasParent path
  · by_cases component : dotdot ∈ pathSegments path
    · simp [parent, component]
    · simp only [parent, component, if_true, if_false, false_or, forall_const]
      rw [normalizedSegments, resolved, resolve_of_no_parent _ component]
      constructor
      · intro same hasDot
        split at same
        · -- a single `.` has no `..` in it
          rw [HasParent, segments_refine isEitherSep_of_pathIsSep path] at parent
          change _ ∈ (pathSegments path).flatMap _ at parent
          rw [← same] at parent
          exact absurd parent (by decide)
        · rw [← same] at hasDot
          simp at hasDot
      · intro noDot
        have all : (pathSegments path).filter (· ≠ [dot]) = pathSegments path := by
          rw [List.filter_eq_self]
          intro segment member
          have notDot : segment ≠ [dot] := fun same => noDot (same ▸ member)
          simpa using notDot
        rw [all, if_neg]
        rintro ⟨-, none⟩
        rw [HasParent, segments_refine isEitherSep_of_pathIsSep path] at parent
        change _ ∈ (pathSegments path).flatMap _ at parent
        rw [none] at parent
        cases parent
  · have noComponent : dotdot ∉ pathSegments path := fun member =>
      parent (dotdot_mem_of_pathSegments member)
    simp [parent, noComponent]

/-! ## Paths of one component -/

theorem pathLead_relative {path : List UInt8} (relative : isRooted path = false) :
    pathLead path = [] := by
  obtain ⟨count, -, lead, rooted⟩ := pathLead_replicate path
  obtain rfl : count = 0 := by simpa [relative] using rooted
  exact lead

/-- Without backslashes the `..` that are found are components. -/
theorem dotdot_mem_of_plain {path : List UInt8} (plain : backslash ∉ path)
    (parent : HasParent path) : dotdot ∈ pathSegments path := by
  have same : segments isEitherSep (path.map id) = (segments pathIsSep path).map (List.map id) := by
    apply segments_map
    intro c member
    have other : c ≠ backslash := fun eq => plain (eq ▸ member)
    simp [isEitherSep, pathIsSep, other]
  rw [List.map_id, List.map_id_fun, List.map_id] at same
  rw [HasParent, same] at parent
  exact parent

theorem OneComponent.parentIsComponent {path : List UInt8} (one : OneComponent path) :
    ParentIsComponent path :=
  fun parent => .inl (dotdot_mem_of_plain (one.2.2 parent) parent)

theorem hasParent_single {path name : List UInt8} (segs : pathSegments path = [name]) :
    HasParent path ↔ HasParent name := by
  have split : segments isEitherSep path = (pathSegments path).flatMap (segments isEitherSep) :=
    segments_refine isEitherSep_of_pathIsSep path
  rw [HasParent, split, segs, HasParent, List.flatMap_singleton]

theorem joined_single (name : List UInt8) : joined [name] = name := by
  simp [joined]

theorem mem_joined {path : List UInt8} {c : UInt8} (member : c ∈ joined (pathSegments path)) :
    c = slash ∨ c ∈ path := by
  cases segs : pathSegments path with
  | nil =>
      rw [segs] at member
      cases member
  | cons first rest =>
      have subset : ∀ segment ∈ first :: rest, segment ⊆ path := fun segment found =>
        segments_subset (segs ▸ found)
      rw [segs, joined, intercalate_cons, List.mem_append, List.mem_flatMap] at member
      rcases member with early | ⟨segment, found, inside⟩
      · exact .inr (subset first List.mem_cons_self early)
      · rcases List.mem_cons.mp inside with same | later
        · exact .inl same
        · exact .inr (subset segment (List.mem_cons_of_mem _ found) later)

theorem hasParent_backslashed {text : List UInt8} (parent : HasParent text) :
    HasParent (backslashed text) := by
  have same : segments isEitherSep (backslashed text) =
      (segments isEitherSep text).map backslashed := by
    apply segments_map
    intro c _
    by_cases isSep : c = slash
    · subst isSep
      rfl
    · simp [writeSep, pathIsSep, isSep]
  rw [HasParent, same]
  exact List.mem_map.mpr ⟨dotdot, parent, by decide⟩

/-- A relative path of one component composes to it in a style that writes `\` too. -/
theorem compose_single {conf : UcbPathStyle} (writes : pathSepOf conf .default = backslash)
    {path name : List UInt8} (relative : isRooted path = false)
    (segs : pathSegments path = [name]) (noSlash : slash ∉ name) :
    pathComposeTo conf (pathParse conf path .default) = name := by
  have nonempty : path ≠ [] := by
    rintro rfl
    cases segs
  obtain ⟨region, rest, rfl, clean, shape⟩ := exists_name_split path
  rw [pathSegments_split clean shape] at segs
  have noLead : leadCount region = 0 := by
    rw [isRooted, leadCount_append clean] at relative
    simpa using relative
  cases rest with
  | nil =>
      have dir : pathBuildDir region backslash = name := by
        rw [pathBuildDir_map, pathBuildDir_eq, noLead]
        have region_segs : pathSegments region = [name] := by simpa [completed] using segs
        rw [region_segs, joined_single]
        exact backslashed_name noSlash
      rw [compose_parse_split conf .default clean shape nonempty, writes, dir]
      simp
  | cons c rest =>
      rw [completed_of_ne_nil (List.cons_ne_nil c rest)] at segs
      obtain ⟨noSegs, same⟩ := List.append_inj' (segs.trans (List.nil_append [name]).symm) rfl
      rcases shape with rfl | ⟨front, rfl⟩
      · obtain rfl := (List.cons.inj same).1
        exact compose_parse_name conf .default noSlash
      · exact absurd noLead (Nat.ne_of_gt (leadCount_pos noSegs))

theorem canonicalComponents_proper (path : List UInt8) : Proper (canonicalComponents path) := by
  unfold canonicalComponents
  split
  · exact proper_normalizedSegments (proper_pathSegments path)
  · exact proper_pathSegments path

/-- A path of one component has it as its canonical form, under every default style. -/
theorem canon_of_one {path name : List UInt8} (nonempty : path ≠ []) (one : OneComponent path)
    (components : canonicalComponents path = [name]) (conf : UcbPathStyle) :
    ucbFsCanon conf path = name := by
  have kept := (keptSegments_eq_iff path).mpr one.parentIsComponent
  obtain ⟨relative, -, plain⟩ := one
  have lead := pathLead_relative relative
  have isSegment := canonicalComponents_proper path name (components ▸ List.mem_cons_self)
  have noSlash : slash ∉ name := fun member => absurd (isSegment.2 slash member) (by decide)
  rcases pathSepOf_cases conf .default with posix | writes
  · rw [ucbFsCanon_eq posix nonempty, lead, kept, components, List.nil_append, joined_single]
  · by_cases parent : HasParent path
    · have composed := compose_backslashed writes nonempty (plain parent)
      have found :
          fsHasParentComponent (pathComposeTo conf (pathParse conf path .default)) = true := by
        rw [hasParentComponent_iff, composed]
        exact hasParent_backslashed ((hasParent_composed path).mpr parent)
      have normal := normalizeLexical_eq (Nat.zero_le 2) (proper_pathSegments path)
        (by simpa [lead] using composed_ne_nil nonempty)
      have names : normalizedSegments false (pathSegments path) = [name] := by
        rw [canonicalComponents, if_pos (dotdot_mem_of_plain (plain parent) parent), relative]
          at components
        exact components
      rw [List.replicate_zero, List.nil_append, List.nil_append] at normal
      have inText : backslash ∉ joined (pathSegments path) := fun member =>
        plain parent ((mem_joined member).resolve_left (by decide))
      rw [ucbFsCanon]
      simp only [found, if_true]
      rw [(compose_normalize_backslash writes path).2, composed, lead, List.nil_append,
        normalize_backslashed inText, normal]
      simp only [ne_eq, not_true_eq_false, decide_false, names, joined_single]
      exact backslashed_name noSlash
    · have segs : pathSegments path = [name] := by
        rw [canonicalComponents, if_neg (mt dotdot_mem_of_pathSegments parent)] at components
        exact components
      have composed := compose_single writes relative segs noSlash
      have absent : ¬ fsHasParentComponent name = true := by
        rw [hasParentComponent_iff]
        exact mt (hasParent_single segs).mpr parent
      rw [ucbFsCanon]
      simp only [composed, absent, Bool.false_eq_true, if_false]

/-- What the canonical form of one component is left with. -/
theorem OneComponent.name {path name : List UInt8} (one : OneComponent path)
    (components : canonicalComponents path = [name]) :
    OneComponent name ∧ canonicalComponents name = [name] := by
  obtain ⟨relative, -, plain⟩ := one
  have isSegment := canonicalComponents_proper path name (components ▸ List.mem_cons_self)
  have segs : pathSegments name = [name] := segments_word isSegment
  have noLead : isRooted name = false := by
    have none : leadCount name = 0 := by
      have clean : leadCount ([] ++ name) = leadCount [] := leadCount_append isSegment.2
      rwa [List.nil_append] at clean
    rw [isRooted, none]
    rfl
  have same : canonicalComponents name = [name] := by
    rw [canonicalComponents, segs, noLead]
    split
    next isParent =>
      rw [List.mem_singleton] at isParent
      subst isParent
      decide
    next => rfl
  have clear : HasParent name → backslash ∉ name := by
    intro parentName
    by_cases parent : HasParent path
    · rw [canonicalComponents, if_pos (dotdot_mem_of_plain (plain parent) parent), relative,
        normalizedSegments] at components
      split at components
      next =>
        obtain rfl := (List.cons.inj components).1
        decide
      next =>
        have found : name ∈ resolved false (pathSegments path) := components ▸ List.mem_cons_self
        exact fun member => plain parent (segments_subset (mem_resolve found).1 member)
    · rw [canonicalComponents, if_neg (mt dotdot_mem_of_pathSegments parent)] at components
      exact absurd ((hasParent_single components).mpr parentName) parent
  exact ⟨⟨noLead, by rw [same]; rfl, clear⟩, same⟩

theorem stable_of_one (conf other : UcbPathStyle) {path : List UInt8} (nonempty : path ≠ [])
    (one : OneComponent path) : StableCanon conf other path := by
  obtain ⟨name, components⟩ := List.length_eq_one_iff.mp one.2.1
  have isSegment := canonicalComponents_proper path name (components ▸ List.mem_cons_self)
  obtain ⟨oneName, same⟩ := one.name components
  have canon := canon_of_one nonempty one components
  constructor
  case idempotent => rw [canon, canon_of_one isSegment.1 oneName same]
  case anchor => rw [canon, one.1, oneName.1]
  case components => rw [canon, components]; exact segments_word isSegment
  case style => rw [canon, canon]

theorem stable_of_slash {conf other : UcbPathStyle} (posix : WritesSlash conf)
    (posix' : WritesSlash other) {path : List UInt8} (nonempty : path ≠ [])
    (parent : ParentIsComponent path) : StableCanon conf other path where
  idempotent := canon_idempotent posix nonempty
  anchor := isRooted_canon posix nonempty
  components := (pathSegments_canon posix nonempty).trans ((keptSegments_eq_iff path).mpr parent)
  style := by rw [ucbFsCanon_eq posix nonempty, ucbFsCanon_eq posix' nonempty]

/-! ## Where the canonical form is stable -/

theorem canon_noSlash {conf : UcbPathStyle} (writes : pathSepOf conf .default = backslash)
    (path : List UInt8) : slash ∉ ucbFsCanon conf path := by
  rw [ucbFsCanon]
  split
  next =>
    obtain ⟨noSlash, normal⟩ := compose_normalize_backslash writes path
    rw [normal]
    exact noSlash
  next => exact noSlash_compose writes path

theorem canonicalComponents_ne_nil {path : List UInt8} (nonempty : path ≠ [])
    (relative : isRooted path = false) : canonicalComponents path ≠ [] := by
  rw [canonicalComponents, relative]
  split
  · exact normalizedSegments_ne_nil
  · intro none
    apply composed_ne_nil nonempty
    rw [pathLead_relative relative, none]
    rfl

/-- A text without `/` is relative and has at most one component. -/
theorem shape_of_noSlash {text : List UInt8} (noSlash : slash ∉ text) :
    isRooted text = false ∧ (pathSegments text).length ≤ 1 := by
  have clean : Clean pathIsSep text := by
    intro c member
    rw [pathIsSep, beq_eq_false_iff_ne]
    rintro rfl
    exact noSlash member
  constructor
  · have none : leadCount ([] ++ text) = leadCount [] := leadCount_append clean
    rw [isRooted, ← List.nil_append text, none]
    rfl
  · by_cases empty : text = []
    · subst empty
      decide
    · rw [pathSegments, segments_word ⟨empty, clean⟩, List.length_singleton]

/-- The condition under which `ucb_fs_canon` gives a canonical form, the same under two
default styles: a `..` that is found is a component, and both styles write `/` or no
separator has to be written. -/
def CanonHolds (conf other : UcbPathStyle) (path : List UInt8) : Prop :=
  ParentIsComponent path ∧ (WritesSlash conf ∧ WritesSlash other ∨ OneComponent path)

/-- A style that writes `\` leaves a path of one component at most. -/
theorem one_of_stable {conf other : UcbPathStyle} {path : List UInt8} (nonempty : path ≠ [])
    (stable : StableCanon conf other path) (some : ¬ (WritesSlash conf ∧ WritesSlash other)) :
    isRooted path = false ∧ (canonicalComponents path).length = 1 := by
  have noSlash : slash ∉ ucbFsCanon conf path := by
    rcases pathSepOf_cases conf .default with posix | writes
    · rcases pathSepOf_cases other .default with posix' | writes'
      · exact absurd ⟨posix, posix'⟩ some
      · rw [← stable.style]
        exact canon_noSlash writes' path
    · exact canon_noSlash writes path
  obtain ⟨relative, short⟩ := shape_of_noSlash noSlash
  rw [stable.anchor] at relative
  rw [stable.components] at short
  have positive := List.length_pos_of_ne_nil (canonicalComponents_ne_nil nonempty relative)
  exact ⟨relative, by omega⟩

/-- The condition is enough for every path under all default styles. It is needed where both
styles write `/`, and where they do not, for every path that does not have both a `..` and a
backslash. -/
theorem canon_stable_iff (conf other : UcbPathStyle) {path : List UInt8} (nonempty : path ≠ []) :
    (CanonHolds conf other path → StableCanon conf other path) ∧
    (WritesSlash conf ∧ WritesSlash other ∨ (HasParent path → backslash ∉ path) →
      StableCanon conf other path → CanonHolds conf other path) := by
  constructor
  · rintro ⟨parent, ⟨posix, posix'⟩ | one⟩
    · exact stable_of_slash posix posix' nonempty parent
    · exact stable_of_one conf other nonempty one
  · intro plain stable
    by_cases both : WritesSlash conf ∧ WritesSlash other
    · refine ⟨(keptSegments_eq_iff path).mp ?_, .inl both⟩
      rw [← pathSegments_canon both.1 nonempty, stable.components]
    · have plain := plain.resolve_left both
      obtain ⟨relative, single⟩ := one_of_stable nonempty stable both
      have one : OneComponent path := ⟨relative, single, plain⟩
      exact ⟨one.parentIsComponent, .inr one⟩

def aParentB : List UInt8 :=
  [0x61, slash, dot, dot, slash, 0x62]

/-- `a/../b` has the same canonical form under two styles, and `a/b` has not. -/
theorem canon_stable_iff_aParentB :
    StableCanon .posix .windows aParentB ∧ ¬ StableCanon .posix .windows [0x61, slash, 0x62] := by
  constructor
  · exact (canon_stable_iff .posix .windows (by decide)).1
      ⟨fun _ => .inl (by decide), .inr ⟨by decide, by decide, fun _ => by decide⟩⟩
  · intro stable
    have holds := (canon_stable_iff .posix .windows (by decide)).2 (.inr fun _ => by decide) stable
    rcases holds.2 with ⟨-, writes⟩ | ⟨-, single, -⟩
    · exact absurd writes (by decide)
    · exact absurd single (by decide)

def backslashParentDot : List UInt8 :=
  [0x78, backslash, dot, dot, slash, dot]

/-- The `.` behind `x\..` is lost though there is no `..` component, and in `a/b` the separator
is the one of the default style. -/
theorem canon_not_stable :
    ucbFsCanon .posix backslashParentDot = [0x78, backslash, dot, dot] ∧
    ¬ StableCanon .posix .posix backslashParentDot ∧
    ucbFsCanon .windows [0x61, slash, 0x62] ≠ ucbFsCanon .posix [0x61, slash, 0x62] := by
  refine ⟨?_, ?_, ?_⟩
  · rw [ucbFsCanon_eq rfl (by decide)]
    decide
  · intro stable
    have components := stable.components
    rw [pathSegments_canon (show WritesSlash .posix from rfl) (by decide)] at components
    exact absurd components (by decide)
  · intro same
    have noSlash : slash ∉ ucbFsCanon .windows [0x61, slash, 0x62] := canon_noSlash rfl _
    rw [same, ucbFsCanon_eq rfl (by decide)] at noSlash
    exact noSlash (by decide)

end Ucb.Fs
