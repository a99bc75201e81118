import Ucb.Path.RoundTrip

/-!
Contract: `ucb_path_normalize` as a normal form of path strings.

Owns:
- the reference form of a path string: its root and its resolved components;
- where a path string leads, from any working directory;
- on which path strings normalizing gives the reference form.

Styles that write `/` only. In a style that writes another separator, what is
written is not what is parsed.
-/

namespace Ucb.Path

open Ucb.Lib

/-! ## The reference form -/

/-- The lexical normal form of a path string: two leading separators stay two, other leading
ones become one, and the components are resolved. -/
def normalForm (path : List UInt8) : List UInt8 :=
  if path = [] then []
  else rootSeps (leadCount path) ++ joined (normalizedSegments (isRooted path) (pathSegments path))

/-- The components of a normal form: neither `.` nor `..` except for leading `..` of a relative
path, or `.` alone. -/
def NormalSegments (rooted : Bool) (segs : List (List UInt8)) : Prop :=
  Settled [dot] dotdot rooted segs ∨ (rooted = false ∧ segs = [[dot]])

/-- Where a path string leads from a working directory: the root it starts from, and the names
below that root, the last one first. -/
def leadsTo (here : List (List UInt8)) (path : List UInt8) : List UInt8 × List (List UInt8) :=
  (rootSeps (leadCount path),
    follow [dot] dotdot (if isRooted path then [] else here) (pathSegments path))

/-- Normalizing is right for a path string: the text is the reference form, which keeps the root,
has normal components and leads where the path leads, and normalizing again changes nothing. -/
structure NormalizesRight (conf style : UcbPathStyle) (path : List UInt8) : Prop where
  text : pathComposeTo conf (ucbPathNormalize conf (pathParse conf path style)) = normalForm path
  root : rootSeps
    (leadCount (pathComposeTo conf (ucbPathNormalize conf (pathParse conf path style))))
    = rootSeps (leadCount path)
  normal : NormalSegments (isRooted path)
    (pathSegments (pathComposeTo conf (ucbPathNormalize conf (pathParse conf path style))))
  leads : ∀ here,
    leadsTo here (pathComposeTo conf (ucbPathNormalize conf (pathParse conf path style))) =
      leadsTo here path
  twice : ucbPathNormalize conf (ucbPathNormalize conf (pathParse conf path style)) =
    ucbPathNormalize conf (pathParse conf path style)

/-! ## Normalized components -/

theorem normalizedSegments_idempotent (rooted : Bool) (segs : List (List UInt8)) :
    normalizedSegments rooted (normalizedSegments rooted segs) =
      normalizedSegments rooted segs := by
  have settled : resolved rooted (resolved rooted segs) = resolved rooted segs :=
    resolve_of_settled (settled_resolve [dot] dotdot rooted segs)
  rw [normalizedSegments.eq_def rooted segs]
  split
  next empty =>
    rw [empty.1]
    decide
  next some => rw [normalizedSegments, settled, if_neg some]


theorem normalSegments_normalized (rooted : Bool) (segs : List (List UInt8)) :
    NormalSegments rooted (normalizedSegments rooted segs) := by
  unfold normalizedSegments
  split
  next empty => exact .inr ⟨empty.1, rfl⟩
  next => exact .inl (settled_resolve [dot] dotdot rooted segs)

/-- Normalized components lead where the components lead. -/
theorem follow_normalized {rooted : Bool} {here : List (List UInt8)}
    (root : rooted = true → here = [])
    (segs : List (List UInt8)) :
    follow [dot] dotdot here (normalizedSegments rooted segs) = follow [dot] dotdot here segs := by
  have same : follow [dot] dotdot here (resolved rooted segs) = follow [dot] dotdot here segs :=
    follow_resolve root segs
  unfold normalizedSegments
  split
  next empty =>
    rw [empty.2] at same
    rw [← same]
    simp [follow]
  next => exact same

/-! ## Composed normal forms -/

theorem rootSeps_replicate {count : Nat} (atMostTwo : count ≤ 2) :
    rootSeps count = List.replicate count slash := by
  match count with
  | 0 => rfl
  | 1 => rfl
  | 2 => rfl

section Composed

variable {count : Nat} {segs : List (List UInt8)} (proper : Proper segs)
include proper

theorem leadCount_composed : leadCount (List.replicate count slash ++ joined segs) = count :=
  leadCount_replicate (joined_head proper) count

theorem isRooted_composed :
    isRooted (List.replicate count slash ++ joined segs) = decide (count ≠ 0) := by
  rw [isRooted, leadCount_composed proper]

theorem pathSegments_composed :
    pathSegments (List.replicate count slash ++ joined segs) = segs := by
  rw [pathSegments, segments_seps_append]
  · exact pathSegments_joined proper
  · intro c member
    rw [List.eq_of_mem_replicate member]
    decide

end Composed

/-! ## Normalizing -/

section Normalize

variable {conf style : UcbPathStyle} (posix : pathSepOf conf style = slash) {path : List UInt8}
  (nonempty : path ≠ [])
include posix nonempty

theorem normalize_eq :
    ucbPathNormalize conf (pathParse conf path style) =
      pathParse conf (pathLead path ++
        joined (normalizedSegments (isRooted path) (pathSegments path)))
        (pathResolveStyle conf style) := by
  obtain ⟨count, atMostTwo, lead, rooted⟩ := pathLead_replicate path
  have notEmpty := composed_ne_nil nonempty
  have resolvedPosix : pathSepOf conf (pathResolveStyle conf style) = slash := by
    rw [pathSepOf_resolve, posix]
  rw [ucbPathNormalize, compose_parse posix nonempty, pathParse_style, resolvedPosix]
  rw [lead] at notEmpty ⊢
  rw [normalizeLexical_eq atMostTwo (proper_pathSegments path) notEmpty, rooted]

/-- Normalizing a path that was normalized changes nothing. -/
theorem normalize_twice :
    ucbPathNormalize conf (ucbPathNormalize conf (pathParse conf path style)) =
      ucbPathNormalize conf (pathParse conf path style) := by
  obtain ⟨count, atMostTwo, lead, rooted⟩ := pathLead_replicate path
  have resolvedPosix : pathSepOf conf (pathResolveStyle conf style) = slash := by
    rw [pathSepOf_resolve, posix]
  have settled : pathResolveStyle conf (pathResolveStyle conf style) =
      pathResolveStyle conf style := by
    cases conf <;> cases style <;> rfl
  have proper : Proper (normalizedSegments (isRooted path) (pathSegments path)) :=
    proper_normalizedSegments (proper_pathSegments path)
  have composed := compose_normalize posix nonempty
  have text := normalize_eq posix nonempty
  rw [text] at composed ⊢
  have notEmpty := normalized_ne_nil count (proper_pathSegments path)
  have again := normalizeLexical_eq atMostTwo proper (by rw [← rooted]; exact notEmpty)
  rw [rooted, normalizedSegments_idempotent] at again
  rw [ucbPathNormalize, composed, pathParse_style, settled, resolvedPosix, lead, again]

end Normalize

/-! ## When normalizing is right -/

/-- The roots of a path and of its text differ where too many separators lead. -/
theorem pathLead_over {path : List UInt8} (over_ : OverSeparated path) :
    pathLead path = [slash, slash] ∧ rootSeps (leadCount path) = [slash] := by
  obtain ⟨many, content⟩ := over_
  have notZero : leadCount path ≠ 0 := by omega
  have notTwo : leadCount path ≠ 2 := by omega
  constructor
  · rw [pathLead, leadSeps_eq, if_pos ⟨many, by simp [content]⟩]
  · rw [rootSeps, if_neg notZero, if_neg notTwo]

/-- Normalizing gives the reference form, exactly unless three or more separators lead a
directory that names a component. -/
theorem normalizesRight_iff {conf style : UcbPathStyle} (posix : pathSepOf conf style = slash)
    (path : List UInt8) : NormalizesRight conf style path ↔ ¬ OverSeparated path := by
  by_cases nonempty : path = []
  · subst nonempty
    have parsed : pathParse conf [] style = ⟨[], [], [], pathResolveStyle conf style⟩ := rfl
    have settled : pathResolveStyle conf (pathResolveStyle conf style) =
        pathResolveStyle conf style := by
      cases conf <;> cases style <;> rfl
    have normalized : ucbPathNormalize conf (pathParse conf [] style) =
        ⟨[], [], [], pathResolveStyle conf style⟩ := by
      simp [ucbPathNormalize, pathComposeTo, pathJunction, pathNormalizeLexical,
        pathDetectAnchor, normLoop, pathParse, settled]
    have composed : pathComposeTo conf ⟨[], [], [], pathResolveStyle conf style⟩ = [] := by
      simp [pathComposeTo, pathJunction]
    refine iff_of_true ?_ (by decide)
    constructor
    · rw [normalized, composed]
      rfl
    · rw [normalized, composed]
    · rw [normalized, composed]
      exact .inl ⟨0, [], rfl, List.not_mem_nil, List.not_mem_nil, fun _ => rfl⟩
    · intro here
      rw [normalized, composed]
    · rw [parsed] at normalized
      rw [parsed, normalized, normalized]
  · have composed := compose_normalize posix nonempty
    obtain ⟨count, atMostTwo, lead, rooted⟩ := pathLead_replicate path
    have proper : Proper (normalizedSegments (isRooted path) (pathSegments path)) :=
      proper_normalizedSegments (proper_pathSegments path)
    constructor
    · intro right tooMany
      obtain ⟨double, single⟩ := pathLead_over tooMany
      have text := right.text
      rw [composed, normalForm, if_neg nonempty, double, single] at text
      have same := List.append_cancel_right text
      cases same
    · intro single
      have root := pathLead_eq single
      constructor
      · rw [composed, root, normalForm, if_neg nonempty]
      · rw [composed, lead, leadCount_composed proper, ← root, lead, rootSeps_replicate atMostTwo]
      · rw [composed, lead, pathSegments_composed proper]
        exact normalSegments_normalized _ _
      · intro here
        rw [composed, lead, leadsTo, leadsTo, leadCount_composed proper, isRooted_composed proper,
          pathSegments_composed proper, rooted, ← root, lead, rootSeps_replicate atMostTwo,
          follow_normalized]
        intro isRoot
        rw [if_pos isRoot]
      · exact normalize_twice posix nonempty

/-- `/a/./../b`. -/
theorem normalizesRight_iff_absolute :
    NormalizesRight .default .posix [slash, 0x61, slash, dot, slash, dot, dot, slash, 0x62] ↔
      ¬ OverSeparated [slash, 0x61, slash, dot, slash, dot, dot, slash, 0x62] :=
  normalizesRight_iff rfl _

/-- `///a/b` becomes `//a/b`, which has another root. -/
theorem normalize_tooManySeparators :
    pathComposeTo .default (ucbPathNormalize .default
      (pathParse .default [slash, slash, slash, 0x61, slash, 0x62] .posix)) =
      [slash, slash, 0x61, slash, 0x62] ∧
    ¬ NormalizesRight .default .posix [slash, slash, slash, 0x61, slash, 0x62] := by
  have composed : pathComposeTo .default (ucbPathNormalize .default
      (pathParse .default [slash, slash, slash, 0x61, slash, 0x62] .posix)) =
      [slash, slash, 0x61, slash, 0x62] := by
    rw [compose_normalize rfl (by decide)]
    decide
  refine ⟨composed, ?_⟩
  intro right
  have root := right.root
  rw [composed] at root
  exact absurd root (by decide)

end Ucb.Path
