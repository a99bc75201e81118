import Ucb.Path.Canonical

/-!
Contract: a path parsed and composed on a POSIX build, in a style that writes `/`.

Owns:
- the text that composing a parsed path is meant to give, in terms of the text
  alone;
- when parsing that text gives the path back.

A directory region behind three or more separators is written with two of them;
nothing is said about such paths here. A directory without a name composes to a
text whose last component is read as a name.
-/

namespace Ucb.Path

open Ucb.Lib

/-- A path with every run of separators collapsed to one and the trailing ones
removed. -/
def tidied (path : List UInt8) : List UInt8 :=
  (collapse pathIsSep path).rdropWhile pathIsSep

/-- What a path composes to once it is parsed: tidied, but a root keeps its
separator and exactly two leading separators stay two. -/
def canonicalText (path : List UInt8) : List UInt8 :=
  let root := if leadCount path = 0 then [] else [slash]
  let rooted := if tidied path = [] then root else tidied path
  if leadCount path = 2 then slash :: rooted else rooted

/-- Three or more separators lead a directory that names a component. -/
def OverSeparated (path : List UInt8) : Prop :=
  3 ≤ leadCount path ∧ pathSegments (path.take (rawDirLen path)) ≠ []

instance (path : List UInt8) : Decidable (OverSeparated path) := by
  unfold OverSeparated
  infer_instance

/-- A separator ends a path that names a component. -/
def NamesDirectory (path : List UInt8) : Prop :=
  path.getLast? = some slash ∧ pathSegments path ≠ []

/-! ## The composed text -/

theorem leadCount_eq_zero_iff (path : List UInt8) :
    leadCount path = 0 ↔ ¬ path.head?.any pathIsSep = true := by
  cases path with
  | nil => simp [leadCount]
  | cons c rest =>
      by_cases isSep : pathIsSep c = true
      · simp [leadCount, isSep]
      · simp [leadCount, isSep]

/-- The separators that are left of `count` leading ones. -/
def rootSeps (count : Nat) : List UInt8 :=
  if count = 0 then [] else if count = 2 then [slash, slash] else [slash]

theorem tidied_eq (path : List UInt8) :
    tidied path = (if leadCount path ≠ 0 ∧ pathSegments path ≠ [] then [slash] else []) ++
      joined (pathSegments path) := by
  have tidy : tidied path = _ := tidy_eq pathIsSep_iff path
  have starts : path.head?.any pathIsSep = true ↔ leadCount path ≠ 0 := by
    rw [ne_eq, leadCount_eq_zero_iff, not_not]
  simp only [starts] at tidy
  exact tidy

theorem canonicalText_eq (path : List UInt8) :
    canonicalText path = rootSeps (leadCount path) ++ joined (pathSegments path) := by
  have tidy := tidied_eq path
  by_cases none : pathSegments path = []
  · have nothing : tidied path = [] := by simp [tidy, none, joined]
    simp only [canonicalText, nothing, if_true, none, rootSeps]
    split <;> split <;> simp_all [joined]
  · obtain ⟨some, -⟩ := joined_getLast (proper_pathSegments path) none
    have something : tidied path ≠ [] := by simp [tidy, some]
    simp only [canonicalText, if_neg something, rootSeps]
    rw [tidy]
    by_cases relative : leadCount path = 0
    · simp [relative]
    · by_cases double : leadCount path = 2
      · simp [double, none]
      · simp [relative, double, none]

theorem leadSeps_eq (count : Nat) (content : Bool) :
    leadSeps count content =
      if 3 ≤ count ∧ content = true then [slash, slash] else rootSeps count := by
  match count with
  | 0 => rfl
  | 1 => rfl
  | 2 => rfl
  | count + 3 => cases content <;> simp [leadSeps, rootSeps]

theorem pathLead_eq {path : List UInt8} (single : ¬ OverSeparated path) :
    pathLead path = rootSeps (leadCount path) := by
  rw [pathLead, leadSeps_eq, if_neg]
  simpa [OverSeparated] using single

theorem compose_canonical {conf style : UcbPathStyle} (posix : pathSepOf conf style = slash)
    {path : List UInt8} (single : ¬ OverSeparated path) :
    pathComposeTo conf (pathParse conf path style) = canonicalText path := by
  by_cases empty : path = []
  · subst empty
    rfl
  · rw [compose_parse posix empty, pathLead_eq single, canonicalText_eq]

/-! ## Parsing the composed text -/

/-- Components in front of a name, with their separators. -/
theorem exists_front {segs : List (List UInt8)} (proper : Proper segs) (name : List UInt8) :
    ∃ front, joined (segs ++ [name]) = front ++ name ∧ front.takeWhile pathIsSep = [] ∧
      pathSegments front = segs ∧ (front = [] ∨ ∃ text, front = text ++ [slash]) := by
  by_cases none : segs = []
  · subst none
    exact ⟨[], by simp [joined], rfl, rfl, .inl rfl⟩
  · obtain ⟨some, -⟩ := joined_getLast proper none
    have head := joined_head proper
    have slashSep : pathIsSep slash = true := by decide
    refine ⟨joined segs ++ [slash], ?_, ?_, ?_, .inr ⟨_, rfl⟩⟩
    · rw [joined_concat segs none, List.append_assoc]
      rfl
    · cases found : joined segs with
      | nil => exact absurd found some
      | cons c text =>
          rw [found] at head
          by_cases isSep : pathIsSep c = true
          · simp [isSep] at head
          · simp [isSep]
    · rw [pathSegments, segments_append_sep slashSep, segments_nil, List.append_nil]
      exact pathSegments_joined proper

theorem leadSeps_replicate_le {count : Nat} (atMostTwo : count ≤ 2) (content : Bool) :
    leadSeps count content = List.replicate count slash := by
  match count with
  | 0 => rfl
  | 1 => rfl
  | 2 => rfl

/-- A root with components and a name behind it: the directory is the root and
the components. -/
theorem parse_rooted {conf style : UcbPathStyle} (posix : pathSepOf conf style = slash)
    {count : Nat} (atMostTwo : count ≤ 2) {segs : List (List UInt8)} (proper : Proper segs)
    {name : List UInt8} (clean : Clean pathIsSep name)
    (nonempty : List.replicate count slash ++ joined (segs ++ [name]) ≠ []) :
    pathParse conf (List.replicate count slash ++ joined (segs ++ [name])) style =
      ⟨List.replicate count slash ++ joined segs, (pathParseFilename name).1,
        (pathParseFilename name).2, pathResolveStyle conf style⟩ := by
  obtain ⟨front, split, noLead, frontSegs, shape⟩ := exists_front proper name
  have seps : ∀ c ∈ List.replicate count slash, pathIsSep c = true := by
    intro c member
    rw [List.eq_of_mem_replicate member]
    decide
  have regionShape : List.replicate count slash ++ front = [] ∨
      ∃ text, List.replicate count slash ++ front = text ++ [slash] := by
    rcases shape with rfl | ⟨text, rfl⟩
    · cases count with
      | zero => exact .inl rfl
      | succ count => exact .inr ⟨List.replicate count slash, by simp [List.replicate_succ']⟩
    · exact .inr ⟨List.replicate count slash ++ text, by simp⟩
  have segs_eq : pathSegments (List.replicate count slash ++ front) = segs := by
    rw [pathSegments, segments_seps_append seps]
    exact frontSegs
  rw [split, ← List.append_assoc] at nonempty ⊢
  rw [pathParse_split conf style clean regionShape nonempty, posix, pathBuildDir_eq, segs_eq,
    leadCount_replicate noLead, leadSeps_replicate_le atMostTwo]

/-- Parsing the composed text of a path gives the path back, unless the text it
was parsed from names a directory only. -/
theorem parse_composed {conf style : UcbPathStyle} (posix : pathSepOf conf style = slash)
    {path : List UInt8} (named : ¬ NamesDirectory path) :
    pathParse conf (pathComposeTo conf (pathParse conf path style))
      (pathResolveStyle conf style) = pathParse conf path style := by
  have resolved : pathSepOf conf (pathResolveStyle conf style) = slash := by
    rw [pathSepOf_resolve, posix]
  have settled : pathResolveStyle conf (pathResolveStyle conf style) =
      pathResolveStyle conf style := by
    cases conf <;> cases style <;> rfl
  by_cases empty : path = []
  · subst empty
    simp [pathParse, pathComposeTo, pathJunction, settled]
  · obtain ⟨region, name, rfl, clean, shape⟩ := exists_name_split path
    obtain ⟨count, atMostTwo, lead, -⟩ := pathLead_replicate (region ++ name)
    have notEmpty := composed_ne_nil empty
    have dir : pathBuildDir region slash =
        List.replicate count slash ++ joined (pathSegments region) := by
      rw [pathBuildDir_eq, ← lead, pathLead, leadCount_append clean, rawDirLen_split clean shape,
        List.take_left]
    -- without a name the region is nothing but separators
    have segs : joined (pathSegments (region ++ name)) =
        joined (pathSegments region ++ [name]) := by
      rw [pathSegments_split clean shape]
      by_cases unnamed : name = []
      · subst unnamed
        have none : pathSegments region = [] := by
          rcases shape with rfl | ⟨front, rfl⟩
          · rfl
          · by_contra some
            exact named ⟨by simp, by simpa using some⟩
        simp [none, completed, joined]
      · rw [completed_of_ne_nil unnamed]
    rw [lead, segs] at notEmpty
    rw [compose_parse posix empty, lead, segs, parse_rooted resolved atMostTwo
      (proper_pathSegments region) clean notEmpty, pathParse_split conf style clean shape empty,
      posix, dir, settled]

/-- A directory without a name composes to a text whose last component is read
as a name. -/
theorem parse_composed_directory {conf style : UcbPathStyle}
    (posix : pathSepOf conf style = slash) {path : List UInt8} (directory : NamesDirectory path) :
    pathParse conf (pathComposeTo conf (pathParse conf path style))
      (pathResolveStyle conf style) ≠ pathParse conf path style := by
  obtain ⟨ends, some⟩ := directory
  have resolved : pathSepOf conf (pathResolveStyle conf style) = slash := by
    rw [pathSepOf_resolve, posix]
  obtain ⟨front, rfl⟩ := List.getLast?_eq_some_iff.mp ends
  have empty : front ++ [slash] ≠ [] := by simp
  have parsed : pathParse conf (front ++ [slash] ++ []) style = _ :=
    pathParse_split conf style nofun (.inr ⟨front, rfl⟩) (by simp)
  obtain ⟨count, atMostTwo, lead, -⟩ := pathLead_replicate (front ++ [slash])
  obtain ⟨segs, last, split⟩ := (List.eq_nil_or_concat' _).resolve_left some
  have proper := proper_pathSegments (front ++ [slash])
  rw [split] at proper
  have isSegment := proper last (by simp)
  have notEmpty := composed_ne_nil empty
  rw [lead, split] at notEmpty
  rw [compose_parse posix empty, lead, split,
    parse_rooted resolved atMostTwo (fun seg member => proper seg (by simp [member])) isSegment.2
      notEmpty]
  rw [List.append_nil] at parsed
  rw [parsed]
  intro same
  have name := parseFilename_append last
  rw [(UcbPath.mk.inj same).2.1, (UcbPath.mk.inj same).2.2.1] at name
  exact isSegment.1 name.symm

/-- POSIX round trip: a parsed path composes to the canonical form of its text,
and the composed text parses to the same path exactly when the text did not name
a directory only. -/
theorem posix_round_trip (conf : UcbPathStyle) (path : List UInt8) :
    (¬ OverSeparated path →
      pathComposeTo conf (pathParse conf path .posix) = canonicalText path) ∧
    (pathParse conf (pathComposeTo conf (pathParse conf path .posix)) .posix =
        pathParse conf path .posix ↔ ¬ NamesDirectory path) := by
  refine ⟨compose_canonical rfl, ?_, parse_composed rfl⟩
  intro same directory
  exact parse_composed_directory rfl directory same

/-- `//usr//lib/`. -/
theorem posix_round_trip_usrLib :
    pathComposeTo .default
      (pathParse .default
        [slash, slash, 0x75, 0x73, 0x72, slash, slash, 0x6C, 0x69, 0x62, slash] .posix) =
      [slash, slash, 0x75, 0x73, 0x72, slash, 0x6C, 0x69, 0x62] := by
  have composed := (posix_round_trip .default
    [slash, slash, 0x75, 0x73, 0x72, slash, slash, 0x6C, 0x69, 0x62, slash]).1 (by decide)
  exact composed.trans (by decide)

/-- `a/` is a directory and composes to `a`, which is a name. -/
theorem trailing_separator_lost :
    ¬ ∀ path : List UInt8,
      pathParse .default (pathComposeTo .default (pathParse .default path .posix)) .posix =
        pathParse .default path .posix := by
  intro same
  exact absurd (same [0x61, slash]) (by decide)

end Ucb.Path
