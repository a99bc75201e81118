import Ucb.Path.Parts

/-!
Contract: the components of a path stay in step with its composed text.

Owns:
- the operations that keep them in step in both styles, on a POSIX build;
- what holds of every path made by them.

Parsing splits at `/` only. A `\` in the text of a path in Windows style would
be part of a name that the composed text splits, so such texts are kept out, and
so is lexical normalization in that style, which parses what it has composed.
-/

namespace Ucb.Path

open Ucb.Lib

/-! ## Directories as they are built -/

/-- The separators of a parsed text, written in a style. -/
def writeSep (sep c : UInt8) : UInt8 :=
  if pathIsSep c then sep else c

theorem buildDirLoop_true (sep : UInt8) (rest : List UInt8) :
    ∀ pending tmp, (buildDirLoop sep pending tmp true rest).2 = true := by
  induction rest with
  | nil => exact fun _ _ => rfl
  | cons c rest inductionHypothesis =>
      intro pending tmp
      rw [buildDirLoop]
      split
      · exact inductionHypothesis _ _
      · exact inductionHypothesis _ _

/-- Without content behind the anchor nothing is written behind it. -/
theorem buildDirLoop_empty (sep : UInt8) (rest : List UInt8) :
    ∀ pending tmp, (buildDirLoop sep pending tmp false rest).2 = false →
      (buildDirLoop sep pending tmp false rest).1 = tmp := by
  induction rest with
  | nil => exact fun _ _ _ => rfl
  | cons c rest inductionHypothesis =>
      intro pending tmp
      rw [buildDirLoop]
      split
      · exact inductionHypothesis _ _
      · intro none
        rw [buildDirLoop_true] at none
        cases none

theorem buildDirLoop_map (sep : UInt8) (rest : List UInt8) :
    ∀ pending tmp content,
      (buildDirLoop sep pending (tmp.map (writeSep sep)) content rest).1 =
        (buildDirLoop slash pending tmp content rest).1.map (writeSep sep) := by
  induction rest with
  | nil => exact fun _ _ _ => rfl
  | cons c rest inductionHypothesis =>
      intro pending tmp content
      rw [buildDirLoop, buildDirLoop]
      split
      · exact inductionHypothesis _ _ _
      next notSep =>
        have kept : writeSep sep c = c := if_neg notSep
        have written : writeSep sep slash = sep := rfl
        rw [← inductionHypothesis]
        by_cases junction : pending = true ∧ tmp ≠ []
        · simp [junction, kept, written]
        · simp [junction, kept]

theorem anchor_written {region : List UInt8} {count : Nat} (inside : count ≤ leadOf 0 region)
    (sep : UInt8) : (region.take count).map (writeSep sep) = List.replicate count sep := by
  have short := leadOf_le_length 0 region
  rw [List.eq_replicate_iff]
  refine ⟨by simp; omega, ?_⟩
  intro c member
  obtain ⟨item, found, rfl⟩ := List.mem_map.mp member
  have isSep := take_leadOf inside item found
  rw [pathSepMatch_zero] at isSep
  exact if_pos isSep

/-- The anchor and what the loop writes behind it: a POSIX build adds nothing. -/
theorem pathBuildDir_loop (region : List UInt8) :
    ∃ count ≤ leadOf 0 region, ∀ sep, pathBuildDir region sep =
      (buildDirLoop sep false ((region.take count).map (writeSep sep)) false
        (region.drop count)).1 := by
  rcases anchor_cases 0 region with ⟨detected, -⟩ | ⟨count, positive, inside, detected, -⟩
  · refine ⟨0, Nat.zero_le _, fun sep => ?_⟩
    simp [pathBuildDir, detected]
  · refine ⟨count, inside, fun sep => ?_⟩
    rw [pathBuildDir, detected]
    apply if_neg
    rintro ⟨-, none, -, last⟩
    apply last
    rw [buildDirLoop_empty _ _ _ _ none]
    show ((region.take count).map (writeSep sep)).getLast? = some sep
    rw [anchor_written inside, List.getLast?_replicate, if_neg (by omega)]

/-- A directory is built in every style as with `/`, up to the separators. -/
theorem pathBuildDir_map (region : List UInt8) (sep : UInt8) :
    pathBuildDir region sep = (pathBuildDir region slash).map (writeSep sep) := by
  obtain ⟨count, inside, built⟩ := pathBuildDir_loop region
  have written : (List.replicate count slash).map (writeSep sep) = List.replicate count sep :=
    List.map_replicate
  rw [built, built, ← buildDirLoop_map, anchor_written inside, anchor_written inside, written]

theorem mem_buildDirLoop {sep c : UInt8} (rest : List UInt8) :
    ∀ pending tmp content, c ∈ (buildDirLoop sep pending tmp content rest).1 →
      c ∈ tmp ∨ c = sep ∨ c ∈ rest := by
  induction rest with
  | nil => exact fun _ _ _ member => .inl member
  | cons first rest inductionHypothesis =>
      intro pending tmp content member
      rw [buildDirLoop] at member
      split at member
      · rcases inductionHypothesis _ _ _ member with before | same | later
        · exact .inl before
        · exact .inr (.inl same)
        · exact .inr (.inr (List.mem_cons_of_mem _ later))
      · rcases inductionHypothesis _ _ _ member with before | same | later
        · split at before <;> simp at before ⊢ <;> tauto
        · exact .inr (.inl same)
        · exact .inr (.inr (List.mem_cons_of_mem _ later))

/-- A directory holds nothing but separators and text of its region. -/
theorem mem_pathBuildDir {region : List UInt8} {c : UInt8}
    (member : c ∈ pathBuildDir region slash) : c = slash ∨ c ∈ region := by
  obtain ⟨count, inside, built⟩ := pathBuildDir_loop region
  rw [built, anchor_written inside] at member
  rcases mem_buildDirLoop _ _ _ _ member with before | same | later
  · exact .inl (List.eq_of_mem_replicate before)
  · exact .inl same
  · exact .inr (List.mem_of_mem_drop later)

/-! ## Directories with a root -/

theorem leadOf_slash (text : List UInt8) : leadOf slash text = leadCount text := by
  simp only [leadOf, leadCount, pathSepMatch_slash]

theorem wellRooted_nil (sep : UInt8) : WellRooted sep [] where
  few := Nat.zero_le _
  root := fun nonempty => absurd rfl nonempty

/-- The text with the separators of one style written as those of another. -/
def restyled (old new : UInt8) (text : List UInt8) : List UInt8 :=
  text.map fun c => if pathSepMatch c old then new else c

/-- Nothing but separators becomes a separator of the new style. -/
def Restyles (old new : UInt8) (text : List UInt8) : Prop :=
  ∀ c ∈ text, pathSepMatch c new = true → pathSepMatch c old = true

theorem pathSepMatch_restyled {old new c : UInt8} (positive : new ≠ 0)
    (plain : pathSepMatch c new = true → pathSepMatch c old = true) :
    pathSepMatch (if pathSepMatch c old then new else c) new = pathSepMatch c old := by
  by_cases isSep : pathSepMatch c old = true
  · rw [if_pos isSep, isSep]
    simp [pathSepMatch, positive]
  · rw [if_neg isSep]
    have notSep : pathSepMatch c old = false := by simpa using isSep
    rw [notSep]
    simpa using mt plain isSep

theorem leadOf_restyled {old new : UInt8} {text : List UInt8} (positive : new ≠ 0)
    (plain : Restyles old new text) : leadOf new (restyled old new text) = leadOf old text := by
  induction text with
  | nil => rfl
  | cons c rest inductionHypothesis =>
      have here := pathSepMatch_restyled positive (plain c List.mem_cons_self)
      have later := inductionHypothesis fun other member =>
        plain other (List.mem_cons_of_mem _ member)
      simp only [leadOf, restyled, List.map_cons, List.takeWhile_cons, here] at later ⊢
      split
      · simp only [List.length_cons, later]
      · rfl

theorem segments_restyled {old new : UInt8} {text : List UInt8} (positive : new ≠ 0)
    (plain : Restyles old new text) :
    segments (pathSepMatch · new) (restyled old new text) =
      segments (pathSepMatch · old) text := by
  have mapped : segments (pathSepMatch · new) (restyled old new text) =
      (segments (pathSepMatch · old) text).map (restyled old new) :=
    segments_map fun c member => pathSepMatch_restyled positive (plain c member)
  have kept : ∀ segment ∈ segments (pathSepMatch · old) text,
      restyled old new segment = id segment := by
    intro segment member
    have clean := (segments_isSegment member).2
    have each : ∀ c ∈ segment, (if pathSepMatch c old then new else c) = id c := by
      intro c found
      have notSep : pathSepMatch c old = false := clean c found
      rw [notSep]
      rfl
    rw [restyled, List.map_congr_left each, List.map_id]
    rfl
  rw [mapped, List.map_congr_left kept, List.map_id]

theorem WellRooted.restyle {old new : UInt8} {dir : List UInt8} (rooted : WellRooted old dir)
    (positive : new ≠ 0) (plain : Restyles old new dir) :
    WellRooted new (restyled old new dir) where
  few := by
    rw [leadOf_restyled positive plain]
    exact rooted.few
  root := by
    intro nonempty none
    rw [segments_restyled positive plain] at none
    have all := segments_eq_nil_iff.mp none
    have written : restyled old new dir = List.replicate dir.length new := by
      rw [restyled, List.eq_replicate_iff]
      refine ⟨List.length_map _, fun c member => ?_⟩
      obtain ⟨item, found, rfl⟩ := List.mem_map.mp member
      exact if_pos (all item found)
    have some : dir.length ≠ 0 := by
      intro empty
      exact nonempty (by rw [written, empty]; rfl)
    rw [written, List.getLast?_replicate, if_neg some]

theorem wellRooted_slash {dir : List UInt8} (few : leadCount dir ≤ 2) : WellRooted slash dir where
  few := by rwa [leadOf_slash]
  root := by
    intro nonempty none
    have all := segments_eq_nil_iff.mp none
    have last := all _ (List.getLast_mem nonempty)
    rw [pathSepMatch_slash, pathIsSep_iff] at last
    rw [List.getLast?_eq_some_getLast nonempty, last]

/-- A text has no separators but `/` if the style is to be Windows. -/
def PlainFor (sep : UInt8) (text : List UInt8) : Prop :=
  sep = slash ∨ (sep = backslash ∧ backslash ∉ text)

theorem PlainFor.restyles {sep : UInt8} {text : List UInt8} (plain : PlainFor sep text) :
    Restyles slash sep text := by
  intro c member isSep
  rcases plain with rfl | ⟨rfl, none⟩
  · exact isSep
  · rcases Bool.or_eq_true_iff.mp isSep with same | extra
    · rwa [pathSepMatch_slash]
    · have same : c = backslash := by simpa [backslash] using extra
      exact absurd (same ▸ member) none

theorem writeSep_eq (sep : UInt8) (text : List UInt8) :
    text.map (writeSep sep) = restyled slash sep text := by
  simp only [restyled, pathSepMatch_slash]
  rfl

theorem pathBuildDir_wellRooted {sep : UInt8} {region : List UInt8}
    (plain : PlainFor sep region) : WellRooted sep (pathBuildDir region sep) := by
  have few : leadCount (pathBuildDir region slash) ≤ 2 := by
    obtain ⟨count, atMostTwo, lead, -⟩ := leadSeps_replicate (leadCount region)
      (decide (pathSegments region ≠ []))
    rw [pathBuildDir_eq, lead, leadCount_replicate (joined_head (proper_pathSegments region))]
    exact atMostTwo
  rw [pathBuildDir_map, writeSep_eq]
  apply (wellRooted_slash few).restyle
  · rcases plain with rfl | ⟨rfl, -⟩ <;> decide
  · apply PlainFor.restyles
    rcases plain with same | ⟨same, none⟩
    · exact .inl same
    · refine .inr ⟨same, fun member => ?_⟩
      rcases mem_pathBuildDir member with isSlash | inside
      · cases isSlash
      · exact none inside

/-- A relative text is put behind a directory. -/
theorem WellRooted.append {sep : UInt8} {dir seg : List UInt8} (rooted : WellRooted sep dir)
    (relative : leadOf sep seg = 0) : WellRooted sep (pathAppendSegment dir seg sep) := by
  cases seg with
  | nil => exact rooted
  | cons c rest =>
      have notSep : ¬ pathSepMatch c sep = true := by
        intro isSep
        simp [leadOf, isSep] at relative
      have content : ∀ before, segments (pathSepMatch · sep) (before ++ c :: rest) ≠ [] := by
        intro before none
        exact notSep (segments_eq_nil_iff.mp none c (by simp))
      rw [pathAppendSegment, if_neg (List.cons_ne_nil _ _)]
      by_cases junction : dir ≠ [] ∧ dir.getLast? ≠ some sep
      · have behind : segments (pathSepMatch · sep) dir ≠ [] := fun none =>
          junction.2 (rooted.root junction.1 none)
        rw [if_pos junction]
        constructor
        · rw [leadOf_append_content behind]
          exact rooted.few
        · intro _ none
          have split : dir ++ sep :: c :: rest = dir ++ [sep] ++ c :: rest := by simp
          rw [split] at none
          exact absurd none (content _)
      · rw [if_neg junction]
        constructor
        · rw [leadOf_append_name _ relative]
          exact rooted.few
        · exact fun _ none => absurd none (content _)

theorem leadOf_seps {sep c : UInt8} {seps : List UInt8}
    (all : ∀ item ∈ seps, pathSepMatch item sep = true) (notSep : pathSepMatch c sep = false)
    (rest : List UInt8) : leadOf sep (seps ++ c :: rest) = seps.length := by
  rw [leadOf, List.takeWhile_append_of_pos all]
  simp [notSep]

/-- A text is its leading separators and a rest that starts with none. -/
theorem exists_leadOf (sep : UInt8) (text : List UInt8) :
    ∃ seps rest, text = seps ++ rest ∧ (∀ item ∈ seps, pathSepMatch item sep = true) ∧
      leadOf sep text = seps.length ∧
      (rest = [] ∨ ∃ c more, rest = c :: more ∧ pathSepMatch c sep = false) := by
  refine ⟨text.takeWhile (pathSepMatch · sep), text.dropWhile (pathSepMatch · sep),
    List.takeWhile_append_dropWhile.symm,
    fun _ member => List.mem_takeWhile_imp (p := (pathSepMatch · sep)) member, rfl, ?_⟩
  cases found : text.dropWhile (pathSepMatch · sep) with
  | nil => exact .inl rfl
  | cons c rest =>
      have head := List.head_dropWhile_not (pathSepMatch · sep)
        (by simp [found] : text.dropWhile (pathSepMatch · sep) ≠ [])
      exact .inr ⟨c, rest, rfl, by simpa [found] using head⟩

theorem WellRooted.take {sep : UInt8} {dir : List UInt8} (rooted : WellRooted sep dir)
    {cut : Nat} (beyond : leadOf sep dir < cut) : WellRooted sep (dir.take cut) := by
  obtain ⟨seps, rest, rfl, all, lead, behind⟩ := exists_leadOf sep dir
  have few := rooted.few
  rw [lead] at beyond few
  rcases behind with rfl | ⟨c, more, rfl, notSep⟩
  · rwa [List.take_of_length_le (by rw [List.append_nil]; omega)]
  · obtain ⟨extra, rfl⟩ : ∃ extra, cut = seps.length + (extra + 1) :=
      ⟨cut - seps.length - 1, by omega⟩
    rw [List.take_length_add_append, List.take_succ_cons]
    constructor
    · rwa [leadOf_seps all notSep]
    · intro _ none
      have isSep := segments_eq_nil_iff.mp none c (by simp)
      rw [notSep] at isSep
      cases isSep

theorem wellRooted_replicate {sep : UInt8} {count : Nat} (atMostTwo : count ≤ 2) :
    WellRooted sep (List.replicate count sep) where
  few := Nat.le_trans (leadOf_le_length _ _) (by rwa [List.length_replicate])
  root := by
    intro nonempty _
    have some : count ≠ 0 := by
      rintro rfl
      exact nonempty rfl
    rw [List.getLast?_replicate, if_neg some]

theorem WellRooted.anchorLen {sep : UInt8} {dir : List UInt8} (rooted : WellRooted sep dir) :
    (pathDetectAnchor dir sep).2 = leadOf sep dir := by
  have few := rooted.few
  rw [pathDetectAnchor_eq]
  split
  next none => exact none.symm
  next some =>
    split
    next two => exact two.symm
    next notTwo => show 1 = leadOf sep dir; omega

/-! ## Paths -/

/-- The directory can have a name put behind it, and the name is no path. -/
structure Coherent (conf : UcbPathStyle) (path : UcbPath) : Prop where
  dir : WellRooted (pathSepOf conf path.style) path.dir
  name : Clean (pathSepMatch · (pathSepOf conf path.style)) (path.stem ++ path.ext)

theorem clean_of_plain {sep : UInt8} {name : List UInt8} (clean : Clean pathIsSep name)
    (plain : PlainFor sep name) : Clean (pathSepMatch · sep) name := by
  intro c member
  by_contra isSep
  have isSlash := plain.restyles c member (by simpa using isSep)
  rw [pathSepMatch_slash, clean c member] at isSlash
  cases isSlash

theorem PlainFor.subset {sep : UInt8} {text part : List UInt8} (plain : PlainFor sep text)
    (inside : part ⊆ text) : PlainFor sep part := by
  rcases plain with same | ⟨same, none⟩
  · exact .inl same
  · exact .inr ⟨same, fun member => none (inside member)⟩

theorem coherent_parse {conf style : UcbPathStyle} {str : List UInt8}
    (plain : PlainFor (pathSepOf conf style) str) : Coherent conf (pathParse conf str style) := by
  by_cases empty : str = []
  · subst empty
    exact ⟨wellRooted_nil _, nofun⟩
  · obtain ⟨region, name, rfl, clean, shape⟩ := exists_name_split str
    rw [pathParse_split conf style clean shape empty]
    constructor
    · rw [pathSepOf_resolve]
      exact pathBuildDir_wellRooted (plain.subset (List.subset_append_left _ _))
    · rw [pathSepOf_resolve, parseFilename_append]
      exact clean_of_plain clean (plain.subset (List.subset_append_right _ _))

def UcbPath.text (path : UcbPath) : List UInt8 :=
  path.dir ++ path.stem ++ path.ext

theorem pathSepOf_cases (conf style : UcbPathStyle) :
    pathSepOf conf style = slash ∨ pathSepOf conf style = backslash := by
  cases conf <;> cases style <;> decide

/-- What is clean in Windows style, or plain, is clean in any style. -/
theorem clean_of_any {old sep : UInt8} {name : List UInt8}
    (clean : Clean (pathSepMatch · old) name) (plain : old = backslash ∨ PlainFor sep name)
    (known : sep = slash ∨ sep = backslash) : Clean (pathSepMatch · sep) name := by
  have posix : Clean pathIsSep name := by
    intro c member
    exact (Bool.or_eq_false_iff.mp (clean c member)).1
  rcases plain with rfl | plain
  · rcases known with rfl | rfl
    · exact clean_of_plain posix (.inl rfl)
    · exact clean
  · exact clean_of_plain posix plain

/-- A relative path starts with no separator of its style. -/
theorem relative_leadOf {conf : UcbPathStyle} {path : UcbPath}
    (relative : ucbPathIsAbsolute conf path = false) :
    leadOf (pathSepOf conf path.style) path.dir = 0 := by
  unfold ucbPathIsAbsolute at relative
  split at relative
  next none => rw [none]; rfl
  next first rest some => simp [some, leadOf, relative]

theorem leadOf_zero_of_any {old sep : UInt8} {text : List UInt8} (none : leadOf old text = 0)
    (plain : old = backslash ∨ PlainFor sep text)
    (known : sep = slash ∨ sep = backslash) : leadOf sep text = 0 := by
  cases text with
  | nil => rfl
  | cons c rest =>
      have clean : Clean (pathSepMatch · old) [c] := by
        intro item member
        obtain rfl := List.mem_singleton.mp member
        by_contra isSep
        simp [leadOf, isSep] at none
      have first : PlainFor sep (c :: rest) → PlainFor sep [c] :=
        fun whole => whole.subset (by simp)
      have here := clean_of_any clean (plain.imp_right first) known
      simp [leadOf, here c (by simp)]

theorem coherent_append {conf : UcbPathStyle} {path other : UcbPath} (coherent : Coherent conf path)
    (operand : Coherent conf other)
    (plain : ucbPathIsAbsolute conf other = true ∨ pathSepOf conf other.style = backslash ∨
      PlainFor (pathSepOf conf path.style) other.text) :
    Coherent conf (ucbPathAppend conf path other) := by
  rw [ucbPathAppend]
  by_cases absolute : ucbPathIsAbsolute conf other = true
  · rwa [if_pos absolute]
  · have relative :=
      relative_leadOf (by simpa using absolute : ucbPathIsAbsolute conf other = false)
    have known := pathSepOf_cases conf path.style
    have plain := plain.resolve_left absolute
    have dirPlain : PlainFor (pathSepOf conf path.style) other.text →
        PlainFor (pathSepOf conf path.style) other.dir := fun whole =>
      whole.subset (by simp [UcbPath.text])
    have namePlain : PlainFor (pathSepOf conf path.style) other.text →
        PlainFor (pathSepOf conf path.style) (other.stem ++ other.ext) := fun whole =>
      whole.subset (by simp [UcbPath.text, List.append_assoc])
    rw [if_neg absolute]
    constructor
    · apply WellRooted.append
      · exact coherent.dir.append (leadOf_clean coherent.name)
      · exact leadOf_zero_of_any relative (plain.imp_right dirPlain) known
    · exact clean_of_any operand.name (plain.imp_right namePlain) known

theorem coherent_parent {conf : UcbPathStyle} {path : UcbPath} (coherent : Coherent conf path) :
    Coherent conf (ucbPathParent conf path) := by
  have rooted := coherent.dir
  have anchor := rooted.anchorLen
  have few := rooted.few
  unfold ucbPathParent
  split
  · exact ⟨rooted, nofun⟩
  next unnamed =>
    have whole : WellRooted (pathSepOf conf path.style)
        (if (pathDetectAnchor path.dir (pathSepOf conf path.style)).1 ≠ .none then
          pathBuildAnchor path.dir (pathDetectAnchor path.dir (pathSepOf conf path.style)).1
            (pathDetectAnchor path.dir (pathSepOf conf path.style)).2 (pathSepOf conf path.style)
        else []) := by
      rcases anchor_cases (pathSepOf conf path.style) path.dir with
        ⟨detected, -⟩ | ⟨count, -, inside, detected, -⟩
      · rw [detected]
        exact wellRooted_nil _
      · rw [detected, if_pos nofun, pathBuildAnchor_root inside]
        exact wellRooted_replicate (by omega)
    simp only
    split
    · exact ⟨whole, coherent.name⟩
    next cut found =>
      split
      · exact ⟨whole, coherent.name⟩
      next beyond => exact ⟨rooted.take (by rw [← anchor]; omega), coherent.name⟩

theorem ucbPathSetStyle_eq (conf : UcbPathStyle) (path : UcbPath) (style : UcbPathStyle) :
    ucbPathSetStyle conf path style =
      { path with
        dir :=
          if pathSepOf conf path.style = pathSepOf conf style then path.dir
          else restyled (pathSepOf conf path.style) (pathSepOf conf style) path.dir
        style := pathResolveStyle conf style } := by
  rw [ucbPathSetStyle, pathSepOf_resolve]
  by_cases same : pathSepOf conf path.style = pathSepOf conf style
  · simp [same]
  · by_cases empty : path.dir = []
    · simp [same, empty, restyled]
    · simp [same, empty, restyled]

theorem coherent_setStyle {conf style : UcbPathStyle} {path : UcbPath}
    (coherent : Coherent conf path)
    (plain : pathSepOf conf path.style = backslash ∨
      PlainFor (pathSepOf conf style) path.text) :
    Coherent conf (ucbPathSetStyle conf path style) := by
  have known := pathSepOf_cases conf style
  have positive := pathSepOf_ne_zero conf style
  rw [ucbPathSetStyle_eq]
  constructor
  · rw [pathSepOf_resolve]
    by_cases same : pathSepOf conf path.style = pathSepOf conf style
    · rw [if_pos same, ← same]
      exact coherent.dir
    · rw [if_neg same]
      apply coherent.dir.restyle positive
      intro c member isSep
      rcases pathSepOf_cases conf path.style with old | old
      · -- towards Windows style, with a plain text
        have whole := plain.resolve_left (by rw [old]; decide)
        have inDir : PlainFor (pathSepOf conf style) path.dir :=
          whole.subset (by simp [UcbPath.text])
        rw [old]
        exact inDir.restyles c member isSep
      · have new : pathSepOf conf style = slash :=
          known.resolve_right fun other => same (old.trans other.symm)
        rw [new, pathSepMatch_slash] at isSep
        simp [pathSepMatch, isSep]
  · rw [pathSepOf_resolve]
    apply clean_of_any coherent.name (plain.imp_right fun whole => ?_) known
    exact whole.subset (by simp [UcbPath.text, List.append_assoc])

/-! ## Every operation -/

/-- A name for `ucb_path_set_filename` holds no `/`, and no `\` comes into the text
of a path in Windows style: neither with a text that the path is given, nor with
a path that is appended or set to that style. Normalization is left to paths that
write `/`. -/
def Plain (conf : UcbPathStyle) (path : UcbPath) : PathOp → Prop
  | .initStyle str style => PlainFor (pathSepOf conf style) str
  | .assign str => PlainFor (pathSepOf conf path.style) str
  | .append other =>
      ucbPathIsAbsolute conf other = true ∨ pathSepOf conf other.style = backslash ∨
        PlainFor (pathSepOf conf path.style) other.text
  | .appendStr other => PlainFor (pathSepOf conf path.style) other
  | .normalize => pathSepOf conf path.style = slash
  | .parent => True
  | .setDir dir => PlainFor (pathSepOf conf path.style) dir
  | .setFilename name => slash ∉ name ∧ PlainFor (pathSepOf conf path.style) name
  | .setStyle style =>
      pathSepOf conf path.style = backslash ∨ PlainFor (pathSepOf conf style) path.text

instance (conf : UcbPathStyle) (path : UcbPath) (op : PathOp) : Decidable (Plain conf path op) := by
  unfold Plain PlainFor
  split <;> infer_instance

theorem coherent_op {conf : UcbPathStyle} {path : UcbPath} {op : PathOp}
    (coherent : Coherent conf path) (operand : ∀ other, op = .append other → Coherent conf other)
    (plain : Plain conf path op) : Coherent conf (applyOp conf path op) := by
  cases op with
  | initStyle str style => exact coherent_parse plain
  | assign str => exact coherent_parse plain
  | append other => exact coherent_append coherent (operand other rfl) plain
  | appendStr other =>
      apply coherent_append coherent (coherent_parse plain)
      rcases pathSepOf_cases conf path.style with posix | windows
      · exact .inr (.inr (.inl posix))
      · refine .inr (.inl ?_)
        rw [pathParse_style, pathSepOf_resolve, windows]
  | normalize => exact coherent_parse (.inl plain)
  | parent => exact coherent_parent coherent
  | setDir dir => exact ⟨pathBuildDir_wellRooted plain, coherent.name⟩
  | setFilename name =>
      refine ⟨coherent.dir, ?_⟩
      show Clean _ ((pathParseFilename name).1 ++ (pathParseFilename name).2)
      rw [parseFilename_append]
      apply clean_of_plain _ plain.2
      intro c member
      by_contra isSep
      have isSlash := (pathIsSep_iff c).mp (by simpa using isSep)
      exact plain.1 (isSlash ▸ member)
  | setStyle style => exact coherent_setStyle coherent plain

theorem coherent_of_made {conf : UcbPathStyle} {path : UcbPath}
    (made : Made conf (Plain conf) path) : Coherent conf path := by
  induction made with
  | init allowed => exact coherent_parse allowed
  | op made operand allowed inductionHypothesis operands =>
      exact coherent_op inductionHypothesis operands allowed

/-! ## Stored components and composed text -/

theorem absolute_compose {conf : UcbPathStyle} {path : UcbPath} (coherent : Coherent conf path) :
    ucbPathIsAbsolute conf path =
      (pathComposeTo conf path).head?.any (pathSepMatch · (pathSepOf conf path.style)) := by
  cases found : path.dir with
  | cons first rest => simp [ucbPathIsAbsolute, pathComposeTo, found]
  | nil =>
      have clean := coherent.name
      cases name : path.stem ++ path.ext with
      | nil => simp [ucbPathIsAbsolute, pathComposeTo, pathJunction, found, name]
      | cons c rest =>
          have notSep := clean c (by simp [name])
          simp [ucbPathIsAbsolute, pathComposeTo, pathJunction, found, name, notSep]

/-- What has been written in a style has no other separators. -/
theorem restyles_restyled {new : UInt8} (positive : new ≠ 0) (old : UInt8) (text : List UInt8) :
    Restyles new old (restyled old new text) := by
  intro c member isSep
  obtain ⟨item, found, rfl⟩ := List.mem_map.mp member
  by_cases replaced : pathSepMatch item old = true
  · rw [if_pos replaced]
    simp [pathSepMatch, positive]
  · rw [if_neg replaced] at isSep
    exact absurd isSep replaced

theorem restyles_slash (text : List UInt8) : Restyles backslash slash text := by
  intro c member isSep
  rw [pathSepMatch_slash] at isSep
  simp [pathSepMatch, isSep]

/-- Writing a directory with the separators of another style, and back. -/
theorem pathParts_restyled {conf : UcbPathStyle} {path path' : UcbPath} {other : UInt8}
    (positive : other ≠ 0) (plain : Restyles (pathSepOf conf path.style) other path.dir)
    (dir : path'.dir = restyled other (pathSepOf conf path.style)
      (restyled (pathSepOf conf path.style) other path.dir))
    (stem : path'.stem = path.stem) (ext : path'.ext = path.ext)
    (style : pathSepOf conf path'.style = pathSepOf conf path.style) :
    pathParts conf path' = pathParts conf path := by
  have ownPositive := pathSepOf_ne_zero conf path.style
  have back := restyles_restyled positive (pathSepOf conf path.style) path.dir
  rw [pathParts_eq, pathParts_eq, storedParts, storedParts, splitParts, splitParts, rootParts,
    rootParts, stem, ext, style, dir, leadOf_restyled ownPositive back,
    leadOf_restyled positive plain, segments_restyled ownPositive back,
    segments_restyled positive plain]

theorem setStyle_round {conf style back : UcbPathStyle} {path : UcbPath}
    (differs : pathSepOf conf path.style ≠ pathSepOf conf style)
    (returns : pathSepOf conf back = pathSepOf conf path.style)
    (plain : pathSepOf conf path.style = slash → backslash ∉ path.dir) :
    pathParts conf (ucbPathSetStyle conf (ucbPathSetStyle conf path style) back) =
      pathParts conf path := by
  have known := pathSepOf_cases conf style
  apply pathParts_restyled (pathSepOf_ne_zero conf style)
  · rcases pathSepOf_cases conf path.style with posix | windows
    · have other := known.resolve_left fun same => differs (posix.trans same.symm)
      rw [posix]
      exact PlainFor.restyles (.inr ⟨other, plain posix⟩)
    · have other := known.resolve_right fun same => differs (windows.trans same.symm)
      rw [windows, other]
      exact restyles_slash _
  · simp only [ucbPathSetStyle_eq, pathSepOf_resolve, if_neg differs, returns]
    exact if_neg (Ne.symm differs)
  · simp only [ucbPathSetStyle_eq]
  · simp only [ucbPathSetStyle_eq]
  · simp only [ucbPathSetStyle_eq, pathSepOf_resolve, returns]

/-- Stored components and composed text agree: the parts of a path are those of
its composed text, split at the separators of its style, so is whether it is
absolute, and the stem and the extension hold no such separator. Changing the
style and changing it back keeps the parts, unless a directory written with `/`
holds a `\`. -/
theorem parts_coherent {conf : UcbPathStyle} {path : UcbPath} (made : Made conf (Plain conf) path) :
    let sep := pathSepOf conf path.style
    pathParts conf path = (splitParts sep (pathComposeTo conf path)).map some ∧
      ucbPathIsAbsolute conf path = (pathComposeTo conf path).head?.any (pathSepMatch · sep) ∧
      Clean (pathSepMatch · sep) path.stem ∧ Clean (pathSepMatch · sep) path.ext ∧
      (sep = slash → backslash ∉ path.dir →
        pathParts conf (ucbPathSetStyle conf (ucbPathSetStyle conf path .windows) .posix) =
          pathParts conf path) ∧
      (sep = backslash →
        pathParts conf (ucbPathSetStyle conf (ucbPathSetStyle conf path .posix) .windows) =
          pathParts conf path) := by
  intro sep
  have coherent := coherent_of_made made
  obtain ⟨stem, ext⟩ := clean_append.mp coherent.name
  have windowsSep : pathSepOf conf .windows = backslash := by cases conf <;> rfl
  have posixSep : pathSepOf conf .posix = slash := by cases conf <;> rfl
  refine ⟨?_, absolute_compose coherent, stem, ext, fun posix plain => ?_, fun windows => ?_⟩
  · rw [pathParts_eq, storedParts_compose coherent.dir coherent.name]
  · apply setStyle_round
    · rw [windowsSep, show pathSepOf conf path.style = slash from posix]
      decide
    · exact posixSep.trans posix.symm
    · exact fun _ => plain
  · apply setStyle_round
    · rw [posixSep, show pathSepOf conf path.style = backslash from windows]
      decide
    · exact windowsSep.trans windows.symm
    · intro posix
      rw [show pathSepOf conf path.style = backslash from windows] at posix
      cases posix

/-- `a/b` in POSIX style, written in Windows style. -/
theorem parts_coherent_windows :
    pathParts .default
        (ucbPathSetStyle .default (ucbPathInitStyle .default [0x61, slash, 0x62] .posix)
          .windows) = [some [0x61], some [0x62]] := by
  have plain : Plain .default (ucbPathInitStyle .default [0x61, slash, 0x62] .posix)
      (.setStyle .windows) := by decide
  have made : Made .default (Plain .default) (applyOp .default
      (ucbPathInitStyle .default [0x61, slash, 0x62] .posix) (.setStyle .windows)) :=
    .op (.init (.inl rfl)) nofun plain
  exact (parts_coherent made).1.trans (by decide)

/-- Styles are POSIX or Windows, and a name for `ucb_path_set_filename` holds no
`/`. -/
def EitherStyle (_ : UcbPath) : PathOp → Prop
  | .initStyle _ style => style = .posix ∨ style = .windows
  | .setStyle style => style = .posix ∨ style = .windows
  | .setFilename name => slash ∉ name
  | _ => True

/-- `a\b`, parsed in Windows style, is a name with a separator of that style. -/
theorem windows_name_with_separator :
    ¬ ∀ path, Made .default EitherStyle path →
      Clean (pathSepMatch · (pathSepOf .default path.style)) path.stem := by
  intro clean
  have made : Made .default EitherStyle
      (ucbPathInitStyle .default [0x61, backslash, 0x62] .windows) := .init (.inr rfl)
  have stem := clean _ made backslash (by decide)
  exact absurd stem (by decide)

end Ucb.Path
