import Ucb.Lib.LexPath
import Ucb.Path.Path
import Mathlib.Data.List.TakeWhile

/-!
Contract: what parsing, composing and normalizing do to the segments of a path,
in a style that writes `/`.

Owns:
- `pathSegments` and the separators a composed path starts with;
- the composed path as these separators and the joined segments;
- lexical normalization as the resolution of the segments.
-/

namespace Ucb.Path

open Ucb.Lib

/-! ## Segments -/

def pathSegments (path : List UInt8) : List (List UInt8) :=
  segments pathIsSep path

def joined (segs : List (List UInt8)) : List UInt8 :=
  [slash].intercalate segs

theorem pathIsSep_iff (c : UInt8) : pathIsSep c = true ↔ c = slash := by
  simp [pathIsSep]

theorem pathSepMatch_slash (c : UInt8) : pathSepMatch c slash = pathIsSep c := by
  simp [pathSepMatch, pathIsSep]

theorem pathSepMatch_zero (c : UInt8) : pathSepMatch c 0 = pathIsSep c := by
  simp [pathSepMatch]

def Proper (segs : List (List UInt8)) : Prop :=
  ∀ segment ∈ segs, IsSegment pathIsSep segment

theorem proper_pathSegments (path : List UInt8) : Proper (pathSegments path) :=
  fun _ member => segments_isSegment member

theorem pathSegments_joined {segs : List (List UInt8)} (proper : Proper segs) :
    pathSegments (joined segs) = segs :=
  segments_intercalate (by decide) proper

theorem segment_getLast {segment : List UInt8} (isSegment : IsSegment pathIsSep segment) :
    segment.getLast? ≠ some slash := by
  intro last
  have clean := isSegment.2 slash (List.mem_of_getLast? last)
  cases clean

theorem joined_ends (front : List (List UInt8)) (last : List UInt8) :
    ∃ text, joined (front ++ [last]) = text ++ last :=
  ⟨[slash].intercalate (front ++ [[]]), by rw [← intercalate_lengthen]; rfl⟩

theorem joined_getLast {segs : List (List UInt8)} (proper : Proper segs) (nonempty : segs ≠ []) :
    joined segs ≠ [] ∧ (joined segs).getLast? ≠ some slash := by
  obtain ⟨front, last, rfl⟩ := (List.eq_nil_or_concat' segs).resolve_left nonempty
  have isSegment := proper last (by simp)
  obtain ⟨text, ends⟩ := joined_ends front last
  rw [ends, List.getLast?_append_of_ne_nil _ isSegment.1]
  exact ⟨by simp [isSegment.1], segment_getLast isSegment⟩

theorem joined_concat (segs : List (List UInt8)) (nonempty : segs ≠ []) (last : List UInt8) :
    joined (segs ++ [last]) = joined segs ++ slash :: last := by
  have whole := intercalate_append slash nonempty [last]
  simpa [joined] using whole

/-- A joined list of components starts with no separator. -/
theorem joined_head {segs : List (List UInt8)} (proper : Proper segs) :
    (joined segs).takeWhile pathIsSep = [] := by
  cases segs with
  | nil => rfl
  | cons first rest =>
      obtain ⟨nonempty, clean⟩ := proper first List.mem_cons_self
      rw [joined, intercalate_cons]
      cases first with
      | nil => exact absurd rfl nonempty
      | cons c text => simp [clean c List.mem_cons_self]

/-! ## The directory -/

/-- Behind a pending separator every component gets one in front. -/
theorem buildDirLoop_pending (sep : UInt8) (rest : List UInt8) :
    (∀ tmp content, tmp ≠ [] → buildDirLoop sep true tmp content rest =
      (tmp ++ (pathSegments rest).flatMap (sep :: ·), content || pathSegments rest ≠ [])) ∧
    (∀ before current, current ≠ [] → buildDirLoop sep false (before ++ current) true rest =
      (before ++ [sep].intercalate (segmentsFrom pathIsSep current rest), true)) := by
  induction rest with
  | nil =>
      refine ⟨fun tmp content _ => by simp [buildDirLoop, pathSegments], ?_⟩
      intro before current nonempty
      simp [buildDirLoop, segmentsFrom, completed_of_ne_nil nonempty]
  | cons c rest inductionHypothesis =>
      obtain ⟨pending, inside⟩ := inductionHypothesis
      by_cases isSep : pathIsSep c = true
      · refine ⟨fun tmp content nonempty => ?_, fun before current nonempty => ?_⟩
        · rw [buildDirLoop, if_pos isSep, pending tmp content nonempty, pathSegments, pathSegments,
            segments_sep isSep]
        · rw [buildDirLoop, if_pos isSep, pending _ true (by simp [nonempty]), segmentsFrom,
            if_pos isSep, completed_of_ne_nil nonempty, List.singleton_append, intercalate_cons,
            List.append_assoc]
          rfl
      · refine ⟨fun tmp content nonempty => ?_, fun before current nonempty => ?_⟩
        · have split : segmentsFrom pathIsSep [] (c :: rest) = segmentsFrom pathIsSep [c] rest := by
            rw [segmentsFrom, if_neg isSep]
            rfl
          have found := segmentsFrom_ne_nil pathIsSep rest [c] (List.cons_ne_nil _ _)
          obtain ⟨first, others, segs_eq⟩ := List.exists_cons_of_ne_nil found
          rw [buildDirLoop, if_neg isSep]
          simp only [nonempty, ne_eq, not_false_eq_true, and_self, if_true]
          rw [inside (tmp ++ [sep]) [c] (List.cons_ne_nil _ _), pathSegments, segments, split,
            segs_eq, intercalate_cons]
          simp
        · rw [buildDirLoop, if_neg isSep]
          simp only [Bool.false_eq_true, false_and, if_false]
          rw [List.append_assoc, inside before (current ++ [c]) (by simp), segmentsFrom,
            if_neg isSep]

theorem buildDirLoop_start (sep : UInt8) (rest : List UInt8) :
    ∀ pending, buildDirLoop sep pending [] false rest =
      ([sep].intercalate (pathSegments rest), decide (pathSegments rest ≠ [])) := by
  induction rest with
  | nil => exact fun pending => rfl
  | cons c rest inductionHypothesis =>
      intro pending
      by_cases isSep : pathIsSep c = true
      · rw [buildDirLoop, if_pos isSep, inductionHypothesis, pathSegments, pathSegments,
          segments_sep isSep]
      · have inside := (buildDirLoop_pending sep rest).2 [] [c] (List.cons_ne_nil _ _)
        have split : segmentsFrom pathIsSep [] (c :: rest) = segmentsFrom pathIsSep [c] rest := by
          rw [segmentsFrom, if_neg isSep]
          rfl
        have found := segmentsFrom_ne_nil pathIsSep rest [c] (List.cons_ne_nil _ _)
        rw [buildDirLoop, if_neg isSep, pathSegments, segments, split]
        simp only [ne_eq, not_true_eq_false, and_false, if_false]
        simpa [found] using inside

/-! ## The anchor -/

/-- How many separators a path starts with. -/
def leadCount (path : List UInt8) : Nat :=
  (path.takeWhile pathIsSep).length

/-- What is left of them in front of a composed path: of three or more, two if
the directory names a component. -/
def leadSeps : (count : Nat) → (content : Bool) → List UInt8
  | 0, _ => []
  | 1, _ => [slash]
  | 2, _ => [slash, slash]
  | _ + 3, content => if content then [slash, slash] else [slash]

/-- A path is its leading separators and a rest that starts with none. -/
theorem exists_lead (path : List UInt8) :
    ∃ rest, path = List.replicate (leadCount path) slash ++ rest ∧
      rest.takeWhile pathIsSep = [] ∧ pathSegments path = pathSegments rest := by
  have seps : path.takeWhile pathIsSep = List.replicate (leadCount path) slash := by
    rw [leadCount, List.eq_replicate_iff]
    refine ⟨rfl, fun c member => ?_⟩
    exact (pathIsSep_iff c).mp (List.mem_takeWhile_imp member)
  have split : path = List.replicate (leadCount path) slash ++ path.dropWhile pathIsSep := by
    rw [← seps, List.takeWhile_append_dropWhile]
  refine ⟨path.dropWhile pathIsSep, split, ?_, ?_⟩
  · cases found : path.dropWhile pathIsSep with
    | nil => rfl
    | cons c rest =>
        have notSep :=
          List.head_dropWhile_not pathIsSep (by simp [found] : path.dropWhile pathIsSep ≠ [])
        simp only [found, List.head_cons] at notSep
        simp [notSep]
  · conv_lhs => rw [split]
    apply segments_seps_append
    intro c member
    rw [List.eq_of_mem_replicate member]
    decide

theorem leadCount_replicate_append (count : Nat) (rest : List UInt8) :
    leadCount (List.replicate count slash ++ rest) = count + leadCount rest := by
  have all : ∀ c ∈ List.replicate count slash, pathIsSep c = true := by
    intro c member
    rw [List.eq_of_mem_replicate member]
    decide
  rw [leadCount, List.takeWhile_append_of_pos all, List.length_append, List.length_replicate,
    leadCount]

theorem leadCount_replicate {rest : List UInt8} (noLead : rest.takeWhile pathIsSep = [])
    (count : Nat) : leadCount (List.replicate count slash ++ rest) = count := by
  rw [leadCount_replicate_append, leadCount, noLead, List.length_nil, Nat.add_zero]

/-- The anchor of a path: two separators count as a root of their own. -/
theorem pathDetectAnchor_replicate {rest : List UInt8} (noLead : rest.takeWhile pathIsSep = [])
    {extraSep : UInt8} (same : ∀ c, pathSepMatch c extraSep = pathIsSep c) (count : Nat) :
    pathDetectAnchor (List.replicate count slash ++ rest) extraSep =
      if count = 0 then (.none, 0) else if count = 2 then (.root, 2) else (.root, 1) := by
  have slashSep : pathIsSep slash = true := by decide
  have restHead : rest = [] ∨ ∃ c text, rest = c :: text ∧ pathIsSep c = false := by
    cases rest with
    | nil => exact .inl rfl
    | cons c text =>
        refine .inr ⟨c, text, rfl, ?_⟩
        by_contra isSep
        simp [isSep] at noLead
  match count with
  | 0 =>
      rcases restHead with rfl | ⟨c, text, rfl, notSep⟩
      · rfl
      · simp [pathDetectAnchor, same, notSep]
  | 1 =>
      rcases restHead with rfl | ⟨c, text, rfl, notSep⟩
      · simp [pathDetectAnchor, same, slashSep]
      · simp [pathDetectAnchor, same, slashSep, notSep]
  | 2 =>
      rcases restHead with rfl | ⟨c, text, rfl, notSep⟩
      · simp [pathDetectAnchor, same, slashSep, List.replicate]
      · simp [pathDetectAnchor, same, slashSep, notSep, List.replicate]
  | count + 3 => simp [pathDetectAnchor, same, slashSep, List.replicate_succ]

theorem buildDirLoop_word {rest : List UInt8} (noLead : rest.takeWhile pathIsSep = [])
    (before : List UInt8) :
    buildDirLoop slash false before false rest =
      (before ++ joined (pathSegments rest), decide (pathSegments rest ≠ [])) := by
  cases rest with
  | nil => simp [buildDirLoop, pathSegments, joined]
  | cons c text =>
      have notSep : ¬ pathIsSep c = true := by
        intro isSep
        simp [isSep] at noLead
      have inside := (buildDirLoop_pending slash text).2 before [c] (List.cons_ne_nil _ _)
      have split : segmentsFrom pathIsSep [] (c :: text) = segmentsFrom pathIsSep [c] text := by
        rw [segmentsFrom, if_neg notSep]
        rfl
      have found := segmentsFrom_ne_nil pathIsSep text [c] (List.cons_ne_nil _ _)
      rw [buildDirLoop, if_neg notSep, pathSegments, segments, split]
      simpa [found, joined] using inside

/-- A root anchor is followed by what the loop writes; nothing is added when
that ends with a separator already. -/
theorem pathBuildDir_root (count : Nat) (rest : List UInt8) {tmp : List UInt8} {content : Bool}
    (anchor : pathDetectAnchor (List.replicate count slash ++ rest) 0 = (.root, count))
    (loop : buildDirLoop slash false (List.replicate count slash) false rest = (tmp, content))
    (ends : content = false → tmp.getLast? = some slash) :
    pathBuildDir (List.replicate count slash ++ rest) slash = tmp := by
  have kept : (List.replicate count slash).map (fun c => if pathIsSep c then slash else c) =
      List.replicate count slash := by
    simp
  have front : (List.replicate count slash ++ rest).take count = List.replicate count slash := by
    simp
  have behind : (List.replicate count slash ++ rest).drop count = rest := by simp
  simp only [pathBuildDir, anchor, front, behind, kept, loop]
  apply if_neg
  rintro ⟨-, empty, -, notSlash⟩
  exact notSlash (ends empty)

/-- Behind its anchor the directory is its joined components. -/
theorem pathBuildDir_eq (region : List UInt8) :
    pathBuildDir region slash =
      leadSeps (leadCount region) (decide (pathSegments region ≠ [])) ++
        joined (pathSegments region) := by
  obtain ⟨rest, split, noLead, segs_eq⟩ := exists_lead region
  have anchor := pathDetectAnchor_replicate noLead pathSepMatch_zero (leadCount region)
  have word (count : Nat) (positive : 0 < count)
      (anchor : pathDetectAnchor (List.replicate count slash ++ rest) 0 = (.root, count)) :
      pathBuildDir (List.replicate count slash ++ rest) slash =
        List.replicate count slash ++ joined (pathSegments rest) := by
    apply pathBuildDir_root count rest anchor (buildDirLoop_word noLead _)
    intro empty
    have none : pathSegments rest = [] := by simpa using empty
    rw [none]
    simp [joined, List.getLast?_replicate, Nat.ne_of_gt positive]
  rw [← split] at anchor
  rw [segs_eq]
  generalize leadCount region = count at split anchor
  subst split
  match count with
  | 0 =>
      rw [if_pos rfl, List.replicate_zero, List.nil_append] at anchor
      simp [pathBuildDir, anchor, leadSeps, buildDirLoop_start, joined]
  | 1 => exact word 1 (by omega) anchor
  | 2 => exact word 2 (by omega) anchor
  | count + 3 =>
      -- one separator is the anchor, the others are pending
      have seps : ∀ c ∈ List.replicate (count + 1) slash, pathIsSep c = true := by
        intro c member
        rw [List.eq_of_mem_replicate member]
        decide
      have others : pathSegments (List.replicate (count + 1) slash ++ rest) = pathSegments rest :=
        segments_seps_append seps rest
      have loop := (buildDirLoop_pending slash (List.replicate (count + 1) slash ++ rest)).1 [slash]
        false (List.cons_ne_nil _ _)
      have anchored := pathBuildDir_root 1 (slash :: (List.replicate (count + 1) slash ++ rest))
        anchor loop
      rw [others] at anchored
      rw [List.replicate_succ, List.replicate_succ, List.cons_append, List.cons_append]
      by_cases none : pathSegments rest = []
      · simpa [none, leadSeps, joined] using anchored
      · obtain ⟨first, behind, segs⟩ := List.exists_cons_of_ne_nil none
        rw [segs] at anchored ⊢
        simpa [leadSeps, joined, intercalate_cons] using anchored

/-! ## Parsing and composing -/

/-- A path is its directory region, which ends with a separator, and a name. -/
theorem exists_name_split (path : List UInt8) :
    ∃ region name, path = region ++ name ∧ Clean pathIsSep name ∧
      (region = [] ∨ ∃ front, region = front ++ [slash]) := by
  induction path with
  | nil => exact ⟨[], [], rfl, by simp [Clean], .inl rfl⟩
  | cons c rest inductionHypothesis =>
      obtain ⟨region, name, rfl, clean, shape⟩ := inductionHypothesis
      rcases shape with rfl | ⟨front, rfl⟩
      · by_cases isSep : pathIsSep c = true
        · obtain rfl := (pathIsSep_iff c).mp isSep
          exact ⟨[slash], name, rfl, clean, .inr ⟨[], rfl⟩⟩
        · have notSep : pathIsSep c = false := by simpa using isSep
          refine ⟨[], c :: name, rfl, ?_, .inl rfl⟩
          intro item member
          rcases List.mem_cons.mp member with rfl | later
          · exact notSep
          · exact clean item later
      · exact ⟨c :: (front ++ [slash]), name, rfl, clean, .inr ⟨c :: front, rfl⟩⟩

theorem lastSep_clean (region : List UInt8) {name : List UInt8} (clean : Clean pathIsSep name) :
    ∀ count ≤ name.length, lastSep (region ++ name) (region.length + count) =
      lastSep (region ++ name) region.length := by
  intro count
  induction count with
  | zero => exact fun _ => rfl
  | succ count inductionHypothesis =>
      intro inside
      have item : (region ++ name)[region.length + count]? = some name[count] := by
        rw [List.getElem?_append_right (by omega), Nat.add_sub_cancel_left,
          List.getElem?_eq_getElem (by omega)]
      have notSep : pathIsSep name[count] = false := clean _ (List.getElem_mem _)
      rw [← Nat.add_assoc, lastSep, item, Option.any_some, notSep, if_neg Bool.false_ne_true]
      exact inductionHypothesis (by omega)

/-- The raw directory of `path_parse` is the region up to the last separator. -/
theorem rawDirLen_split {region name : List UInt8} (clean : Clean pathIsSep name)
    (shape : region = [] ∨ ∃ front, region = front ++ [slash]) :
    rawDirLen (region ++ name) = region.length := by
  rw [rawDirLen, List.length_append, lastSep_clean region clean name.length (Nat.le_refl _)]
  rcases shape with rfl | ⟨front, rfl⟩
  · rfl
  · have item : (front ++ [slash] ++ name)[front.length]? = some slash := by simp
    have isSep : pathIsSep slash = true := by decide
    rw [List.length_append, List.length_singleton, lastSep, item, Option.any_some, isSep,
      if_pos rfl]

theorem parseFilename_append (name : List UInt8) :
    (pathParseFilename name).1 ++ (pathParseFilename name).2 = name := by
  rw [pathParseFilename]
  split
  · exact List.append_nil name
  · exact List.take_append_drop _ name

/-- A parsed path: the directory region, the name in two parts. -/
theorem pathParse_split {region name : List UInt8} (conf style : UcbPathStyle)
    (clean : Clean pathIsSep name) (shape : region = [] ∨ ∃ front, region = front ++ [slash])
    (nonempty : region ++ name ≠ []) :
    pathParse conf (region ++ name) style =
      ⟨pathBuildDir region (pathSepOf conf style), (pathParseFilename name).1,
        (pathParseFilename name).2, pathResolveStyle conf style⟩ := by
  simp only [pathParse, nonempty, if_false]
  rw [rawDirLen_split clean shape, List.take_left, List.drop_left]

/-- The separators in front of a composed path. -/
def pathLead (path : List UInt8) : List UInt8 :=
  leadSeps (leadCount path)
    (decide (pathSegments (path.take (rawDirLen path)) ≠ []))

theorem pathSepOf_resolve (conf style : UcbPathStyle) :
    pathSepOf conf (pathResolveStyle conf style) = pathSepOf conf style := by
  cases conf <;> cases style <;> rfl

theorem leadCount_append {region name : List UInt8} (clean : Clean pathIsSep name) :
    leadCount (region ++ name) = leadCount region := by
  have none : name.takeWhile pathIsSep = [] := by
    cases name with
    | nil => rfl
    | cons c rest => simp [clean c List.mem_cons_self]
  rw [leadCount, leadCount, List.takeWhile_append, none]
  split
  · rename_i all
    rw [List.append_nil, ← all]
  · rfl

theorem pathSegments_split {region name : List UInt8} (clean : Clean pathIsSep name)
    (shape : region = [] ∨ ∃ front, region = front ++ [slash]) :
    pathSegments (region ++ name) = pathSegments region ++ completed name := by
  have word : pathSegments name = completed name := by
    cases name with
    | nil => rfl
    | cons c rest => exact segments_word ⟨List.cons_ne_nil _ _, clean⟩
  rcases shape with rfl | ⟨front, rfl⟩
  · exact word
  · have slashSep : pathIsSep slash = true := by decide
    have whole := segments_append_sep slashSep front name
    have ends := segments_append_sep slashSep front []
    rw [segments_nil, List.append_nil] at ends
    rw [← word, pathSegments, pathSegments, pathSegments, ends, ← whole, List.append_assoc]
    rfl

/-- A region without a component consists of separators. -/
theorem leadCount_pos {front : List UInt8} (none : pathSegments (front ++ [slash]) = []) :
    0 < leadCount (front ++ [slash]) := by
  have all := segments_eq_nil_iff.mp none
  rw [leadCount, List.takeWhile_eq_self_iff.mpr all]
  simp

theorem leadSeps_getLast {count : Nat} (positive : 0 < count) (content : Bool) :
    (leadSeps count content).getLast? = some slash := by
  match count with
  | 1 => rfl
  | 2 => rfl
  | count + 3 => cases content <;> rfl

/-- The separators in front and the components, joined: that is what composing
a parsed path gives. -/
theorem compose_parse {conf style : UcbPathStyle} (posix : pathSepOf conf style = slash)
    {path : List UInt8} (nonempty : path ≠ []) :
    pathComposeTo conf (pathParse conf path style) =
      pathLead path ++ joined (pathSegments path) := by
  obtain ⟨region, name, rfl, clean, shape⟩ := exists_name_split path
  have whole := parseFilename_append name
  have lead : pathLead (region ++ name) =
      leadSeps (leadCount region) (decide (pathSegments region ≠ [])) := by
    rw [pathLead, leadCount_append clean, rawDirLen_split clean shape, List.take_left]
  rw [pathParse_split conf style clean shape nonempty, posix, pathBuildDir_eq, lead,
    pathSegments_split clean shape, pathComposeTo]
  generalize pathParseFilename name = parts at whole
  obtain ⟨stem, ext⟩ := parts
  simp only at whole
  simp only [pathJunction, pathSepOf_resolve, posix]
  subst whole
  by_cases named : stem ++ ext = []
  · obtain ⟨rfl, rfl⟩ := List.append_eq_nil_iff.mp named
    simp [completed]
  · have hasName : stem ≠ [] ∨ ext ≠ [] := by
      by_contra neither
      simp_all
    rw [completed_of_ne_nil named]
    rcases shape with rfl | ⟨front, rfl⟩
    · simp [leadCount, leadSeps, pathSegments, joined]
    · by_cases none : pathSegments (front ++ [slash]) = []
      · have last := leadSeps_getLast (leadCount_pos none) false
        simp [none, joined, last]
      · have proper := proper_pathSegments (front ++ [slash])
        obtain ⟨notEmpty, notSlash⟩ := joined_getLast proper none
        rw [joined_concat _ none]
        simp only [ne_eq, none, not_false_eq_true, decide_true, List.append_eq_nil_iff, notEmpty,
          and_false, hasName, true_and, List.getLast?_append_of_ne_nil _ notEmpty, notSlash,
          if_true]
        simp

/-! ## Lexical normalization -/

theorem normLoop_foldl (ak : PathAnchorKind) (sep : UInt8) (state : NormState)
    (rest : List UInt8) :
    normLoop ak sep state rest =
      (segments (pathSepMatch · sep) rest).foldl (normSegment ak sep) state := by
  induction state, rest using normLoop.induct ak sep with
  | case1 state rest skipped =>
      have none : segments (pathSepMatch · sep) rest = [] := by
        rw [← segments_dropWhile, skipped, segments_nil]
      rw [normLoop, none, List.foldl_nil]
      split
      · rfl
      · rename_i c text found
        rw [skipped] at found
        cases found
  | case2 state rest c text skipped seg inductionHypothesis =>
      rw [segments_scan skipped, List.foldl_cons, ← inductionHypothesis, normLoop]
      split
      · rename_i found
        rw [skipped] at found
        cases found
      · rename_i c' text' found
        rw [skipped] at found
        obtain ⟨rfl, rfl⟩ := List.cons.inj found
        rfl

def dotdot : List UInt8 :=
  [dot, dot]

/-- The lexical normal form of the components. -/
def resolved (rooted : Bool) (segs : List (List UInt8)) : List (List UInt8) :=
  resolve [dot] dotdot rooted segs

/-- Where the components of a stack start in the text. -/
def startsOf (lead : List UInt8) : List (List UInt8) → List Nat
  | [] => []
  | _ :: below => (lead ++ joined below.reverse).length :: startsOf lead below

theorem startsOf_length (lead : List UInt8) (stack : List (List UInt8)) :
    (startsOf lead stack).length = stack.length := by
  induction stack with
  | nil => rfl
  | cons top below inductionHypothesis => simp [startsOf, inductionHypothesis]

/-- The variables of the loop hold a stack of components, with `base` kept `..`
at its bottom. -/
structure Normed (lead : List UInt8) (stack : List (List UInt8)) (state : NormState) : Prop where
  out : state.out = lead ++ joined stack.reverse
  starts : state.starts = startsOf lead stack
  base : ∃ names, stack = names ++ List.replicate state.base dotdot ∧ dotdot ∉ names
  root : lead ≠ [] → state.base = 0
  proper : Proper stack

theorem Normed.push {lead : List UInt8} {stack : List (List UInt8)} {state : NormState}
    (normed : Normed lead stack state) (ends : lead = [] ∨ lead.getLast? = some slash)
    (seg : List UInt8) :
    (state.push slash seg).out = lead ++ joined (seg :: stack).reverse ∧
      (state.push slash seg).starts = startsOf lead (seg :: stack) := by
  refine ⟨?_, by simp [NormState.push, startsOf, normed.starts, normed.out]⟩
  rw [List.reverse_cons]
  by_cases empty : stack = []
  · subst empty
    rcases ends with rfl | last
    · simp [NormState.push, normed.out, joined]
    · simp [NormState.push, normed.out, joined, last]
  · have proper : Proper stack.reverse :=
      fun seg member => normed.proper seg (List.mem_reverse.mp member)
    have nonempty : stack.reverse ≠ [] := by simpa using empty
    obtain ⟨notEmpty, notSlash⟩ := joined_getLast proper nonempty
    rw [joined_concat _ nonempty]
    simp [NormState.push, normed.out, notEmpty, List.getLast?_append_of_ne_nil _ notEmpty, notSlash]

/-- Taking the last component back restores the text in front of it. -/
theorem Normed.take {lead : List UInt8} {top : List UInt8} {below : List (List UInt8)}
    {state : NormState} (normed : Normed lead (top :: below) state) :
    state.out.take (state.starts.headD 0) = lead ++ joined below.reverse := by
  have starts : state.starts.headD 0 = (lead ++ joined below.reverse).length := by
    rw [normed.starts]
    rfl
  have extends_ : ∃ more, joined (top :: below).reverse = joined below.reverse ++ more := by
    rw [List.reverse_cons]
    by_cases empty : below.reverse = []
    · exact ⟨joined [top], by simp [empty, joined]⟩
    · exact ⟨_, joined_concat _ empty top⟩
  obtain ⟨more, split⟩ := extends_
  rw [starts, normed.out, split, ← List.append_assoc, List.take_left]

/-- One segment of the loop is one step of the resolution. -/
theorem normSegment_normed {lead : List UInt8} {ak : PathAnchorKind}
    (anchored : ak = if lead = [] then .none else .root)
    (ends : lead = [] ∨ lead.getLast? = some slash) {stack : List (List UInt8)} {state : NormState}
    (normed : Normed lead stack state) {seg : List UInt8} (isSegment : IsSegment pathIsSep seg) :
    Normed lead (resolveStep [dot] dotdot (decide (lead ≠ [])) stack seg)
      (normSegment ak slash state seg) := by
  obtain ⟨names, stack_eq, notUp⟩ := normed.base
  have depth : state.starts.length = names.length + state.base := by
    rw [normed.starts, startsOf_length, stack_eq]
    simp
  obtain ⟨pushedOut, pushedStarts⟩ := normed.push ends seg
  have pushedProper : Proper (seg :: stack) := by
    intro other member
    rcases List.mem_cons.mp member with rfl | later
    · exact isSegment
    · exact normed.proper other later
  by_cases isCur : seg = [dot]
  · simpa [resolveStep, normSegment, isCur] using normed
  · by_cases isUp : seg = dotdot
    · have isUp' : seg = [dot, dot] := isUp
      cases names with
      | nil =>
          have none : ¬ state.starts.length > state.base := by simp [depth]
          by_cases empty : lead = []
          · have kept : resolveStep [dot] dotdot (decide (lead ≠ [])) stack seg = seg :: stack := by
              rw [List.nil_append] at stack_eq
              cases stack with
              | nil => simp [resolveStep, isUp, dotdot, empty]
              | cons top below =>
                  have top_eq : top = dotdot :=
                    List.eq_of_mem_replicate (stack_eq ▸ List.mem_cons_self)
                  simp [resolveStep, isUp, dotdot, top_eq]
            rw [kept]
            rw [normSegment, if_neg isCur, if_pos isUp', if_neg none, anchored, if_pos empty,
              if_pos rfl]
            refine ⟨pushedOut, pushedStarts, ⟨[], ?_, by simp⟩, fun rooted => absurd empty rooted,
              pushedProper⟩
            show seg :: stack = [] ++ List.replicate (state.base + 1) dotdot
            rw [List.replicate_succ, isUp, stack_eq]
            rfl
          · have stackEmpty : stack = [] := by
              rw [stack_eq, normed.root empty]
              rfl
            subst stackEmpty
            have notNone : ¬ ak = .none := by simp [anchored, empty]
            rw [normSegment, if_neg isCur, if_pos isUp', if_neg none, if_neg notNone]
            simpa [resolveStep, isUp, dotdot, empty] using normed
      | cons top names =>
          obtain rfl : stack = top :: (names ++ List.replicate state.base dotdot) := stack_eq
          have some : state.starts.length > state.base := by
            rw [depth, List.length_cons]
            omega
          have topName : ¬ top = dotdot := fun same => notUp (same ▸ List.mem_cons_self)
          have popped : resolveStep [dot] dotdot (decide (lead ≠ []))
              (top :: (names ++ List.replicate state.base dotdot)) seg =
                names ++ List.replicate state.base dotdot := by
            unfold resolveStep
            rw [if_neg isCur, if_pos isUp]
            exact if_neg topName
          rw [popped, normSegment, if_neg isCur, if_pos isUp', if_pos some]
          refine ⟨normed.take, ?_,
            ⟨names, rfl, fun member => notUp (List.mem_cons_of_mem _ member)⟩,
            normed.root, fun other member => normed.proper other (List.mem_cons_of_mem _ member)⟩
          rw [normed.starts]
          rfl
    · have isUp' : ¬ seg = [dot, dot] := isUp
      have kept : resolveStep [dot] dotdot (decide (lead ≠ [])) stack seg = seg :: stack := by
        unfold resolveStep
        rw [if_neg isCur, if_neg isUp]
      rw [kept, normSegment, if_neg isCur, if_neg isUp']
      refine ⟨pushedOut, pushedStarts, ⟨seg :: names, by rw [stack_eq]; rfl, ?_⟩, normed.root,
        pushedProper⟩
      intro member
      rcases List.mem_cons.mp member with same | later
      · exact isUp same.symm
      · exact notUp later

theorem normSegments_normed {lead : List UInt8} {ak : PathAnchorKind}
    (anchored : ak = if lead = [] then .none else .root)
    (ends : lead = [] ∨ lead.getLast? = some slash) (segs : List (List UInt8)) :
    ∀ stack state, Proper segs → Normed lead stack state →
      Normed lead (segs.foldl (resolveStep [dot] dotdot (decide (lead ≠ []))) stack)
        (segs.foldl (normSegment ak slash) state) := by
  induction segs with
  | nil => exact fun _ _ _ normed => normed
  | cons seg segs inductionHypothesis =>
      intro stack state proper normed
      have isSegment := proper seg List.mem_cons_self
      apply inductionHypothesis
      · exact fun other member => proper other (List.mem_cons_of_mem _ member)
      · exact normSegment_normed anchored ends normed isSegment

/-- The components `ucb_path_normalize` leaves: the resolved ones, or `.` for none
of a relative path. -/
def normalizedSegments (rooted : Bool) (segs : List (List UInt8)) : List (List UInt8) :=
  if rooted = false ∧ resolved rooted segs = [] then [[dot]] else resolved rooted segs

/-- What `path_normalize_lexical` makes of a composed path: the separators in
front are kept, the components normalized. -/
theorem normalizeLexical_eq {count : Nat} (atMostTwo : count ≤ 2) {segs : List (List UInt8)}
    (proper : Proper segs) (nonempty : List.replicate count slash ++ joined segs ≠ []) :
    pathNormalizeLexical (List.replicate count slash ++ joined segs) slash =
      List.replicate count slash ++ joined (normalizedSegments (decide (count ≠ 0)) segs) := by
  have anchor : pathDetectAnchor (List.replicate count slash ++ joined segs) slash =
      (if count = 0 then .none else .root, count) := by
    rw [pathDetectAnchor_replicate (joined_head proper) pathSepMatch_slash]
    match count with
    | 0 => rfl
    | 1 => rfl
    | 2 => rfl
  have front : (List.replicate count slash ++ joined segs).take count =
      List.replicate count slash := by
    simp
  have behind : (List.replicate count slash ++ joined segs).drop count = joined segs := by simp
  have kept :
      (List.replicate count slash).map (fun c => if pathSepMatch c slash then slash else c) =
      List.replicate count slash := by
    simp
  have sameSep : (fun c => pathSepMatch c slash) = pathIsSep := funext pathSepMatch_slash
  have split : segments (fun c => pathSepMatch c slash) (joined segs) = segs := by
    rw [sameSep]
    exact pathSegments_joined proper
  have rooted : decide (List.replicate count slash ≠ []) = decide (count ≠ 0) := by simp
  have start : Normed (List.replicate count slash) [] ⟨List.replicate count slash, [], 0⟩ :=
    ⟨by simp [joined], rfl, ⟨[], rfl, by simp⟩, fun _ => rfl, by simp [Proper]⟩
  have anchored : (if count = 0 then PathAnchorKind.none else .root) =
      if List.replicate count slash = [] then .none else .root := by
    simp
  have ends : List.replicate count slash = [] ∨
      (List.replicate count slash).getLast? = some slash := by
    rcases Nat.eq_zero_or_pos count with rfl | positive
    · exact .inl rfl
    · simp [List.getLast?_replicate, Nat.ne_of_gt positive]
  have final := normSegments_normed anchored ends segs [] _ proper start
  rw [rooted] at final
  have notDrive : ¬ (if count = 0 then PathAnchorKind.none else .root) = .drive := by
    split
    · exact PathAnchorKind.noConfusion
    · exact PathAnchorKind.noConfusion
  have out : (segs.foldl (normSegment (if count = 0 then .none else .root) slash)
      ⟨List.replicate count slash, [], 0⟩).out =
        List.replicate count slash ++ joined (resolved (decide (count ≠ 0)) segs) :=
    final.out
  have properResolved : Proper (resolved (decide (count ≠ 0)) segs) :=
    fun seg member => final.proper seg (List.mem_reverse.mp member)
  simp only [pathNormalizeLexical, anchor, front, behind, kept, normLoop_foldl, split, notDrive,
    false_and, if_false, out]
  by_cases relative : count = 0
  · subst relative
    simp only [List.replicate_zero, List.nil_append, ne_eq, not_true_eq_false,
      decide_false] at nonempty properResolved ⊢
    by_cases none : resolved false segs = []
    · have empty : joined [] = [] := rfl
      have single : joined [[dot]] = [dot] := rfl
      simp [normalizedSegments, none, empty, single, nonempty]
    · simp [normalizedSegments, none, (joined_getLast properResolved none).1]
  · simp [normalizedSegments, relative]

theorem leadSeps_replicate (count : Nat) (content : Bool) :
    ∃ kept ≤ 2, leadSeps count content = List.replicate kept slash ∧ (kept = 0 ↔ count = 0) := by
  match count with
  | 0 => exact ⟨0, by omega, rfl, by simp⟩
  | 1 => exact ⟨1, by omega, rfl, by simp⟩
  | 2 => exact ⟨2, by omega, rfl, by simp⟩
  | count + 3 =>
      cases content with
      | true => exact ⟨2, by omega, rfl, by simp⟩
      | false => exact ⟨1, by omega, rfl, by simp⟩

/-- Parsing a text in composed form and composing it again changes nothing. -/
theorem compose_parse_replicate {conf style : UcbPathStyle} (posix : pathSepOf conf style = slash)
    {count : Nat} (atMostTwo : count ≤ 2) {segs : List (List UInt8)} (proper : Proper segs)
    (nonempty : List.replicate count slash ++ joined segs ≠ []) :
    pathComposeTo conf (pathParse conf (List.replicate count slash ++ joined segs) style) =
      List.replicate count slash ++ joined segs := by
  have seps : ∀ c ∈ List.replicate count slash, pathIsSep c = true := by
    intro c member
    rw [List.eq_of_mem_replicate member]
    decide
  have segs_eq : pathSegments (List.replicate count slash ++ joined segs) = segs := by
    rw [pathSegments, segments_seps_append seps]
    exact pathSegments_joined proper
  have lead (content : Bool) : leadSeps count content = List.replicate count slash := by
    match count with
    | 0 => rfl
    | 1 => rfl
    | 2 => rfl
  rw [compose_parse posix nonempty, pathLead, leadCount_replicate (joined_head proper), segs_eq,
    lead]

theorem proper_resolved {rooted : Bool} {segs : List (List UInt8)} (proper : Proper segs) :
    Proper (resolved rooted segs) :=
  fun seg member => proper seg (mem_resolve member).1

theorem proper_normalizedSegments {rooted : Bool} {segs : List (List UInt8)}
    (proper : Proper segs) : Proper (normalizedSegments rooted segs) := by
  unfold normalizedSegments
  split
  · intro seg member
    obtain rfl := List.mem_singleton.mp member
    exact ⟨List.cons_ne_nil _ _, by simp [Clean, pathIsSep, dot, slash]⟩
  · exact proper_resolved proper

/-- An absolute path starts with a separator. -/
def isRooted (path : List UInt8) : Bool :=
  decide (leadCount path ≠ 0)

theorem composed_ne_nil {path : List UInt8} (nonempty : path ≠ []) :
    pathLead path ++ joined (pathSegments path) ≠ [] := by
  intro empty
  obtain ⟨noLead, noSegs⟩ := List.append_eq_nil_iff.mp empty
  have none : pathSegments path = [] := by
    by_contra some
    exact (joined_getLast (proper_pathSegments path) some).1 noSegs
  have positive : 0 < leadCount path := by
    rw [leadCount, List.takeWhile_eq_self_iff.mpr (segments_eq_nil_iff.mp none)]
    exact List.length_pos_of_ne_nil nonempty
  have last := leadSeps_getLast positive (decide (pathSegments (path.take (rawDirLen path)) ≠ []))
  rw [← pathLead, noLead] at last
  cases last

/-- The separators in front of a composed path: none, one or two. -/
theorem pathLead_replicate (path : List UInt8) :
    ∃ count ≤ 2, pathLead path = List.replicate count slash ∧
      decide (count ≠ 0) = isRooted path := by
  obtain ⟨count, atMostTwo, lead, rooted⟩ := leadSeps_replicate (leadCount path)
    (decide (pathSegments (path.take (rawDirLen path)) ≠ []))
  exact ⟨count, atMostTwo, lead, by simp [isRooted, rooted]⟩

theorem pathParse_style (conf : UcbPathStyle) (path : List UInt8) (style : UcbPathStyle) :
    (pathParse conf path style).style = pathResolveStyle conf style := by
  unfold pathParse
  split <;> rfl

/-- A relative path has a component in normal form. -/
theorem normalized_ne_nil (count : Nat) {segs : List (List UInt8)} (proper : Proper segs) :
    List.replicate count slash ++ joined (normalizedSegments (decide (count ≠ 0)) segs) ≠ [] := by
  intro empty
  obtain ⟨noLead, noSegs⟩ := List.append_eq_nil_iff.mp empty
  obtain rfl : count = 0 := by simpa using noLead
  have none : normalizedSegments (decide (0 ≠ 0)) segs = [] := by
    by_contra some
    exact (joined_getLast (proper_normalizedSegments proper) some).1 noSegs
  unfold normalizedSegments at none
  split at none
  · cases none
  next kept => exact kept ⟨rfl, none⟩

theorem compose_normalize {conf style : UcbPathStyle} (posix : pathSepOf conf style = slash)
    {path : List UInt8} (nonempty : path ≠ []) :
    pathComposeTo conf (ucbPathNormalize conf (pathParse conf path style)) =
      pathLead path ++ joined (normalizedSegments (isRooted path) (pathSegments path)) := by
  obtain ⟨count, atMostTwo, lead, rooted⟩ := pathLead_replicate path
  have style_eq := pathParse_style conf path style
  have resolvedPosix : pathSepOf conf (pathResolveStyle conf style) = slash := by
    rw [pathSepOf_resolve, posix]
  have proper := proper_pathSegments path
  have notEmpty := composed_ne_nil nonempty
  rw [ucbPathNormalize, compose_parse posix nonempty, style_eq, resolvedPosix]
  rw [lead] at notEmpty ⊢
  rw [normalizeLexical_eq atMostTwo proper notEmpty, rooted]
  apply compose_parse_replicate resolvedPosix atMostTwo (proper_normalizedSegments proper)
  rw [← rooted]
  exact normalized_ne_nil count proper

end Ucb.Path
