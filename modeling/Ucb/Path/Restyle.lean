import Ucb.Path.Coherent

/-!
Contract: parsing, composing and normalizing in a style that writes `\`.

Owns:
- which bytes a directory and a normal form can hold;
- composing a parsed text in any style;
- that a style which writes `\` leaves no `/`;
- texts without `\`: composing and normalizing them in that style is rewriting
  what the style with `/` gives.
-/

namespace Ucb.Path

open Ucb.Lib

/-! ## Bytes that are written -/

theorem notMem_ite {condition : Prop} [Decidable condition] {byte : UInt8}
    {first second : List UInt8} (notFirst : byte ∉ first) (notSecond : byte ∉ second) :
    byte ∉ if condition then first else second := by
  split
  next => exact notFirst
  next => exact notSecond

theorem notMem_map_sep {byte sep : UInt8} (isSep : UInt8 → Bool) (notSep : byte ≠ sep)
    {text : List UInt8} (notText : byte ∉ text) :
    byte ∉ text.map fun c => if isSep c then sep else c := by
  intro member
  obtain ⟨c, inside, written⟩ := List.mem_map.mp member
  split at written
  next => exact notSep written.symm
  next => exact notText (written ▸ inside)

/-- A directory in any style holds nothing but separators and text of its region. -/
theorem notMem_pathBuildDir {byte sep : UInt8} {region : List UInt8} (notSep : byte ≠ sep)
    (notRegion : byte ∉ region) : byte ∉ pathBuildDir region sep := by
  rw [pathBuildDir_map]
  intro member
  obtain ⟨c, inside, written⟩ := List.mem_map.mp member
  rw [writeSep] at written
  split at written
  next => exact notSep written.symm
  next other =>
    rcases mem_pathBuildDir inside with same | early
    · exact other ((pathIsSep_iff c).mpr same)
    · exact notRegion (written ▸ early)

theorem mem_push {state : NormState} {sep c : UInt8} {seg : List UInt8}
    (member : c ∈ (state.push sep seg).out) : c ∈ state.out ∨ c ∈ seg ∨ c = sep := by
  simp only [NormState.push, List.mem_append] at member
  rcases member with (early | junction) | late
  · exact .inl early
  · split at junction
    · exact .inr (.inr (List.mem_singleton.mp junction))
    · cases junction
  · exact .inr (.inl late)

theorem mem_normSegment {ak : PathAnchorKind} {sep c : UInt8} {state : NormState}
    {seg : List UInt8} (member : c ∈ (normSegment ak sep state seg).out) :
    c ∈ state.out ∨ c ∈ seg ∨ c = sep := by
  rw [normSegment] at member
  split at member
  · exact .inl member
  · split at member
    · split at member
      · exact .inl (List.mem_of_mem_take member)
      · split at member
        · exact mem_push member
        · exact .inl member
    · exact mem_push member

/-- Normalization writes nothing but separators and the text of the segments. -/
theorem mem_normLoop {ak : PathAnchorKind} {sep c : UInt8} {state : NormState}
    {rest : List UInt8} (member : c ∈ (normLoop ak sep state rest).out) :
    c ∈ state.out ∨ c ∈ rest ∨ c = sep := by
  induction state, rest using normLoop.induct ak sep with
  | case1 state rest skipped =>
      rw [normLoop] at member
      split at member
      · exact .inl member
      · rename_i found
        rw [skipped] at found
        cases found
  | case2 state rest first text skipped seg inductionHypothesis =>
      have inside : ∀ byte ∈ first :: text, byte ∈ rest := by
        rw [← skipped]
        exact fun byte member => (List.dropWhile_sublist _).subset member
      rw [normLoop] at member
      split at member
      · rename_i found
        rw [skipped] at found
        cases found
      · rename_i first' text' found
        obtain ⟨rfl, rfl⟩ := List.cons.inj (skipped.symm.trans found)
        rcases inductionHypothesis member with written | later | same
        · rcases mem_normSegment written with early | scanned | same
          · exact .inl early
          · refine .inr (.inl (inside c ?_))
            rcases List.mem_cons.mp scanned with rfl | taken
            · exact List.mem_cons_self
            · exact List.mem_cons_of_mem _ ((List.takeWhile_sublist _).subset taken)
          · exact .inr (.inr same)
        · exact .inr (.inl (inside c (List.mem_cons_of_mem _
            ((List.dropWhile_sublist _).subset later))))
        · exact .inr (.inr same)

theorem notMem_normalizeLexical {byte sep : UInt8} {text : List UInt8} (notSep : byte ≠ sep)
    (notDot : byte ≠ dot) (notText : byte ∉ text) : byte ∉ pathNormalizeLexical text sep := by
  have written : ∀ ak anchorLen, byte ∉ (normLoop ak sep
      ⟨(text.take anchorLen).map fun c => if pathSepMatch c sep then sep else c, [], 0⟩
      (text.drop anchorLen)).out := by
    intro ak anchorLen member
    have front : byte ∉ text.take anchorLen := fun early => notText (List.mem_of_mem_take early)
    rcases mem_normLoop member with anchor | later | same
    · exact notMem_map_sep (pathSepMatch · sep) notSep front anchor
    · exact notText (List.mem_of_mem_drop later)
    · exact notSep same
  have completed : ∀ ak anchorLen, byte ∉ (normLoop ak sep
      ⟨(text.take anchorLen).map fun c => if pathSepMatch c sep then sep else c, [], 0⟩
      (text.drop anchorLen)).out ++ [sep] := by
    intro ak anchorLen
    simp only [List.mem_append, List.mem_singleton, not_or]
    exact ⟨written ak anchorLen, notSep⟩
  rw [pathNormalizeLexical]
  exact notMem_ite (by simpa using notDot) (notMem_ite (completed _ _) (written _ _))

/-! ## Composing in any style -/

/-- A parsed text composes to its directory and its name, with a separator between them
unless the directory ends with one. -/
theorem compose_parse_split {region name : List UInt8} (conf style : UcbPathStyle)
    (clean : Clean pathIsSep name) (shape : region = [] ∨ ∃ front, region = front ++ [slash])
    (nonempty : region ++ name ≠ []) :
    pathComposeTo conf (pathParse conf (region ++ name) style) =
      pathBuildDir region (pathSepOf conf style) ++
        (if pathBuildDir region (pathSepOf conf style) ≠ [] ∧ name ≠ [] ∧
            (pathBuildDir region (pathSepOf conf style)).getLast? ≠ some (pathSepOf conf style)
          then [pathSepOf conf style] else []) ++ name := by
  have whole := parseFilename_append name
  rw [pathParse_split conf style clean shape nonempty, pathComposeTo]
  generalize pathParseFilename name = parts at whole
  obtain ⟨stem, ext⟩ := parts
  simp only at whole
  subst whole
  have hasName : (stem ≠ [] ∨ ext ≠ []) ↔ stem ++ ext ≠ [] := by
    rw [ne_eq, ne_eq, ne_eq, List.append_eq_nil_iff, not_and_or]
  simp only [pathJunction, pathSepOf_resolve, hasName, List.append_assoc]

/-- A text without `/` is a name, and composes to itself. -/
theorem compose_parse_name (conf style : UcbPathStyle) {text : List UInt8}
    (noSlash : slash ∉ text) :
    pathComposeTo conf (pathParse conf text style) = text := by
  by_cases nonempty : text = []
  · subst nonempty
    rfl
  · have clean : Clean pathIsSep text := by
      intro c member
      rw [pathIsSep, beq_eq_false_iff_ne]
      rintro rfl
      exact noSlash member
    have split := compose_parse_split conf style clean (.inl rfl) nonempty
    simpa [pathBuildDir, pathDetectAnchor, buildDirLoop] using split

/-! ## Styles that write backslashes -/

section Backslash

variable {conf style : UcbPathStyle} (writes : pathSepOf conf style = backslash)
include writes

theorem noSlash_compose (path : List UInt8) :
    slash ∉ pathComposeTo conf (pathParse conf path style) := by
  by_cases nonempty : path = []
  · subst nonempty
    exact List.not_mem_nil
  · obtain ⟨region, name, rfl, clean, shape⟩ := exists_name_split path
    have inDir : slash ∉ pathBuildDir region backslash := by
      rw [pathBuildDir_map]
      intro member
      obtain ⟨c, -, written⟩ := List.mem_map.mp member
      rw [writeSep] at written
      split at written
      next => exact absurd written (by decide)
      next notSep => exact notSep (by rw [written]; decide)
    have inName : slash ∉ name := fun member => absurd (clean slash member) (by decide)
    have inJunction : slash ∉ (if pathBuildDir region backslash ≠ [] ∧ name ≠ [] ∧
        (pathBuildDir region backslash).getLast? ≠ some backslash then [backslash] else []) := by
      split
      next => decide
      next => exact List.not_mem_nil
    rw [compose_parse_split conf style clean shape nonempty, writes, List.mem_append,
      List.mem_append, not_or, not_or]
    exact ⟨⟨inDir, inJunction⟩, inName⟩

/-- Normalizing writes no `/` either, so the normal form is parsed as a name. -/
theorem compose_normalize_backslash (path : List UInt8) :
    slash ∉ pathNormalizeLexical (pathComposeTo conf (pathParse conf path style)) backslash ∧
    pathComposeTo conf (ucbPathNormalize conf (pathParse conf path style)) =
      pathNormalizeLexical (pathComposeTo conf (pathParse conf path style)) backslash := by
  have noSlash : slash ∉
      pathNormalizeLexical (pathComposeTo conf (pathParse conf path style)) backslash :=
    notMem_normalizeLexical (by decide) (by decide) (noSlash_compose writes path)
  have resolved : pathSepOf conf (pathParse conf path style).style = backslash := by
    rw [pathParse_style, pathSepOf_resolve, writes]
  refine ⟨noSlash, ?_⟩
  rw [ucbPathNormalize, resolved]
  exact compose_parse_name conf _ noSlash

end Backslash

/-! ## Texts without backslashes -/

def backslashed (text : List UInt8) : List UInt8 :=
  text.map (writeSep backslash)

theorem backslashed_eq_restyled (text : List UInt8) :
    backslashed text = restyled slash backslash text :=
  writeSep_eq backslash text

theorem backslashed_name {text : List UInt8} (noSlash : slash ∉ text) :
    backslashed text = text := by
  have kept : ∀ c ∈ text, writeSep backslash c = id c := by
    intro c member
    apply if_neg
    rw [pathIsSep_iff]
    rintro rfl
    exact noSlash member
  rw [backslashed, List.map_congr_left kept, List.map_id]

theorem backslashed_getLast {text : List UInt8} (plain : backslash ∉ text) :
    (backslashed text).getLast? = some backslash ↔ text.getLast? = some slash := by
  rw [backslashed, List.getLast?_map, Option.map_eq_some_iff]
  constructor
  · rintro ⟨c, last, written⟩
    rw [writeSep] at written
    split at written
    next isSep => rw [last, (pathIsSep_iff c).mp isSep]
    next => exact absurd (List.mem_of_getLast? last) (written ▸ plain)
  · exact fun last => ⟨slash, last, rfl⟩

theorem backslashed_eq_nil {text : List UInt8} : backslashed text = [] ↔ text = [] :=
  List.map_eq_nil_iff

/-- Composing a text without `\` in a style that writes `\` only rewrites the separators. -/
theorem compose_backslashed {conf style : UcbPathStyle} (writes : pathSepOf conf style = backslash)
    {path : List UInt8} (nonempty : path ≠ []) (plain : backslash ∉ path) :
    pathComposeTo conf (pathParse conf path style) =
      backslashed (pathLead path ++ joined (pathSegments path)) := by
  rw [← compose_parse (show pathSepOf .posix .posix = slash from rfl) nonempty]
  obtain ⟨region, name, rfl, clean, shape⟩ := exists_name_split path
  rw [List.mem_append, not_or] at plain
  have inName : slash ∉ name := fun member => absurd (clean slash member) (by decide)
  have inDir : backslash ∉ pathBuildDir region slash := notMem_pathBuildDir (by decide) plain.1
  have junction : backslashed (if pathBuildDir region slash ≠ [] ∧ name ≠ [] ∧
      (pathBuildDir region slash).getLast? ≠ some slash then [slash] else []) =
      if backslashed (pathBuildDir region slash) ≠ [] ∧ name ≠ [] ∧
        (backslashed (pathBuildDir region slash)).getLast? ≠ some backslash then [backslash]
      else [] := by
    simp only [ne_eq, backslashed_getLast inDir, backslashed_eq_nil, apply_ite backslashed]
    rfl
  have dir : pathBuildDir region backslash = backslashed (pathBuildDir region slash) :=
    pathBuildDir_map region backslash
  have posix : pathSepOf .posix .posix = slash := rfl
  rw [compose_parse_split conf style clean shape nonempty,
    compose_parse_split .posix .posix clean shape nonempty, writes, posix, dir, ← junction,
    backslashed, backslashed, backslashed, List.map_append, List.map_append]
  congr 1
  exact (backslashed_name inName).symm

/-- The variables of the normalization loop, their text rewritten. -/
def NormState.backslashed (state : NormState) : NormState :=
  { state with out := Path.backslashed state.out }

theorem push_backslashed {state : NormState} (plain : backslash ∉ state.out) {seg : List UInt8}
    (noSlash : slash ∉ seg) :
    state.backslashed.push backslash seg = (state.push slash seg).backslashed := by
  have junction : (if Path.backslashed state.out ≠ [] ∧
        (Path.backslashed state.out).getLast? ≠ some backslash then [backslash] else []) =
      Path.backslashed (if state.out ≠ [] ∧ state.out.getLast? ≠ some slash then [slash]
        else []) := by
    simp only [ne_eq, backslashed_getLast plain, backslashed_eq_nil, apply_ite Path.backslashed]
    rfl
  have name : Path.backslashed seg = seg := backslashed_name noSlash
  have length : (Path.backslashed state.out).length = state.out.length := List.length_map _
  unfold NormState.push NormState.backslashed
  dsimp only
  rw [junction, length]
  have text (front : List UInt8) :
      Path.backslashed (front ++ seg) = Path.backslashed front ++ seg := by
    rw [Path.backslashed, List.map_append]
    exact congrArg _ name
  rw [text]
  simp only [Path.backslashed, List.map_append]

theorem normSegment_backslashed {ak : PathAnchorKind} {state : NormState}
    (plain : backslash ∉ state.out) {seg : List UInt8} (noSlash : slash ∉ seg) :
    normSegment ak backslash state.backslashed seg =
      (normSegment ak slash state seg).backslashed := by
  have pushed := push_backslashed plain noSlash
  have starts : state.backslashed.starts = state.starts := rfl
  have base : state.backslashed.base = state.base := rfl
  rw [normSegment, normSegment, starts, base]
  split
  next => rfl
  next =>
    split
    next =>
      split
      next =>
        show NormState.mk _ _ _ = NormState.mk _ _ _
        congr 1
        exact (List.map_take).symm
      next =>
        split
        next =>
          dsimp only
          rw [pushed]
          rfl
        next => rfl
    next => exact pushed

theorem normSegments_backslashed (ak : PathAnchorKind) (segs : List (List UInt8)) :
    ∀ state : NormState, backslash ∉ state.out → (∀ seg ∈ segs, slash ∉ seg ∧ backslash ∉ seg) →
      segs.foldl (normSegment ak backslash) state.backslashed =
        (segs.foldl (normSegment ak slash) state).backslashed := by
  induction segs with
  | nil => exact fun _ _ _ => rfl
  | cons seg segs inductionHypothesis =>
      intro state plain each
      obtain ⟨noSlash, noBackslash⟩ := each seg List.mem_cons_self
      rw [List.foldl_cons, List.foldl_cons, normSegment_backslashed plain noSlash]
      apply inductionHypothesis
      · intro member
        rcases mem_normSegment member with early | inside | same
        · exact plain early
        · exact noBackslash inside
        · exact absurd same (by decide)
      · exact fun other member => each other (List.mem_cons_of_mem _ member)

theorem anchor_backslashed {text : List UInt8} (plain : backslash ∉ text) :
    ((backslashed text).map fun c => if pathSepMatch c backslash then backslash else c) =
      backslashed (text.map fun c => if pathSepMatch c slash then slash else c) := by
  simp only [backslashed, List.map_map]
  apply List.map_congr_left
  intro c member
  have other : c ≠ backslash := fun same => plain (same ▸ member)
  by_cases isSep : c = slash
  · subst isSep
    rfl
  · simp [writeSep, pathSepMatch, pathIsSep, other, isSep]

/-- Normalizing a text without `\` in a style that writes `\` only rewrites the separators. -/
theorem normalize_backslashed {text : List UInt8} (plain : backslash ∉ text) :
    pathNormalizeLexical (backslashed text) backslash =
      backslashed (pathNormalizeLexical text slash) := by
  have restyles (part : List UInt8) (inside : ∀ c ∈ part, c ∈ text) :
      Restyles slash backslash part :=
    PlainFor.restyles (.inr ⟨rfl, fun member => plain (inside _ member)⟩)
  have anchor : pathDetectAnchor (backslashed text) backslash = pathDetectAnchor text slash := by
    rw [pathDetectAnchor_eq, pathDetectAnchor_eq, backslashed_eq_restyled,
      leadOf_restyled (by decide) (restyles text fun _ member => member)]
  have notDrive : (pathDetectAnchor text slash).1 ≠ .drive := by
    rw [pathDetectAnchor_eq]
    split
    next => exact PathAnchorKind.noConfusion
    next =>
      split
      next => exact PathAnchorKind.noConfusion
      next => exact PathAnchorKind.noConfusion
  generalize found : pathDetectAnchor text slash = detected at anchor notDrive
  obtain ⟨ak, anchorLen⟩ := detected
  have front : backslash ∉ text.take anchorLen := fun member => plain (List.mem_of_mem_take member)
  have written : ((backslashed text).take anchorLen).map (fun c =>
      if pathSepMatch c backslash then backslash else c) =
      backslashed
        ((text.take anchorLen).map fun c => if pathSepMatch c slash then slash else c) := by
    rw [← anchor_backslashed front, backslashed, backslashed, ← List.map_take]
  have behind : segments (pathSepMatch · backslash) ((backslashed text).drop anchorLen) =
      segments (pathSepMatch · slash) (text.drop anchorLen) := by
    have rest :
        (backslashed text).drop anchorLen = restyled slash backslash (text.drop anchorLen) := by
      rw [← backslashed_eq_restyled, backslashed, backslashed, List.map_drop]
    rw [rest, segments_restyled (by decide)
      (restyles _ fun _ member => List.mem_of_mem_drop member)]
  have each : ∀ seg ∈ segments (pathSepMatch · slash) (text.drop anchorLen),
      slash ∉ seg ∧ backslash ∉ seg := by
    intro seg member
    refine ⟨fun inside => ?_, fun inside => ?_⟩
    · exact absurd ((segments_isSegment member).2 slash inside) (by decide)
    · exact plain (List.mem_of_mem_drop (segments_subset member inside))
  have plainFront : backslash ∉
      (text.take anchorLen).map fun c => if pathSepMatch c slash then slash else c :=
    notMem_map_sep _ (by decide) front
  have loop := normSegments_backslashed ak _ ⟨_, [], 0⟩ plainFront each
  have empty : backslashed text = [] ↔ text = [] := backslashed_eq_nil
  simp only [pathNormalizeLexical, anchor, found, notDrive, false_and, if_false, written,
    normLoop_foldl,
    behind]
  rw [NormState.backslashed] at loop
  dsimp only at loop
  rw [loop]
  simp only [NormState.backslashed, backslashed_eq_nil, ne_eq]
  split
  next => rfl
  next => rfl

end Ucb.Path
