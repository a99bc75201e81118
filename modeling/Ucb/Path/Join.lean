import Ucb.Path.Coherent

/-!
Contract: joining paths as concatenation.

Owns:
- appending directory segments as an associative operation;
- the parts of a joined path, and joining three paths.

The paths are in styles that write `/`. An absolute operand replaces the path it
is joined to.
-/

namespace Ucb.Path

open Ucb.Lib

/-! ## Directory segments -/

@[simp] theorem pathAppendSegment_nil_left (seg : List UInt8) (sep : UInt8) :
    pathAppendSegment [] seg sep = seg := by
  unfold pathAppendSegment
  split
  next empty => exact empty.symm
  next => rfl

@[simp] theorem pathAppendSegment_nil_right (dir : List UInt8) (sep : UInt8) :
    pathAppendSegment dir [] sep = dir :=
  if_pos rfl

/-- What is appended is put behind the directory and the separator it needs. -/
theorem pathAppendSegment_eq (dir : List UInt8) {seg : List UInt8} (nonempty : seg ≠ [])
    (sep : UInt8) :
    pathAppendSegment dir seg sep =
      dir ++ (if dir ≠ [] ∧ dir.getLast? ≠ some sep then [sep] else []) ++ seg := by
  rw [pathAppendSegment, if_neg nonempty]
  split
  · rw [List.append_assoc]
    rfl
  · rw [List.append_nil]

theorem pathAppendSegment_assoc (dir seg other : List UInt8) (sep : UInt8) :
    pathAppendSegment (pathAppendSegment dir seg sep) other sep =
      pathAppendSegment dir (pathAppendSegment seg other sep) sep := by
  by_cases noSeg : seg = []
  · subst noSeg
    simp
  · by_cases noOther : other = []
    · subst noOther
      simp
    · have inner : pathAppendSegment seg other sep ≠ [] := by
        simp [pathAppendSegment_eq seg noOther, noSeg]
      have last : (pathAppendSegment dir seg sep).getLast? = seg.getLast? := by
        rw [pathAppendSegment_eq dir noSeg, List.getLast?_append_of_ne_nil _ noSeg]
      have some : pathAppendSegment dir seg sep ≠ [] := by
        simp [pathAppendSegment_eq dir noSeg, noSeg]
      rw [pathAppendSegment_eq _ noOther, pathAppendSegment_eq dir inner, last,
        pathAppendSegment_eq dir noSeg, pathAppendSegment_eq seg noOther]
      simp [noSeg, List.append_assoc]

/-- A segment that starts with no separator adds its segments to the parts of a directory. -/
theorem splitParts_appendSegment {sep : UInt8} (positive : sep ≠ 0) {dir seg : List UInt8}
    (rooted : WellRooted sep dir) (first : leadOf sep seg = 0) :
    splitParts sep (pathAppendSegment dir seg sep) =
      splitParts sep dir ++ segments (pathSepMatch · sep) seg := by
  by_cases noSeg : seg = []
  · subst noSeg
    simp
  · by_cases noDir : dir = []
    · subst noDir
      rw [pathAppendSegment_nil_left, splitParts, rootParts, if_pos first]
      rfl
    · have split := splitParts_append positive rooted noDir first
      rw [pathAppendSegment_eq dir noSeg]
      simpa [noDir] using split

/-! ## Joined paths -/

def ParsedPosix (conf : UcbPathStyle) (path : UcbPath) : Prop :=
  ∃ str style, pathSepOf conf style = slash ∧ path = pathParse conf str style

theorem ParsedPosix.sep {conf : UcbPathStyle} {path : UcbPath} (parsed : ParsedPosix conf path) :
    pathSepOf conf path.style = slash := by
  obtain ⟨str, style, posix, rfl⟩ := parsed
  rw [pathParse_style, pathSepOf_resolve, posix]

theorem ParsedPosix.coherent {conf : UcbPathStyle} {path : UcbPath}
    (parsed : ParsedPosix conf path) : Coherent conf path := by
  obtain ⟨str, style, posix, rfl⟩ := parsed
  exact coherent_parse (.inl posix)

theorem append_absolute {conf : UcbPathStyle} (path : UcbPath) {other : UcbPath}
    (absolute : ucbPathIsAbsolute conf other = true) : ucbPathAppend conf path other = other :=
  if_pos absolute

/-- A relative path is put behind the directory and the name. -/
theorem append_relative {conf : UcbPathStyle} (path : UcbPath) {other : UcbPath}
    (relative : ucbPathIsAbsolute conf other = false) :
    ucbPathAppend conf path other =
      { path with
        dir := pathAppendSegment (pathAppendSegment path.dir (path.stem ++ path.ext)
          (pathSepOf conf path.style)) other.dir (pathSepOf conf path.style)
        stem := other.stem, ext := other.ext } := by
  rw [ucbPathAppend, if_neg (by simp [relative])]

theorem storedParts_append {conf : UcbPathStyle} {path other : UcbPath}
    (coherent : Coherent conf path)
    (same : pathSepOf conf other.style = pathSepOf conf path.style)
    (relative : ucbPathIsAbsolute conf other = false) :
    storedParts conf (ucbPathAppend conf path other) =
      storedParts conf path ++ storedParts conf other := by
  have positive := pathSepOf_ne_zero conf path.style
  have nameLead := leadOf_clean coherent.name
  have otherLead := relative_leadOf relative
  rw [same] at otherLead
  rw [append_relative path relative]
  simp only [storedParts, same]
  rw [splitParts_appendSegment positive (coherent.dir.append nameLead) otherLead,
    splitParts_appendSegment positive coherent.dir nameLead, segments_completed coherent.name,
    splitParts.eq_def _ other.dir, rootParts.eq_def _ other.dir, if_pos otherLead]
  simp [List.append_assoc]

theorem isAbsolute_eq (conf : UcbPathStyle) (path : UcbPath) :
    ucbPathIsAbsolute conf path =
      path.dir.head?.any (pathSepMatch · (pathSepOf conf path.style)) := by
  unfold ucbPathIsAbsolute
  cases path.dir with
  | nil => rfl
  | cons first rest => rfl

theorem head_appendSegment (dir seg : List UInt8) (sep : UInt8) :
    (pathAppendSegment dir seg sep).head? = if dir = [] then seg.head? else dir.head? := by
  by_cases noDir : dir = []
  · simp [noDir]
  · by_cases noSeg : seg = []
    · simp [noSeg, noDir]
    · rw [pathAppendSegment_eq dir noSeg, if_neg noDir, List.append_assoc,
        List.head?_append_of_ne_nil _ noDir]

/-- Joining to a relative path what is relative keeps it relative, and to an absolute one
absolute. -/
theorem isAbsolute_append {conf : UcbPathStyle} {path other : UcbPath}
    (coherent : Coherent conf path)
    (same : pathSepOf conf other.style = pathSepOf conf path.style)
    (relative : ucbPathIsAbsolute conf other = false) :
    ucbPathIsAbsolute conf (ucbPathAppend conf path other) = ucbPathIsAbsolute conf path := by
  have noName : ((path.stem ++ path.ext).head?.any
      (pathSepMatch · (pathSepOf conf path.style))) = false := by
    cases name : path.stem ++ path.ext with
    | nil => rfl
    | cons c rest => exact coherent.name c (by simp [name])
  have noOther : (other.dir.head?.any (pathSepMatch · (pathSepOf conf path.style))) = false := by
    rw [← same, ← isAbsolute_eq]
    exact relative
  rw [isAbsolute_eq, isAbsolute_eq, append_relative path relative]
  dsimp only
  rw [head_appendSegment, head_appendSegment]
  by_cases noDir : path.dir = []
  · rw [noDir, pathAppendSegment_nil_left, if_pos rfl]
    split
    · exact noOther
    · exact noName
  · have some : pathAppendSegment path.dir (path.stem ++ path.ext) (pathSepOf conf path.style) ≠
        [] := by
      intro empty
      have head := head_appendSegment path.dir (path.stem ++ path.ext) (pathSepOf conf path.style)
      rw [empty, if_neg noDir] at head
      exact noDir (List.head?_eq_none_iff.mp head.symm)
    rw [if_neg some, if_neg noDir]

theorem append_assoc {conf : UcbPathStyle} {path other third : UcbPath}
    (coherent : Coherent conf other)
    (same : pathSepOf conf other.style = pathSepOf conf path.style)
    (same' : pathSepOf conf third.style = pathSepOf conf other.style) :
    ucbPathAppend conf (ucbPathAppend conf path other) third =
      ucbPathAppend conf path (ucbPathAppend conf other third) := by
  by_cases absolute : ucbPathIsAbsolute conf third = true
  · rw [append_absolute _ absolute, append_absolute _ absolute, append_absolute _ absolute]
  · have relative : ucbPathIsAbsolute conf third = false := by simpa using absolute
    have kept := isAbsolute_append coherent same' relative
    by_cases absoluteOther : ucbPathIsAbsolute conf other = true
    · rw [append_absolute _ absoluteOther, append_absolute path (kept.trans absoluteOther)]
    · rw [ucbPathAppend, if_neg absolute, ucbPathAppend, if_neg absoluteOther,
        ucbPathAppend.eq_def conf path, if_neg (by rw [kept]; exact absoluteOther), ucbPathAppend,
        if_neg absolute, same]
      dsimp only
      simp only [pathAppendSegment_assoc]

/-- Joining is concatenation: of the parts where the operand is relative, which may be the path
itself; an absolute operand gives its own; and three paths can be joined either way. -/
theorem join_concatenates {conf : UcbPathStyle} {p q r : UcbPath} (parsedP : ParsedPosix conf p)
    (parsedQ : ParsedPosix conf q) (parsedR : ParsedPosix conf r) :
    (ucbPathIsAbsolute conf q = false →
      pathParts conf (ucbPathAppend conf p q) = pathParts conf p ++ pathParts conf q) ∧
    (ucbPathIsAbsolute conf q = true →
      (ucbPathAppend conf p q).dir = q.dir ∧ (ucbPathAppend conf p q).stem = q.stem ∧
        (ucbPathAppend conf p q).ext = q.ext ∧
        pathParts conf (ucbPathAppend conf p q) = pathParts conf q) ∧
    pathComposeTo conf (ucbPathAppend conf (ucbPathAppend conf p q) r) =
      pathComposeTo conf (ucbPathAppend conf p (ucbPathAppend conf q r)) := by
  have sameQ : pathSepOf conf q.style = pathSepOf conf p.style := by rw [parsedQ.sep, parsedP.sep]
  have sameR : pathSepOf conf r.style = pathSepOf conf q.style := by rw [parsedR.sep, parsedQ.sep]
  refine ⟨?_, ?_, ?_⟩
  · intro relative
    rw [pathParts_eq, pathParts_eq, pathParts_eq,
      storedParts_append parsedP.coherent sameQ relative, List.map_append]
  · intro absolute
    rw [append_absolute p absolute]
    exact ⟨rfl, rfl, rfl, rfl⟩
  · rw [append_assoc parsedQ.coherent sameQ sameR]

/-- `/` and `a/b`. -/
theorem join_concatenates_root :
    pathParts .default (ucbPathAppend .default (pathParse .default [slash] .posix)
        (pathParse .default [0x61, slash, 0x62] .posix)) =
      pathParts .default (pathParse .default [slash] .posix) ++
        pathParts .default (pathParse .default [0x61, slash, 0x62] .posix) := by
  have root : ParsedPosix .default (pathParse .default [slash] .posix) := ⟨_, _, rfl, rfl⟩
  have relative : ParsedPosix .default (pathParse .default [0x61, slash, 0x62] .posix) :=
    ⟨_, _, rfl, rfl⟩
  exact (join_concatenates root relative relative).1 rfl

end Ucb.Path
