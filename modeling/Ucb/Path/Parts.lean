import Ucb.Path.Operations
import Ucb.Path.RoundTrip

/-!
Contract: the parts of a path as its components store them, against the text
the path composes to.

Owns:
- the parts of a text, split at the separators of a style;
- the loops of `ucb_path_num_parts` and `ucb_path_part` as that splitting;
- what keeps the stored components and the composed text in step.

On a POSIX build `\` is an ordinary character of what is parsed, and a separator
of what a path in Windows style composes to. Texts with a `\` in them are kept
out of paths in that style.
-/

namespace Ucb.Path

open Ucb.Lib

/-! ## Parts of a text -/

/-- How many separators of a style a text starts with. -/
def leadOf (sep : UInt8) (text : List UInt8) : Nat :=
  (text.takeWhile (pathSepMatch · sep)).length

def rootParts (sep : UInt8) (text : List UInt8) : List (List UInt8) :=
  if leadOf sep text = 0 then []
  else if leadOf sep text = 2 then [[sep, sep]]
  else [[sep]]

def splitParts (sep : UInt8) (text : List UInt8) : List (List UInt8) :=
  rootParts sep text ++ segments (pathSepMatch · sep) text

theorem pathDetectAnchor_eq (text : List UInt8) (sep : UInt8) :
    pathDetectAnchor text sep =
      if leadOf sep text = 0 then (.none, 0)
      else if leadOf sep text = 2 then (.root, 2) else (.root, 1) := by
  unfold leadOf
  match text with
  | [] => rfl
  | [first] => by_cases one : pathSepMatch first sep <;> simp [pathDetectAnchor, one]
  | [first, second] =>
      by_cases one : pathSepMatch first sep
      · by_cases two : pathSepMatch second sep <;> simp [pathDetectAnchor, one, two]
      · simp [pathDetectAnchor, one]
  | first :: second :: third :: rest =>
      by_cases one : pathSepMatch first sep
      · by_cases two : pathSepMatch second sep
        · by_cases three : pathSepMatch third sep <;> simp [pathDetectAnchor, one, two, three]
        · simp [pathDetectAnchor, one, two]
      · simp [pathDetectAnchor, one]

theorem numPartsLoop_eq (sep : UInt8) (count : Nat) (rest : List UInt8) :
    numPartsLoop sep count rest = count + (segments (pathSepMatch · sep) rest).length := by
  fun_induction numPartsLoop sep count rest with
  | case1 count rest found =>
      rw [← segments_dropWhile, found]
      rfl
  | case2 count rest c text found inductionHypothesis =>
      rw [inductionHypothesis, segments_scan found, List.length_cons]
      omega

theorem partLoop_eq (sep : UInt8) (index pos : Nat) (rest : List UInt8) (reached : pos ≤ index) :
    partLoop sep index pos rest =
      match (segments (pathSepMatch · sep) rest)[index - pos]? with
      | some segment => .inl segment
      | none => .inr (pos + (segments (pathSepMatch · sep) rest).length) := by
  fun_induction partLoop sep index pos rest with
  | case1 pos rest found =>
      rw [← segments_dropWhile, found]
      rfl
  | case2 rest c text found =>
      rw [segments_scan found, Nat.sub_self]
      rfl
  | case3 pos rest c text found later inductionHypothesis =>
      have step : index - pos = (index - (pos + 1)) + 1 := by omega
      rw [inductionHypothesis (by omega), segments_scan found, step, List.getElem?_cons_succ,
        List.length_cons]
      cases (segments (pathSepMatch · sep)
        (text.dropWhile (!pathSepMatch · sep)))[index - (pos + 1)]? with
      | some segment => rfl
      | none => exact congrArg Sum.inr (by omega)

theorem anchor_cases (sep : UInt8) (text : List UInt8) :
    (pathDetectAnchor text sep = (.none, 0) ∧ rootParts sep text = []) ∨
      ∃ count, 0 < count ∧ count ≤ leadOf sep text ∧
        pathDetectAnchor text sep = (.root, count) ∧
        rootParts sep text = [List.replicate count sep] := by
  rw [pathDetectAnchor_eq, rootParts]
  by_cases relative : leadOf sep text = 0
  · exact .inl (by simp [relative])
  · by_cases double : leadOf sep text = 2
    · exact .inr ⟨2, by omega, by omega, by simp [double, List.replicate]⟩
    · exact .inr ⟨1, by omega, by omega, by simp [relative, double]⟩

theorem take_leadOf {sep : UInt8} {text : List UInt8} {count : Nat}
    (inside : count ≤ leadOf sep text) :
    ∀ c ∈ text.take count, pathSepMatch c sep = true := by
  intro c member
  have all : text.take (leadOf sep text) = text.takeWhile (pathSepMatch · sep) :=
    (List.prefix_iff_eq_take.mp (List.takeWhile_prefix _)).symm
  apply List.mem_takeWhile_imp (p := (pathSepMatch · sep)) (l := text)
  rw [← all]
  exact List.take_subset_take_left text inside member

theorem segments_drop_anchor {sep : UInt8} {text : List UInt8} {count : Nat}
    (inside : count ≤ leadOf sep text) :
    segments (pathSepMatch · sep) (text.drop count) = segments (pathSepMatch · sep) text := by
  conv_rhs => rw [← List.take_append_drop count text]
  exact (segments_seps_append (take_leadOf inside) _).symm

theorem leadOf_le_length (sep : UInt8) (text : List UInt8) : leadOf sep text ≤ text.length :=
  (List.takeWhile_sublist _).length_le

theorem pathBuildAnchor_root {sep : UInt8} {text : List UInt8} {count : Nat}
    (inside : count ≤ leadOf sep text) :
    pathBuildAnchor text .root count sep = List.replicate count sep := by
  have seps := take_leadOf inside
  have short := leadOf_le_length sep text
  rw [pathBuildAnchor, if_neg nofun, List.eq_replicate_iff]
  refine ⟨by simp; omega, ?_⟩
  intro c member
  obtain ⟨item, found, rfl⟩ := List.mem_map.mp member
  rw [if_pos (seps item found)]

/-! ## Parts of a path -/

/-- What the components of a path store: the root, the segments of the directory
and the name. -/
def storedParts (conf : UcbPathStyle) (path : UcbPath) : List (List UInt8) :=
  splitParts (pathSepOf conf path.style) path.dir ++ completed (path.stem ++ path.ext)

theorem completed_name (stem ext : List UInt8) :
    completed (stem ++ ext) = if stem ≠ [] ∨ ext ≠ [] then [stem ++ ext] else [] := by
  by_cases named : stem ≠ [] ∨ ext ≠ []
  · have some : stem ++ ext ≠ [] := by
      intro empty
      obtain ⟨noStem, noExt⟩ := List.append_eq_nil_iff.mp empty
      exact named.elim (· noStem) (· noExt)
    rw [completed_of_ne_nil some, if_pos named]
  · rw [if_neg named]
    simp only [ne_eq, not_or, not_not] at named
    rw [named.1, named.2]
    rfl

theorem ucbPathNumParts_eq (conf : UcbPathStyle) (path : UcbPath) :
    ucbPathNumParts conf path = (storedParts conf path).length := by
  rw [storedParts, splitParts, completed_name]
  rcases anchor_cases (pathSepOf conf path.style) path.dir with
    ⟨detected, root⟩ | ⟨count, positive, inside, detected, root⟩
  · simp only [ucbPathNumParts, detected, root, numPartsLoop_eq, List.drop_zero]
    split <;> simp
  · simp only [ucbPathNumParts, detected, root, numPartsLoop_eq, segments_drop_anchor inside]
    split <;> simp <;> omega

theorem partLoop_name (sep : UInt8) {index pos : Nat} (rest stem ext : List UInt8)
    (reached : pos ≤ index) :
    let behind := segments (pathSepMatch · sep) rest ++ completed (stem ++ ext)
    (∃ segment, partLoop sep index pos rest = .inl segment ∧
        behind[index - pos]? = some segment) ∨
      ∃ last, partLoop sep index pos rest = .inr last ∧ behind[index - pos]? =
        if (stem ≠ [] ∨ ext ≠ []) ∧ index = last then some (stem ++ ext) else none := by
  intro behind
  rw [partLoop_eq sep index pos rest reached]
  by_cases inside : index - pos < (segments (pathSepMatch · sep) rest).length
  · rw [List.getElem?_append_left inside, List.getElem?_eq_getElem inside]
    exact .inl ⟨_, rfl, rfl⟩
  · rw [List.getElem?_append_right (by omega), List.getElem?_eq_none (by omega), completed_name]
    refine .inr ⟨_, rfl, ?_⟩
    by_cases named : stem ≠ [] ∨ ext ≠ []
    · by_cases last : index = pos + (segments (pathSepMatch · sep) rest).length
      · simp [named, last]
      · have beyond : 1 ≤ index - pos - (segments (pathSepMatch · sep) rest).length := by omega
        simp only [named, last, and_false, if_false, if_true]
        exact List.getElem?_eq_none beyond
    · simp [named]

theorem ucbPathPart_eq (conf : UcbPathStyle) (path : UcbPath) (index : Nat) :
    ucbPathPart conf path index = (storedParts conf path)[index]? := by
  rw [storedParts, splitParts]
  rcases anchor_cases (pathSepOf conf path.style) path.dir with
    ⟨detected, root⟩ | ⟨count, positive, inside, detected, root⟩
  · have behind := partLoop_name (pathSepOf conf path.style) path.dir path.stem path.ext
      (Nat.zero_le index)
    rw [root, List.nil_append]
    rcases behind with ⟨segment, found, part⟩ | ⟨last, found, part⟩
    · simpa [ucbPathPart, detected, found] using part.symm
    · simpa [ucbPathPart, detected, found] using part.symm
  · cases index with
    | zero => simp [ucbPathPart, detected, root, pathBuildAnchor_root inside]
    | succ index =>
        have behind := partLoop_name (pathSepOf conf path.style) (path.dir.drop count) path.stem
          path.ext (Nat.le_add_left 1 index)
        rw [segments_drop_anchor inside] at behind
        rw [root, List.append_assoc, List.singleton_append, List.getElem?_cons_succ]
        rcases behind with ⟨segment, found, part⟩ | ⟨last, found, part⟩
        · simpa [ucbPathPart, detected, found] using part.symm
        · simpa [ucbPathPart, detected, found] using part.symm

theorem pathParts_eq (conf : UcbPathStyle) (path : UcbPath) :
    pathParts conf path = (storedParts conf path).map some := by
  apply List.ext_getElem?
  intro index
  rw [pathParts, ucbPathNumParts_eq, List.getElem?_map, List.getElem?_map]
  by_cases inside : index < (storedParts conf path).length
  · simp [ucbPathPart_eq, inside]
  · simp [inside]

/-! ## The composed text -/

/-- A directory that a name can be put behind: it starts with two separators at
most, and if it is nothing but a root, its last separator is the style's own. -/
structure WellRooted (sep : UInt8) (dir : List UInt8) : Prop where
  few : leadOf sep dir ≤ 2
  root : dir ≠ [] → segments (pathSepMatch · sep) dir = [] → dir.getLast? = some sep

theorem leadOf_clean {sep : UInt8} {name : List UInt8}
    (clean : Clean (pathSepMatch · sep) name) : leadOf sep name = 0 := by
  cases name with
  | nil => rfl
  | cons c rest => simp [leadOf, clean c List.mem_cons_self]

@[simp] theorem leadOf_nil (sep : UInt8) : leadOf sep [] = 0 := rfl

theorem leadOf_append_name {sep : UInt8} (dir : List UInt8) {name : List UInt8}
    (first : leadOf sep name = 0) : leadOf sep (dir ++ name) = leadOf sep dir := by
  have none : name.takeWhile (pathSepMatch · sep) = [] := List.length_eq_zero_iff.mp first
  rw [leadOf, leadOf, List.takeWhile_append, none]
  split
  next all => rw [List.append_nil, all]
  next => rfl

theorem leadOf_append_content {sep : UInt8} {dir : List UInt8}
    (content : segments (pathSepMatch · sep) dir ≠ []) (more : List UInt8) :
    leadOf sep (dir ++ more) = leadOf sep dir := by
  rw [leadOf, leadOf, List.takeWhile_append]
  split
  next all =>
    have whole : dir.takeWhile (pathSepMatch · sep) = dir :=
      (List.takeWhile_sublist _).eq_of_length all
    exact absurd (segments_eq_nil_iff.mpr (List.takeWhile_eq_self_iff.mp whole)) content
  next => rfl

theorem segments_at_sep {sep : UInt8} (positive : sep ≠ 0) (left right : List UInt8) :
    segments (pathSepMatch · sep) (left ++ sep :: right) =
      segments (pathSepMatch · sep) left ++ segments (pathSepMatch · sep) right := by
  apply segments_append_sep
  simp [pathSepMatch, positive]

theorem segments_completed {isSep : UInt8 → Bool} {name : List UInt8} (clean : Clean isSep name) :
    segments isSep name = completed name := by
  cases name with
  | nil => rfl
  | cons c rest => exact segments_word ⟨List.cons_ne_nil _ _, clean⟩

theorem pathSepOf_ne_zero (conf style : UcbPathStyle) : pathSepOf conf style ≠ 0 := by
  cases conf <;> cases style <;> decide

/-- A text put behind a directory, with a separator between them unless the
directory ends with one. -/
theorem splitParts_append {sep : UInt8} (positive : sep ≠ 0) {dir : List UInt8}
    (rooted : WellRooted sep dir) (nonempty : dir ≠ []) {text : List UInt8}
    (first : leadOf sep text = 0) :
    splitParts sep (dir ++ (if dir.getLast? ≠ some sep then [sep] else []) ++ text) =
      splitParts sep dir ++ segments (pathSepMatch · sep) text := by
  by_cases last : dir.getLast? = some sep
  · obtain ⟨front, rfl⟩ := List.getLast?_eq_some_iff.mp last
    have split := segments_at_sep positive front text
    have ends := segments_at_sep positive front []
    rw [segments_nil, List.append_nil] at ends
    rw [if_neg (not_not_intro last), List.append_nil, splitParts, splitParts, rootParts,
      leadOf_append_name _ first, ← rootParts, ends, List.append_assoc, List.append_assoc,
      List.singleton_append, split]
  · have content : segments (pathSepMatch · sep) dir ≠ [] := fun none =>
      last (rooted.root nonempty none)
    have split := segments_at_sep positive dir text
    rw [if_pos last, List.append_assoc, List.singleton_append, splitParts, splitParts, rootParts,
      leadOf_append_content content, ← rootParts, split, List.append_assoc]

theorem storedParts_compose {conf : UcbPathStyle} {path : UcbPath}
    (rooted : WellRooted (pathSepOf conf path.style) path.dir)
    (clean : Clean (pathSepMatch · (pathSepOf conf path.style)) (path.stem ++ path.ext)) :
    storedParts conf path =
      splitParts (pathSepOf conf path.style) (pathComposeTo conf path) := by
  have positive := pathSepOf_ne_zero conf path.style
  have first := leadOf_clean clean
  rw [storedParts, pathComposeTo, List.append_assoc, ← segments_completed clean]
  by_cases none : path.dir = []
  · simp [pathJunction, none, splitParts, rootParts, first, leadOf_nil]
  · by_cases named : path.stem ≠ [] ∨ path.ext ≠ []
    · have split := splitParts_append positive rooted none first
      simp only [pathJunction, none, named, ne_eq, not_false_eq_true, true_and]
      exact split.symm
    · simp only [ne_eq, not_or, not_not] at named
      simp [pathJunction, named.1, named.2]

end Ucb.Path
