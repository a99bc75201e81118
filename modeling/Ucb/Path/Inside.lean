import Ucb.Path.Ancestors

/-!
Contract: `ucb_path_is_inside`.

Owns:
- the comparison of two paths part by part;
- that it finds a path inside another exactly where that one is among its parents.
-/

namespace Ucb.Path

open Ucb.Lib

def samePart (pi po : Option (List UInt8)) : Bool :=
  match pi, po with
  | some pi, some po => pi == po
  | _, _ => false

def pathInsideOne (conf : UcbPathStyle) (inner outer : UcbPath) : Bool :=
  let ni := ucbPathNumParts conf inner
  let no := ucbPathNumParts conf outer
  if ni = 0 ∨ no = 0 ∨ ni ≤ no then false
  else (List.range no).all fun i => samePart (ucbPathPart conf inner i) (ucbPathPart conf outer i)

def ucbPathIsInside (conf : UcbPathStyle) (a b : UcbPath) : Bool :=
  pathInsideOne conf a b || pathInsideOne conf b a

section Inside

variable {conf : UcbPathStyle} {inner outer : UcbPath} {lead lead' : Nat}
  {comps comps' : List (List UInt8)}

/-- In every style, the parts of the outer path are an ancestor of those of the inner one. -/
theorem pathInsideOne_iff : pathInsideOne conf inner outer = true ↔
    storedParts conf outer ∈ ancestors (storedParts conf inner) := by
  rw [mem_ancestors, pathInsideOne, ucbPathNumParts_eq, ucbPathNumParts_eq]
  generalize parts : storedParts conf inner = segs
  generalize parts' : storedParts conf outer = above
  have all_iff : ((List.range above.length).all fun i =>
      samePart (ucbPathPart conf inner i) (ucbPathPart conf outer i)) = true ↔
        ∀ i < above.length, segs[i]? = above[i]? := by
    rw [List.all_eq_true]
    refine forall_congr' fun i => ?_
    rw [List.mem_range]
    refine imp_congr_right fun inside => ?_
    rw [ucbPathPart_eq, ucbPathPart_eq, parts, parts', List.getElem?_eq_getElem inside]
    cases segs[i]? with
    | none => simp [samePart]
    | some part => simp [samePart]
  split
  next few =>
    refine iff_of_false Bool.false_ne_true ?_
    rintro ⟨prefixed, nonempty, different⟩
    have positive := List.length_pos_of_ne_nil nonempty
    have longer := prefixed.length_le
    exact different (prefixed.eq_of_length (by omega))
  next many =>
    rw [all_iff]
    constructor
    · intro same
      refine ⟨List.prefix_iff_getElem?.mpr fun i inside => ?_, ?_, ?_⟩
      · rw [same i inside, List.getElem?_eq_getElem inside]
      · rintro rfl
        exact many (.inr (.inl rfl))
      · rintro rfl
        exact many (.inr (.inr (Nat.le_refl _)))
    · rintro ⟨prefixed, -, -⟩ i inside
      rw [List.prefix_iff_getElem?.mp prefixed i inside, List.getElem?_eq_getElem inside]

theorem ancestor_front {above : List (List UInt8)}
    (member : above ∈ ancestors (rootPart lead ++ comps)) :
    ∃ front, front <+: comps ∧ above = rootPart lead ++ front := by
  obtain ⟨prefixed, nonempty, -⟩ := mem_ancestors.mp member
  unfold rootPart at prefixed ⊢
  by_cases relative : lead = 0
  · rw [if_pos relative] at prefixed ⊢
    exact ⟨above, prefixed, rfl⟩
  · rw [if_neg relative] at prefixed ⊢
    obtain ⟨first, front, rfl⟩ := List.exists_cons_of_ne_nil nonempty
    obtain ⟨rfl, inFront⟩ := List.cons_prefix_cons.mp prefixed
    exact ⟨front, inFront, rfl⟩

/-- The text of a path is that of an ancestor exactly if its parts are an ancestor. -/
theorem StandsFor.mem_parents (stands : StandsFor conf inner lead comps)
    (stands' : StandsFor conf outer lead' comps') :
    pathComposeTo conf outer ∈ (ancestors (storedParts conf inner)).map partsText ↔
      pathInsideOne conf inner outer = true := by
  rw [pathInsideOne_iff, stands.parts, stands'.parts, stands'.compose,
    ← partsText_rootPart lead' stands'.proper]
  refine ⟨fun member => ?_, List.mem_map_of_mem⟩
  obtain ⟨above, isAbove, text⟩ := List.mem_map.mp member
  obtain ⟨front, inFront, rfl⟩ := ancestor_front isAbove
  have proper : Proper front := fun segment inside => stands.proper segment (inFront.subset inside)
  rw [partsText_rootPart lead proper, partsText_rootPart lead' stands'.proper] at text
  obtain ⟨rfl, rfl⟩ := composed_inj proper stands'.proper text
  exact isAbove

/-- Of two paths that parsing, appending and taking parents have made one is inside the other
exactly if it is among the parents of the other. -/
theorem is_inside_iff_parent {a b : UcbPath} (made : Made conf (PosixSteps conf) a)
    (made' : Made conf (PosixSteps conf) b) {fuel : Nat} (enough : ucbPathNumParts conf a < fuel)
    (enough' : ucbPathNumParts conf b < fuel) :
    ∃ above below, ucbPathParents conf fuel a = some above ∧
      ucbPathParents conf fuel b = some below ∧
      (ucbPathIsInside conf a b = true ↔
        pathComposeTo conf b ∈ above ∨ pathComposeTo conf a ∈ below) := by
  obtain ⟨_, _, stands⟩ := standsFor_of_made made
  obtain ⟨_, _, stands'⟩ := standsFor_of_made made'
  rw [ucbPathNumParts_eq, stands.parts] at enough
  rw [ucbPathNumParts_eq, stands'.parts] at enough'
  refine ⟨_, _, stands.chainExact.parents fuel enough, stands'.chainExact.parents fuel enough', ?_⟩
  rw [← stands.parts, ← stands'.parts, stands.mem_parents stands', stands'.mem_parents stands,
    ucbPathIsInside, Bool.or_eq_true]

/-- `//a` is inside `//a/b/`, and the other way round. -/
theorem is_inside_iff_parent_doubleRoot :
    ∃ above below,
      ucbPathParents .default 5 (ucbPathInitStyle .default [slash, slash, 0x61] .posix) =
        some above ∧
      ucbPathParents .default 5
        (ucbPathInitStyle .default [slash, slash, 0x61, slash, 0x62, slash] .posix) = some below ∧
      (ucbPathIsInside .default (ucbPathInitStyle .default [slash, slash, 0x61] .posix)
          (ucbPathInitStyle .default [slash, slash, 0x61, slash, 0x62, slash] .posix) = true ↔
        [slash, slash, 0x61, slash, 0x62] ∈ above ∨ [slash, slash, 0x61] ∈ below) := by
  have made : Made .default (PosixSteps .default)
      (ucbPathInitStyle .default [slash, slash, 0x61] .posix) := .init rfl
  have made' : Made .default (PosixSteps .default)
      (ucbPathInitStyle .default [slash, slash, 0x61, slash, 0x62, slash] .posix) := .init rfl
  apply is_inside_iff_parent made made'
  · rw [ucbPathNumParts_eq]
    decide
  · rw [ucbPathNumParts_eq]
    decide

end Inside

end Ucb.Path
