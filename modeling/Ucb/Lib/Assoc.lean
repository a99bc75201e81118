import Mathlib.Data.List.Basic
import Mathlib.Logic.Function.Basic

/-!
Contract: association lists as maps.

Owns:
- the map of an association list, in which the first pair of a key counts;
- what putting in, replacing and taking out a pair does to it.
-/

namespace Ucb.Lib

universe u v

variable {Key : Type u} {Value : Type v} [DecidableEq Key]

def valuesOf (pairs : List (Key × Value)) : Key → Option Value :=
  fun key => pairs.lookup key

variable {front back : List (Key × Value)} {key : Key}

theorem valuesOf_eq_none (absent : key ∉ front.map Prod.fst) : valuesOf front key = none := by
  rw [valuesOf, List.lookup_eq_none_iff]
  intro pair member
  simp only [bne_iff_ne, ne_eq]
  rintro rfl
  exact absent (List.mem_map_of_mem member)

theorem valuesOf_isSome : (valuesOf front key).isSome ↔ key ∈ front.map Prod.fst := by
  by_cases present : key ∈ front.map Prod.fst
  · obtain ⟨pair, member, rfl⟩ := List.mem_map.mp present
    rw [valuesOf, List.lookup_isSome_iff]
    exact iff_of_true ⟨pair, member, beq_self_eq_true _⟩ present
  · rw [valuesOf_eq_none present]
    exact iff_of_false Bool.false_ne_true present

/-- A pair behind pairs of other keys has the value of its key. -/
theorem valuesOf_middle (absent : key ∉ front.map Prod.fst) (value : Value) :
    valuesOf (front ++ (key, value) :: back) =
      Function.update (valuesOf (front ++ back)) key (some value) := by
  funext other
  by_cases same : other = key
  · subst same
    have none : front.lookup other = none := valuesOf_eq_none absent
    rw [Function.update_self, valuesOf, List.lookup_append, none, Option.none_or,
      List.lookup_cons_self]
  · rw [Function.update_of_ne same, valuesOf, valuesOf, List.lookup_append, List.lookup_append,
      List.lookup_cons, beq_eq_false_iff_ne.mpr same]

/-- A pair of a new key. -/
theorem valuesOf_push (absent : key ∉ front.map Prod.fst) (value : Value) :
    valuesOf (front ++ [(key, value)]) = Function.update (valuesOf front) key (some value) := by
  rw [valuesOf_middle absent, List.append_nil]

/-- Another value for a key. -/
theorem valuesOf_replace (absent : key ∉ front.map Prod.fst) (old value : Value) :
    valuesOf (front ++ (key, value) :: back) =
      Function.update (valuesOf (front ++ (key, old) :: back)) key (some value) := by
  rw [valuesOf_middle absent, valuesOf_middle absent, Function.update_idem]

/-- No value for the key of a pair that is taken out. -/
theorem valuesOf_remove (absent : key ∉ (front ++ back).map Prod.fst) (old : Value) :
    valuesOf (front ++ back) =
      Function.update (valuesOf (front ++ (key, old) :: back)) key none := by
  have first : key ∉ front.map Prod.fst := fun early => absent (by
    rw [List.map_append]
    exact List.mem_append_left _ early)
  rw [valuesOf_middle first, Function.update_idem]
  exact (Function.update_eq_self_iff.mpr (valuesOf_eq_none absent).symm).symm

end Ucb.Lib
