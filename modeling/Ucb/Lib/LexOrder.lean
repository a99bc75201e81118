import Mathlib.Data.List.Lex
import Mathlib.Order.Defs.Unbundled
import Mathlib.Order.RelClasses

/-!
Contract: three-way comparisons of lists.

Owns:
- what it means that the sign of a result is the lexicographic order of two lists;
- that such signs form a total order: zero exactly for equal lists, opposite for swapped ones,
  and transitive;
- lexicographic order and prefixes.

A proper prefix comes first.
-/

namespace Ucb.Lib

universe u

variable {α : Type u}

/-- The sign of a result is the lexicographic order of the lists. -/
structure SignIsLex (r : α → α → Prop) (left right : List α) (result : Int) : Prop where
  before : result < 0 ↔ List.Lex r left right
  behind : 0 < result ↔ List.Lex r right left

/-- A proper prefix comes first. -/
theorem lex_of_prefix (r : α → α → Prop) {left right : List α} (isPrefix : left <+: right)
    (differ : left ≠ right) : List.Lex r left right := by
  obtain ⟨rest, rfl⟩ := isPrefix
  cases rest with
  | nil => exact absurd (List.append_nil left).symm differ
  | cons first rest =>
      have behind := List.Lex.append_left r (List.Lex.nil (a := first) (l := rest)) left
      rwa [List.append_nil] at behind

variable {r : α → α → Prop} [Std.Irrefl r] [IsTrans α r] [Std.Trichotomous r]
  {first second third : List α} {x y z : Int}

omit [IsTrans α r] [Std.Trichotomous r] in
theorem not_lex_self (list : List α) : ¬ List.Lex r list list :=
  List.lex_irrefl (fun item => irrefl_of r item) list

omit [Std.Irrefl r] [Std.Trichotomous r] in
theorem lex_trans (before : List.Lex r first second) (further : List.Lex r second third) :
    List.Lex r first third :=
  List.lex_trans (r := r) (trans_of r) before further

omit [Std.Trichotomous r] in
theorem not_lex_swapped (before : List.Lex r first second) : ¬ List.Lex r second first :=
  fun behind => not_lex_self first (lex_trans before behind)

namespace SignIsLex

omit [IsTrans α r] in
/-- Zero exactly for equal lists. -/
theorem zero_iff (sign : SignIsLex r first second x) : x = 0 ↔ first = second := by
  constructor
  · rintro rfl
    exact Std.Trichotomous.trichotomous first second (mt sign.before.mpr (Int.lt_irrefl 0))
      (mt sign.behind.mpr (Int.lt_irrefl 0))
  · rintro rfl
    have notBefore := mt sign.before.mp (not_lex_self first)
    have notBehind := mt sign.behind.mp (not_lex_self first)
    omega

omit [Std.Irrefl r] [IsTrans α r] [Std.Trichotomous r] in
/-- Swapped lists have opposite signs. -/
theorem swap (sign : SignIsLex r first second x) (swapped : SignIsLex r second first y) :
    (x < 0 ↔ 0 < y) ∧ (0 < x ↔ y < 0) :=
  ⟨sign.before.trans swapped.behind.symm, sign.behind.trans swapped.before.symm⟩

omit [IsTrans α r] in
theorem nonpos_iff (sign : SignIsLex r first second x) :
    x ≤ 0 ↔ List.Lex r first second ∨ first = second := by
  rw [← sign.before, ← sign.zero_iff]
  omega

theorem trans (sign : SignIsLex r first second x) (later : SignIsLex r second third y)
    (whole : SignIsLex r first third z) (firstLe : x ≤ 0) (secondLe : y ≤ 0) : z ≤ 0 := by
  rw [whole.nonpos_iff]
  rcases sign.nonpos_iff.mp firstLe with before | rfl
  · rcases later.nonpos_iff.mp secondLe with further | rfl
    · exact .inl (lex_trans before further)
    · exact .inl before
  · exact later.nonpos_iff.mp secondLe

end SignIsLex

end Ucb.Lib
