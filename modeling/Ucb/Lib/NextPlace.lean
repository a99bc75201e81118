import Mathlib.Data.List.Infix
import Mathlib.Order.Bounds.Basic

/-!
Contract: asking for the next place at which something holds.

Owns:
- the right answer to "where is the next place from here on";
- walking through all places by asking again from behind every answer;
- that right answers make the walk end with all places, each once and in order.
-/

namespace Ucb.Lib

/-- The answer names the least place from `pos` on, and is absent if there is none. -/
def IsNext (place : Nat → Prop) (pos : Nat) : Option Nat → Prop
  | none => ∀ q, pos ≤ q → ¬ place q
  | some q => IsLeast {q | pos ≤ q ∧ place q} q

/-- Ask from `pos`, then from behind every answer, until there is none: the places found. The
relation holds of a list only if the walk ends. -/
inductive Walk (answers : Nat → Option Nat → Prop) : Nat → List Nat → Prop where
  | ended {pos : Nat} (missed : answers pos none) : Walk answers pos []
  | found {pos q : Nat} {later : List Nat} (answered : answers pos (some q))
      (walked : Walk answers (q + 1) later) : Walk answers pos (q :: later)

variable {place : Nat → Prop} {answers : Nat → Option Nat → Prop} {pos : Nat}

/-- The places a walk from `pos` is to find. -/
structure ListsPlaces (place : Nat → Prop) (pos : Nat) (found : List Nat) : Prop where
  increasing : found.Pairwise (· < ·)
  complete : ∀ q, q ∈ found ↔ pos ≤ q ∧ place q

theorem ListsPlaces.cons {q : Nat} {later : List Nat} (next : IsNext place pos (some q))
    (lists : ListsPlaces place (q + 1) later) : ListsPlaces place pos (q :: later) where
  increasing := by
    refine List.pairwise_cons.mpr ⟨fun other member => ?_, lists.increasing⟩
    exact ((lists.complete other).mp member).1
  complete other := by
    rw [List.mem_cons, lists.complete]
    constructor
    · rintro (rfl | ⟨behind, holds⟩)
      · exact next.1
      · have before : pos ≤ q := next.1.1
        exact ⟨by omega, holds⟩
    · rintro ⟨inside, holds⟩
      have least : q ≤ other := next.2 ⟨inside, holds⟩
      rcases Nat.eq_or_lt_of_le least with same | behind
      · exact Or.inl same.symm
      · exact Or.inr ⟨behind, holds⟩

/-- Right answers about places below a bound: the walk ends with all of them. -/
theorem walk_of_right {bound : Nat} (bounded : ∀ q, place q → q < bound)
    (right : ∀ pos, ∃ answer, answers pos answer ∧ IsNext place pos answer) :
    ∀ pos, ∃ found, Walk answers pos found ∧ ListsPlaces place pos found := by
  intro pos
  -- every answer is behind the last one and below the bound
  induction measure : bound - pos using Nat.strong_induction_on generalizing pos with
  | _ left inductionHypothesis =>
      obtain ⟨answer, answered, next⟩ := right pos
      cases answer with
      | none =>
          refine ⟨[], .ended answered, .nil, fun q => ?_⟩
          simp only [List.not_mem_nil, false_iff]
          exact fun both => next q both.1 both.2
      | some q =>
          have inside : pos ≤ q := next.1.1
          have below : q < bound := bounded q next.1.2
          obtain ⟨later, walked, lists⟩ :=
            inductionHypothesis (bound - (q + 1)) (by omega) (q + 1) rfl
          exact ⟨q :: later, .found answered walked, lists.cons next⟩

/-- Where there always is an answer no walk ends. -/
theorem not_walk_of_always (always : ∀ pos answer, answers pos answer → answer ≠ none)
    (found : List Nat) : ¬ Walk answers pos found := by
  intro walk
  induction walk with
  | ended missed => exact always _ _ missed rfl
  | found answered walked inductionHypothesis => exact inductionHypothesis

end Ucb.Lib
