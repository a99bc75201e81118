import Mathlib.Tactic.Common

/-!
Contract: ordered rule lists in which the first applicable rule decides.

Owns:
- the verdict of a rule list as a relation;
- the step lemmas that compare a rule list with a cascade of tests, one rule
  and one test at a time.

Nothing here knows what the rules look at.
-/

namespace Ucb.Lib

universe u

/-- A rule applies to some of the inputs, and then has a fixed verdict. -/
structure Rule (ι : Type u) where
  applies : ι → Prop
  verdict : Bool

/-- The verdict of the first rule that applies. -/
def Decides {ι : Type u} : List (Rule ι) → ι → Bool → Prop
  | [], _, _ => False
  | rule :: rest, input, verdict =>
      (rule.applies input ∧ rule.verdict = verdict) ∨
        (¬ rule.applies input ∧ Decides rest input verdict)

variable {ι : Type u} {rule : Rule ι} {rest : List (Rule ι)} {input : ι}

theorem decides_cons_of_applies (applies : rule.applies input) (verdict : Bool) :
    Decides (rule :: rest) input verdict ↔ rule.verdict = verdict := by
  simp [Decides, applies]

theorem decides_cons_of_not_applies (applies : ¬ rule.applies input) (verdict : Bool) :
    Decides (rule :: rest) input verdict ↔ Decides rest input verdict := by
  simp [Decides, applies]

/-- A test that holds exactly when the first rule applies, in front of a cascade
that follows the other rules. -/
theorem decides_cons_iff_ite (rule : Rule ι) {test : Prop} [Decidable test] {cascade : Bool}
    (first : test ↔ rule.applies input) (others : cascade = true ↔ Decides rest input true) :
    (if test then rule.verdict else cascade) = true ↔ Decides (rule :: rest) input true := by
  by_cases applies : rule.applies input
  · rw [if_pos (first.mpr applies), decides_cons_of_applies applies]
  · rw [if_neg (mt first.mp applies), decides_cons_of_not_applies applies, others]

/-- Two neighbouring rules with one verdict act as one rule. -/
theorem decides_merge (left right : Rule ι) (same : left.verdict = right.verdict)
    (verdict : Bool) :
    Decides (left :: right :: rest) input verdict ↔
      Decides (⟨fun input => left.applies input ∨ right.applies input, left.verdict⟩ :: rest)
        input verdict := by
  by_cases leftApplies : left.applies input
  · simp [Decides, leftApplies]
  · simp [Decides, leftApplies, same]

end Ucb.Lib
