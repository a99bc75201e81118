import Mathlib.Tactic.Common

/-!
Contract: amounts that are kept per level, where only the innermost level changes.

Owns:
- `Amounts`, what each level has by itself and with the levels inside it;
- `Peaks`, how the greatest amount a level had with those inside it follows from
  the peaks that the levels recorded by themselves;
- that it still does after the innermost level has gained or lost something, and
  after a level has been pushed, popped or reset.

Levels are numbered from the outside, `top` being the innermost.
-/

namespace Ucb.Lib

/-- Level by level, what it has and what it has together with the levels inside. -/
structure Amounts (top : Nat) (current whole : Nat → Nat) : Prop where
  innermost : whole top = current top
  outer : ∀ level < top, whole level = current level + whole (level + 1)

/-- The greatest amounts follow from the peaks of the levels. -/
structure Peaks (top : Nat) (current peak most : Nat → Nat) : Prop where
  covers : ∀ level ≤ top, current level ≤ peak level
  innermost : most top = peak top
  outer : ∀ level < top, most level = max (peak level) (current level + most (level + 1))

variable {top : Nat} {current current' peak peak' whole whole' most most' : Nat → Nat}

/-- No amount is above the greatest one. -/
theorem Peaks.whole_le (peaks : Peaks top current peak most) (amounts : Amounts top current whole) :
    ∀ level ≤ top, whole level ≤ most level := by
  have distance : ∀ count level, level + count = top → whole level ≤ most level := by
    intro count
    induction count with
    | zero =>
        rintro level rfl
        have inside := peaks.covers (level + 0) (Nat.le_refl _)
        have last := amounts.innermost
        have greatest := peaks.innermost
        simp only [Nat.add_zero] at inside last greatest
        omega
    | succ count inductionHypothesis =>
        intro level there
        have inside := inductionHypothesis (level + 1) (by omega)
        have sum := amounts.outer level (by omega)
        have greatest := peaks.outer level (by omega)
        omega
  exact fun level inUse => distance (top - level) level (by omega)

/-- The innermost level gains something, and with it every level. -/
theorem Peaks.gain {amount : Nat} (peaks : Peaks top current peak most)
    (amounts : Amounts top current whole) (gains : current' top = current top + amount)
    (others : ∀ level < top, current' level = current level)
    (topPeak : peak' top = max (current top + amount) (peak top))
    (otherPeaks : ∀ level < top, peak' level = peak level)
    (seen : ∀ level ≤ top, most' level = max (most level) (whole level + amount)) :
    Peaks top current' peak' most' where
  covers := fun level inUse => by
    rcases Nat.lt_or_eq_of_le inUse with below | rfl
    · rw [others level below, otherPeaks level below]
      exact peaks.covers level inUse
    · omega
  innermost := by
    rw [seen top (Nat.le_refl _), topPeak, peaks.innermost, amounts.innermost, Nat.max_comm]
  outer := fun level below => by
    have before := peaks.outer level below
    have sum := amounts.outer level below
    rw [seen level (by omega), seen (level + 1) (by omega), others level below,
      otherPeaks level below]
    omega

/-- The innermost level loses something. -/
theorem Peaks.lose (peaks : Peaks top current peak most) (amounts : Amounts top current whole)
    (loses : current' top ≤ current top) (others : ∀ level < top, current' level = current level)
    (samePeaks : ∀ level ≤ top, peak' level = peak level)
    (less : ∀ level ≤ top, whole' level ≤ whole level)
    (seen : ∀ level ≤ top, most' level = max (most level) (whole' level)) :
    Peaks top current' peak' most' := by
  have same : ∀ level ≤ top, most' level = most level := by
    intro level inUse
    have old := peaks.whole_le amounts level inUse
    have smaller := less level inUse
    rw [seen level inUse]
    omega
  constructor
  · intro level inUse
    have covered := peaks.covers level inUse
    rw [samePeaks level inUse]
    rcases Nat.lt_or_eq_of_le inUse with below | rfl
    · rw [others level below]
      exact covered
    · omega
  · rw [same top (Nat.le_refl _), samePeaks top (Nat.le_refl _)]
    exact peaks.innermost
  · intro level below
    rw [same level (by omega), same (level + 1) (by omega), others level below,
      samePeaks level (by omega)]
    exact peaks.outer level below

/-- An empty level is pushed. -/
theorem Peaks.push (peaks : Peaks top current peak most) (newCurrent : current' (top + 1) = 0)
    (newPeak : peak' (top + 1) = 0) (newMost : most' (top + 1) = 0)
    (others : ∀ level ≤ top, current' level = current level)
    (otherPeaks : ∀ level ≤ top, peak' level = peak level)
    (otherMosts : ∀ level ≤ top, most' level = most level) :
    Peaks (top + 1) current' peak' most' where
  covers := fun level inUse => by
    rcases Nat.lt_or_eq_of_le inUse with below | rfl
    · rw [others level (by omega), otherPeaks level (by omega)]
      exact peaks.covers level (by omega)
    · omega
  innermost := by rw [newMost, newPeak]
  outer := fun level below => by
    rw [others level (by omega), otherPeaks level (by omega), otherMosts level (by omega)]
    rcases Nat.lt_or_eq_of_le (Nat.lt_succ_iff.mp below) with inside | rfl
    · rw [otherMosts (level + 1) (by omega)]
      exact peaks.outer level inside
    · have covered := peaks.covers level (Nat.le_refl _)
      have greatest := peaks.innermost
      omega

/-- The innermost level is popped, and its peak is added to that of its parent. That is the
peak of both if the popped level never had anything, or if the parent was at its own peak. -/
theorem Peaks.pop (peaks : Peaks (top + 1) current peak most)
    (adds : peak (top + 1) = 0 ∨ current top = peak top)
    (merged : current' top = current top + current (top + 1))
    (mergedPeak : peak' top = peak top + peak (top + 1))
    (others : ∀ level < top, current' level = current level)
    (otherPeaks : ∀ level < top, peak' level = peak level)
    (otherMosts : ∀ level ≤ top, most' level = most level) : Peaks top current' peak' most' where
  covers := fun level inUse => by
    rcases Nat.lt_or_eq_of_le inUse with below | rfl
    · rw [others level below, otherPeaks level below]
      exact peaks.covers level (by omega)
    · have parent := peaks.covers level (by omega)
      have child := peaks.covers (level + 1) (Nat.le_refl _)
      omega
  innermost := by
    have parent := peaks.covers top (by omega)
    have greatest := peaks.outer top (by omega)
    have child := peaks.innermost
    rw [otherMosts top (Nat.le_refl _), mergedPeak]
    omega
  outer := fun level below => by
    rw [others level below, otherPeaks level below, otherMosts level (by omega),
      otherMosts (level + 1) (by omega)]
    exact peaks.outer level (by omega)

/-- The peaks start again where there is nothing. -/
theorem Peaks.reset (nothing : ∀ level ≤ top, current level = 0)
    (noPeak : ∀ level ≤ top, peak level = 0) (noMost : ∀ level ≤ top, most level = 0) :
    Peaks top current peak most where
  covers := fun level inUse => by rw [nothing level inUse]; exact Nat.zero_le _
  innermost := by rw [noMost top (Nat.le_refl _), noPeak top (Nat.le_refl _)]
  outer := fun level below => by
    rw [noMost level (by omega), noMost (level + 1) (by omega), noPeak level (by omega),
      nothing level (by omega)]
    rfl

end Ucb.Lib
