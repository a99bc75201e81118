import Mathlib.Data.List.Induction
import Mathlib.Data.List.Pairwise
import Mathlib.Logic.Function.Basic

/-!
Contract: copies within a table, made one after the other.

Owns:
- `Copy`, the copy of one entry over another;
- `copyInOrder`, the copies of a list in its order;
- when the entries end up as a simultaneous assignment would leave them.
-/

namespace Ucb.Lib

universe u v w

/-- The entry at `source` goes over the one at `target`. -/
structure Copy (κ : Type u) where
  source : κ
  target : κ

section Copies

variable {κ : Type u} [DecidableEq κ] {α : Type v} {β : Type w}

/-- One copy. What arrives may differ from what was sent; a copy in place leaves
the entry alone. -/
def Copy.run (arrive : α → α) (table : κ → α) (copy : Copy κ) : κ → α :=
  if copy.source = copy.target then table
  else Function.update table copy.target (arrive (table copy.source))

def copyInOrder (arrive : α → α) (copies : List (Copy κ)) (table : κ → α) : κ → α :=
  copies.foldl (Copy.run arrive) table

/-- No two copies go to one target. -/
def Separate (copies : List (Copy κ)) : Prop :=
  copies.Pairwise fun earlier later => earlier.target ≠ later.target

variable {arrive : α → α} {view : α → β} {table : κ → α} {copies : List (Copy κ)} {copy : Copy κ}
  {key : κ}

theorem Copy.run_of_ne (elsewhere : copy.target ≠ key) : copy.run arrive table key = table key := by
  unfold Copy.run
  split
  next => rfl
  next => exact Function.update_of_ne elsewhere.symm _ _

theorem Copy.run_inPlace (inPlace : copy.source = copy.target) :
    copy.run arrive table = table :=
  if_pos inPlace

theorem Copy.run_target (apart : copy.source ≠ copy.target) :
    copy.run arrive table copy.target = arrive (table copy.source) := by
  rw [Copy.run, if_neg apart, Function.update_self]

@[simp] theorem copyInOrder_nil : copyInOrder arrive [] table = table :=
  rfl

@[simp] theorem copyInOrder_cons :
    copyInOrder arrive (copy :: copies) table =
      copyInOrder arrive copies (copy.run arrive table) :=
  rfl

theorem copyInOrder_append (later : List (Copy κ)) :
    copyInOrder arrive (copies ++ later) table =
      copyInOrder arrive later (copyInOrder arrive copies table) :=
  List.foldl_append

theorem copyInOrder_concat :
    copyInOrder arrive (copies ++ [copy]) table =
      copy.run arrive (copyInOrder arrive copies table) :=
  copyInOrder_append [copy]

omit [DecidableEq κ] in
theorem separate_concat :
    Separate (copies ++ [copy]) ↔
      Separate copies ∧ ∀ earlier ∈ copies, earlier.target ≠ copy.target := by
  simp [Separate, List.pairwise_append]

/-- What is no target stays. -/
theorem copyInOrder_untouched (untouched : ∀ copy ∈ copies, copy.target ≠ key) :
    copyInOrder arrive copies table key = table key := by
  induction copies generalizing table with
  | nil => rfl
  | cons copy copies inductionHypothesis =>
      rw [copyInOrder_cons,
        inductionHypothesis fun later member => untouched later (List.mem_cons_of_mem _ member)]
      exact Copy.run_of_ne (untouched copy List.mem_cons_self)

/-- A copy in place leaves its entry as it was at first. -/
theorem copyInOrder_inPlace (separate : Separate copies) (member : copy ∈ copies)
    (inPlace : copy.source = copy.target) :
    copyInOrder arrive copies table copy.target = table copy.target := by
  induction copies using List.reverseRecOn with
  | nil => cases member
  | append_singleton copies last inductionHypothesis =>
      obtain ⟨separate, others⟩ := separate_concat.mp separate
      rw [copyInOrder_concat]
      obtain earlier | isLast := List.mem_append.mp member
      · rw [Copy.run_of_ne (others copy earlier).symm]
        exact inductionHypothesis separate earlier
      · obtain rfl := List.mem_singleton.mp isLast
        rw [Copy.run_inPlace inPlace]
        exact copyInOrder_untouched others

/-- At the target of any other copy stands something that has arrived. -/
theorem copyInOrder_arrived (table : κ → α) (separate : Separate copies) (member : copy ∈ copies)
    (apart : copy.source ≠ copy.target) :
    ∃ sent, copyInOrder arrive copies table copy.target = arrive sent := by
  induction copies using List.reverseRecOn with
  | nil => cases member
  | append_singleton copies last inductionHypothesis =>
      obtain ⟨separate, others⟩ := separate_concat.mp separate
      rw [copyInOrder_concat]
      obtain earlier | isLast := List.mem_append.mp member
      · rw [Copy.run_of_ne (others copy earlier).symm]
        exact inductionHypothesis separate earlier
      · obtain rfl := List.mem_singleton.mp isLast
        exact ⟨_, Copy.run_target apart⟩

section View

variable (seen : ∀ a, view (arrive a) = view a)

include seen

/-- Every entry looks like itself at first or like one of the sources at first. -/
theorem view_copyInOrder (copies : List (Copy κ)) (table : κ → α) (key : κ) :
    view (copyInOrder arrive copies table key) = view (table key) ∨
      ∃ copy ∈ copies, view (copyInOrder arrive copies table key) = view (table copy.source) := by
  induction copies using List.reverseRecOn generalizing key with
  | nil => exact Or.inl rfl
  | append_singleton copies last inductionHypothesis =>
      have weaken : ∀ {b : β}, (∃ copy ∈ copies, b = view (table copy.source)) →
          ∃ copy ∈ copies ++ [last], b = view (table copy.source) := by
        rintro b ⟨copy, member, same⟩
        exact ⟨copy, List.mem_append_left _ member, same⟩
      rw [copyInOrder_concat]
      by_cases moved : last.source ≠ last.target ∧ last.target = key
      · obtain ⟨apart, rfl⟩ := moved
        rw [Copy.run_target apart, seen]
        refine Or.inr ?_
        obtain same | found := inductionHypothesis last.source
        · exact ⟨last, by simp, same⟩
        · exact weaken found
      · have kept : last.run arrive (copyInOrder arrive copies table) key =
            copyInOrder arrive copies table key := by
          by_cases inPlace : last.source = last.target
          · rw [Copy.run_inPlace inPlace]
          · exact Copy.run_of_ne fun same => moved ⟨inPlace, same⟩
        rw [kept]
        exact (inductionHypothesis key).imp_right weaken

/-- At a target stands what one of the copies was to bring. -/
theorem view_copyInOrder_target (table : κ → α) (separate : Separate copies)
    (member : copy ∈ copies) :
    ∃ origin ∈ copies,
      view (copyInOrder arrive copies table copy.target) = view (table origin.source) := by
  obtain same | found := view_copyInOrder seen copies table copy.target
  · by_cases inPlace : copy.source = copy.target
    · exact ⟨copy, member, by rw [same, inPlace]⟩
    · induction copies using List.reverseRecOn with
      | nil => cases member
      | append_singleton copies last inductionHypothesis =>
          obtain ⟨separate, others⟩ := separate_concat.mp separate
          rw [copyInOrder_concat] at same ⊢
          obtain earlier | isLast := List.mem_append.mp member
          · rw [Copy.run_of_ne (others copy earlier).symm] at same ⊢
            obtain ⟨origin, inside, looks⟩ := inductionHypothesis separate earlier same
            exact ⟨origin, List.mem_append_left _ inside, looks⟩
          · obtain rfl := List.mem_singleton.mp isLast
            rw [Copy.run_target inPlace, seen]
            obtain before | ⟨origin, inside, looks⟩ :=
              view_copyInOrder seen copies table copy.source
            · exact ⟨copy, by simp, before⟩
            · exact ⟨origin, List.mem_append_left _ inside, looks⟩
  · exact found

/-- Copies in their order are a simultaneous assignment exactly where no copy takes
its entry from a target that an earlier one has changed. -/
theorem copyInOrder_simultaneous_iff (separate : Separate copies) :
    (∀ copy ∈ copies,
        view (copyInOrder arrive copies table copy.target) = view (table copy.source)) ↔
      copies.Pairwise fun earlier later => earlier.target = later.source →
        view (table earlier.source) = view (table later.source) := by
  induction copies using List.reverseRecOn with
  | nil => simp
  | append_singleton copies last inductionHypothesis =>
      obtain ⟨separate, others⟩ := separate_concat.mp separate
      -- the copies before the last one keep their targets
      have before : (∀ copy ∈ copies, view (copyInOrder arrive (copies ++ [last]) table
            copy.target) = view (table copy.source)) ↔
          ∀ copy ∈ copies, view (copyInOrder arrive copies table copy.target) =
            view (table copy.source) := by
        refine forall₂_congr fun copy member => ?_
        rw [copyInOrder_concat, Copy.run_of_ne (others copy member).symm]
      have lastRight (right : ∀ copy ∈ copies, view (copyInOrder arrive copies table
            copy.target) = view (table copy.source)) :
          view (copyInOrder arrive (copies ++ [last]) table last.target) =
              view (table last.source) ↔
            ∀ copy ∈ copies, copy.target = last.source →
              view (table copy.source) = view (table last.source) := by
        rw [copyInOrder_concat]
        by_cases inPlace : last.source = last.target
        · rw [Copy.run_inPlace inPlace, copyInOrder_untouched others, inPlace]
          exact iff_of_true rfl fun copy member same => absurd same (others copy member)
        · rw [Copy.run_target inPlace, seen]
          constructor
          · intro same copy member target
            rw [← right copy member, target, same]
          · intro agree
            by_cases overwritten : ∃ copy ∈ copies, copy.target = last.source
            · obtain ⟨copy, member, target⟩ := overwritten
              rw [← target, right copy member, agree copy member target, target]
            · rw [copyInOrder_untouched fun copy member target =>
                overwritten ⟨copy, member, target⟩]
      simp only [List.forall_mem_append, List.forall_mem_singleton, List.pairwise_append,
        List.pairwise_singleton, true_and, before, ← inductionHypothesis separate]
      exact and_congr_right lastRight

end View

end Copies

end Ucb.Lib
