import Mathlib.Data.List.Basic
import Mathlib.Data.List.Induction
import Mathlib.Algebra.Ring.Parity

/-!
Contract: patterns that a text ends with, and how they grow with the text.

Owns:
- `EndsWith`, `EndsIn` and `EndsInOddRun`, each read over a whole text;
- for each of them the law that says when it holds after one more element.

These laws turn a pattern over a text of any length into the update of a
scanner that only remembers whether the pattern holds.
-/

namespace Ucb.Lib

universe u

variable {α : Type u}

/-- The last element of the text satisfies `p`. -/
def EndsWith (p : α → Prop) (text : List α) : Prop :=
  ∃ front last, text = front ++ [last] ∧ p last

/-- The text ends with an element that `head` accepts after what precedes it,
followed by any number of elements that `tail` accepts. -/
def EndsIn (head : List α → α → Prop) (tail : α → Prop) (text : List α) : Prop :=
  ∃ front first run, text = front ++ first :: run ∧ head front first ∧ ∀ item ∈ run, tail item

/-- The longest run of `p` at the end of the text has odd length. -/
def EndsInOddRun (p : α → Prop) (text : List α) : Prop :=
  ∃ front run, text = front ++ run ∧ (∀ item ∈ run, p item) ∧ Odd run.length ∧
    ¬ EndsWith p front

theorem endsWith_concat (p : α → Prop) (text : List α) (item : α) :
    EndsWith p (text ++ [item]) ↔ p item := by
  constructor
  · rintro ⟨front, last, split, holds⟩
    have same := (List.append_inj' split rfl).2
    rwa [← List.head_eq_of_cons_eq same] at holds
  · exact fun holds => ⟨text, item, rfl, holds⟩

theorem not_endsWith_nil (p : α → Prop) : ¬ EndsWith p [] := by
  rintro ⟨front, last, split, -⟩
  simp at split

theorem not_endsIn_nil (head : List α → α → Prop) (tail : α → Prop) : ¬ EndsIn head tail [] := by
  rintro ⟨front, first, run, split, -⟩
  simp at split

/-- One more element either starts the pattern or extends it. -/
theorem endsIn_concat (head : List α → α → Prop) (tail : α → Prop) (text : List α) (item : α) :
    EndsIn head tail (text ++ [item]) ↔ head text item ∨ (tail item ∧ EndsIn head tail text) := by
  constructor
  · rintro ⟨front, first, run, split, starts, follows⟩
    rcases List.eq_nil_or_concat' run with rfl | ⟨run, last, rfl⟩
    · obtain ⟨rfl, same⟩ := List.append_inj' split rfl
      obtain rfl := List.head_eq_of_cons_eq same
      exact .inl starts
    · rw [← List.cons_append, ← List.append_assoc] at split
      obtain ⟨rfl, same⟩ := List.append_inj' split rfl
      obtain rfl := List.head_eq_of_cons_eq same
      refine .inr ⟨follows item (by simp), front, first, run, rfl, starts, ?_⟩
      exact fun other member => follows other (by simp [member])
  · rintro (starts | ⟨extends_, front, first, run, rfl, starts, follows⟩)
    · exact ⟨text, item, [], rfl, starts, by simp⟩
    · refine ⟨front, first, run ++ [item], by simp, starts, ?_⟩
      intro other member
      rcases List.mem_append.mp member with inRun | isLast
      · exact follows other inRun
      · rwa [List.mem_singleton.mp isLast]

/-- Every text splits into a front and its longest final run of `p`. -/
theorem exists_final_run (p : α → Prop) (text : List α) :
    ∃ front run, text = front ++ run ∧ (∀ item ∈ run, p item) ∧ ¬ EndsWith p front := by
  induction text using List.reverseRecOn with
  | nil => exact ⟨[], [], rfl, by simp, not_endsWith_nil p⟩
  | append_singleton text item inductionHypothesis =>
      by_cases holds : p item
      · obtain ⟨front, run, rfl, all, maximal⟩ := inductionHypothesis
        refine ⟨front, run ++ [item], by simp, ?_, maximal⟩
        intro other member
        rcases List.mem_append.mp member with inRun | isLast
        · exact all other inRun
        · rwa [List.mem_singleton.mp isLast]
      · exact ⟨text ++ [item], [], by simp, by simp, mt (endsWith_concat p text item).mp holds⟩

/-- The final run cannot be extended into a front that does not end in `p`. -/
private theorem final_run_le {p : α → Prop} {front run front' run' : List α}
    (split : front ++ run = front' ++ run') (all' : ∀ item ∈ run', p item)
    (maximal : ¬ EndsWith p front) : run'.length ≤ run.length := by
  rcases List.append_eq_append_iff.mp split with ⟨missing, rfl, rfl⟩ | ⟨missing, rfl, rfl⟩
  · simp
  · rcases List.eq_nil_or_concat' missing with rfl | ⟨missing, last, rfl⟩
    · simp
    · exact absurd ⟨front' ++ missing, last, by simp, all' last (by simp)⟩ maximal

/-- The parity flips with every further element of the run. -/
theorem endsInOddRun_concat (p : α → Prop) (text : List α) (item : α) :
    EndsInOddRun p (text ++ [item]) ↔ p item ∧ ¬ EndsInOddRun p text := by
  constructor
  · rintro ⟨front, run, split, all, odd, maximal⟩
    rcases List.eq_nil_or_concat' run with rfl | ⟨run, last, rfl⟩
    · simp at odd
    · rw [← List.append_assoc] at split
      obtain ⟨rfl, same⟩ := List.append_inj' split rfl
      obtain rfl := List.head_eq_of_cons_eq same
      refine ⟨all item (by simp), ?_⟩
      rintro ⟨front', run', split', all', odd', maximal'⟩
      have allRun : ∀ other ∈ run, p other := fun other member => all other (by simp [member])
      have sameLength : run.length = run'.length :=
        Nat.le_antisymm (final_run_le split'.symm allRun maximal')
          (final_run_le split' all' maximal)
      rw [List.length_append, List.length_singleton, sameLength] at odd
      exact Nat.not_even_iff_odd.mpr odd odd'.add_one
  · rintro ⟨holds, notOdd⟩
    obtain ⟨front, run, rfl, all, maximal⟩ := exists_final_run p text
    have even : Even run.length := by
      by_contra odd
      exact notOdd ⟨front, run, rfl, all, Nat.not_even_iff_odd.mp odd, maximal⟩
    refine ⟨front, run ++ [item], by simp, ?_, ?_, maximal⟩
    · intro other member
      rcases List.mem_append.mp member with inRun | isLast
      · exact all other inRun
      · rwa [List.mem_singleton.mp isLast]
    · simpa using even.add_one

theorem not_endsInOddRun_nil (p : α → Prop) : ¬ EndsInOddRun p [] := by
  rintro ⟨front, run, split, -, odd, -⟩
  obtain ⟨-, rfl⟩ := List.append_eq_nil_iff.mp split.symm
  simp at odd

end Ucb.Lib
