import Mathlib.Data.List.Basic

/-!
Contract: the words of a text, and texts filled into rows.

Owns:
- `wordsBy`, the maximal runs without separators;
- `Filled`, rows of which none could have taken the first word of the next.
-/

namespace Ucb.Lib

universe u

variable {α : Type u} {isSep : α → Bool}

/-! ## Words -/

/-- The maximal runs of a text without separators. -/
def wordsBy (isSep : α → Bool) (text : List α) : List (List α) :=
  (text.splitOnP isSep).filter fun word => !word.isEmpty

theorem wordsBy_nil : wordsBy isSep [] = [] := by
  simp [wordsBy, List.splitOnP_nil]

/-- A separator parts the words in front of it from those behind. -/
theorem wordsBy_append_sep {sep : α} (separates : isSep sep = true) (front back : List α) :
    wordsBy isSep (front ++ sep :: back) = wordsBy isSep front ++ wordsBy isSep back := by
  rw [wordsBy, List.splitOnP_append_cons front back separates, List.filter_append]
  rfl

theorem wordsBy_sep {sep : α} (separates : isSep sep = true) (back : List α) :
    wordsBy isSep (sep :: back) = wordsBy isSep back := by
  have parted := wordsBy_append_sep separates [] back
  rwa [List.nil_append, wordsBy_nil, List.nil_append] at parted

/-- Separators in front of a text. -/
theorem wordsBy_seps {seps : List α} (separate : ∀ c ∈ seps, isSep c = true) (back : List α) :
    wordsBy isSep (seps ++ back) = wordsBy isSep back := by
  induction seps with
  | nil => rfl
  | cons c seps inductionHypothesis =>
      rw [List.cons_append, wordsBy_sep (separate c List.mem_cons_self)]
      exact inductionHypothesis fun other member => separate other (List.mem_cons_of_mem _ member)

/-- A run without separators is a word. -/
theorem wordsBy_run {run : List α} (plain : ∀ c ∈ run, isSep c = false) (nonempty : run ≠ []) :
    wordsBy isSep run = [run] := by
  rw [wordsBy, List.splitOnP_eq_singleton plain]
  simp [nonempty]

/-- Separators between two parts of a text. -/
theorem wordsBy_append_seps {front gap back : List α} (separate : ∀ c ∈ gap, isSep c = true)
    (parted : gap ≠ [] ∨ back = []) :
    wordsBy isSep (front ++ (gap ++ back)) = wordsBy isSep front ++ wordsBy isSep back := by
  cases gap with
  | nil =>
      obtain rfl := parted.resolve_left fun other => other rfl
      simp [wordsBy_nil]
  | cons c gap =>
      rw [List.cons_append, wordsBy_append_sep (separate c List.mem_cons_self),
        wordsBy_seps fun other member => separate other (List.mem_cons_of_mem _ member)]

/-! ## Rows -/

/-- Rows of which each was too full for the first word of the next. -/
def Filled (words : List α → List (List α)) (width : Nat) (rows : List (List α)) : Prop :=
  rows.IsChain fun row next =>
    ∃ word, (words next).head? = some word ∧ width < row.length + 1 + word.length

theorem filled_singleton (words : List α → List (List α)) (width : Nat) (row : List α) :
    Filled words width [row] :=
  List.IsChain.singleton row

/-- A row in front of filled rows. -/
theorem Filled.cons {words : List α → List (List α)} {width : Nat} {row next : List α}
    {rows : List (List α)} (filled : Filled words width (next :: rows)) {word : List α}
    (first : (words next).head? = some word) (full : width < row.length + 1 + word.length) :
    Filled words width (row :: next :: rows) :=
  List.isChain_cons_cons.mpr ⟨⟨word, first, full⟩, filled⟩

end Ucb.Lib
