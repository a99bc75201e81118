import Mathlib.Data.List.Basic

/-!
Contract: a sequence in blocks of one size, where equal blocks are stored once.

Owns:
- what it means that a table has a block at a number, and that numbers lead to the blocks of a
  sequence;
- extending the table and the sequence by a block;
- the two loads that find an element of the sequence.
-/

namespace Ucb.Lib

universe u

variable {α : Type u}

/-- The table has this block, behind as many others as the number says. -/
def HasBlock (size : Nat) (table : List α) (number : Nat) (block : List α) : Prop :=
  block.length = size ∧
    ∃ front back, table = front ++ block ++ back ∧ front.length = number * size

/-- The numbers lead to the blocks of the content, one after the other. -/
inductive Blocks (size : Nat) (table : List α) : List α → List Nat → Prop
  | nil : Blocks size table [] []
  | snoc {content block : List α} {index : List Nat} {number : Nat} :
      Blocks size table content index → HasBlock size table number block →
        Blocks size table (content ++ block) (index ++ [number])

variable {size number : Nat} {table block content : List α} {index : List Nat}

/-! ## Extending -/

theorem HasBlock.extend (has : HasBlock size table number block) (more : List α) :
    HasBlock size (table ++ more) number block := by
  obtain ⟨whole, front, back, rfl, behind⟩ := has
  exact ⟨whole, front, back ++ more, by simp only [List.append_assoc], behind⟩

/-- A new block has the number of blocks in front of it. -/
theorem hasBlock_new (aligned : size ∣ table.length)
    (whole : block.length = size) :
    HasBlock size (table ++ block) (table.length / size) block := by
  refine ⟨whole, table, [], by rw [List.append_nil], ?_⟩
  exact (Nat.div_mul_cancel aligned).symm

theorem Blocks.extend (blocks : Blocks size table content index) (more : List α) :
    Blocks size (table ++ more) content index := by
  induction blocks with
  | nil => exact .nil
  | snoc _ has inductionHypothesis => exact .snoc inductionHypothesis (has.extend more)

/-! ## Loads -/

theorem HasBlock.load (has : HasBlock size table number block) {position : Nat}
    (inside : position < size) : table[number * size + position]? = block[position]? := by
  obtain ⟨whole, front, back, rfl, behind⟩ := has
  rw [← behind, List.append_assoc, List.getElem?_append_right (Nat.le_add_right _ _),
    Nat.add_sub_cancel_left, List.getElem?_append_left (by omega)]

theorem Blocks.length_eq (blocks : Blocks size table content index) :
    content.length = index.length * size := by
  induction blocks with
  | nil => simp
  | snoc _ has inductionHypothesis =>
      rw [List.length_append, List.length_append, List.length_singleton, inductionHypothesis,
        has.1, Nat.succ_mul]

/-- Every number leads into the table. -/
theorem Blocks.inside (blocks : Blocks size table content index) :
    ∀ number ∈ index, number * size + size ≤ table.length := by
  induction blocks with
  | nil => simp
  | @snoc content block index number _ has inductionHypothesis =>
      intro other member
      rcases List.mem_append.mp member with before | last
      · exact inductionHypothesis other before
      · obtain rfl := List.mem_singleton.mp last
        obtain ⟨whole, front, back, rfl, behind⟩ := has
        rw [List.length_append, List.length_append, behind, whole]
        exact Nat.le_add_right _ _

/-- Two loads find an element: the number of its block, and the element in this block. -/
theorem Blocks.load (positive : 0 < size) (blocks : Blocks size table content index)
    {position : Nat} (inside : position < content.length) :
    ∃ number, index[position / size]? = some number ∧
      table[number * size + position % size]? = content[position]? := by
  induction blocks with
  | nil => cases inside
  | @snoc content block index number front has inductionHypothesis =>
      have length := front.length_eq
      by_cases early : position < content.length
      · obtain ⟨found, numbered, loaded⟩ := inductionHypothesis early
        have below : position / size < index.length := by
          rw [Nat.div_lt_iff_lt_mul positive, ← length]
          exact early
        refine ⟨found, ?_, ?_⟩
        · rw [List.getElem?_append_left below, numbered]
        · rw [List.getElem?_append_left early, loaded]
      · obtain ⟨rest, rfl⟩ := Nat.exists_eq_add_of_le (Nat.le_of_not_lt early)
        have last : rest < size := by
          rw [List.length_append, has.1] at inside
          omega
        have quotient : (content.length + rest) / size = index.length := by
          rw [length, Nat.add_comm, Nat.add_mul_div_right _ _ positive, Nat.div_eq_of_lt last,
            Nat.zero_add]
        have remainder : (content.length + rest) % size = rest := by
          rw [length, Nat.mul_comm, Nat.mul_add_mod, Nat.mod_eq_of_lt last]
        refine ⟨number, ?_, ?_⟩
        · rw [quotient, List.getElem?_concat_length]
        · rw [remainder, has.load last, List.getElem?_append_right (Nat.le_add_right _ _),
            Nat.add_sub_cancel_left]

end Ucb.Lib
