import Ucb.Lib.NextPlace
import Ucb.Str.Exact

/-!
Contract: `ucb_str_find`, as `string.c` computes it.

Owns:
- the search loop and its early returns;
- that the loop finds the least occurrence from its start on;
- when the search is right, and when searching again from behind every result
  ends with all occurrences.
-/

namespace Ucb.Str

open Ucb.Lib Ucb.Unicode

/-! ## The search -/

/-- The loop of `ucb_str_find`, with `left` positions from `p` to `end` to try. -/
def findLoop (data substr : List UInt8) : Nat → Nat → Exec (Option Nat)
  | _, 0 => pure none
  | p, left + 1 => do
      let bytes ← slice data p substr.length
      if bytes = substr then pure (some p) else findLoop data substr (p + 1) left

/-- `ucb_str_find`; `none` is `UCB_NPOS`. -/
def ucbStrFind (str substr : UcbStr) (pos : Nat) : Exec (Option Nat) :=
  if substr.size = 0 then pure (some 0)
  else if pos > str.size ∨ substr.size > str.size - pos then pure none
  else do
    let data ← str.data.load
    let mem ← substr.data.load
    let bytes ← slice mem 0 substr.size
    findLoop data bytes pos (str.size - substr.size + 1 - pos)

/-! ## Occurrences -/

/-- The bytes of `substr` stand in the text at `q`. -/
def OccursAt (text substr : List UInt8) (q : Nat) : Prop :=
  q + substr.length ≤ text.length ∧ (text.drop q).take substr.length = substr

theorem occursAt_slice (text substr rest : List UInt8) {q : Nat}
    (inside : q + substr.length ≤ text.length) : ∃ bytes,
      slice (text ++ rest) q substr.length = .ok bytes ∧
        (bytes = substr ↔ OccursAt text substr q) := by
  have within : q + substr.length ≤ (text ++ rest).length := by
    rw [List.length_append]
    omega
  have here : ((text ++ rest).drop q).take substr.length = (text.drop q).take substr.length := by
    rw [List.drop_append_of_le_length (by omega), List.take_append_of_le_length]
    rw [List.length_drop]
    omega
  refine ⟨_, if_pos within, ?_⟩
  rw [here, OccursAt, and_iff_right inside]

/-- The loop tries the positions in order and stops at the first occurrence. -/
theorem findLoop_isNext {text substr : List UInt8} (rest : List UInt8) (left : Nat) :
    ∀ p, p + left + substr.length = text.length + 1 →
      ∃ answer, findLoop (text ++ rest) substr p left = .ok answer ∧
        IsNext (OccursAt text substr) p answer := by
  induction left with
  | zero =>
      intro p ends
      refine ⟨none, rfl, fun q behind occurs => ?_⟩
      have inside := occurs.1
      omega
  | succ left inductionHypothesis =>
      intro p ends
      obtain ⟨bytes, read, here⟩ := occursAt_slice text substr rest (show p + _ ≤ _ by omega)
      rw [findLoop, read, Exec.ok_bind]
      by_cases same : bytes = substr
      · refine ⟨some p, if_pos same, ⟨le_refl p, here.mp same⟩, ?_⟩
        exact fun q both => both.1
      · obtain ⟨answer, found, next⟩ := inductionHypothesis (p + 1) (by omega)
        refine ⟨answer, by rw [if_neg same, found], ?_⟩
        have skip (q : Nat) : (p + 1 ≤ q ∧ OccursAt text substr q) ↔
            (p ≤ q ∧ OccursAt text substr q) := by
          constructor
          · exact fun both => ⟨by omega, both.2⟩
          · rintro ⟨inside, occurs⟩
            refine ⟨?_, occurs⟩
            rcases Nat.eq_or_lt_of_le inside with rfl | behind
            · exact absurd (here.mpr occurs) same
            · exact behind
        cases answer with
        | none => exact fun q inside occurs => next q ((skip q).mpr ⟨inside, occurs⟩).1 occurs
        | some place => exact ⟨(skip place).mp next.1, fun q both => next.2 ((skip q).mpr both)⟩

variable {str substr : UcbStr}

/-- The bytes of a string, as the code reads them through `data` and `size`. -/
theorem RepInv.slice_text (valid : RepInv str) : ∃ data, str.data.load = .ok data ∧
    slice data 0 str.size = .ok str.text := by
  obtain ⟨spare, load⟩ := valid.holds_text.load
  refine ⟨_, load, ?_⟩
  rw [valid.holds_text.size_eq]
  exact slice_left _ _

theorem RepInv.text_eq_nil (valid : RepInv str) : str.text = [] ↔ str.size = 0 := by
  rw [valid.holds_text.size_eq, List.length_eq_zero_iff]

/-- A nonempty text is found at its least occurrence from `pos` on. -/
theorem find_isNext (valid : RepInv str) (substrValid : RepInv substr)
    (nonempty : substr.text ≠ []) (pos : Nat) : ∃ answer, ucbStrFind str substr pos = .ok answer ∧
      IsNext (OccursAt str.text substr.text) pos answer := by
  have size := valid.holds_text.size_eq
  have substrSize := substrValid.holds_text.size_eq
  have nonzero : ¬ substr.size = 0 := fun zero => nonempty (substrValid.text_eq_nil.mpr zero)
  rw [ucbStrFind, if_neg nonzero]
  by_cases outside : pos > str.size ∨ substr.size > str.size - pos
  · refine ⟨none, if_pos outside, fun q inside occurs => ?_⟩
    have fits := occurs.1
    omega
  · obtain ⟨spare, load⟩ := valid.holds_text.load
    obtain ⟨mem, substrLoad, bytes⟩ := substrValid.slice_text
    rw [if_neg outside, load, Exec.ok_bind, substrLoad, Exec.ok_bind, bytes, Exec.ok_bind]
    exact findLoop_isNext spare _ pos (by omega)

theorem find_empty (str : UcbStr) (substrValid : RepInv substr) (empty : substr.text = [])
    (pos : Nat) : ucbStrFind str substr pos = .ok (some 0) :=
  if_pos (substrValid.text_eq_nil.mp empty)

/-! ## When it is right -/

/-- The result of the search is the least occurrence from `pos` on. -/
def FindsNext (str substr : UcbStr) (pos : Nat) : Prop :=
  ∃ answer, ucbStrFind str substr pos = .ok answer ∧
    IsNext (OccursAt str.text substr.text) pos answer

/-- Searching from `pos` and then from behind every result ends with all occurrences. -/
def FindsAll (str substr : UcbStr) (pos : Nat) : Prop :=
  ∃ found, Walk (fun pos answer => ucbStrFind str substr pos = .ok answer) pos found ∧
    ListsPlaces (OccursAt str.text substr.text) pos found

/-- An empty text is always found at the front, which is right for a search from the front
only; a walk over its occurrences never ends. -/
theorem find_right_iff (valid : RepInv str) (substrValid : RepInv substr) (pos : Nat) :
    (FindsNext str substr pos ↔ substr.text ≠ [] ∨ pos = 0) ∧
      (FindsAll str substr pos ↔ substr.text ≠ []) := by
  by_cases empty : substr.text = []
  · have found := find_empty str substrValid empty
    simp only [empty, ne_eq, not_true_eq_false, false_or, iff_false]
    refine ⟨⟨fun next => ?_, fun front => ?_⟩, fun all => ?_⟩
    · obtain ⟨answer, answered, next⟩ := next
      rw [found pos] at answered
      obtain rfl := Exec.ok.inj answered
      exact Nat.le_zero.mp next.1.1
    · subst front
      refine ⟨some 0, found 0, ⟨le_refl 0, ?_⟩, fun q both => Nat.zero_le q⟩
      rw [OccursAt, empty]
      exact ⟨Nat.zero_le _, rfl⟩
    · obtain ⟨places, walk, -⟩ := all
      refine not_walk_of_always (fun pos answer answered => ?_) places walk
      rw [found pos] at answered
      obtain rfl := Exec.ok.inj answered
      exact Option.some_ne_none 0
  · have right := find_isNext valid substrValid empty
    simp only [ne_eq, empty, not_false_eq_true, true_or, iff_true]
    have bounded : ∀ q, OccursAt str.text substr.text q → q < str.text.length + 1 := by
      intro q occurs
      have inside := occurs.1
      omega
    exact ⟨right pos, walk_of_right bounded right pos⟩

/-- The text `aba`. -/
def aba : List UInt8 :=
  [97, 98, 97]

theorem isText_aba : IsText aba :=
  isText_of_ascii (by simp [aba])

theorem find_right_iff_aba : FindsNext (madeOf aba) (madeOf [97]) 1 ∧
    FindsAll (madeOf aba) (madeOf [97]) 0 := by
  have valid := madeOf_repInv isText_aba
  have letter : RepInv (madeOf [97]) := madeOf_repInv (isText_of_ascii (by simp))
  have nonempty : (madeOf [97]).text ≠ [] := by decide
  exact ⟨(find_right_iff valid letter 1).1.mpr (.inl nonempty),
    (find_right_iff valid letter 0).2.mpr nonempty⟩

/-- Searching `aba` for the empty text from 1 gives 0, and from 9 as well. -/
theorem find_before_start : RepInv (madeOf aba) ∧ RepInv .interned ∧
    ucbStrFind (madeOf aba) .interned 1 = .ok (some 0) ∧
    ucbStrFind (madeOf aba) .interned 9 = .ok (some 0) ∧
    ¬ FindsNext (madeOf aba) .interned 1 ∧ ¬ FindsAll (madeOf aba) .interned 0 := by
  refine ⟨madeOf_repInv isText_aba, repInv_interned, rfl, rfl, ?_, ?_⟩
  · rintro ⟨answer, answered, next⟩
    obtain rfl : some 0 = answer := Exec.ok.inj answered
    exact absurd next.1.1 (by decide)
  · rintro ⟨places, walk, -⟩
    refine not_walk_of_always (fun pos answer answered => ?_) places walk
    obtain rfl : some 0 = answer := Exec.ok.inj answered
    exact Option.some_ne_none 0

end Ucb.Str
