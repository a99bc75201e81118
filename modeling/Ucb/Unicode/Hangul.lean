import Ucb.Unicode.Utf8

/-!
Contract: Hangul syllables and the jamo they are made of.

Owns:
- the range checks and the arithmetic of `unicode.c`;
- decomposition and composition of scalar values by that arithmetic, and that
  each undoes the other.
-/

namespace Ucb.Unicode

/-! ## As the code computes them -/

def IsHangulSyllable (c : Nat) : Prop := c ≥ 0xAC00 ∧ c ≤ 0xD7A3

def IsLeadingJamo (c : Nat) : Prop := c ≥ 0x1100 ∧ c ≤ 0x1112

def IsVowelJamo (c : Nat) : Prop := c ≥ 0x1161 ∧ c ≤ 0x1175

def IsTrailingJamo (c : Nat) : Prop := c ≥ 0x11A8 ∧ c ≤ 0x11C2

instance (c : Nat) : Decidable (IsHangulSyllable c) := by unfold IsHangulSyllable; infer_instance
instance (c : Nat) : Decidable (IsLeadingJamo c) := by unfold IsLeadingJamo; infer_instance
instance (c : Nat) : Decidable (IsVowelJamo c) := by unfold IsVowelJamo; infer_instance
instance (c : Nat) : Decidable (IsTrailingJamo c) := by unfold IsTrailingJamo; infer_instance

/-- The jamo of a syllable as `norm_decompose_hangul` adds them. -/
def hangulJamo (syllable : Nat) : List Nat :=
  let s := syllable - 0xAC00
  let tIdx1 := s % 28
  let vIdx0 := ((s - tIdx1) % 588) / 28
  let lIdx0 := s / 588
  [0x1100 + lIdx0, 0x1161 + vIdx0] ++ if tIdx1 ≠ 0 then [0x11A7 + tIdx1] else []

def composeHangul (l v t : Nat) : Nat :=
  let lIdx0 := l - 0x1100
  let vIdx0 := v - 0x1161
  let tIdx1 := if t ≠ 0 then t - 0x11A7 else 0
  0xAC00 + (lIdx0 * 21 + vIdx0) * 28 + tIdx1

/-! ## On scalar values -/

def IsHangul (c : Nat) : Prop :=
  IsHangulSyllable c ∨ IsLeadingJamo c ∨ IsVowelJamo c ∨ IsTrailingJamo c

/-- A syllable without a trailing consonant. -/
def IsLvSyllable (c : Nat) : Prop :=
  IsHangulSyllable c ∧ (c - 0xAC00) % 28 = 0

instance (c : Nat) : Decidable (IsLvSyllable c) := by unfold IsLvSyllable; infer_instance

/-- The decomposition of a syllable, two or three jamo. -/
def hangulDecomposition (syllable : Scalar) (isSyllable : IsHangulSyllable syllable.val) :
    List Scalar :=
  let index := syllable.val - 0xAC00
  have inside : index < 11172 := by unfold IsHangulSyllable at isSyllable; omega
  let leading : Scalar := ⟨0x1100 + index / 588, .inl (by omega)⟩
  let vowel : Scalar := ⟨0x1161 + index % 588 / 28, .inl (by omega)⟩
  let trailing : Scalar := ⟨0x11A7 + index % 28, .inl (by omega)⟩
  if index % 28 = 0 then [leading, vowel] else [leading, vowel, trailing]

/-- The composite of a leading and a vowel jamo, or of a syllable without a
trailing consonant and a trailing jamo. -/
def hangulComposite (a b : Scalar) : Option Scalar :=
  if jamo : IsLeadingJamo a.val ∧ IsVowelJamo b.val then
    some ⟨0xAC00 + ((a.val - 0x1100) * 21 + (b.val - 0x1161)) * 28, by
      unfold IsLeadingJamo IsVowelJamo at jamo
      exact .inl (by omega)⟩
  else if closed : IsLvSyllable a.val ∧ IsTrailingJamo b.val then
    some ⟨a.val + (b.val - 0x11A7), by
      unfold IsLvSyllable IsHangulSyllable IsTrailingJamo at closed
      exact .inl (by omega)⟩
  else none

theorem hangulComposite_jamo {a b : Scalar} (leading : IsLeadingJamo a.val)
    (vowel : IsVowelJamo b.val) :
    ∃ p, hangulComposite a b = some p ∧ p.val = composeHangul a.val b.val 0 ∧
      IsLvSyllable p.val := by
  have shape : IsLvSyllable (composeHangul a.val b.val 0) := by
    unfold IsLvSyllable IsHangulSyllable composeHangul
    unfold IsLeadingJamo at leading
    unfold IsVowelJamo at vowel
    simp only [ne_eq, not_true_eq_false, if_false]
    omega
  have joined : (hangulComposite a b).map Subtype.val = some (composeHangul a.val b.val 0) := by
    rw [hangulComposite, dif_pos ⟨leading, vowel⟩]
    simp [composeHangul]
  obtain ⟨p, found, value⟩ := Option.map_eq_some_iff.mp joined
  exact ⟨p, found, value, value ▸ shape⟩

theorem hangulComposite_trailing {a b : Scalar} (syllable : IsLvSyllable a.val)
    (trailing : IsTrailingJamo b.val) :
    ∃ p, hangulComposite a b = some p ∧ p.val = a.val + (b.val - 0x11A7) ∧
      IsHangulSyllable p.val ∧ ¬ IsLvSyllable p.val := by
  have shape : IsHangulSyllable (a.val + (b.val - 0x11A7)) ∧
      ¬ IsLvSyllable (a.val + (b.val - 0x11A7)) := by
    unfold IsLvSyllable IsHangulSyllable at *
    unfold IsTrailingJamo at trailing
    omega
  have noJamo : ¬ (IsLeadingJamo a.val ∧ IsVowelJamo b.val) := by
    unfold IsLvSyllable IsHangulSyllable at syllable
    unfold IsLeadingJamo
    omega
  have joined : (hangulComposite a b).map Subtype.val = some (a.val + (b.val - 0x11A7)) := by
    rw [hangulComposite, dif_neg noJamo, dif_pos ⟨syllable, trailing⟩]
    rfl
  obtain ⟨p, found, value⟩ := Option.map_eq_some_iff.mp joined
  exact ⟨p, found, value, value ▸ shape⟩

/-- What a composite tells about its parts. -/
theorem hangulComposite_eq_some {a b p : Scalar} (joined : hangulComposite a b = some p) :
    (IsLeadingJamo a.val ∧ IsVowelJamo b.val ∧ p.val = composeHangul a.val b.val 0 ∧
        IsLvSyllable p.val) ∨
      (IsLvSyllable a.val ∧ IsTrailingJamo b.val ∧ p.val = a.val + (b.val - 0x11A7) ∧
        IsHangulSyllable p.val ∧ ¬ IsLvSyllable p.val) := by
  by_cases jamo : IsLeadingJamo a.val ∧ IsVowelJamo b.val
  · obtain ⟨q, found, value, shape⟩ := hangulComposite_jamo jamo.1 jamo.2
    obtain rfl := Option.some.inj (joined.symm.trans found)
    exact .inl ⟨jamo.1, jamo.2, value, shape⟩
  · by_cases closed : IsLvSyllable a.val ∧ IsTrailingJamo b.val
    · obtain ⟨q, found, value, shape⟩ := hangulComposite_trailing closed.1 closed.2
      obtain rfl := Option.some.inj (joined.symm.trans found)
      exact .inr ⟨closed.1, closed.2, value, shape⟩
    · rw [hangulComposite, dif_neg jamo, dif_neg closed] at joined
      cases joined

theorem hangulJamo_eq (syllable : Scalar) (isSyllable : IsHangulSyllable syllable.val) :
    (hangulDecomposition syllable isSyllable).map Subtype.val = hangulJamo syllable.val := by
  have vowel : (syllable.val - 0xAC00 - (syllable.val - 0xAC00) % 28) % 588 / 28 =
      (syllable.val - 0xAC00) % 588 / 28 := by omega
  unfold hangulDecomposition hangulJamo
  by_cases open' : (syllable.val - 0xAC00) % 28 = 0
  · simp [open']
  · simp [open', vowel]

theorem hangulDecomposition_jamo {syllable : Scalar} (isSyllable : IsHangulSyllable syllable.val) :
    ∀ jamo ∈ hangulDecomposition syllable isSyllable,
      IsLeadingJamo jamo.val ∨ IsVowelJamo jamo.val ∨ IsTrailingJamo jamo.val := by
  have bounds := isSyllable
  unfold IsHangulSyllable at bounds
  unfold hangulDecomposition IsLeadingJamo IsVowelJamo IsTrailingJamo
  intro jamo member
  dsimp only at member
  split at member
  · simp only [List.mem_cons, List.not_mem_nil, or_false] at member
    rcases member with rfl | rfl
    · exact .inl (by dsimp only; omega)
    · exact .inr (.inl (by dsimp only; omega))
  · simp only [List.mem_cons, List.not_mem_nil, or_false] at member
    rcases member with rfl | rfl | rfl
    · exact .inl (by dsimp only; omega)
    · exact .inr (.inl (by dsimp only; omega))
    · exact .inr (.inr (by dsimp only; omega))

theorem hangulDecomposition_ne_nil {syllable : Scalar}
    (isSyllable : IsHangulSyllable syllable.val) :
    hangulDecomposition syllable isSyllable ≠ [] := by
  unfold hangulDecomposition
  dsimp only
  split <;> simp

theorem jamo_not_syllable {c : Nat} (jamo : IsLeadingJamo c ∨ IsVowelJamo c ∨ IsTrailingJamo c) :
    ¬ IsHangulSyllable c := by
  unfold IsLeadingJamo IsVowelJamo IsTrailingJamo at jamo
  unfold IsHangulSyllable
  omega

/-! ## Decomposition undoes composition -/

theorem hangulJamo_lv {l v : Nat} (leading : IsLeadingJamo l) (vowel : IsVowelJamo v) :
    hangulJamo (composeHangul l v 0) = [l, v] := by
  unfold IsLeadingJamo at leading
  unfold IsVowelJamo at vowel
  obtain ⟨i, rfl⟩ := Nat.exists_eq_add_of_le leading.1
  obtain ⟨j, rfl⟩ := Nat.exists_eq_add_of_le vowel.1
  have index : composeHangul (0x1100 + i) (0x1161 + j) 0 - 0xAC00 = (i * 21 + j) * 28 := by
    simp [composeHangul]
  have noTrailing : (i * 21 + j) * 28 % 28 = 0 := by omega
  have vowelIndex : (i * 21 + j) * 28 % 588 / 28 = j := by omega
  have leadingIndex : (i * 21 + j) * 28 / 588 = i := by omega
  simp [hangulJamo, index, noTrailing, vowelIndex, leadingIndex]

theorem hangulJamo_trailing {s t : Nat} (syllable : IsLvSyllable s) (trailing : IsTrailingJamo t) :
    hangulJamo (s + (t - 0x11A7)) = hangulJamo s ++ [t] := by
  obtain ⟨⟨low, -⟩, isOpen⟩ := syllable
  unfold IsTrailingJamo at trailing
  obtain ⟨i, rfl⟩ := Nat.exists_eq_add_of_le low
  obtain ⟨k, rfl⟩ := Nat.exists_eq_add_of_le trailing.1
  rw [Nat.add_sub_cancel_left] at isOpen
  have index : 0xAC00 + i + (0x11A8 + k - 0x11A7) - 0xAC00 = i + (k + 1) := by omega
  have trailingIndex : (i + (k + 1)) % 28 = k + 1 := by omega
  have vowelIndex : (i + (k + 1) - (k + 1)) % 588 / 28 = i % 588 / 28 := by omega
  have leadingIndex : (i + (k + 1)) / 588 = i / 588 := by omega
  have last : 0x11A7 + (k + 1) = 0x11A8 + k := by omega
  simp only [hangulJamo, index, trailingIndex, vowelIndex, leadingIndex, last,
    Nat.add_sub_cancel_left, isOpen, Nat.sub_zero]
  simp

theorem map_val_injective {left right : List Scalar}
    (same : left.map Subtype.val = right.map Subtype.val) : left = right :=
  List.map_injective_iff.mpr Subtype.val_injective same

/-- Decomposing a composite gives back its parts. -/
theorem hangulDecomposition_composite {a b p : Scalar} (joined : hangulComposite a b = some p)
    (isSyllable : IsHangulSyllable p.val) :
    (IsLeadingJamo a.val ∧ hangulDecomposition p isSyllable = [a, b]) ∨
      ∃ first : IsHangulSyllable a.val,
        hangulDecomposition p isSyllable = hangulDecomposition a first ++ [b] := by
  rcases hangulComposite_eq_some joined with
    ⟨leading, vowel, value, -⟩ | ⟨syllable, trailing, value, -⟩
  · refine .inl ⟨leading, map_val_injective ?_⟩
    rw [hangulJamo_eq, value, hangulJamo_lv leading vowel]
    rfl
  · refine .inr ⟨syllable.1, map_val_injective ?_⟩
    rw [List.map_append, hangulJamo_eq, hangulJamo_eq, value,
      hangulJamo_trailing syllable trailing]
    rfl

theorem exists_hangulComposite {s : Scalar} (isSyllable : IsHangulSyllable s.val) :
    ∃ a b, (IsLeadingJamo a.val ∨ (IsLvSyllable a.val ∧ ¬ IsLvSyllable s.val)) ∧
      hangulComposite a b = some s := by
  obtain ⟨index, total⟩ := Nat.exists_eq_add_of_le isSyllable.1
  have inside : index < 11172 := by
    have last := isSyllable.2
    omega
  by_cases lv : IsLvSyllable s.val
  · have isOpen : index % 28 = 0 := by
      have shape := lv.2
      rwa [total, Nat.add_sub_cancel_left] at shape
    have leading : IsLeadingJamo (0x1100 + index / 588) := ⟨by omega, by omega⟩
    have vowel : IsVowelJamo (0x1161 + index % 588 / 28) := ⟨by omega, by omega⟩
    obtain ⟨p, joined, value, -⟩ :=
      hangulComposite_jamo (a := ⟨0x1100 + index / 588, .inl (by omega)⟩)
        (b := ⟨0x1161 + index % 588 / 28, .inl (by omega)⟩) leading vowel
    have same : p = s := by
      refine Subtype.ext (value.trans ?_)
      simp only [composeHangul, ne_eq, not_true_eq_false, if_false]
      omega
    exact ⟨_, _, .inl leading, same ▸ joined⟩
  · have closed : index % 28 ≠ 0 := by
      intro isOpen
      refine lv ⟨isSyllable, ?_⟩
      rwa [total, Nat.add_sub_cancel_left]
    have syllable : IsLvSyllable (0xAC00 + (index - index % 28)) :=
      ⟨⟨by omega, by omega⟩, by omega⟩
    have trailing : IsTrailingJamo (0x11A7 + index % 28) := ⟨by omega, by omega⟩
    obtain ⟨p, joined, value, -⟩ :=
      hangulComposite_trailing (a := ⟨0xAC00 + (index - index % 28), .inl (by omega)⟩)
        (b := ⟨0x11A7 + index % 28, .inl (by omega)⟩) syllable trailing
    have same : p = s := by
      refine Subtype.ext (value.trans ?_)
      dsimp only
      omega
    exact ⟨_, _, .inr ⟨syllable, lv⟩, same ▸ joined⟩

end Ucb.Unicode
