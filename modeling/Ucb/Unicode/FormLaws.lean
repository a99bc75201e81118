import Ucb.Unicode.Ucd

/-!
Contract: what one normalization form of another one is.

Owns:
- what the database guarantees about primary composites and marks besides `Ucd`;
- characters that a decomposition leaves alone;
- the one law behind the others: a form of a form composes as the outer one says, and has
  compatibility decompositions when either has.
-/

namespace Ucb.Unicode

open Ucb.Lib

/-- What the database guarantees about primary composites: they are starters, their first
character is undecomposable or a primary composite again and their second one is undecomposable,
and their full decompositions are in canonical order. Marks have no compatibility decompositions,
and canonical decompositions have no jamo and at most two characters. -/
structure Ucd.Consistent (ucd : Ucd) : Prop where
  starter : ∀ {a b p}, ucd.primary a b = some p → ucd.ccc p = 0
  first : ∀ {a b p vals}, ucd.primary a b = some p → ucd.mapping a = some (.canon, vals) →
    ∃ c d, ucd.primary c d = some a
  second : ∀ {a b p vals}, ucd.primary a b = some p → ucd.mapping b ≠ some (.canon, vals)
  inOrder : ∀ {a b p}, ucd.primary a b = some p →
    CanonicallyOrdered ucd.ccc (ucd.decompose false p)
  marks : ∀ {cp vals}, 0 < ucd.ccc cp → ucd.mapping cp ≠ some (.compat, vals)
  jamoFree : ∀ {cp vals}, ucd.mapping cp = some (.canon, vals) → ∀ v ∈ vals, ¬ IsHangul v.val
  short : ∀ {cp vals}, ucd.mapping cp = some (.canon, vals) → vals.length = 1 ∨ vals.length = 2

def NormForm.after (outer inner : NormForm) : NormForm :=
  match outer.composes, outer.compat || inner.compat with
  | false, false => .nfd
  | true, false => .nfc
  | false, true => .nfkd
  | true, true => .nfkc

@[simp] theorem NormForm.after_composes (outer inner : NormForm) :
    (outer.after inner).composes = outer.composes := by
  cases outer <;> cases inner <;> rfl

@[simp] theorem NormForm.after_compat (outer inner : NormForm) :
    (outer.after inner).compat = (outer.compat || inner.compat) := by
  cases outer <;> cases inner <;> rfl

namespace Ucd

variable {ucd : Ucd} {compat compat' : Bool}

/-! ## Characters that stay -/

/-- The decomposition has nothing to do at this character. -/
def Settled (ucd : Ucd) (compat : Bool) (c : Scalar) : Prop :=
  ¬ IsHangulSyllable c.val ∧
    ∀ type vals, ucd.mapping c = some (type, vals) → type = .compat ∧ compat = false

theorem Settled.decompose {c : Scalar} (settled : ucd.Settled compat c) :
    ucd.decompose compat c = [c] := by
  cases mapped : ucd.mapping c with
  | none => exact decompose_unmapped compat settled.1 mapped
  | some step =>
      obtain ⟨type, vals⟩ := step
      obtain ⟨rfl, rfl⟩ := settled.2 type vals mapped
      exact decompose_other mapped

theorem Settled.canonical {c : Scalar} (settled : ucd.Settled compat c) : ucd.Settled false c :=
  ⟨settled.1, fun type vals mapped => ⟨(settled.2 type vals mapped).1, rfl⟩⟩

/-- Marks without a canonical decomposition have none. -/
theorem Settled.mark (consistent : ucd.Consistent) {c : Scalar} (settled : ucd.Settled compat c)
    (mark : 0 < ucd.ccc c) (compat' : Bool) : ucd.Settled compat' c := by
  refine ⟨settled.1, fun type vals mapped => ?_⟩
  obtain ⟨rfl, -⟩ := settled.2 type vals mapped
  exact absurd mapped (consistent.marks mark)

theorem mem_decompose_settled (rank : Nat) :
    ∀ {cp c : Scalar}, ucd.rank cp ≤ rank → c ∈ ucd.decompose compat cp →
      ucd.Settled compat c := by
  induction rank using Nat.strong_induction_on with
  | _ rank inductionHypothesis =>
      intro cp c bound member
      by_cases isSyllable : IsHangulSyllable cp.val
      · rw [decompose_syllable compat isSyllable] at member
        have jamo := hangulDecomposition_jamo isSyllable c member
        refine ⟨jamo_not_syllable jamo, fun type vals mapped => ?_⟩
        rw [ucd.hangul_unmapped (.inr jamo)] at mapped
        cases mapped
      · cases mapped : ucd.mapping cp with
        | none =>
            rw [decompose_unmapped compat isSyllable mapped] at member
            obtain rfl := List.mem_singleton.mp member
            refine ⟨isSyllable, fun type vals impossible => ?_⟩
            rw [mapped] at impossible
            cases impossible
        | some step =>
            obtain ⟨type, vals⟩ := step
            by_cases applies : type = .canon ∨ compat = true
            · rw [decompose_mapped mapped applies] at member
              obtain ⟨v, inside, below⟩ := List.mem_flatMap.mp member
              have lower := ucd.rank_lt mapped v inside
              exact inductionHypothesis (ucd.rank v) (by omega) (Nat.le_refl _) below
            · obtain ⟨notCanon, notCompat⟩ := not_or.mp applies
              have only : type = .compat ∧ compat = false := by
                cases type with
                | canon => exact absurd rfl notCanon
                | compat => exact ⟨rfl, Bool.eq_false_iff.mpr notCompat⟩
              obtain ⟨rfl, rfl⟩ := only
              rw [decompose_other mapped] at member
              obtain rfl := List.mem_singleton.mp member
              refine ⟨isSyllable, fun type' vals' mapped' => ?_⟩
              rw [mapped] at mapped'
              cases mapped'
              exact ⟨rfl, rfl⟩

theorem mem_ordered_settled {cps : List Scalar} {c : Scalar}
    (member : c ∈ ucd.ordered compat cps) : ucd.Settled compat c := by
  obtain ⟨cp, -, inside⟩ := List.mem_flatMap.mp (mem_canonicalOrder.mp member)
  exact mem_decompose_settled _ (Nat.le_refl _) inside

/-- Settled characters in canonical order are decomposed and ordered. -/
theorem ordered_of_settled {cps : List Scalar} (settled : ∀ c ∈ cps, ucd.Settled compat c)
    (inOrder : CanonicallyOrdered ucd.ccc cps) : ucd.ordered compat cps = cps := by
  rw [ordered, List.flatMap_congr (g := fun c => [c]) fun c member => (settled c member).decompose,
    List.flatMap_singleton', canonicalOrder_of_ordered inOrder]

/-! ## Decomposing twice -/

/-- A compatibility decomposition takes up where a canonical one has stopped. -/
theorem decompose_decompose (rank : Nat) :
    ∀ {cp : Scalar}, ucd.rank cp ≤ rank →
      (ucd.decompose false cp).flatMap (ucd.decompose true) = ucd.decompose true cp := by
  induction rank using Nat.strong_induction_on with
  | _ rank inductionHypothesis =>
      intro cp bound
      by_cases isSyllable : IsHangulSyllable cp.val
      · rw [decompose_syllable _ isSyllable, decompose_syllable _ isSyllable,
          List.flatMap_congr (g := fun c => [c]), List.flatMap_singleton']
        intro c member
        have settled : ucd.Settled true c :=
          mem_decompose_settled _ (Nat.le_refl (ucd.rank cp))
            (by rwa [decompose_syllable true isSyllable])
        exact settled.decompose
      · cases mapped : ucd.mapping cp with
        | none => rw [decompose_unmapped false isSyllable mapped, List.flatMap_singleton]
        | some step =>
            obtain ⟨type, vals⟩ := step
            cases type with
            | compat => rw [decompose_other mapped, List.flatMap_singleton]
            | canon =>
                rw [decompose_mapped mapped (.inl rfl), decompose_mapped mapped (.inl rfl),
                  List.flatMap_assoc]
                refine List.flatMap_congr fun v member => ?_
                have lower := ucd.rank_lt mapped v member
                exact inductionHypothesis (ucd.rank v) (by omega) (Nat.le_refl _)

/-- Decomposing twice decomposes by both mappings. -/
theorem ordered_ordered (consistent : ucd.Consistent) (cps : List Scalar) :
    ucd.ordered compat (ucd.ordered compat' cps) = ucd.ordered (compat || compat') cps := by
  have settled : ∀ c ∈ ucd.ordered compat' cps, ucd.Settled compat' c :=
    fun c member => mem_ordered_settled member
  cases compat with
  | false =>
      exact ordered_of_settled (fun c member => (settled c member).canonical)
        (canonicalOrder_ordered _)
  | true =>
      cases compat' with
      | true => exact ordered_of_settled settled (canonicalOrder_ordered _)
      | false =>
          have marks : ∀ c ∈ cps.flatMap (ucd.decompose false), 0 < ucd.ccc c →
              ucd.decompose true c = [c] := fun c member mark =>
            ((settled c (mem_canonicalOrder.mpr member)).mark consistent mark true).decompose
          rw [ordered, ordered, canonicalOrder_flatMap marks, List.flatMap_assoc]
          refine congrArg (canonicalOrder ucd.ccc) (List.flatMap_congr fun cp _ => ?_)
          exact decompose_decompose _ (Nat.le_refl _)

/-! ## Decomposing what was composed -/

theorem hangulComposite_syllable {a b p : Scalar} (joined : hangulComposite a b = some p) :
    IsHangulSyllable p.val := by
  rcases hangulComposite_eq_some joined with ⟨-, -, -, syllable⟩ | ⟨-, -, -, syllable⟩
  · exact syllable.1
  · exact syllable.1

/-- The decomposition of a composite is that of its parts. -/
theorem decompose_composite {a b p : Scalar} (joined : ucd.composite a b = some p) :
    ucd.decompose compat p = ucd.decompose compat a ++ ucd.decompose compat b := by
  have alone {c : Scalar} (jamo : IsLeadingJamo c.val ∨ IsVowelJamo c.val ∨ IsTrailingJamo c.val) :
      ucd.decompose compat c = [c] :=
    decompose_unmapped compat (jamo_not_syllable jamo) (ucd.hangul_unmapped (.inr jamo))
  rcases Option.or_eq_some_iff.mp joined with hangul | ⟨-, primary⟩
  · have isSyllable := hangulComposite_syllable hangul
    rw [decompose_syllable compat isSyllable]
    rcases hangulDecomposition_composite hangul isSyllable with ⟨leading, parts⟩ | ⟨syllable, parts⟩
    · have vowel : IsVowelJamo b.val := by
        rcases hangulComposite_eq_some hangul with ⟨-, vowel, -⟩ | ⟨lv, -, -⟩
        · exact vowel
        · exact absurd lv.1 (jamo_not_syllable (.inl leading))
      rw [parts, alone (.inl leading), alone (.inr (.inl vowel))]
      rfl
    · have trailing : IsTrailingJamo b.val := by
        rcases hangulComposite_eq_some hangul with ⟨leading, -, -⟩ | ⟨-, trailing, -⟩
        · exact absurd syllable (jamo_not_syllable (.inl leading))
        · exact trailing
      rw [parts, decompose_syllable compat syllable, alone (.inr (.inr trailing))]
  · obtain ⟨mapped, -⟩ := ucd.primary_eq_some.mp primary
    rw [decompose_mapped mapped (.inl rfl), List.flatMap_cons, List.flatMap_singleton]

theorem composite_starter (consistent : ucd.Consistent) {a b p : Scalar}
    (joined : ucd.composite a b = some p) : ucd.ccc p = 0 := by
  rcases Option.or_eq_some_iff.mp joined with hangul | ⟨-, primary⟩
  · exact ucd.hangul_ccc (.inl (hangulComposite_syllable hangul))
  · exact consistent.starter primary

/-- Decomposing a form decomposes by both mappings. -/
theorem ordered_normalForm (consistent : ucd.Consistent) (form : NormForm) (cps : List Scalar) :
    ucd.ordered compat (ucd.normalForm form cps) = ucd.ordered (compat || form.compat) cps := by
  rw [normalForm]
  cases form.composes with
  | false => exact ordered_ordered consistent cps
  | true =>
      rw [if_pos rfl, ← ordered_ordered consistent cps, ordered, compose,
        expand_composition (fun a b p => decompose_composite)
          (fun a b p => composite_starter consistent)]
      · rfl
      · intro m member mark
        exact ((mem_ordered_settled member).mark consistent mark compat).decompose

theorem normalForm_normalForm (consistent : ucd.Consistent) (outer inner : NormForm)
    (cps : List Scalar) :
    ucd.normalForm outer (ucd.normalForm inner cps) = ucd.normalForm (outer.after inner) cps := by
  rw [normalForm, ordered_normalForm consistent, normalForm, NormForm.after_composes,
    NormForm.after_compat]

end Ucd

end Ucb.Unicode
