import Ucb.Unicode.FormLaws
import Ucb.Unicode.NormalizeFull
import Ucb.Unicode.UcParser

/-!
Contract: what `ucb_uc_is_normalized` accepts is in the form, and composition gives it back.

Owns:
- characters that the flags let through, and why composition rebuilds them from their
  decompositions;
- the loop of the check, which also looks at the order.

A character that the check accepts begins, decomposed, with one that joins nothing in front of it.
-/

namespace Ucb.Unicode

open Ucb.Lib

namespace UcdParser

variable {parser : UcdParser}

/-! ## Characters that join nothing in front of them -/

theorem isMaybe_of_mem {cp : Scalar} (member : cp ∈ parser.createCombinerTable.compMaybe) :
    parser.isMaybe cp = true := by
  rw [isMaybe, if_pos member]

theorem isMaybe_first {cp first : Scalar} {rest : List Scalar}
    (mapped : parser.ucd.mapping cp = some (.canon, first :: rest))
    (included : parser.isCompExcluded cp = false) (notMaybe : parser.isMaybe cp = false) :
    parser.isMaybe first = false := by
  rw [isMaybe] at notMaybe
  split at notMaybe
  · cases notMaybe
  · split at notMaybe
    next mapped' =>
      rw [mapped] at mapped'
      cases mapped'
      rwa [included, if_neg Bool.false_ne_true] at notMaybe
    next other => exact absurd mapped (other first rest)

theorem mem_data_of_isMaybe {cp : Scalar} (maybe : parser.isMaybe cp = true) :
    cp ∈ parser.data := by
  rw [isMaybe] at maybe
  split at maybe
  next member =>
    obtain ⟨a, p, -, primary⟩ := createCombinerTable_entered.compMaybe cp |>.mp member
    exact (mem_data_of_primary primary).2
  next =>
    split at maybe
    next mapped => exact (parser.listed mapped).1
    next => cases maybe

theorem mem_compMaybe {cp : Scalar} : cp ∈ parser.compMaybe ↔ parser.isMaybe cp = true := by
  rw [compMaybe, List.mem_filter]
  exact ⟨fun both => both.2, fun maybe => ⟨mem_data_of_isMaybe maybe, maybe⟩⟩

/-- What is neither a combiner nor a jamo that composes joins nothing in front of it. -/
theorem composite_none {c : Scalar} (notMaybe : parser.isMaybe c = false)
    (noVowel : ¬ IsVowelJamo c.val) (noTrailing : ¬ IsTrailingJamo c.val) (a : Scalar) :
    parser.ucd.composite a c = none := by
  have noHangul : hangulComposite a c = none := by
    rw [hangulComposite, dif_neg fun both => noVowel both.2, dif_neg fun both => noTrailing both.2]
  rw [Ucd.composite, noHangul, Option.none_or]
  cases primary : parser.ucd.primary a c with
  | none => rfl
  | some p =>
      have member : c ∈ parser.createCombinerTable.compMaybe :=
        (createCombinerTable_entered.compMaybe c).mpr
          ⟨a, p, (mem_data_of_primary primary).1, primary⟩
      rw [isMaybe_of_mem member] at notMaybe
      cases notMaybe

/-! ## Characters that composition rebuilds -/

theorem included_of_primary {a b p : Scalar} (primary : parser.ucd.primary a b = some p) :
    parser.isCompExcluded p = false := by
  obtain ⟨mapped, kept, isStarter⟩ := parser.ucd.primary_eq_some.mp primary
  simp [isCompExcluded, mapped, kept, isStarter]

/-- Without marks everything is in canonical order. -/
theorem starters_inOrder {cps : List Scalar} (starters : ∀ c ∈ cps, parser.ucd.ccc c = 0) :
    CanonicallyOrdered parser.ucd.ccc cps := by
  refine List.isChain_iff_forall_rel_of_append_cons_cons.mpr ?_
  rintro left right front back rfl out
  have none := starters right (by simp)
  exact absurd out.1 (by omega)

section Rebuilds

variable (consistent : parser.ucd.Consistent)

include consistent

/-- A canonical decomposition that is not excluded is that of a primary composite. -/
theorem primary_of_included {cp : Scalar} {vals : List Scalar}
    (mapped : parser.ucd.mapping cp = some (.canon, vals))
    (included : parser.isCompExcluded cp = false) :
    ∃ a b, vals = [a, b] ∧ parser.ucd.primary a b = some cp := by
  cases vals with
  | nil => exact absurd rfl (parser.listed mapped).2.1
  | cons a rest =>
      simp only [isCompExcluded, mapped, Bool.or_eq_false_iff, decide_eq_false_iff_not,
        not_not] at included
      obtain ⟨⟨kept, longer⟩, isStarter⟩ := included
      rcases consistent.short mapped with one | two
      · obtain rfl := List.eq_nil_of_length_eq_zero (Nat.succ.inj one)
        cases longer
      · obtain ⟨b, rfl⟩ := List.length_eq_one_iff.mp (Nat.succ.inj two)
        exact ⟨a, b, rfl, parser.ucd.primary_eq_some.mpr ⟨mapped, kept, isStarter⟩⟩

/-- A starter that the flags let through is rebuilt. -/
theorem rebuilds_included (rank : Nat) :
    ∀ {cp : Scalar}, parser.ucd.rank cp ≤ rank → ¬ IsHangulSyllable cp.val →
      parser.isCompExcluded cp = false → parser.isMaybe cp = false → ¬ IsVowelJamo cp.val →
      ¬ IsTrailingJamo cp.val → parser.ucd.ccc cp = 0 →
      Rebuilds parser.ucd.ccc parser.ucd.composite (parser.ucd.decompose false cp) cp := by
  induction rank using Nat.strong_induction_on with
  | _ rank inductionHypothesis =>
      intro cp bound noSyllable included notMaybe noVowel noTrailing isStarter
      have alone := composite_none notMaybe noVowel noTrailing
      cases mapped : parser.ucd.mapping cp with
      | none =>
          rw [Ucd.decompose_unmapped false noSyllable mapped]
          exact .starter isStarter alone
      | some step =>
          obtain ⟨type, vals⟩ := step
          cases type with
          | compat =>
              rw [Ucd.decompose_other mapped]
              exact .starter isStarter alone
          | canon =>
              obtain ⟨a, b, rfl, primary⟩ := primary_of_included consistent mapped included
              have noHangul := consistent.jamoFree mapped
              have noHangulA : ¬ IsHangul a.val := noHangul a (by simp)
              have noHangulB : ¬ IsHangul b.val := noHangul b (by simp)
              have includedA : parser.isCompExcluded a = false := by
                cases mappedA : parser.ucd.mapping a with
                | none => simp [isCompExcluded, mappedA]
                | some stepA =>
                    obtain ⟨typeA, valsA⟩ := stepA
                    cases typeA with
                    | compat => simp [isCompExcluded, mappedA]
                    | canon =>
                        obtain ⟨c, d, primaryA⟩ := consistent.first primary mappedA
                        exact included_of_primary primaryA
              have front := inductionHypothesis (parser.ucd.rank a)
                (Nat.lt_of_lt_of_le (parser.ucd.rank_lt mapped a (by simp)) bound) (Nat.le_refl _)
                (fun syllable => noHangulA (.inl syllable)) includedA
                (isMaybe_first mapped included notMaybe)
                (fun vowel => noHangulA (.inr (.inr (.inl vowel))))
                (fun trailing => noHangulA (.inr (.inr (.inr trailing))))
                (parser.ucd.primary_eq_some.mp primary).2.2
              have last : parser.ucd.decompose false b = [b] := by
                refine Ucd.Settled.decompose ⟨fun syllable => noHangulB (.inl syllable), ?_⟩
                intro typeB valsB mappedB
                cases typeB with
                | compat => exact ⟨rfl, rfl⟩
                | canon => exact absurd mappedB (consistent.second primary)
              have noComposite : hangulComposite a b = none := by
                rw [hangulComposite,
                  dif_neg fun both => noHangulB (.inr (.inr (.inl both.2))),
                  dif_neg fun both => noHangulB (.inr (.inr (.inr both.2)))]
              have joined : parser.ucd.composite a b = some cp := by
                rw [Ucd.composite, noComposite, Option.none_or, primary]
              have parts : parser.ucd.decompose false cp = _ :=
                Ucd.decompose_composite joined
              rw [last] at parts
              have inOrder := consistent.inOrder primary
              rw [parts] at inOrder ⊢
              exact .extend front joined isStarter inOrder

/-- A leading jamo joins nothing in front of it. -/
theorem leading_alone {l : Scalar} (leading : IsLeadingJamo l.val) (a : Scalar) :
    parser.ucd.composite a l = none := by
  have noHangul : hangulComposite a l = none := by
    unfold IsLeadingJamo at leading
    rw [hangulComposite, dif_neg, dif_neg]
    · unfold IsTrailingJamo
      omega
    · unfold IsVowelJamo
      omega
  rw [Ucd.composite, noHangul, Option.none_or]
  cases primary : parser.ucd.primary a l with
  | none => rfl
  | some p =>
      obtain ⟨mapped, -⟩ := parser.ucd.primary_eq_some.mp primary
      exact absurd (.inr (.inl leading)) (consistent.jamoFree mapped l (by simp))

theorem rebuilds_syllable {s : Scalar} (isSyllable : IsHangulSyllable s.val) :
    Rebuilds parser.ucd.ccc parser.ucd.composite (parser.ucd.decompose false s) s := by
  have starter {c : Scalar} (hangul : IsHangul c.val) : parser.ucd.ccc c = 0 :=
    parser.ucd.hangul_ccc hangul
  have inOrder {p : Scalar} (syllable : IsHangulSyllable p.val) :
      CanonicallyOrdered parser.ucd.ccc (parser.ucd.decompose false p) := by
    refine starters_inOrder fun c member => starter (.inr ?_)
    rw [Ucd.decompose_syllable false syllable] at member
    exact hangulDecomposition_jamo syllable c member
  -- two jamo make a syllable, and a third one another
  have two {l v p : Scalar} (leading : IsLeadingJamo l.val)
      (joined : hangulComposite l v = some p) :
      Rebuilds parser.ucd.ccc parser.ucd.composite (parser.ucd.decompose false p) p := by
    have syllable := Ucd.hangulComposite_syllable joined
    have composed : parser.ucd.composite l v = some p := by
      rw [Ucd.composite, joined, Option.some_or]
    have parts := inOrder syllable
    rcases hangulDecomposition_composite joined syllable with ⟨-, jamo⟩ | ⟨impossible, -⟩
    · rw [Ucd.decompose_syllable false syllable, jamo] at parts ⊢
      exact .extend (.starter (starter (.inr (.inl leading))) (leading_alone consistent leading))
        composed (starter (.inl syllable)) parts
    · exact absurd impossible (jamo_not_syllable (.inl leading))
  obtain ⟨a, b, shape, joined⟩ := exists_hangulComposite isSyllable
  rcases shape with leading | ⟨lv, notLv⟩
  · exact two leading joined
  · obtain ⟨l, v, inner, joinedLv⟩ := exists_hangulComposite lv.1
    rcases inner with leading | ⟨-, notLv'⟩
    · have composed : parser.ucd.composite a b = some s := by
        rw [Ucd.composite, joined, Option.some_or]
      have parts := inOrder isSyllable
      rcases hangulDecomposition_composite joined isSyllable with ⟨impossible, -⟩ | ⟨first, jamo⟩
      · exact absurd lv.1 (jamo_not_syllable (.inl impossible))
      · have front := two leading joinedLv
        have jamoLv : parser.ucd.decompose false a = hangulDecomposition a first :=
          Ucd.decompose_syllable false first
        rw [Ucd.decompose_syllable false isSyllable, jamo, ← jamoLv] at parts ⊢
        exact .extend front composed (starter (.inl isSyllable)) parts
    · exact absurd lv notLv'

end Rebuilds

/-! ## Characters that the check accepts -/

/-- What the check asks of a character. -/
def Passes (parser : UcdParser) (form : NormForm) (cp : Scalar) : Prop :=
  if form.composes then
    IsHangulSyllable cp.val ∨
      ((if form.compat then parser.isNfkcStable cp = true else parser.isCompExcluded cp = false) ∧
        parser.isMaybe cp = false ∧ ¬ IsVowelJamo cp.val ∧ ¬ IsTrailingJamo cp.val)
  else parser.ucd.Settled form.compat cp

theorem isNfkcStable_vals {cp : Scalar} {type : UcbUcDctype} {vals : List Scalar}
    (stable : parser.isNfkcStable cp = true) (mapped : parser.ucd.mapping cp = some (type, vals)) :
    type = .canon ∧ parser.isCompExcluded cp = false ∧
      ∀ v ∈ vals, parser.isNfkcStable v = true := by
  rw [isNfkcStable] at stable
  split at stable
  next unmapped =>
    rw [mapped] at unmapped
    cases unmapped
  next => cases stable
  next vals' mapped' =>
    rw [mapped] at mapped'
    cases mapped'
    split at stable
    · cases stable
    next included =>
      refine ⟨rfl, Bool.eq_false_iff.mpr included, fun v member => ?_⟩
      exact List.all_eq_true.mp stable ⟨v, member⟩ (List.mem_attach _ _)

theorem included_of_stable {cp : Scalar} (stable : parser.isNfkcStable cp = true) :
    parser.isCompExcluded cp = false := by
  cases mapped : parser.ucd.mapping cp with
  | none => simp [isCompExcluded, mapped]
  | some step =>
      obtain ⟨type, vals⟩ := step
      exact (isNfkcStable_vals stable mapped).2.1

/-- A stable character has no compatibility decompositions anywhere. -/
theorem decompose_stable (rank : Nat) :
    ∀ {cp : Scalar}, parser.ucd.rank cp ≤ rank → parser.isNfkcStable cp = true →
      parser.ucd.decompose true cp = parser.ucd.decompose false cp := by
  induction rank using Nat.strong_induction_on with
  | _ rank inductionHypothesis =>
      intro cp bound stable
      by_cases isSyllable : IsHangulSyllable cp.val
      · rw [Ucd.decompose_syllable true isSyllable, Ucd.decompose_syllable false isSyllable]
      · cases mapped : parser.ucd.mapping cp with
        | none =>
            rw [Ucd.decompose_unmapped true isSyllable mapped,
              Ucd.decompose_unmapped false isSyllable mapped]
        | some step =>
            obtain ⟨type, vals⟩ := step
            obtain ⟨rfl, -, stableVals⟩ := isNfkcStable_vals stable mapped
            rw [Ucd.decompose_mapped mapped (.inl rfl), Ucd.decompose_mapped mapped (.inl rfl)]
            refine List.flatMap_congr fun v member => ?_
            have lower := parser.ucd.rank_lt mapped v member
            exact inductionHypothesis (parser.ucd.rank v) (by omega) (Nat.le_refl _)
              (stableVals v member)

/-- What the flags let through is rebuilt, or a mark that stays by itself. -/
theorem stable_included (consistent : parser.ucd.Consistent) {cp : Scalar}
    (noSyllable : ¬ IsHangulSyllable cp.val) (included : parser.isCompExcluded cp = false)
    (notMaybe : parser.isMaybe cp = false) (noVowel : ¬ IsVowelJamo cp.val)
    (noTrailing : ¬ IsTrailingJamo cp.val) :
    Stable parser.ucd.ccc parser.ucd.composite (parser.ucd.decompose false) cp := by
  by_cases isStarter : parser.ucd.ccc cp = 0
  · exact .inl (rebuilds_included consistent _ (Nat.le_refl _) noSyllable included notMaybe noVowel
      noTrailing isStarter)
  · refine .inr ⟨?_, Nat.pos_of_ne_zero isStarter, composite_none notMaybe noVowel noTrailing⟩
    refine Ucd.Settled.decompose ⟨noSyllable, fun type vals mapped => ?_⟩
    cases type with
    | compat => exact ⟨rfl, rfl⟩
    | canon =>
        obtain ⟨a, b, -, primary⟩ := primary_of_included consistent mapped included
        exact absurd (consistent.starter primary) isStarter

/-- Composition rebuilds what a composing form's check accepts. -/
theorem Passes.stable (consistent : parser.ucd.Consistent) {form : NormForm} {cp : Scalar}
    (passes : parser.Passes form cp) (composes : form.composes = true) :
    Stable parser.ucd.ccc parser.ucd.composite (parser.ucd.decompose form.compat) cp := by
  rw [Passes, if_pos composes] at passes
  by_cases isSyllable : IsHangulSyllable cp.val
  · have rebuilds := rebuilds_syllable consistent isSyllable
    rw [Ucd.decompose_syllable false isSyllable,
      ← Ucd.decompose_syllable form.compat isSyllable] at rebuilds
    exact .inl rebuilds
  · obtain ⟨accepted, notMaybe, noVowel, noTrailing⟩ := passes.resolve_left isSyllable
    cases compat : form.compat with
    | false =>
        rw [compat, if_neg Bool.false_ne_true] at accepted
        exact stable_included consistent isSyllable accepted notMaybe noVowel noTrailing
    | true =>
        rw [compat, if_pos rfl] at accepted
        have stable := stable_included consistent isSyllable (included_of_stable accepted) notMaybe
          noVowel noTrailing
        rwa [Stable, ← decompose_stable _ (Nat.le_refl _) accepted] at stable

/-- Accepted characters in canonical order are in the form. -/
theorem normalForm_of_passes (consistent : parser.ucd.Consistent) {form : NormForm}
    {cps : List Scalar} (passes : ∀ cp ∈ cps, parser.Passes form cp)
    (inOrder : CanonicallyOrdered parser.ucd.ccc cps) : parser.ucd.normalForm form cps = cps := by
  rw [Ucd.normalForm]
  cases composes : form.composes with
  | true =>
      exact composition_stable (fun cp member => (passes cp member).stable consistent composes)
        inOrder
  | false =>
      refine Ucd.ordered_of_settled (fun cp member => ?_) inOrder
      have settled := passes cp member
      rwa [Passes, if_neg (by rw [composes]; exact Bool.false_ne_true)] at settled

end UcdParser

end Ucb.Unicode
