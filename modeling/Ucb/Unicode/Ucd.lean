import Ucb.Lib.Composition
import Ucb.Unicode.Hangul
import Ucb.Unicode.Props

/-!
Contract: the normalization forms of UAX #15, over the part of the Unicode
Character Database they read.

Owns:
- `Ucd`, character data with the guarantees the database gives about them;
- full decomposition, canonical ordering and canonical composition;
- the four forms, as functions from scalar values to scalar values.

Nothing here is translated from the library; the code is compared with it.
-/

namespace Ucb.Unicode

open Ucb.Lib

/-- The normalization data of the Unicode Character Database. `primary` maps a
starter and a second character to their primary composite, and `rank` witnesses
that decomposition comes to an end. -/
structure Ucd where
  ccc : Scalar → Nat
  mapping : Scalar → Option (UcbUcDctype × List Scalar)
  excluded : Scalar → Bool
  primary : Scalar → Scalar → Option Scalar
  rank : Scalar → Nat
  rank_lt : ∀ {cp type vals}, mapping cp = some (type, vals) → ∀ v ∈ vals, rank v < rank cp
  primary_eq_some : ∀ {a b p}, primary a b = some p ↔
    mapping p = some (.canon, [a, b]) ∧ excluded p = false ∧ ccc a = 0
  hangul_ccc : ∀ {cp : Scalar}, IsHangul cp.val → ccc cp = 0
  hangul_unmapped : ∀ {cp : Scalar}, IsHangul cp.val → mapping cp = none
  syllable_free : ∀ {cp type vals}, mapping cp = some (type, vals) →
    ∀ v ∈ vals, ¬ IsHangulSyllable v.val
  nul_unmapped : ∀ {cp : Scalar}, cp.val = 0 → mapping cp = none

inductive NormForm where
  | nfd
  | nfc
  | nfkd
  | nfkc
deriving DecidableEq, Repr

def NormForm.composes : NormForm → Bool
  | .nfd | .nfkd => false
  | .nfc | .nfkc => true

/-- Whether a form uses compatibility decompositions. -/
def NormForm.compat : NormForm → Bool
  | .nfd | .nfc => false
  | .nfkd | .nfkc => true

namespace Ucd

variable (ucd : Ucd)

/-- The full canonical decomposition of a character, or its full compatibility
decomposition. -/
def decompose (compat : Bool) (cp : Scalar) : List Scalar :=
  if isSyllable : IsHangulSyllable cp.val then hangulDecomposition cp isSyllable
  else
    match _mapped : ucd.mapping cp with
    | none => [cp]
    | some (type, vals) =>
        if type = .canon ∨ compat = true then
          vals.attach.flatMap fun v => decompose compat v.val
        else [cp]
termination_by ucd.rank cp
decreasing_by exact ucd.rank_lt _mapped v.val v.property

/-- The composite of two characters: a Hangul syllable or a primary composite. -/
def composite (a b : Scalar) : Option Scalar :=
  (hangulComposite a b).or (ucd.primary a b)

/-- The full decomposition of a text in canonical order. -/
def ordered (compat : Bool) (cps : List Scalar) : List Scalar :=
  canonicalOrder ucd.ccc (cps.flatMap (ucd.decompose compat))

/-- The canonical composition of a text. -/
def compose (cps : List Scalar) : List Scalar :=
  composition ucd.ccc ucd.composite cps

def normalForm (form : NormForm) (cps : List Scalar) : List Scalar :=
  if form.composes then ucd.compose (ucd.ordered form.compat cps)
  else ucd.ordered form.compat cps

/-! ## Decomposition -/

variable {ucd}

theorem decompose_syllable (compat : Bool) {cp : Scalar} (isSyllable : IsHangulSyllable cp.val) :
    ucd.decompose compat cp = hangulDecomposition cp isSyllable := by
  rw [decompose, dif_pos isSyllable]

theorem decompose_unmapped (compat : Bool) {cp : Scalar} (noSyllable : ¬ IsHangulSyllable cp.val)
    (unmapped : ucd.mapping cp = none) : ucd.decompose compat cp = [cp] := by
  rw [decompose, dif_neg noSyllable]
  split
  · rfl
  · rename_i mapped
    rw [unmapped] at mapped
    cases mapped

theorem mapped_not_syllable {cp : Scalar} {type : UcbUcDctype} {vals : List Scalar}
    (mapped : ucd.mapping cp = some (type, vals)) : ¬ IsHangulSyllable cp.val := by
  intro isSyllable
  rw [ucd.hangul_unmapped (.inl isSyllable)] at mapped
  cases mapped

theorem decompose_mapped {compat : Bool} {cp : Scalar} {type : UcbUcDctype} {vals : List Scalar}
    (mapped : ucd.mapping cp = some (type, vals)) (applies : type = .canon ∨ compat = true) :
    ucd.decompose compat cp = vals.flatMap (ucd.decompose compat) := by
  rw [decompose, dif_neg (mapped_not_syllable mapped)]
  split
  · rename_i unmapped
    rw [mapped] at unmapped
    cases unmapped
  · rename_i type' vals' mapped'
    rw [mapped] at mapped'
    cases mapped'
    rw [if_pos applies]
    exact List.flatMap_subtype (fun _ _ => rfl) |>.trans (by rw [List.unattach_attach])

theorem decompose_other {cp : Scalar} {vals : List Scalar}
    (mapped : ucd.mapping cp = some (.compat, vals)) : ucd.decompose false cp = [cp] := by
  rw [decompose, dif_neg (mapped_not_syllable mapped)]
  split
  · rfl
  · rename_i type' vals' mapped'
    rw [mapped] at mapped'
    cases mapped'
    rw [if_neg (by simp)]

theorem mem_decompose_not_syllable {compat : Bool} (rank : Nat) :
    ∀ {cp c : Scalar}, ucd.rank cp ≤ rank → c ∈ ucd.decompose compat cp →
      ¬ IsHangulSyllable c.val := by
  induction rank using Nat.strong_induction_on with
  | _ rank inductionHypothesis =>
      intro cp c bound member
      by_cases isSyllable : IsHangulSyllable cp.val
      · rw [decompose_syllable compat isSyllable] at member
        exact jamo_not_syllable (hangulDecomposition_jamo isSyllable c member)
      · rw [decompose, dif_neg isSyllable] at member
        split at member
        next unmapped =>
          obtain rfl := List.mem_singleton.mp member
          exact isSyllable
        next type vals mapped =>
          split at member
          next applies =>
            obtain ⟨v, -, inside⟩ := List.mem_flatMap.mp member
            have below := ucd.rank_lt mapped v.val v.property
            exact inductionHypothesis (ucd.rank v.val) (by omega) (Nat.le_refl _) inside
          next other =>
            obtain rfl := List.mem_singleton.mp member
            exact isSyllable

theorem mem_ordered_not_syllable {compat : Bool} {cps : List Scalar} {c : Scalar}
    (member : c ∈ ucd.ordered compat cps) : ¬ IsHangulSyllable c.val := by
  obtain ⟨cp, -, inside⟩ := List.mem_flatMap.mp (mem_canonicalOrder.mp member)
  exact mem_decompose_not_syllable _ (Nat.le_refl _) inside

end Ucd

end Ucb.Unicode
