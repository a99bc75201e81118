import Ucb.Unicode.QuickPath

/-!
Contract: `ucb_uc_normalize` of its own results.

Owns:
- the laws between the forms;
- exactly when two calls in a row give what the law says.
-/

namespace Ucb.Unicode

open Ucb.Lib

/-- The laws between the forms: the outer form of the inner one is the last form. -/
inductive CrossForm : NormForm → NormForm → NormForm → Prop
  | idempotent (form : NormForm) : CrossForm form form form
  | nfcOfNfd : CrossForm .nfc .nfd .nfc
  | nfdOfNfc : CrossForm .nfd .nfc .nfd
  | nfkcOf (inner : NormForm) : CrossForm .nfkc inner .nfkc
  | nfkdOf (inner : NormForm) : CrossForm .nfkd inner .nfkd
  | nfdOfNfkd : CrossForm .nfd .nfkd .nfkd
  | nfcOfNfkc : CrossForm .nfc .nfkc .nfkc

theorem CrossForm.after_eq {outer inner form : NormForm} (law : CrossForm outer inner form) :
    outer.after inner = form := by
  cases law with
  | idempotent => cases outer <;> rfl
  | nfcOfNfd => rfl
  | nfdOfNfc => rfl
  | nfkcOf => cases inner <;> rfl
  | nfkdOf => cases inner <;> rfl
  | nfdOfNfkd => rfl
  | nfcOfNfkc => rfl

def normalizeTwice (tables : UcbUcNormTables) (allocator : Allocator) (str : List UInt8)
    (size : Option Nat) (inner outer : NormForm) : Exec (Except EncodeFailure UcbUcResult) := do
  match ← ucbUcNormalize tables allocator str size (some inner) with
  | .error failure => pure (.error failure)
  | .ok result => ucbUcNormalize tables allocator result.data (some result.size) (some outer)

section Laws

variable {parser : UcdParser} {tables : UcbUcNormTables} {allocator : Allocator}
  {outer inner form : NormForm} {cps : List Scalar} {mem : List UInt8} {size : Option Nat}
  (built : Built parser tables) (consistent : parser.ucd.Consistent)
  (generous : allocator.Generous) (text : TextAt cps mem size)

include built consistent generous text

/-- Two calls that have results give the form of the form. -/
theorem normalizeTwice_eq (fitsInner : CallFits tables parser.ucd inner cps)
    (fitsOuter : CallFits tables parser.ucd outer (parser.ucd.normalForm inner cps)) :
    normalizeTwice tables allocator mem size inner outer =
      .ok (.ok (formResult parser.ucd (outer.after inner) cps)) := by
  have again : TextAt (parser.ucd.normalForm inner cps)
      (encode (parser.ucd.normalForm inner cps) ++ [0])
      (some (encode (parser.ucd.normalForm inner cps)).length) := .counted [0]
  rw [normalizeTwice, normalizeQuick_eq built generous text consistent fitsInner, Exec.ok_bind]
  dsimp only [formResult]
  rw [normalizeQuick_eq built generous again consistent fitsOuter, formResult,
    Ucd.normalForm_normalForm consistent]

theorem normalizeTwice_undefined
    (leaves : ¬ (CallFits tables parser.ucd inner cps ∧
      CallFits tables parser.ucd outer (parser.ucd.normalForm inner cps))) :
    normalizeTwice tables allocator mem size inner outer = .undefined := by
  by_cases fitsInner : CallFits tables parser.ucd inner cps
  · have again : TextAt (parser.ucd.normalForm inner cps)
        (encode (parser.ucd.normalForm inner cps) ++ [0])
        (some (encode (parser.ucd.normalForm inner cps)).length) := .counted [0]
    have leavesOuter := fun fitsOuter => leaves ⟨fitsInner, fitsOuter⟩
    rw [normalizeTwice, normalizeQuick_eq built generous text consistent fitsInner, Exec.ok_bind]
    exact normalizeQuick_undefined built generous again leavesOuter
  · rw [normalizeTwice, normalizeQuick_undefined built generous text fitsInner]
    rfl

/-- A law holds of the results exactly when all three calls have results. -/
theorem crossForm_iff (law : CrossForm outer inner form) :
    (∃ result, normalizeTwice tables allocator mem size inner outer = .ok (.ok result) ∧
        ucbUcNormalize tables allocator mem size (some form) = .ok (.ok result)) ↔
      CallFits tables parser.ucd inner cps ∧
        CallFits tables parser.ucd outer (parser.ucd.normalForm inner cps) ∧
        CallFits tables parser.ucd form cps := by
  constructor
  · rintro ⟨result, twice, once⟩
    have fitsTwice : CallFits tables parser.ucd inner cps ∧
        CallFits tables parser.ucd outer (parser.ucd.normalForm inner cps) := by
      by_contra leaves
      rw [normalizeTwice_undefined built consistent generous text leaves] at twice
      cases twice
    refine ⟨fitsTwice.1, fitsTwice.2, ?_⟩
    by_contra leaves
    rw [normalizeQuick_undefined built generous text leaves] at once
    cases once
  · rintro ⟨fitsInner, fitsOuter, fits⟩
    have twice := normalizeTwice_eq built consistent generous text fitsInner fitsOuter
    rw [law.after_eq] at twice
    exact ⟨_, twice, normalizeQuick_eq built generous text consistent fits⟩

end Laws

/-! ## The ligature, twice -/

theorem crossForm_ligature :
    ∃ result, normalizeTwice ligatureTables grantingAllocator [0xEF, 0xAC, 0x80] (some 3) .nfkc
        .nfkc = .ok (.ok result) ∧
      ucbUcNormalize ligatureTables grantingAllocator [0xEF, 0xAC, 0x80] (some 3) (some .nfkc) =
        .ok (.ok result) := by
  have text : TextAt [ligatureFf] [0xEF, 0xAC, 0x80] (some 3) := .counted []
  have fits : CallFits ligatureTables ligatureUcd .nfkc [ligatureFf] := .inr fits_ligature
  have fitsAgain : CallFits ligatureTables ligatureUcd .nfkc
      (ligatureUcd.normalForm .nfkc [ligatureFf]) := by
    rw [normalForm_ligature]
    refine .inr fun _ => ?_
    exact ordered_letters true 2 ▸ (fits_letters_iff 2).mpr (by decide)
  exact (crossForm_iff ligature_built ligature_consistent (fun _ _ => rfl) text
    (.idempotent .nfkc)).mpr ⟨fits, fitsAgain, fits⟩

theorem rejects_ligatures {count : Nat} (positive : 0 < count) :
    ¬ Accepts ligatureTables .nfkc (List.replicate count ligatureFf) := by
  intro accepted
  obtain ⟨-, passes, -⟩ := (isNormalized_cases ligature_built .nfkc
    (List.replicate count ligatureFf)).resolve_left fun rejected => by
      rw [Accepts, rejected] at accepted
      cases accepted
  have ligature := passes ligatureFf (List.mem_replicate.mpr ⟨Nat.ne_of_gt positive, rfl⟩)
  have composes : NormForm.nfkc.composes = true := rfl
  have compat : NormForm.nfkc.compat = true := rfl
  rw [UcdParser.Passes, if_pos composes, if_pos compat] at ligature
  rcases ligature with isSyllable | ⟨stable, -⟩
  · exact ligature_not_hangul (.inl isSyllable)
  · obtain ⟨other, -⟩ := UcdParser.isNfkcStable_vals stable mapping_ligature
    cases other

/-- 2 ^ 30 + 1 ligatures have no NFKC form that could be normalized again. -/
theorem crossForm_too_long :
    CrossForm .nfkc .nfkc .nfkc ∧ Built ligatureParser ligatureTables ∧
      ligatureParser.ucd.Consistent ∧ grantingAllocator.Generous ∧
      normalizeTwice ligatureTables grantingAllocator
        (encode (List.replicate (2 ^ 30 + 1) ligatureFf))
        (some (encode (List.replicate (2 ^ 30 + 1) ligatureFf)).length) .nfkc .nfkc =
          .undefined ∧
      ucbUcNormalize ligatureTables grantingAllocator
        (encode (List.replicate (2 ^ 30 + 1) ligatureFf))
        (some (encode (List.replicate (2 ^ 30 + 1) ligatureFf)).length) (some .nfkc) =
          .undefined := by
  have generous : grantingAllocator.Generous := fun _ _ => rfl
  have text : TextAt (List.replicate (2 ^ 30 + 1) ligatureFf)
      (encode (List.replicate (2 ^ 30 + 1) ligatureFf) ++ [])
      (some (encode (List.replicate (2 ^ 30 + 1) ligatureFf)).length) := .counted []
  rw [List.append_nil] at text
  have leaves : ¬ CallFits ligatureTables ligatureUcd .nfkc
      (List.replicate (2 ^ 30 + 1) ligatureFf) := by
    rintro (accepted | fits)
    · exact rejects_ligatures (Nat.succ_pos _) accepted
    · exact leaves_ligatures (by decide) fits
  exact ⟨.idempotent .nfkc, ligature_built, ligature_consistent, generous,
    normalizeTwice_undefined ligature_built ligature_consistent generous text
      (fun both => leaves both.1),
    normalizeQuick_undefined ligature_built generous text leaves⟩

end Ucb.Unicode
