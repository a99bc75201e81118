import Ucb.Unicode.QuickCheck

/-!
Contract: `ucb_uc_normalize` against `ucb_uc_normalize_full`.

Owns:
- the loop of `ucb_uc_is_normalized`, which accepts only what is in the form already;
- exactly when the two functions agree, and when `ucb_uc_normalize` gives the form.

The copy of an accepted string is the form of that string. The full path fails on one that is too
long for its `int` index.
-/

namespace Ucb.Unicode

open Ucb.Lib

variable {parser : UcdParser} {tables : UcbUcNormTables}

/-! ## The loop of the check -/

theorem isNormalizedStep_rejects (built : Built parser tables) (form : NormForm) (lastCcc : Nat)
    {cp : Scalar} (noSyllable : ¬ IsHangulSyllable cp.val) :
    ∃ rejected : Bool, (rejected = false → parser.Passes form cp) ∧
      isNormalizedStep tables form lastCcc cp.val =
        if rejected = true then .ok (.error false)
        else if parser.ucd.ccc cp ≠ 0 ∧ parser.ucd.ccc cp < lastCcc then .ok (.error false)
        else .ok (.ok (parser.ucd.ccc cp)) := by
  have decomp := built.decomp cp
  simp only [isNormalizedStep, if_neg noSyllable, getProp_scalar tables.toUcbUcTables cp,
    Exec.ok_bind, Exec.pure_eq_ok, built.ccc cp]
  cases composes : form.composes with
  | true =>
      refine ⟨_, fun passed => ?_, if_pos rfl⟩
      have none := of_decide_eq_false passed
      simp only [not_or] at none
      obtain ⟨flag, notMaybe, noVowel, noTrailing⟩ := none
      rw [UcdParser.Passes, if_pos composes]
      refine .inr ⟨?_, ?_, noVowel, noTrailing⟩
      · rw [built.nfkcNo, built.compExcl] at flag
        split
        next compat => simpa [compat] using flag
        next compat => simpa [compat] using flag
      · rw [built.compMaybe, decide_eq_true_eq, UcdParser.mem_compMaybe] at notMaybe
        exact Bool.eq_false_iff.mpr notMaybe
  | false =>
      have passes {compat : Bool} (same : form.compat = compat) :
          parser.Passes form cp ↔ parser.ucd.Settled compat cp := by
        rw [UcdParser.Passes, composes, if_neg Bool.false_ne_true, same]
      rw [if_neg Bool.false_ne_true]
      by_cases unmapped : (tables.propOf cp).decompIdx = 0
      · rw [if_neg (not_not.mpr unmapped)]
        refine ⟨false, fun _ => (passes rfl).mpr ⟨noSyllable, fun type vals mapped => ?_⟩, rfl⟩
        rw [ucbUcGetDecomp, if_pos unmapped, mapped] at decomp
        cases decomp
      · rw [if_pos unmapped]
        cases compat : form.compat with
        | true => exact ⟨true, fun impossible => (by cases impossible), rfl⟩
        | false =>
            rw [if_neg Bool.false_ne_true, decomp, Exec.ok_bind]
            refine ⟨_, fun passed => (passes compat).mpr ⟨noSyllable, ?_⟩, rfl⟩
            intro type vals mapped
            rw [mapped] at passed
            cases type with
            | canon => cases passed
            | compat => exact ⟨rfl, rfl⟩

/-- A round stops, or goes on behind a character that passes and is in order. -/
theorem isNormalizedStep_cases (built : Built parser tables) (form : NormForm) (lastCcc : Nat)
    (cp : Scalar) :
    isNormalizedStep tables form lastCcc cp.val = .ok (.error false) ∨
      isNormalizedStep tables form lastCcc cp.val = .ok (.ok (parser.ucd.ccc cp)) ∧
        parser.Passes form cp ∧ (0 < parser.ucd.ccc cp → lastCcc ≤ parser.ucd.ccc cp) := by
  by_cases isSyllable : IsHangulSyllable cp.val
  · have starter : parser.ucd.ccc cp = 0 := parser.ucd.hangul_ccc (.inl isSyllable)
    rw [isNormalizedStep, if_pos isSyllable, starter]
    cases composes : form.composes with
    | true =>
        refine .inr ⟨rfl, ?_, fun mark => absurd mark (Nat.lt_irrefl 0)⟩
        rw [UcdParser.Passes, if_pos composes]
        exact .inl isSyllable
    | false => exact .inl rfl
  · obtain ⟨rejected, passes, round⟩ := isNormalizedStep_rejects built form lastCcc isSyllable
    rw [round]
    cases rejected with
    | true => exact .inl rfl
    | false =>
        rw [if_neg Bool.false_ne_true]
        by_cases outOfOrder : parser.ucd.ccc cp ≠ 0 ∧ parser.ucd.ccc cp < lastCcc
        · exact .inl (if_pos outOfOrder)
        · exact .inr ⟨if_neg outOfOrder, passes rfl, by omega⟩

/-- The loop accepts only characters that pass, and in canonical order behind the last class. -/
theorem foldCps_passes (built : Built parser tables) (form : NormForm) (cps : List Scalar) :
    ∀ lastCcc : Nat,
      foldCps (isNormalizedStep tables form) lastCcc cps = .ok (.error false) ∨
        ∃ last, foldCps (isNormalizedStep tables form) lastCcc cps = .ok (.ok last) ∧
          (∀ cp ∈ cps, parser.Passes form cp) ∧ CanonicallyOrdered parser.ucd.ccc cps ∧
          ∀ first ∈ cps.head?, 0 < parser.ucd.ccc first → lastCcc ≤ parser.ucd.ccc first := by
  induction cps with
  | nil =>
      intro lastCcc
      exact .inr ⟨lastCcc, rfl, by simp, List.isChain_nil, by simp⟩
  | cons cp rest inductionHypothesis =>
      intro lastCcc
      rw [foldCps]
      rcases isNormalizedStep_cases built form lastCcc cp with stops | ⟨goes, passes, behind⟩
      · rw [stops]
        exact .inl rfl
      · rw [goes, Exec.ok_bind]
        rcases inductionHypothesis (parser.ucd.ccc cp) with stops | ⟨last, ran, later, order, head⟩
        · exact .inl stops
        · refine .inr ⟨last, ran, List.forall_mem_cons.mpr ⟨passes, later⟩, ?_, ?_⟩
          · refine List.isChain_cons.mpr ⟨fun first isFirst out => ?_, order⟩
            have above := head first isFirst out.1
            exact absurd out.2 (Nat.not_lt_of_le above)
          · intro first isFirst mark
            obtain rfl : cp = first := Option.some.inj isFirst
            exact behind mark

/-! ## The check -/

def Accepts (tables : UcbUcNormTables) (form : NormForm) (cps : List Scalar) : Prop :=
  ucbUcIsNormalized tables (encode cps) (encode cps).length form = .ok true

/-- The check reads nothing behind the text. -/
theorem isNormalized_front (tables : UcbUcNormTables) (form : NormForm) (cps : List Scalar)
    (after : List UInt8) :
    ucbUcIsNormalized tables (encode cps ++ after) (encode cps).length form =
      ucbUcIsNormalized tables (encode cps) (encode cps).length form := by
  rw [ucbUcIsNormalized, ucbUcIsNormalized, forEachCodepoint_front, forEachCodepoint_valid]

theorem isNormalized_cases (built : Built parser tables) (form : NormForm) (cps : List Scalar) :
    ucbUcIsNormalized tables (encode cps) (encode cps).length form = .ok false ∨
      Accepts tables form cps ∧ (∀ cp ∈ cps, parser.Passes form cp) ∧
        CanonicallyOrdered parser.ucd.ccc cps := by
  rw [Accepts, ucbUcIsNormalized, forEachCodepoint_valid]
  rcases foldCps_passes built form cps 0 with stops | ⟨last, ran, passes, order, -⟩
  · rw [stops]
    exact .inl rfl
  · rw [ran, Exec.ok_map, Exec.ok_bind]
    refine .inr ⟨?_, passes, order⟩
    simp [Except.map]

/-! ## `ucb_uc_normalize` -/

/-- A call has a result: the check accepts, or the index of the full path fits. -/
def CallFits (tables : UcbUcNormTables) (ucd : Ucd) (form : NormForm) (cps : List Scalar) : Prop :=
  Accepts tables form cps ∨ FormFits ucd form cps

section Normalize

variable {allocator : Allocator} {form : NormForm} {cps : List Scalar} {mem : List UInt8}
  {size : Option Nat} (built : Built parser tables) (generous : allocator.Generous)
  (text : TextAt cps mem size)

include built text

/-- What the check does not accept takes the full path. -/
theorem normalizeQuick_rejected (rejected : ¬ Accepts tables form cps) :
    ucbUcNormalize tables allocator mem size (some form) =
      ucbUcNormalizeFull tables allocator mem size (some form) := by
  obtain ⟨resolved, after, rfl⟩ := text.resolve
  have decided := (isNormalized_cases built form cps).resolve_right fun accepted =>
    rejected accepted.1
  rw [ucbUcNormalize, ucbUcNormalizeFull, normalizeCommon, normalizeCommon, resolved]
  simp only [Exec.ok_bind, Exec.pure_eq_ok, if_pos, isNormalized_front, decided]
  rfl

include generous

/-- What the check accepts is its own form, and so is the copy. -/
theorem normalizeQuick_accepted (consistent : parser.ucd.Consistent)
    (accepted : Accepts tables form cps) :
    ucbUcNormalize tables allocator mem size (some form) =
      .ok (.ok (formResult parser.ucd form cps)) := by
  obtain ⟨resolved, after, rfl⟩ := text.resolve
  obtain ⟨-, passes, order⟩ := (isNormalized_cases built form cps).resolve_left fun rejected => by
    rw [Accepts, rejected] at accepted
    cases accepted
  have same := UcdParser.normalForm_of_passes consistent passes order
  have decided : ucbUcIsNormalized tables (encode cps) (encode cps).length form = .ok true :=
    accepted
  -- the block has one byte more than the text
  have block := malloc_granted (generous .malloc ((encode cps).length + 1)) (Nat.succ_pos _)
  have room : (encode cps).length ≤ (allocator.freshBlock ((encode cps).length + 1)).length := by
    simp
  have copied := blit_spare [] (allocator.freshBlock ((encode cps).length + 1)) room
  have last : ((allocator.freshBlock ((encode cps).length + 1)).drop (encode cps).length).length =
      ([0] : List UInt8).length := by
    rw [List.length_drop, Allocator.freshBlock_length, Nat.add_sub_cancel_left,
      List.length_singleton]
  have terminated := blit_append (encode cps) _ [] last
  rw [List.nil_append, List.length_nil, List.nil_append] at copied
  rw [List.append_nil, List.append_nil] at terminated
  rw [ucbUcNormalize, normalizeCommon, resolved]
  simp only [Exec.ok_bind, Exec.pure_eq_ok, if_pos, isNormalized_front, decided, block, slice_left,
    copied, terminated, formResult, same]

/-! ## Both functions -/

theorem normalizeQuick_eq (consistent : parser.ucd.Consistent)
    (fits : CallFits tables parser.ucd form cps) :
    ucbUcNormalize tables allocator mem size (some form) =
      .ok (.ok (formResult parser.ucd form cps)) := by
  by_cases accepted : Accepts tables form cps
  · exact normalizeQuick_accepted built generous text consistent accepted
  · rw [normalizeQuick_rejected built text accepted]
    exact normalizeFull_eq form built.agrees generous text (fits.resolve_left accepted)

theorem normalizeQuick_undefined (leaves : ¬ CallFits tables parser.ucd form cps) :
    ucbUcNormalize tables allocator mem size (some form) = .undefined := by
  obtain ⟨rejected, leaves⟩ := not_or.mp leaves
  rw [normalizeQuick_rejected built text rejected]
  exact normalizeFull_undefined form built.agrees generous text leaves

/-- The quick path changes nothing exactly when the index of the full path fits for what the check
accepts. -/
theorem normalizeQuick_eq_full_iff (consistent : parser.ucd.Consistent) :
    ucbUcNormalize tables allocator mem size (some form) =
        ucbUcNormalizeFull tables allocator mem size (some form) ↔
      (ucbUcIsNormalized tables (encode cps) (encode cps).length form = .ok true →
        form.composes = true → IndexFits parser.ucd (parser.ucd.ordered form.compat cps)) := by
  constructor
  · intro same accepted
    by_contra leaves
    rw [normalizeQuick_accepted built generous text consistent accepted,
      normalizeFull_undefined form built.agrees generous text leaves] at same
    cases same
  · intro fits
    by_cases accepted : Accepts tables form cps
    · rw [normalizeQuick_accepted built generous text consistent accepted,
        normalizeFull_eq form built.agrees generous text (fits accepted)]
    · exact normalizeQuick_rejected built text accepted

end Normalize

/-! ## The ligature, as it is generated -/

theorem ligatures_nodup : [ligatureFf, letterF].Nodup := by decide

theorem ligature_mapping_eq_some {cp : Scalar} {type : UcbUcDctype} {vals : List Scalar} :
    ligatureUcd.mapping cp = some (type, vals) ↔
      cp = ligatureFf ∧ type = .compat ∧ vals = [letterF, letterF] := by
  by_cases ligature : cp = ligatureFf
  · rw [ligature, mapping_ligature]
    simp [eq_comm]
  · simp [ligatureUcd, ligature]

theorem ligature_listed {cp : Scalar} {type : UcbUcDctype} {vals : List Scalar}
    (mapped : ligatureUcd.mapping cp = some (type, vals)) :
    cp ∈ [ligatureFf, letterF] ∧ vals ≠ [] ∧ ∀ v ∈ vals, v ∈ [ligatureFf, letterF] := by
  obtain ⟨rfl, -, rfl⟩ := ligature_mapping_eq_some.mp mapped
  simp

/-- What the generator has read when the database has the ligature only. -/
def ligatureParser : UcdParser where
  ucd := ligatureUcd
  data := [ligatureFf, letterF]
  nodup := ligatures_nodup
  listed := ligature_listed

theorem ligature_consistent : ligatureUcd.Consistent := by
  have noPrimary {a b p : Scalar} (primary : ligatureUcd.primary a b = some p) : False := by
    cases primary
  have noCanon {cp : Scalar} {vals : List Scalar}
      (mapped : ligatureUcd.mapping cp = some (.canon, vals)) : False := by
    obtain ⟨-, other, -⟩ := ligature_mapping_eq_some.mp mapped
    cases other
  refine ⟨fun primary => (noPrimary primary).elim, fun primary => (noPrimary primary).elim,
    fun primary => (noPrimary primary).elim, fun primary => (noPrimary primary).elim,
    fun mark => absurd mark (Nat.lt_irrefl 0), fun mapped => (noCanon mapped).elim,
    fun mapped => (noCanon mapped).elim⟩

theorem ligature_entered :
    ligatureParser.Entered ligatureParser.data ligatureParser.createCombinerTable :=
  UcdParser.createCombinerTable_entered

theorem ligature_isMaybe (cp : Scalar) : ligatureParser.isMaybe cp = false := by
  rw [UcdParser.isMaybe, if_neg]
  · split
    next mapped =>
      obtain ⟨-, other, -⟩ := ligature_mapping_eq_some.mp mapped
      cases other
    next => rfl
  · intro member
    obtain ⟨a, p, -, primary⟩ := (ligature_entered.compMaybe cp).mp member
    cases primary

theorem ligature_built : Built ligatureParser ligatureTables where
  ccc := ligature_agrees.ccc
  decomp := ligature_agrees.decomp
  combiners := by
    intro cp
    refine ⟨none, ?_, ?_⟩
    · rw [ligatureTables_propOf]
      split <;> rfl
    · refine (List.eq_nil_iff_forall_not_mem.mpr fun e member => ?_).symm
      obtain ⟨b, p, -, primary, -⟩ := (ligature_entered.entries cp e).mp member
      cases primary
  compExcl := by
    intro cp
    have included : ligatureParser.isCompExcluded cp = false := by
      rw [UcdParser.isCompExcluded]
      split
      next mapped =>
        obtain ⟨-, other, -⟩ := ligature_mapping_eq_some.mp mapped
        cases other
      next => rfl
    rw [ligatureTables_propOf, included]
    split <;> rfl
  compMaybe := by
    intro cp
    have absent : cp ∉ ligatureParser.compMaybe := by
      rw [UcdParser.mem_compMaybe, ligature_isMaybe]
      exact Bool.false_ne_true
    rw [ligatureTables_propOf, decide_eq_false absent]
    split <;> rfl
  nfkcNo := by
    intro cp
    have same : cp.val = 0xFB00 ↔ cp = ligatureFf :=
      ⟨fun value => Subtype.ext value, congrArg Subtype.val⟩
    rw [ligatureTables_propOf, UcdParser.isNfkcStable]
    split
    next isLigature =>
      have mapped : ligatureParser.ucd.mapping cp = some (.compat, [letterF, letterF]) :=
        ligature_mapping_eq_some.mpr ⟨same.mp isLigature, rfl, rfl⟩
      split
      next unmapped =>
        rw [mapped] at unmapped
        cases unmapped
      next => rfl
      next mapped' =>
        rw [mapped] at mapped'
        cases mapped'
    next other =>
      split
      next => rfl
      next mapped => exact absurd (ligature_mapping_eq_some.mp mapped).1 (mt same.mpr other)
      next mapped => exact absurd (ligature_mapping_eq_some.mp mapped).1 (mt same.mpr other)

theorem isNormalizedStep_letter :
    isNormalizedStep ligatureTables .nfc 0 letterF.val = .ok (.ok 0) := by
  have prop := getProp_scalar ligatureTables.toUcbUcTables letterF
  rw [ligatureTables_propOf, if_neg (by decide)] at prop
  simp only [isNormalizedStep, prop, Exec.ok_bind, Exec.pure_eq_ok]
  decide

theorem accepts_letters (count : Nat) :
    Accepts ligatureTables .nfc (List.replicate count letterF) := by
  have ran : foldCps (isNormalizedStep ligatureTables .nfc) 0 (List.replicate count letterF) =
      .ok (.ok 0) := by
    induction count with
    | zero => rfl
    | succ count inductionHypothesis =>
        rw [List.replicate_succ, foldCps, isNormalizedStep_letter]
        exact inductionHypothesis
  rw [Accepts, ucbUcIsNormalized, forEachCodepoint_valid, ran, Exec.ok_map, Exec.ok_bind]
  simp [Except.map]

theorem ordered_letters (compat : Bool) (count : Nat) :
    ligatureUcd.ordered compat (List.replicate count letterF) = List.replicate count letterF := by
  refine Ucd.ordered_of_settled (fun c member => ?_)
    (List.isChain_replicate_of_rel _ fun out => absurd out.1 (Nat.lt_irrefl 0))
  rw [List.eq_of_mem_replicate member]
  refine ⟨by decide, fun type vals mapped => ?_⟩
  rw [mapping_letter] at mapped
  cases mapped

theorem normalizeQuick_letters :
    ucbUcNormalize ligatureTables grantingAllocator [0x66, 0x66] (some 2) (some .nfc) =
      ucbUcNormalizeFull ligatureTables grantingAllocator [0x66, 0x66] (some 2) (some .nfc) := by
  have text : TextAt (List.replicate 2 letterF) [0x66, 0x66] (some 2) := .counted []
  have fits := ordered_letters false 2 ▸ (fits_letters_iff 2).mpr (by decide)
  exact (normalizeQuick_eq_full_iff ligature_built (fun _ _ => rfl) text
    ligature_consistent).mpr fun _ _ => fits

/-- 2 ^ 31 + 1 letters are too many for the full path only. -/
theorem normalizeQuick_too_long :
    Built ligatureParser ligatureTables ∧ ligatureParser.ucd.Consistent ∧
      grantingAllocator.Generous ∧
      ucbUcNormalize ligatureTables grantingAllocator
        (encode (List.replicate (2 ^ 31 + 1) letterF))
        (some (encode (List.replicate (2 ^ 31 + 1) letterF)).length) (some .nfc) =
          .ok (.ok (formResult ligatureUcd .nfc (List.replicate (2 ^ 31 + 1) letterF))) ∧
      ucbUcNormalizeFull ligatureTables grantingAllocator
        (encode (List.replicate (2 ^ 31 + 1) letterF))
        (some (encode (List.replicate (2 ^ 31 + 1) letterF)).length) (some .nfc) = .undefined := by
  have generous : grantingAllocator.Generous := fun _ _ => rfl
  have leaves : ∀ count, 2 ^ 31 < count →
      ¬ FormFits ligatureUcd .nfc (List.replicate count letterF) := by
    intro count long fits
    have index := fits rfl
    rw [ordered_letters] at index
    exact absurd ((fits_letters_iff count).mp index) (Nat.not_le_of_lt long)
  have text : TextAt (List.replicate (2 ^ 31 + 1) letterF)
      (encode (List.replicate (2 ^ 31 + 1) letterF) ++ [])
      (some (encode (List.replicate (2 ^ 31 + 1) letterF)).length) := .counted []
  rw [List.append_nil] at text
  exact ⟨ligature_built, ligature_consistent, generous,
    normalizeQuick_accepted ligature_built generous text ligature_consistent
      (accepts_letters _),
    normalizeFull_undefined .nfc ligature_agrees generous text (leaves _ (Nat.lt_succ_self _))⟩

end Ucb.Unicode
