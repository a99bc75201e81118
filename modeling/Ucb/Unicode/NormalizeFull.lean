import Ucb.Unicode.NormDecompose

/-!
Contract: `ucb_uc_normalize_full` against the normalization forms.

Owns:
- composing and encoding in place, and the whole of `normalize`;
- the result a form demands, and exactly when the code produces it.

The loop of `norm_compose` counts back with an `int`. Input with fewer than
`2 ^ 31` codepoints can decompose to more.
-/

namespace Ucb.Unicode

open Ucb.Lib

/-- A string of which `mem` is the memory from its first byte on: with a size, or
terminated and without NUL. -/
inductive TextAt (cps : List Scalar) : List UInt8 → Option Nat → Prop
  | counted (after : List UInt8) : TextAt cps (encode cps ++ after) (some (encode cps).length)
  | terminated (after : List UInt8) (noNul : 0 ∉ encode cps) :
      TextAt cps (encode cps ++ 0 :: after) none

theorem TextAt.resolve {cps : List Scalar} {mem : List UInt8} {size : Option Nat}
    (text : TextAt cps mem size) :
    resolveLen mem size = .ok (encode cps).length ∧ ∃ after, mem = encode cps ++ after := by
  cases text with
  | counted after => exact ⟨rfl, after, rfl⟩
  | terminated after noNul => exact ⟨strlen_append (encode cps) after noNul, 0 :: after, rfl⟩

/-- The result a form demands: its encoding and a NUL, with the size in front of it. -/
def formResult (ucd : Ucd) (form : NormForm) (cps : List Scalar) : UcbUcResult :=
  ⟨encode (ucd.normalForm form cps) ++ [0], (encode (ucd.normalForm form cps)).length⟩

variable {ucd : Ucd} {form : NormForm} {tables : UcbUcNormTables} {allocator : Allocator}

/-! ## Composing in place -/

/-- The context holds the encoding of a text. -/
def Encoded (cps : List Scalar) (ctx : NormCtx) : Prop :=
  ∃ spare, ctx.cp = ⟨encode cps ++ spare, (encode cps).length, .double⟩

section Recode

variable {ctx : NormCtx} {cps : List Scalar} (held : CtxHolds ucd form [] cps.reverse ctx)
  (composes : form.composes = true)

include held composes

theorem recode_loads :
    ∃ spare, ctx.cp.data = wordsBytes (scalarValues cps) ++ spare ∧ ctx.cp.growth = .double ∧
      wordsAt ctx.cp.data 0 (ctx.cp.size / 4) = .ok (scalarValues cps) := by
  obtain ⟨spare, buffer⟩ := held.buffer
  have bytes : stored form cps.reverse.reverse = wordsBytes (scalarValues cps) := by
    rw [List.reverse_reverse]
    exact if_pos composes
  rw [bytes] at buffer
  have count : (wordsBytes (scalarValues cps)).length / 4 = (scalarValues cps).length := by
    rw [wordsBytes_length]
    omega
  have loaded := wordsAt_stored spare (scalarValues cps) [] (scalarValues_lt cps)
  rw [wordsBytes_nil, List.nil_append, List.length_nil] at loaded
  rw [buffer]
  exact ⟨spare, rfl, rfl, by rw [count]; exact loaded⟩

theorem normRecode_eq (agrees : Agrees ucd tables) (allocator : Allocator)
    (noSyllable : ∀ c ∈ cps, ¬ IsHangulSyllable c.val) (fits : IndexFits ucd cps) :
    Leads (normRecode tables allocator ctx) (Encoded (ucd.compose cps)) := by
  obtain ⟨spare, data, growth, loaded⟩ := recode_loads held composes
  have shorter : (ucd.compose cps).length ≤ cps.length := compose_length_le cps
  have room : (wordsBytes (scalarValues (ucd.compose cps))).length ≤ ctx.cp.data.length := by
    rw [data, List.length_append, wordsBytes_length, wordsBytes_length, scalarValues_length,
      scalarValues_length]
    omega
  have written := blit_spare [] ctx.cp.data room
  rw [List.nil_append, List.length_nil, List.nil_append] at written
  obtain ⟨spare', encoded⟩ := encodeInPlace_scalarValues tables.multiLen allocator .double
    (ucd.compose cps) (ctx.cp.data.drop (wordsBytes (scalarValues (ucd.compose cps))).length)
  rw [normRecode, loaded, Exec.ok_bind, normCompose_eq agrees noSyllable fits, Exec.ok_bind,
    written,
    Exec.ok_bind]
  simp only [ucbBufferClear, growth, scalarValues_length, encoded, Exec.ok_bind]
  exact ⟨_, rfl, spare', rfl⟩

theorem normRecode_undefined (agrees : Agrees ucd tables) (allocator : Allocator)
    (noSyllable : ∀ c ∈ cps, ¬ IsHangulSyllable c.val) (leaves : ¬ IndexFits ucd cps) :
    normRecode tables allocator ctx = .undefined := by
  obtain ⟨spare, -, -, loaded⟩ := recode_loads held composes
  rw [normRecode, loaded, Exec.ok_bind, normCompose_undefined agrees noSyllable leaves]
  rfl

end Recode

/-! ## The whole of `normalize` -/

/-- The context holds the encoding of a text and the NUL behind it. -/
def Terminated (cps : List Scalar) (ctx : NormCtx) : Prop :=
  ∃ spare, ctx.cp = ⟨encode cps ++ [0] ++ spare, (encode cps ++ [0]).length, .double⟩

theorem normTerminate_encoded (generous : allocator.Generous) {cps : List Scalar} {ctx : NormCtx}
    (encoded : Encoded cps ctx) : Leads (normTerminate allocator ctx) (Terminated cps) := by
  obtain ⟨spare, buffer⟩ := encoded
  obtain ⟨spare', pushed⟩ := bufferPush_double generous (encode cps) spare [0]
  rw [normTerminate, buffer, pushed]
  exact ⟨_, rfl, spare', rfl⟩

/-- When the index never leaves its range, the context ends with the form. -/
def FormFits (ucd : Ucd) (form : NormForm) (cps : List Scalar) : Prop :=
  form.composes = true → IndexFits ucd (ucd.ordered form.compat cps)

section Run

variable {ctx : NormCtx} (agrees : Agrees ucd tables) (generous : allocator.Generous)
  (start : CtxHolds ucd form [] [] ctx) (cps : List Scalar) (after : List UInt8)

include agrees generous start

theorem normalize_flushed :
    ∃ ctx', CtxHolds ucd form [] (ucd.ordered form.compat cps).reverse ctx' ∧
      normalize tables allocator ctx (encode cps ++ after) (encode cps).length =
        andThen (if ctx'.compose then normRecode tables allocator ctx' else pure (.ok ctx'))
          (normTerminate allocator) := by
  have ordering : Ordering ucd form [] ctx := ⟨[], [], rfl, .inr nofun, start⟩
  obtain ⟨ctx₁, loop, ordering₁⟩ := foldCps_ordering agrees generous cps ordering
  rw [List.nil_append] at ordering₁
  obtain ⟨ctx', flush, held⟩ := lastFlush_holds generous tables ordering₁
  refine ⟨ctx', held, ?_⟩
  have flushed : andThen (pure (Except.map Prod.fst (Except.map
      (fun x => (x, (encode cps).length)) (Except.ok ctx₁ : Except EncodeFailure NormCtx))))
      (normCtxFlush tables allocator) = .ok (.ok ctx') := flush
  rw [normalize, forEachCodepoint_front, loop, Exec.ok_map, Exec.ok_bind, flushed]
  rfl

theorem normalize_eq (fits : FormFits ucd form cps) :
    Leads (normalize tables allocator ctx (encode cps ++ after) (encode cps).length)
      (Terminated (ucd.normalForm form cps)) := by
  obtain ⟨ctx₁, held, flushed⟩ := normalize_flushed agrees generous start cps after
  have encoded : Leads (if ctx₁.compose then normRecode tables allocator ctx₁ else pure (.ok ctx₁))
      (Encoded (ucd.normalForm form cps)) := by
    rw [held.compose, Ucd.normalForm]
    cases composes : form.composes with
    | true =>
        exact normRecode_eq held composes agrees allocator
          (fun c member => Ucd.mem_ordered_not_syllable member) (fits composes)
    | false =>
        obtain ⟨spare, buffer⟩ := held.buffer
        rw [List.reverse_reverse, stored, composes] at buffer
        exact Leads.pure ⟨spare, buffer⟩
  rw [flushed]
  exact encoded.andThen fun ctx' => normTerminate_encoded generous

theorem normalize_undefined (leaves : ¬ FormFits ucd form cps) :
    normalize tables allocator ctx (encode cps ++ after) (encode cps).length = .undefined := by
  obtain ⟨composes, leaves⟩ := Classical.not_imp.mp leaves
  obtain ⟨ctx₁, held, flushed⟩ := normalize_flushed agrees generous start cps after
  have undefined := normRecode_undefined held composes agrees allocator
    (fun c member => Ucd.mem_ordered_not_syllable member) leaves
  rw [flushed, held.compose, composes, if_pos rfl, undefined]
  rfl

end Run

/-! ## `ucb_uc_normalize_full` -/

section Full

variable {cps : List Scalar} {mem : List UInt8} {size : Option Nat} (agrees : Agrees ucd tables)
  (generous : allocator.Generous) (text : TextAt cps mem size) (form)

include generous text

variable (ucd tables) in
/-- Without the quick path the call is a run of `normalize` on an empty context. -/
theorem normalizeFull_run :
    ∃ ctx after, mem = encode cps ++ after ∧ CtxHolds ucd form [] [] ctx ∧
      ucbUcNormalizeFull tables allocator mem size (some form) =
        (normalize tables allocator ctx mem (encode cps).length >>= fun
          | .error failure => pure (.error failure)
          | .ok ctx => normResult allocator ctx) := by
  obtain ⟨resolved, after, rfl⟩ := text.resolve
  have block : ucbCalloc allocator (4 * cps.length * 4 + 1) =
      some (List.replicate (4 * cps.length * 4 + 1) 0) := by
    rw [ucbCalloc, if_pos ⟨Nat.succ_pos _, generous .calloc _⟩]
  have made : ucbBufferInitHeap allocator (4 * cps.length * 4 + 1) =
      .ok (⟨List.replicate (4 * cps.length * 4 + 1) 0, 0, .exact⟩, true) := by
    rw [ucbBufferInitHeap, block]
    rfl
  have empty : stored form [] = [] := by
    unfold stored
    split <;> rfl
  refine ⟨⟨⟨List.replicate (4 * cps.length * 4 + 1) 0, 0, .double⟩, [], normCtxBufsize,
    form.composes, form.compat⟩, after, rfl, ⟨rfl, rfl, rfl, ?_⟩, ?_⟩
  · exact ⟨List.replicate (4 * cps.length * 4 + 1) 0, by rw [List.reverse_nil, empty]; rfl⟩
  · rw [ucbUcNormalizeFull, normalizeCommon, resolved]
    simp only [Exec.pure_eq_ok, Exec.ok_bind, numCp_front, made]
    rfl

include agrees

theorem normalizeFull_eq (fits : FormFits ucd form cps) :
    ucbUcNormalizeFull tables allocator mem size (some form) =
      .ok (.ok (formResult ucd form cps)) := by
  obtain ⟨ctx, after, rfl, start, run⟩ := normalizeFull_run ucd form tables generous text
  obtain ⟨ctx', ran, spare, buffer⟩ := normalize_eq agrees generous start cps after fits
  have fitted := bufferFit_double generous
    (show encode (ucd.normalForm form cps) ++ [0] ≠ [] by simp) spare
  rw [run, ran, Exec.ok_bind]
  dsimp only
  rw [normResult, buffer, fitted]
  simp [formResult]

theorem normalizeFull_undefined (leaves : ¬ FormFits ucd form cps) :
    ucbUcNormalizeFull tables allocator mem size (some form) = .undefined := by
  obtain ⟨ctx, after, rfl, start, run⟩ := normalizeFull_run ucd form tables generous text
  rw [run, normalize_undefined agrees generous start cps after leaves]
  rfl

/-- Full normalization gives the form, NUL-terminated and with its size, exactly when
composition is not asked for or never stands behind `2 ^ 31` composed codepoints. -/
theorem normalizeFull_iff :
    ucbUcNormalizeFull tables allocator mem size (some form) = .ok (.ok (formResult ucd form cps)) ↔
      (form.composes = true → IndexFits ucd (ucd.ordered form.compat cps)) := by
  constructor
  · intro ran
    by_contra leaves
    rw [normalizeFull_undefined form agrees generous text leaves] at ran
    cases ran
  · exact normalizeFull_eq form agrees generous text

end Full

/-! ## A ligature -/

def letterF : Scalar := ⟨0x66, by decide⟩

/-- U+FB00, the ligature of two `f`. -/
def ligatureFf : Scalar := ⟨0xFB00, by decide⟩

theorem letterF_ne_ligature : letterF ≠ ligatureFf := by decide

theorem ligature_not_hangul : ¬ IsHangul ligatureFf.val := by
  unfold IsHangul IsHangulSyllable IsLeadingJamo IsVowelJamo IsTrailingJamo
  decide

/-- The part of the database that knows this ligature only. -/
def ligatureUcd : Ucd where
  ccc _ := 0
  mapping cp := if cp = ligatureFf then some (.compat, [letterF, letterF]) else none
  excluded _ := false
  primary _ _ := none
  rank cp := if cp = ligatureFf then 1 else 0
  rank_lt := by
    intro cp type vals mapped v member
    split at mapped
    next same =>
      cases mapped
      have letter : v = letterF := by simpa using member
      rw [letter, if_neg letterF_ne_ligature, if_pos same]
      exact Nat.one_pos
    next => cases mapped
  primary_eq_some := by
    intro a b p
    simp
  hangul_ccc := fun _ => rfl
  hangul_unmapped := by
    intro cp hangul
    apply if_neg
    intro same
    rw [same] at hangul
    exact ligature_not_hangul hangul
  syllable_free := by
    intro cp type vals mapped v member
    split at mapped
    next same =>
      cases mapped
      have letter : v = letterF := by simpa using member
      rw [letter]
      decide
    next => cases mapped
  nul_unmapped := by
    intro cp nul
    apply if_neg
    intro same
    rw [same] at nul
    cases nul

def ligatureProp : UcbUcProp := { (default : UcbUcProp) with nfkcNo := true, decompIdx := 1 }

/-- The arrays generated from it, of one block that covers `count` codepoints. -/
def ligatureRawTables (count : Nat) : UcbUcRawTables where
  maxMultiLen := 3
  blockSize := count
  stage1 := [0]
  stage2 := (List.replicate count 0).set 0xFB00 1
  props := [default, ligatureProp]
  decomps := [⟨.compat, [0x66, 0x66]⟩]
  combiners := []

theorem stage2_ligature {count cp : Nat} (inside : cp < count) :
    ((List.replicate count 0).set 0xFB00 1)[cp]? = some (if cp = 0xFB00 then 1 else 0) := by
  rw [List.getElem?_set, List.length_replicate, List.getElem?_replicate, if_pos inside]
  by_cases same : cp = 0xFB00
  · rw [if_pos same.symm, if_pos same, if_pos (same ▸ inside)]
  · rw [if_neg (Ne.symm same), if_neg same]

theorem getProp_ligature {count cp : Nat} (inside : cp < count) :
    ucbUcGetProp (ligatureRawTables count) cp =
      .ok (if cp = 0xFB00 then ligatureProp else default) := by
  have loaded : tableAt ((List.replicate count 0).set 0xFB00 1) cp =
      .ok (if cp = 0xFB00 then 1 else 0) := by
    rw [tableAt, stage2_ligature inside]
  have block : tableAt [0] (cp / count) = .ok 0 := by
    rw [Nat.div_eq_of_lt inside]
    rfl
  have entry : tableAt [default, ligatureProp] (if cp = 0xFB00 then 1 else 0) =
      .ok (if cp = 0xFB00 then ligatureProp else default) := by
    split <;> rfl
  simp only [ucbUcGetProp, ligatureRawTables, block, Exec.ok_bind, Nat.zero_mul, Nat.zero_add,
    Nat.mod_eq_of_lt inside, loaded, entry]

theorem getProp_beyond {count cp : Nat} (positive : 0 < count) (beyond : ¬ cp < count) :
    ucbUcGetProp (ligatureRawTables count) cp = .undefined := by
  have block : 1 ≤ cp / count := (Nat.one_le_div_iff positive).mpr (Nat.le_of_not_lt beyond)
  simp only [ucbUcGetProp, ligatureRawTables, tableAt]
  rw [List.getElem?_eq_none block]
  rfl

theorem ligatureRawTables_multiLen (count : Nat) : 3 ≤ (ligatureRawTables count).maxMultiLen :=
  Nat.le_refl 3

def ligatureTables : UcbUcNormTables where
  toUcbUcRawTables := ligatureRawTables 0x110000
  multiLen := ligatureRawTables_multiLen 0x110000
  covers := fun _ scalar => ⟨_, getProp_ligature scalar.lt⟩
  rank cp := if cp = 0xFB00 then 1 else 0
  rank_lt := by
    intro cp prop decomp found stepped v member
    by_cases inside : cp < 0x110000
    · rw [getProp_ligature inside] at found
      obtain rfl := Exec.ok.inj found
      split at stepped
      next same =>
        cases stepped
        have letter : v = 0x66 := by simpa using member
        rw [letter, if_pos same]
        exact Nat.one_pos
      next => cases stepped
    · rw [getProp_beyond (by decide) inside] at found
      cases found

theorem ligatureTables_propOf (cp : Scalar) :
    ligatureTables.propOf cp = if cp.val = 0xFB00 then ligatureProp else default := by
  have entry : ucbUcGetProp ligatureTables.toUcbUcRawTables cp.val =
      .ok (if cp.val = 0xFB00 then ligatureProp else default) :=
    getProp_ligature cp.property.lt
  rw [UcbUcTables.propOf, entry]

theorem ligature_agrees : Agrees ligatureUcd ligatureTables where
  ccc := by
    intro cp
    rw [ligatureTables_propOf]
    split <;> rfl
  decomp := by
    intro cp
    have same : cp.val = 0xFB00 ↔ cp = ligatureFf :=
      ⟨fun value => Subtype.ext value, congrArg Subtype.val⟩
    rw [ligatureTables_propOf]
    by_cases ligature : cp = ligatureFf
    · rw [if_pos (same.mpr ligature)]
      simp only [ligatureUcd, if_pos ligature]
      rfl
    · rw [if_neg (same.not.mpr ligature)]
      simp only [ligatureUcd, if_neg ligature]
      rfl
  combiners := by
    intro a
    refine ⟨none, ?_, .nil, ?_⟩
    · rw [ligatureTables_propOf]
      split <;> rfl
    · intro entry
      simp [ligatureUcd]

theorem mapping_ligature :
    ligatureUcd.mapping ligatureFf = some (.compat, [letterF, letterF]) := by
  simp only [ligatureUcd, if_true]

theorem mapping_letter : ligatureUcd.mapping letterF = none := by
  simp only [ligatureUcd, if_neg letterF_ne_ligature]

theorem decompose_ligature : ligatureUcd.decompose true ligatureFf = [letterF, letterF] := by
  have letter : ligatureUcd.decompose true letterF = [letterF] :=
    Ucd.decompose_unmapped true (by decide) mapping_letter
  rw [Ucd.decompose_mapped mapping_ligature (.inr rfl), List.flatMap_cons, List.flatMap_cons,
    letter]
  rfl

theorem ordered_ligatures (count : Nat) :
    ligatureUcd.ordered true (List.replicate count ligatureFf) =
      List.replicate (2 * count) letterF := by
  have letters : (List.replicate count ligatureFf).flatMap (ligatureUcd.decompose true) =
      List.replicate (2 * count) letterF := by
    induction count with
    | zero => rfl
    | succ count inductionHypothesis =>
        rw [List.replicate_succ, List.flatMap_cons, inductionHypothesis, decompose_ligature,
          Nat.mul_succ, Nat.add_comm, List.replicate_add]
        rfl
  have starters : CanonicallyOrdered ligatureUcd.ccc (List.replicate (2 * count) letterF) :=
    List.isChain_replicate_of_rel _ fun out => absurd out.1 (Nat.lt_irrefl 0)
  rw [Ucd.ordered, letters, canonicalOrder_of_ordered starters]

theorem letterF_alone (a : Scalar) : hangulComposite a letterF = none := by
  have noVowel : ¬ (IsLeadingJamo a.val ∧ IsVowelJamo letterF.val) := fun both =>
    absurd both.2 (by decide)
  have noTrailing : ¬ (IsLvSyllable a.val ∧ IsTrailingJamo letterF.val) := fun both =>
    absurd both.2 (by decide)
  rw [hangulComposite, dif_neg noVowel, dif_neg noTrailing]

theorem compose_letters (count : Nat) :
    ligatureUcd.compose (List.replicate count letterF) = List.replicate count letterF := by
  have alone : ∀ m ∈ List.replicate count letterF, ∀ a, ligatureUcd.composite a m = none := by
    intro m member a
    rw [List.eq_of_mem_replicate member, Ucd.composite, letterF_alone]
    rfl
  rw [Ucd.compose, composition, composeRev_alone alone, List.append_nil, List.reverse_reverse]

theorem fits_letters_iff (count : Nat) :
    IndexFits ligatureUcd (List.replicate count letterF) ↔ count ≤ 2 ^ 31 := by
  constructor
  · intro fits
    by_contra long
    obtain ⟨rest, total⟩ := Nat.exists_eq_add_of_lt (Nat.lt_of_not_le long)
    have split : List.replicate count letterF =
        List.replicate (2 ^ 31) letterF ++ letterF :: List.replicate rest letterF := by
      rw [total, Nat.add_assoc, List.replicate_add, List.replicate_succ]
    rcases fits _ _ _ split with small | ⟨last, -, joined⟩
    · rw [compose_letters, List.length_reverse, List.length_replicate] at small
      exact Nat.lt_irrefl _ small
    · rw [letterF_alone] at joined
      cases joined
  · intro short front c rest split
    obtain ⟨total, same, -⟩ := List.append_eq_replicate_iff.mp split.symm
    rw [List.length_cons] at total
    rw [same]
    refine .inl ?_
    rw [compose_letters, List.length_reverse, List.length_replicate]
    omega

def grantingAllocator : Allocator := ⟨fun _ _ => true, fun _ => 0⟩

theorem fits_ligature : FormFits ligatureUcd .nfkc [ligatureFf] := by
  have ordered := ordered_ligatures 1
  rw [List.replicate_one] at ordered
  intro _
  rw [show NormForm.nfkc.compat = true from rfl, ordered]
  exact (fits_letters_iff 2).mpr (by decide)

theorem normalForm_ligature :
    ligatureUcd.normalForm .nfkc [ligatureFf] = [letterF, letterF] := by
  have ordered := ordered_ligatures 1
  have composed := compose_letters 2
  rw [List.replicate_one] at ordered
  show ligatureUcd.compose (ligatureUcd.ordered true [ligatureFf]) = [letterF, letterF]
  rw [ordered]
  exact composed

theorem normalizeFull_ligature :
    ucbUcNormalizeFull ligatureTables grantingAllocator [0xEF, 0xAC, 0x80] (some 3) (some .nfkc) =
      .ok (.ok ⟨[0x66, 0x66, 0], 2⟩) := by
  have text : TextAt [ligatureFf] [0xEF, 0xAC, 0x80] (some 3) := .counted []
  have result := (normalizeFull_iff .nfkc ligature_agrees (fun _ _ => rfl :
    grantingAllocator.Generous) text).mpr fits_ligature
  rw [result, formResult, normalForm_ligature]
  rfl

/-- Every ligature makes two letters. -/
theorem leaves_ligatures {count : Nat} (long : 2 ^ 31 < 2 * count) :
    ¬ FormFits ligatureUcd .nfkc (List.replicate count ligatureFf) := by
  intro fits
  have index := fits rfl
  rw [show NormForm.nfkc.compat = true from rfl, ordered_ligatures] at index
  have short := (fits_letters_iff _).mp index
  omega

/-- 2 ^ 30 + 1 ligatures are too many: they decompose to more than 2 ^ 31 letters. -/
theorem normalizeFull_too_long :
    (List.replicate (2 ^ 30 + 1) ligatureFf).length < 2 ^ 31 ∧
      ucbUcNormalizeFull ligatureTables grantingAllocator
        (encode (List.replicate (2 ^ 30 + 1) ligatureFf))
        (some (encode (List.replicate (2 ^ 30 + 1) ligatureFf)).length) (some .nfkc) =
          .undefined := by
  constructor
  · rw [List.length_replicate]
    decide
  · have text : TextAt (List.replicate (2 ^ 30 + 1) ligatureFf)
        (encode (List.replicate (2 ^ 30 + 1) ligatureFf) ++ [])
        (some (encode (List.replicate (2 ^ 30 + 1) ligatureFf)).length) := .counted []
    rw [List.append_nil] at text
    exact normalizeFull_undefined .nfkc ligature_agrees (fun _ _ => rfl) text
      (leaves_ligatures (by decide))

end Ucb.Unicode
