import Ucb.Unicode.Encode
import Ucb.Unicode.Normalize

/-!
Contract: case mapping and case folding, as `unicode.c` computes them.

Owns:
- the generated mapping tables and the lookups into them;
- `ucb_uc_case_map_cp` with the codepoint it carries from call to call, and the string functions
  over it;
- the reference map, codepoint by codepoint, and exactly when the code computes it.

A NUL inside of a string leaves the mapping function before it records the codepoint. What it
carries then is the last codepoint that is not NUL.
-/

namespace Ucb.Unicode

/-! ## Tables -/

/-- `ucb_uc_gc`, as far as the code tells the categories apart. -/
inductive UcbUcGc where
  | zs
  | zl
  | zp
  | po
  | ps
  | pe
  | cc
  | other
deriving DecidableEq, Repr, Inhabited

/-- The fields of `ucb_uc_prop` that case mapping reads. -/
structure UcbUcCaseProp where
  category : UcbUcGc
  mappingIdx : Nat
deriving DecidableEq, Repr, Inhabited

/-- `ucb_uc_mapping`: references into the tables of values. -/
structure UcbUcMapping where
  toUpper : Nat
  toLower : Nat
  toTitle : Nat
  toCasefold : Nat
deriving DecidableEq, Repr

def UcbUcMapping.refs (mapping : UcbUcMapping) : List Nat :=
  [mapping.toUpper, mapping.toLower, mapping.toTitle, mapping.toCasefold]

/-- The generated constants and arrays. -/
structure UcbUcRawCaseTables where
  maxMultiLen : Nat
  noValue : Nat
  blockSize : Nat
  stage1 : List Nat
  stage2 : List Nat
  props : List UcbUcCaseProp
  mappings : List UcbUcMapping
  smap : List Nat
  mmap : List (List Nat)

/-- `ucb_uc_get_prop`. -/
def ucbUcGetCaseProp (tables : UcbUcRawCaseTables) (cp : Nat) : Exec UcbUcCaseProp := do
  let block ← tableAt tables.stage1 (cp / tables.blockSize)
  let index ← tableAt tables.stage2 (block * tables.blockSize + cp % tables.blockSize)
  tableAt tables.props index

def ucbUcGetMapping (tables : UcbUcRawCaseTables) (prop : UcbUcCaseProp) :
    Exec (Option UcbUcMapping) :=
  if prop.mappingIdx = 0 then pure none
  else do
    let mapping ← tableAt tables.mappings (prop.mappingIdx - 1)
    pure (some mapping)

/-- The values behind a reference: none, a simple one, or those of an entry in front of the first
unused slot. -/
def caseValues (tables : UcbUcRawCaseTables) (cp ref : Nat) : Exec (List Nat) :=
  if ref = 0 then pure [cp]
  else if ref ≤ tables.smap.length then do
    let value ← tableAt tables.smap (ref - 1)
    pure [value]
  else do
    let entry ← tableAt tables.mmap (ref - tables.smap.length - 1)
    pure ((entry.take tables.maxMultiLen).takeWhile (· ≠ tables.noValue))

/-- Generated tables, which cover the scalar values; their references lead to entries of one to
three scalar values. -/
structure UcbUcCaseTables extends UcbUcRawCaseTables where
  multiLen : 3 ≤ maxMultiLen
  covers : ∀ cp, IsScalar cp → ∃ prop mapping,
    ucbUcGetCaseProp toUcbUcRawCaseTables cp = .ok prop ∧
      ucbUcGetMapping toUcbUcRawCaseTables prop = .ok mapping
  entries : ∀ cp prop mapping, IsScalar cp →
    ucbUcGetCaseProp toUcbUcRawCaseTables cp = .ok prop →
      ucbUcGetMapping toUcbUcRawCaseTables prop = .ok (some mapping) →
        ∀ ref ∈ mapping.refs, ∃ values : List Scalar,
          caseValues toUcbUcRawCaseTables cp ref = .ok (scalarValues values) ∧
            0 < values.length ∧ values.length ≤ 3

/-! ## Mapping a codepoint -/

/-- `ucb_uc_case_op_t`. -/
inductive UcbUcCaseOp where
  | upper
  | lower
  | title
  | fold
deriving DecidableEq, Repr

def ucbUcIsWordSeparator (cp : Nat) (prop : UcbUcCaseProp) : Bool :=
  if cp = 0x27 then false
  else
    match prop.category with
    | .zs | .zl | .zp | .po | .ps | .pe | .cc => true
    | .other => false

/-- `casemap_ctx_t` between two calls. -/
structure CasemapCtx where
  lastProp : Option UcbUcCaseProp
  lastCp : Nat
deriving DecidableEq, Repr

/-- The reference an operation takes; `starts` tells whether the codepoint starts a word. -/
def caseRef (op : UcbUcCaseOp) (starts : Bool) (mapping : UcbUcMapping) : Nat :=
  match op with
  | .upper => mapping.toUpper
  | .lower => mapping.toLower
  | .title => if starts then mapping.toTitle else mapping.toLower
  | .fold => mapping.toCasefold

/-- `ucb_uc_case_map_cp`: the context for the next call and what is in `buf`. -/
def ucbUcCaseMapCp (tables : UcbUcRawCaseTables) (op : UcbUcCaseOp) (ctx : CasemapCtx) (cp : Nat) :
    Exec (CasemapCtx × List Nat) :=
  if cp = 0 then pure (ctx, [cp])
  else do
    let prop ← ucbUcGetCaseProp tables cp
    match ← ucbUcGetMapping tables prop with
    | none => pure (⟨some prop, cp⟩, [cp])
    | some mapping => do
        let starts := ctx.lastProp.all (ucbUcIsWordSeparator ctx.lastCp)
        let values ← caseValues tables cp (caseRef op starts mapping)
        pure (⟨some prop, cp⟩, values)

/-! ## Mapping a string -/

/-- The body of the loop of `ucb_uc_case_map`. -/
def caseMapStep (tables : UcbUcRawCaseTables) (allocator : Allocator) (op : UcbUcCaseOp)
    (state : CasemapCtx × UcbBuffer) (cp : Nat) :
    Exec (Except EncodeFailure (CasemapCtx × UcbBuffer)) := do
  let (ctx, values) ← ucbUcCaseMapCp tables op state.1 cp
  let (buf, encoded) ← ucbUcEncodeCodepoints tables.maxMultiLen allocator state.2 values
  pure (encoded.map fun _ => (ctx, buf))

/-- The end of `ucb_uc_case_map`: the NUL, and the fitted buffer is handed over. -/
def caseMapResult (allocator : Allocator) (buf : UcbBuffer) :
    Exec (Except EncodeFailure UcbUcResult) := do
  let (buf, pushed) ← ucbBufferPush allocator buf [0]
  if pushed then do
    let (buf, _) ← ucbBufferFit allocator buf
    pure (.ok ⟨buf.data, buf.size - 1⟩)
  else pure (.error (some ⟨.outOfMemory, "Failed push null terminator"⟩))

/-- `ucb_uc_case_map` into a buffer of its own, which is as large as the string and so needs no
more room at first. -/
def ucbUcCaseMap (tables : UcbUcRawCaseTables) (allocator : Allocator) (str : List UInt8)
    (size : Nat) (op : UcbUcCaseOp) : Exec (Except EncodeFailure UcbUcResult) := do
  let (buf, made) ← ucbBufferInitHeap allocator (size + 1)
  if made = false then pure (.error none)
  else do
    let begun : CasemapCtx × UcbBuffer := (⟨none, tables.noValue⟩, { buf with growth := .double })
    match ← forEachCodepoint str size (caseMapStep tables allocator op) (size + 1) 0 begun with
    | .error failure => pure (.error failure)
    | .ok (state, _) => caseMapResult allocator state.2

def ucbUcToUpper (tables : UcbUcRawCaseTables) (allocator : Allocator) (str : List UInt8)
    (size : Nat) : Exec (Except EncodeFailure UcbUcResult) :=
  ucbUcCaseMap tables allocator str size .upper

def ucbUcToLower (tables : UcbUcRawCaseTables) (allocator : Allocator) (str : List UInt8)
    (size : Nat) : Exec (Except EncodeFailure UcbUcResult) :=
  ucbUcCaseMap tables allocator str size .lower

def ucbUcToTitle (tables : UcbUcRawCaseTables) (allocator : Allocator) (str : List UInt8)
    (size : Nat) : Exec (Except EncodeFailure UcbUcResult) :=
  ucbUcCaseMap tables allocator str size .title

def ucbUcCasefold (tables : UcbUcRawCaseTables) (allocator : Allocator) (str : List UInt8)
    (size : Nat) : Exec (Except EncodeFailure UcbUcResult) :=
  ucbUcCaseMap tables allocator str size .fold

/-! ## The reference map -/

def toScalar (value : Nat) : Option Scalar :=
  if scalar : IsScalar value then some ⟨value, scalar⟩ else none

theorem toScalar_scalarValues (cps : List Scalar) :
    (scalarValues cps).filterMap toScalar = cps := by
  induction cps with
  | nil => rfl
  | cons cp rest inductionHypothesis =>
      have known : toScalar cp.val = some cp := dif_pos cp.property
      rw [scalarValues_cons, List.filterMap_cons_some known, inductionHypothesis]

namespace UcbUcCaseTables

variable (tables : UcbUcCaseTables) (op : UcbUcCaseOp)

/-- The property entry of a scalar value. -/
def propOf (cp : Scalar) : UcbUcCaseProp :=
  ((ucbUcGetCaseProp tables.toUcbUcRawCaseTables cp.val).returned).getD default

def mappingOf (cp : Scalar) : Option UcbUcMapping :=
  (ucbUcGetMapping tables.toUcbUcRawCaseTables (tables.propOf cp)).returned.join

/-- What one codepoint maps to, by whether it starts a word. -/
def mapOne (starts : Bool) (cp : Scalar) : List Scalar :=
  match tables.mappingOf cp with
  | none => [cp]
  | some mapping =>
      ((caseValues tables.toUcbUcRawCaseTables cp.val (caseRef op starts mapping)).returned.getD
        []).filterMap toScalar

/-- Whether a codepoint behind `prev`, or at the front, starts a word. -/
def startsWord (prev : Option Scalar) : Bool :=
  prev.all fun prev => ucbUcIsWordSeparator prev.val (tables.propOf prev)

/-- The concatenated mappings of the codepoints behind `prev`. -/
def referenceMap : Option Scalar → List Scalar → List Scalar
  | _, [] => []
  | prev, cp :: rest =>
      tables.mapOne op (tables.startsWord prev) cp ++ referenceMap (some cp) rest

theorem getCaseProp_eq (cp : Scalar) :
    ucbUcGetCaseProp tables.toUcbUcRawCaseTables cp.val = .ok (tables.propOf cp) := by
  obtain ⟨prop, -, found, -⟩ := tables.covers cp.val cp.property
  rw [propOf, found]
  rfl

theorem getMapping_eq (cp : Scalar) :
    ucbUcGetMapping tables.toUcbUcRawCaseTables (tables.propOf cp) = .ok (tables.mappingOf cp) := by
  obtain ⟨prop, mapping, found, mapped⟩ := tables.covers cp.val cp.property
  obtain rfl := Exec.ok.inj ((tables.getCaseProp_eq cp).symm.trans found)
  rw [mappingOf, mapped]
  rfl

theorem caseRef_mem (starts : Bool) (mapping : UcbUcMapping) :
    caseRef op starts mapping ∈ mapping.refs := by
  cases op <;> cases starts <;> simp [caseRef, UcbUcMapping.refs]

/-- The values of a mapped codepoint are scalar values, and there are one to three. -/
theorem caseValues_eq {cp : Scalar} {mapping : UcbUcMapping}
    (mapped : tables.mappingOf cp = some mapping) (starts : Bool) :
    caseValues tables.toUcbUcRawCaseTables cp.val (caseRef op starts mapping) =
      .ok (scalarValues (tables.mapOne op starts cp)) := by
  have found := tables.getMapping_eq cp
  rw [mapped] at found
  obtain ⟨values, known, -⟩ :=
    tables.entries cp.val _ mapping cp.property (tables.getCaseProp_eq cp)
    found _ (caseRef_mem op starts mapping)
  rw [mapOne, mapped]
  dsimp only
  rw [known, Exec.returned, Option.getD_some, toScalar_scalarValues]

theorem mapOne_length (starts : Bool) (cp : Scalar) :
    0 < (tables.mapOne op starts cp).length ∧ (tables.mapOne op starts cp).length ≤ 3 := by
  cases mapped : tables.mappingOf cp with
  | none => simp [mapOne, mapped]
  | some mapping =>
      have found := tables.getMapping_eq cp
      rw [mapped] at found
      obtain ⟨values, known, nonempty, few⟩ := tables.entries cp.val _ mapping cp.property
        (tables.getCaseProp_eq cp) found _ (caseRef_mem op starts mapping)
      have same := (tables.caseValues_eq op mapped starts).symm.trans known
      have lengths := congrArg List.length (Exec.ok.inj same)
      rw [scalarValues_length, scalarValues_length] at lengths
      omega

/-! ## What the code computes -/

/-- The context that carries a codepoint. -/
def ctxOf : Option Scalar → CasemapCtx
  | none => ⟨none, tables.noValue⟩
  | some last => ⟨some (tables.propOf last), last.val⟩

def carried (last : Option Scalar) (cp : Scalar) : Option Scalar :=
  if cp.val = 0 then last else some cp

/-- What a codepoint becomes when `last` is carried to it. -/
def carriedPiece (last : Option Scalar) (cp : Scalar) : List Scalar :=
  if cp.val = 0 then [cp] else tables.mapOne op (tables.startsWord last) cp

/-- What a list becomes when `last` is carried to it. -/
def carriedMap : Option Scalar → List Scalar → List Scalar
  | _, [] => []
  | last, cp :: rest => tables.carriedPiece op last cp ++ carriedMap (carried last cp) rest

theorem ctxOf_starts (last : Option Scalar) :
    (tables.ctxOf last).lastProp.all (ucbUcIsWordSeparator (tables.ctxOf last).lastCp) =
      tables.startsWord last := by
  cases last <;> rfl

/-- One call of `ucb_uc_case_map_cp`. -/
theorem caseMapCp_eq (last : Option Scalar) (cp : Scalar) :
    ucbUcCaseMapCp tables.toUcbUcRawCaseTables op (tables.ctxOf last) cp.val =
      .ok (tables.ctxOf (carried last cp), scalarValues (tables.carriedPiece op last cp)) := by
  rw [ucbUcCaseMapCp, carried, carriedPiece]
  by_cases nul : cp.val = 0
  · rw [if_pos nul, if_pos nul, if_pos nul]
    rfl
  · rw [if_neg nul, if_neg nul, if_neg nul, tables.getCaseProp_eq, Exec.ok_bind,
      tables.getMapping_eq, Exec.ok_bind]
    cases mapped : tables.mappingOf cp with
    | none =>
        have itself : tables.mapOne op (tables.startsWord last) cp = [cp] := by
          rw [mapOne, mapped]
        rw [itself]
        rfl
    | some mapping =>
        dsimp only
        rw [tables.ctxOf_starts, tables.caseValues_eq op mapped, Exec.ok_bind]
        rfl

variable {tables op} {allocator : Allocator}

/-- The loop appends what the codepoints become. -/
theorem caseMap_loop (generous : allocator.Generous) (cps : List Scalar) :
    ∀ last used spare, ∃ ctx spare',
      foldCps (caseMapStep tables.toUcbUcRawCaseTables allocator op)
          (tables.ctxOf last, ⟨used ++ spare, used.length, .double⟩) cps =
        .ok (.ok (ctx, ⟨used ++ encode (tables.carriedMap op last cps) ++ spare',
          (used ++ encode (tables.carriedMap op last cps)).length, .double⟩)) := by
  induction cps with
  | nil =>
      intro last used spare
      refine ⟨tables.ctxOf last, spare, ?_⟩
      rw [carriedMap, encode_nil, List.append_nil]
      rfl
  | cons cp rest inductionHypothesis =>
      intro last used spare
      obtain ⟨between, encoded⟩ := encodeCodepoints_double tables.multiLen generous
        (tables.carriedPiece op last cp) used spare
      obtain ⟨ctx, spare', later⟩ := inductionHypothesis (carried last cp)
        (used ++ encode (tables.carriedPiece op last cp)) between
      refine ⟨ctx, spare', ?_⟩
      rw [foldCps, caseMapStep]
      dsimp only
      rw [tables.caseMapCp_eq, Exec.ok_bind, encoded, Exec.ok_bind]
      rw [carriedMap, encode_append, ← List.append_assoc used]
      exact later

/-- Mapping a string whose codepoints are `cps`. -/
theorem caseMap_eq (generous : allocator.Generous) (cps : List Scalar) (after : List UInt8) :
    ucbUcCaseMap tables.toUcbUcRawCaseTables allocator (encode cps ++ after) (encode cps).length
        op =
      .ok (.ok ⟨encode (tables.carriedMap op none cps) ++ [0],
        (encode (tables.carriedMap op none cps)).length⟩) := by
  have made : ucbBufferInitHeap allocator ((encode cps).length + 1) =
      .ok (⟨List.replicate ((encode cps).length + 1) 0, 0, .exact⟩, true) := by
    rw [ucbBufferInitHeap, ucbCalloc, if_pos ⟨Nat.succ_pos _, generous _ _⟩]
    rfl
  obtain ⟨ctx, spare, ran⟩ := caseMap_loop generous cps none []
    (List.replicate ((encode cps).length + 1) 0)
  generalize tables.carriedMap op none cps = out at ran ⊢
  obtain ⟨spare', pushed⟩ := bufferPush_double generous (encode out) spare [0]
  have fitted := bufferFit_double generous (List.append_ne_nil_of_right_ne_nil (encode out)
    (List.cons_ne_nil (0 : UInt8) [])) spare'
  rw [ucbUcCaseMap, made, Exec.ok_bind]
  dsimp only
  rw [if_neg Bool.noConfusion, forEachCodepoint_front]
  rw [List.nil_append, List.nil_append] at ran
  have begun : foldCps (caseMapStep tables.toUcbUcRawCaseTables allocator op)
      (⟨none, tables.noValue⟩, ⟨List.replicate ((encode cps).length + 1) 0, 0, .double⟩) cps =
      .ok (.ok (ctx, ⟨encode out ++ spare, (encode out).length, .double⟩)) := ran
  rw [begun, Exec.ok_map]
  dsimp only [Except.map]
  rw [Exec.ok_bind]
  dsimp only
  rw [caseMapResult, pushed, Exec.ok_bind]
  dsimp only
  rw [if_pos rfl, fitted, Exec.ok_bind]
  rw [List.length_append]
  rfl

end UcbUcCaseTables

end Ucb.Unicode
