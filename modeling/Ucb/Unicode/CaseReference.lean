import Ucb.Unicode.CaseMap
import Ucb.Unicode.EncodeChunks

/-!
Contract: the case mapping functions against their reference map.

Owns:
- what they return with any allocator;
- when that is the reference map: what a NUL inside of the string changes;
- a NUL between two letters, which hides the start of a word.
-/

namespace Ucb.Unicode

namespace UcbUcCaseTables

variable {tables : UcbUcCaseTables} {op : UcbUcCaseOp} {allocator : Allocator}

/-! ## With any allocator -/

/-- One step of the loop, if it is not refused memory. -/
theorem caseMapStep_contains {last : Option Scalar} {cp : Scalar} {buf : UcbBuffer}
    {content : List UInt8} (contains : Contains buf content) {next : CasemapCtx × UcbBuffer}
    (ran : caseMapStep tables.toUcbUcRawCaseTables allocator op (tables.ctxOf last, buf) cp.val =
      .ok (.ok next)) :
    next.1 = tables.ctxOf (carried last cp) ∧
      Contains next.2 (content ++ encode (tables.carriedPiece op last cp)) := by
  rw [caseMapStep] at ran
  dsimp only at ran
  rw [tables.caseMapCp_eq, Exec.ok_bind] at ran
  obtain ⟨⟨after, encoded⟩, encodes, ran⟩ := Exec.bind_eq_ok.mp ran
  cases encoded with
  | error failure => cases Exec.ok.inj ran
  | ok done =>
      obtain rfl := Except.ok.inj (Exec.ok.inj ran)
      rw [ucbUcEncodeCodepoints, encodeLoop_eq_with] at encodes
      obtain ⟨cps, same, stored⟩ := (encodeCodepointsWith_stores (bufferPush_appends allocator)
        tables.multiLen contains encodes).1 rfl
      obtain rfl := map_val_injective same
      exact ⟨rfl, stored⟩

/-- The loop, if it is not refused memory. -/
theorem caseMap_contains (cps : List Scalar) :
    ∀ {last buf content state}, Contains buf content →
      foldCps (caseMapStep tables.toUcbUcRawCaseTables allocator op) (tables.ctxOf last, buf) cps =
        .ok (.ok state) →
      Contains state.2 (content ++ encode (tables.carriedMap op last cps)) := by
  induction cps with
  | nil =>
      intro last buf content state contains ran
      obtain rfl := Except.ok.inj (Exec.ok.inj ran)
      rw [carriedMap, encode_nil, List.append_nil]
      exact contains
  | cons cp rest inductionHypothesis =>
      intro last buf content state contains ran
      obtain ⟨outcome, first, ran⟩ := Exec.bind_eq_ok.mp ran
      cases outcome with
      | error failure => cases Exec.ok.inj ran
      | ok next =>
          obtain ⟨ctx, after⟩ := next
          obtain ⟨rfl, stored⟩ := caseMapStep_contains contains first
          rw [carriedMap, encode_append, ← List.append_assoc]
          exact inductionHypothesis stored ran

theorem contains_block {buf : UcbBuffer} {content : List UInt8} (contains : Contains buf content) :
    (∃ spare, buf.data = content ++ spare) ∧ buf.size = content.length := by
  obtain ⟨inside, rfl⟩ := contains
  refine ⟨⟨buf.data.drop buf.size, (List.take_append_drop _ _).symm⟩, ?_⟩
  rw [UcbBuffer.content, List.length_take, Nat.min_eq_left inside]

theorem fit_contains {buf after : UcbBuffer} {content : List UInt8} {fitted : Bool}
    (contains : Contains buf content) (ran : ucbBufferFit allocator buf = .ok (after, fitted)) :
    Contains after content := by
  rw [ucbBufferFit] at ran
  split at ran
  · obtain ⟨rfl, -⟩ := Prod.mk.inj (Exec.ok.inj ran)
    exact contains
  · obtain ⟨-, -, ran⟩ := Exec.bind_eq_ok.mp ran
    split at ran
    · obtain ⟨rfl, -⟩ := Prod.mk.inj (Exec.ok.inj ran)
      exact contains
    · split at ran
      next block granted =>
        obtain ⟨rfl, -⟩ := Prod.mk.inj (Exec.ok.inj ran)
        rw [ucbRealloc] at granted
        split at granted
        · obtain rfl := Option.some.inj granted
          refine ⟨?_, ?_⟩
          · rw [Nat.min_self, List.length_append, List.length_take, Nat.min_eq_left contains.1]
            exact Nat.le_add_right _ _
          · rw [← contains.2, UcbBuffer.content, UcbBuffer.content, Nat.min_self,
              List.take_append_of_le_length (by rw [List.length_take, Nat.min_eq_left contains.1]),
              List.take_take, Nat.min_self]
        · cases granted
      next =>
        obtain ⟨rfl, -⟩ := Prod.mk.inj (Exec.ok.inj ran)
        exact contains

/-- A result that encodes `out`: the block begins with the bytes and a NUL, the size is that of the
bytes. -/
structure IsEncodingOf (result : UcbUcResult) (out : List Scalar) : Prop where
  data : ∃ spare, result.data = encode out ++ 0 :: spare
  size : result.size = (encode out).length

theorem IsEncodingOf.unique {result : UcbUcResult} {left right : List Scalar}
    (isLeft : IsEncodingOf result left) (isRight : IsEncodingOf result right) : left = right := by
  obtain ⟨spare, data⟩ := isLeft.data
  obtain ⟨spare', data'⟩ := isRight.data
  exact encode_injective
    (List.append_inj (data.symm.trans data') (isLeft.size.symm.trans isRight.size)).1

theorem caseMapResult_contains {buf : UcbBuffer} {out : List Scalar} {result : UcbUcResult}
    (contains : Contains buf (encode out)) (ran : caseMapResult allocator buf = .ok (.ok result)) :
    IsEncodingOf result out := by
  obtain ⟨⟨pushedBuf, pushed⟩, pushes, ran⟩ := Exec.bind_eq_ok.mp ran
  cases pushed with
  | false => cases Exec.ok.inj ran
  | true =>
      obtain ⟨⟨fittedBuf, fitted⟩, fits, ran⟩ := Exec.bind_eq_ok.mp ran
      obtain rfl := Except.ok.inj (Exec.ok.inj ran)
      have stored := fit_contains ((bufferPush_appends allocator).appended contains pushes) fits
      obtain ⟨⟨spare, block⟩, size⟩ := contains_block stored
      refine ⟨⟨spare, ?_⟩, ?_⟩
      · rw [block, List.append_assoc]
        rfl
      · dsimp only
        rw [size, List.length_append]
        rfl

/-- With any allocator a result encodes what the code's map makes of the codepoints. -/
theorem caseMap_returns {cps : List Scalar} {after : List UInt8} {result : UcbUcResult}
    (ran : ucbUcCaseMap tables.toUcbUcRawCaseTables allocator (encode cps ++ after)
      (encode cps).length op = .ok (.ok result)) :
    IsEncodingOf result (tables.carriedMap op none cps) := by
  obtain ⟨⟨buf, made⟩, makes, ran⟩ := Exec.bind_eq_ok.mp ran
  dsimp only at ran
  split at ran
  · cases Exec.ok.inj ran
  next given =>
    rw [ucbBufferInitHeap] at makes
    split at makes
    next block granted =>
      obtain ⟨rfl, -⟩ := Prod.mk.inj (Exec.ok.inj makes)
      rw [forEachCodepoint_front] at ran
      obtain ⟨outcome, loops, ran⟩ := Exec.bind_eq_ok.mp ran
      cases outcome with
      | error failure => cases Exec.ok.inj ran
      | ok found =>
          obtain ⟨looped, folds, same⟩ := Exec.map_eq_ok loops
          cases looped with
          | error failure => cases same
          | ok state =>
              obtain rfl := Except.ok.inj same
              have empty : Contains ⟨block, 0, .double⟩ [] := ⟨Nat.zero_le _, rfl⟩
              have begun : foldCps (caseMapStep tables.toUcbUcRawCaseTables allocator op)
                  (tables.ctxOf none, ⟨block, 0, .double⟩) cps = .ok (.ok state) := folds
              exact caseMapResult_contains (caseMap_contains cps empty begun) ran
    next =>
      obtain ⟨-, rfl⟩ := Prod.mk.inj (Exec.ok.inj makes)
      exact absurd rfl given

/-! ## Against the reference map -/

def caseFunction : UcbUcCaseOp → UcbUcRawCaseTables → Allocator → List UInt8 → Nat →
    Exec (Except EncodeFailure UcbUcResult)
  | .upper => ucbUcToUpper
  | .lower => ucbUcToLower
  | .title => ucbUcToTitle
  | .fold => ucbUcCasefold

variable (tables op)

/-- The operation makes `out` of the codepoints `cps`, whatever lies behind their bytes: it returns
nothing else, and it returns if it is not refused memory. -/
structure Maps (cps out : List Scalar) : Prop where
  right : ∀ allocator after result,
    caseFunction op tables.toUcbUcRawCaseTables allocator (encode cps ++ after)
      (encode cps).length = .ok (.ok result) → IsEncodingOf result out
  returns : ∀ allocator after, allocator.Generous → ∃ result,
    caseFunction op tables.toUcbUcRawCaseTables allocator (encode cps ++ after)
      (encode cps).length = .ok (.ok result)

/-- The last codepoint that `ucb_uc_case_map_cp` has recorded. -/
def recorded (front : List Scalar) : Option Scalar :=
  (front.filter (·.val ≠ 0)).getLast?

/-- A NUL maps to itself, and no NUL hides whether a codepoint with a title mapping of its own
starts a word. -/
def UnchangedByNuls (cps : List Scalar) : Prop :=
  ∀ front cp back, cps = front ++ cp :: back →
    (cp.val = 0 → tables.mapOne op (tables.startsWord front.getLast?) cp = [cp]) ∧
    (cp.val ≠ 0 → op = .title → tables.mapOne .title true cp ≠ tables.mapOne .title false cp →
      tables.startsWord (recorded front) = tables.startsWord front.getLast?)

/-- NUL maps to itself and nothing else maps to it. -/
def NulOnlyFromNul : Prop :=
  ∀ op starts cp, (cp.val = 0 → tables.mapOne op starts cp = [cp]) ∧
    (cp.val ≠ 0 → ∀ out ∈ tables.mapOne op starts cp, out.val ≠ 0)

/-- The same pieces, codepoint by codepoint, when `last` is recorded behind `prev`. -/
def SamePieces : Option Scalar → Option Scalar → List Scalar → Prop
  | _, _, [] => True
  | last, prev, cp :: rest =>
      tables.carriedPiece op last cp = tables.mapOne op (tables.startsWord prev) cp ∧
        SamePieces (carried last cp) (some cp) rest

variable {tables op}

theorem caseFunction_eq : caseFunction op = fun tables allocator str size =>
    ucbUcCaseMap tables allocator str size op := by
  cases op <;> rfl

/-- The operation makes of a text what the code's map makes of it, and nothing else. -/
theorem maps_iff {cps out : List Scalar} :
    tables.Maps op cps out ↔ tables.carriedMap op none cps = out := by
  refine ⟨fun maps => ?_, ?_⟩
  · have generous : (⟨fun _ _ => true, fun _ => 0⟩ : Allocator).Generous := fun _ _ => rfl
    obtain ⟨result, ran⟩ := maps.returns _ [] generous
    have known := maps.right _ _ _ ran
    rw [caseFunction_eq] at ran
    exact (caseMap_returns ran).unique known
  · rintro rfl
    refine ⟨fun allocator after result ran => ?_, fun allocator after generous => ?_⟩
    · rw [caseFunction_eq] at ran
      exact caseMap_returns ran
    · rw [caseFunction_eq]
      exact ⟨_, caseMap_eq generous cps after⟩

theorem recorded_concat (front : List Scalar) (cp : Scalar) :
    recorded (front ++ [cp]) = carried (recorded front) cp := by
  rw [recorded, recorded, carried, List.filter_append]
  by_cases nul : cp.val = 0
  · rw [if_pos nul, List.filter_cons_of_neg (by simp [nul]), List.filter_nil, List.append_nil]
  · rw [if_neg nul, List.filter_cons_of_pos (by simp [nul]), List.filter_nil,
      List.getLast?_concat]

/-- Only title mapping looks at the start of a word. -/
theorem mapOne_eq_iff (cp : Scalar) (starts starts' : Bool) :
    tables.mapOne op starts cp = tables.mapOne op starts' cp ↔
      (op = .title → tables.mapOne .title true cp ≠ tables.mapOne .title false cp →
        starts = starts') := by
  by_cases title : op = .title
  · subst title
    refine ⟨fun same _ differ => ?_, fun decided => ?_⟩
    · cases starts <;> cases starts'
      · rfl
      · exact absurd same.symm differ
      · exact absurd same differ
      · rfl
    · by_cases same : tables.mapOne .title true cp = tables.mapOne .title false cp
      · cases starts <;> cases starts'
        · rfl
        · exact same.symm
        · exact same
        · rfl
      · rw [decided rfl same]
  · refine ⟨fun _ isTitle => absurd isTitle title, fun _ => ?_⟩
    cases op with
    | title => exact absurd rfl title
    | upper => rfl
    | lower => rfl
    | fold => rfl

/-- The pieces behind `front` are the same exactly if no NUL changes one of them. -/
theorem samePieces_iff (cps : List Scalar) :
    ∀ before : List Scalar, tables.SamePieces op (recorded before) before.getLast? cps ↔
      ∀ front cp back, cps = front ++ cp :: back →
        (cp.val = 0 → tables.mapOne op (tables.startsWord (before ++ front).getLast?) cp = [cp]) ∧
        (cp.val ≠ 0 → op = .title →
          tables.mapOne .title true cp ≠ tables.mapOne .title false cp →
            tables.startsWord (recorded (before ++ front)) =
              tables.startsWord (before ++ front).getLast?) := by
  induction cps with
  | nil => exact fun before => ⟨fun _ front cp back impossible => by simp at impossible,
      fun _ => trivial⟩
  | cons cp rest inductionHypothesis =>
      intro before
      have piece : tables.carriedPiece op (recorded before) cp =
          tables.mapOne op (tables.startsWord before.getLast?) cp ↔
          (cp.val = 0 → tables.mapOne op (tables.startsWord before.getLast?) cp = [cp]) ∧
          (cp.val ≠ 0 → op = .title →
            tables.mapOne .title true cp ≠ tables.mapOne .title false cp →
              tables.startsWord (recorded before) = tables.startsWord before.getLast?) := by
        rw [carriedPiece]
        by_cases nul : cp.val = 0
        · rw [if_pos nul]
          exact ⟨fun same => ⟨fun _ => same.symm, fun other => absurd nul other⟩,
            fun same => (same.1 nul).symm⟩
        · rw [if_neg nul, mapOne_eq_iff]
          exact ⟨fun same => ⟨fun isNul => absurd isNul nul, fun _ => same⟩,
            fun same => same.2 nul⟩
      have later := inductionHypothesis (before ++ [cp])
      rw [recorded_concat, List.getLast?_concat] at later
      rw [SamePieces, piece, later]
      refine ⟨fun same front here back split => ?_,
        fun same => ⟨?_, fun front here back split => ?_⟩⟩
      · cases front with
        | nil =>
            obtain ⟨rfl, -⟩ := List.cons.inj split
            rw [List.append_nil]
            exact same.1
        | cons first front =>
            obtain ⟨rfl, behind⟩ := List.cons.inj split
            have there := same.2 front here back behind
            rw [List.append_assoc] at there
            exact there
      · have there := same [] cp rest rfl
        rw [List.append_nil] at there
        exact there
      · have there := same (cp :: front) here back (by rw [split]; rfl)
        rw [List.append_assoc]
        exact there

theorem samePieces_iff_unchanged (cps : List Scalar) :
    tables.SamePieces op none none cps ↔ tables.UnchangedByNuls op cps :=
  samePieces_iff cps []

theorem carriedMap_of_samePieces (cps : List Scalar) :
    ∀ {last prev}, tables.SamePieces op last prev cps →
      tables.carriedMap op last cps = tables.referenceMap op prev cps := by
  induction cps with
  | nil => exact fun _ => rfl
  | cons cp rest inductionHypothesis =>
      intro last prev same
      rw [carriedMap, referenceMap, same.1, inductionHypothesis same.2]

/-- If all prefixes become the same text, so do the pieces. -/
theorem samePieces_of_prefixes (cps : List Scalar) :
    ∀ {last prev}, (∀ front, front <+: cps →
      tables.carriedMap op last front = tables.referenceMap op prev front) →
      tables.SamePieces op last prev cps := by
  induction cps with
  | nil => exact fun _ => trivial
  | cons cp rest inductionHypothesis =>
      intro last prev same
      have piece := same [cp] ((List.prefix_cons_inj cp).mpr List.nil_prefix)
      rw [carriedMap, referenceMap, carriedMap, referenceMap, List.append_nil,
        List.append_nil] at piece
      refine ⟨piece, inductionHypothesis fun front isPrefix => ?_⟩
      have longer := same (cp :: front) ((List.prefix_cons_inj cp).mpr isPrefix)
      rw [carriedMap, referenceMap, piece] at longer
      exact List.append_cancel_left longer

theorem UnchangedByNuls.beginning {front cps : List Scalar}
    (unchanged : tables.UnchangedByNuls op cps)
    (isPrefix : front <+: cps) : tables.UnchangedByNuls op front := by
  obtain ⟨rest, rfl⟩ := isPrefix
  intro before cp back split
  exact unchanged before cp (back ++ rest) (by rw [split, List.append_assoc]; rfl)

/-- The text in front of the first NUL. -/
def word (cps : List Scalar) : List Scalar :=
  cps.takeWhile (·.val ≠ 0)

theorem word_append {piece : List Scalar} (clean : ∀ cp ∈ piece, cp.val ≠ 0) (rest : List Scalar) :
    word (piece ++ rest) = piece ++ word rest :=
  List.takeWhile_append_of_pos fun cp member => decide_eq_true (clean cp member)

theorem word_nul {cp : Scalar} (nul : cp.val = 0) (rest : List Scalar) : word (cp :: rest) = [] :=
  List.takeWhile_cons_of_neg (by simp [nul])

/-- Up to the next NUL the two maps are the same. -/
theorem word_carriedMap (clean : tables.NulOnlyFromNul) (cps : List Scalar) :
    ∀ prev, word (tables.carriedMap op prev cps) = word (tables.referenceMap op prev cps) := by
  induction cps with
  | nil => exact fun prev => rfl
  | cons cp rest inductionHypothesis =>
      intro prev
      obtain ⟨itself, others⟩ := clean op (tables.startsWord prev) cp
      rw [carriedMap, referenceMap, carriedPiece, carried]
      by_cases nul : cp.val = 0
      · rw [if_pos nul, itself nul, List.singleton_append, List.singleton_append, word_nul nul,
          word_nul nul]
      · rw [if_neg nul, if_neg nul, word_append (others nul), word_append (others nul),
          inductionHypothesis]

/-- The pieces can be told from the text: only the one behind a NUL may differ, and it stands
between that NUL and the next one. -/
theorem samePieces_of_carriedMap (clean : tables.NulOnlyFromNul) (cps : List Scalar) :
    ∀ {last prev}, tables.carriedMap op last cps = tables.referenceMap op prev cps →
      tables.SamePieces op last prev cps := by
  induction cps with
  | nil => exact fun _ => trivial
  | cons cp rest inductionHypothesis =>
      intro last prev same
      obtain ⟨itself, others⟩ := clean op (tables.startsWord prev) cp
      have others' := (clean op (tables.startsWord last) cp).2
      rw [carriedMap, referenceMap] at same
      have piece : tables.carriedPiece op last cp =
          tables.mapOne op (tables.startsWord prev) cp := by
        rw [carriedPiece, carried] at same
        rw [carriedPiece]
        by_cases nul : cp.val = 0
        · rw [if_pos nul, itself nul]
        · rw [if_neg nul, if_neg nul] at same
          rw [if_neg nul]
          have words := congrArg word same
          rw [word_append (others' nul), word_append (others nul),
            word_carriedMap clean rest (some cp)] at words
          exact List.append_cancel_right words
      rw [piece] at same
      exact ⟨piece, inductionHypothesis (List.append_cancel_left same)⟩

/-- When the string functions compute the reference map. For all tables, a text and its beginnings
become what they should exactly if no NUL changes a piece; for tables in which only NUL maps to NUL
that holds of each single text. -/
theorem caseMap_reference_iff (tables : UcbUcCaseTables) (op : UcbUcCaseOp) (cps : List Scalar) :
    ((∀ front, front <+: cps → tables.Maps op front (tables.referenceMap op none front)) ↔
      tables.UnchangedByNuls op cps) ∧
    (tables.NulOnlyFromNul →
      (tables.Maps op cps (tables.referenceMap op none cps) ↔ tables.UnchangedByNuls op cps)) := by
  have enough : ∀ cps, tables.UnchangedByNuls op cps →
      tables.carriedMap op none cps = tables.referenceMap op none cps :=
    fun cps unchanged => carriedMap_of_samePieces cps ((samePieces_iff_unchanged cps).mpr unchanged)
  refine ⟨⟨fun maps => ?_, fun unchanged front isPrefix => ?_⟩,
    fun clean => ⟨fun maps => ?_, fun unchanged => ?_⟩⟩
  · exact (samePieces_iff_unchanged cps).mp
      (samePieces_of_prefixes cps fun front isPrefix => maps_iff.mp (maps front isPrefix))
  · exact maps_iff.mpr (enough front (unchanged.beginning isPrefix))
  · exact (samePieces_iff_unchanged cps).mp
      (samePieces_of_carriedMap clean cps (maps_iff.mp maps))
  · exact maps_iff.mpr (enough cps unchanged)

/-! ## A NUL between two letters -/

/-- Tables in which NUL is a control character without a mapping, and every other codepoint is a
letter whose upper and title case is `B`. -/
def letterRawTables : UcbUcRawCaseTables where
  maxMultiLen := 3
  noValue := 0xFFFFFFFF
  blockSize := 0x110000
  stage1 := [0]
  stage2 := 0 :: List.replicate 0x10FFFF 1
  props := [⟨.cc, 0⟩, ⟨.other, 1⟩]
  mappings := [⟨1, 0, 1, 0⟩]
  smap := [0x42]
  mmap := []

/-- The property entry of a codepoint in them. -/
def letterProp (cp : Nat) : UcbUcCaseProp :=
  if cp = 0 then ⟨.cc, 0⟩ else ⟨.other, 1⟩

theorem getCaseProp_letter {cp : Nat} (small : cp < 0x110000) :
    ucbUcGetCaseProp letterRawTables cp = .ok (letterProp cp) := by
  have block : cp / letterRawTables.blockSize = 0 := Nat.div_eq_of_lt small
  have offset : cp % letterRawTables.blockSize = cp := Nat.mod_eq_of_lt small
  rw [ucbUcGetCaseProp, block, offset, letterProp]
  cases cp with
  | zero => rfl
  | succ before =>
      have inside : before < 0x10FFFF := by omega
      have entry : (List.replicate 0x10FFFF 1)[before]? = some 1 :=
        List.getElem?_replicate_of_lt inside
      have index : tableAt letterRawTables.stage2
          (0 * letterRawTables.blockSize + (before + 1)) = .ok 1 := by
        rw [Nat.zero_mul, Nat.zero_add, tableAt, letterRawTables, List.getElem?_cons_succ, entry]
      rw [if_neg (Nat.succ_ne_zero before)]
      have first : tableAt letterRawTables.stage1 0 = .ok 0 := rfl
      rw [first, Exec.ok_bind, index, Exec.ok_bind]
      rfl

theorem getMapping_letter (cp : Nat) :
    ucbUcGetMapping letterRawTables (letterProp cp) =
      .ok (if cp = 0 then none else some ⟨1, 0, 1, 0⟩) := by
  rw [letterProp]
  by_cases nul : cp = 0
  · rw [if_pos nul, if_pos nul]
    rfl
  · rw [if_neg nul, if_neg nul]
    rfl

theorem letterRawTables_multiLen : 3 ≤ letterRawTables.maxMultiLen :=
  Nat.le_refl 3

theorem letterRawTables_covers (cp : Nat) (scalar : IsScalar cp) :
    ∃ prop mapping, ucbUcGetCaseProp letterRawTables cp = .ok prop ∧
      ucbUcGetMapping letterRawTables prop = .ok mapping :=
  ⟨_, _, getCaseProp_letter scalar.lt, getMapping_letter cp⟩

/-- The references of an entry lead to one or more values, and at most three. -/
theorem letterRawTables_entries (cp : Nat) (prop : UcbUcCaseProp) (mapping : UcbUcMapping)
    (scalar : IsScalar cp) (found : ucbUcGetCaseProp letterRawTables cp = .ok prop)
    (mapped : ucbUcGetMapping letterRawTables prop = .ok (some mapping)) :
    ∀ ref ∈ mapping.refs, ∃ values : List Scalar,
      caseValues letterRawTables cp ref = .ok (scalarValues values) ∧
        0 < values.length ∧ values.length ≤ 3 := by
  intro ref member
  obtain rfl := Exec.ok.inj ((getCaseProp_letter scalar.lt).symm.trans found)
  have known := Exec.ok.inj ((getMapping_letter cp).symm.trans mapped)
  split at known
  · cases known
  · obtain rfl := Option.some.inj known
    have refs : ref = 1 ∨ ref = 0 := by
      simp only [UcbUcMapping.refs, List.mem_cons, List.not_mem_nil, or_false] at member
      omega
    rcases refs with rfl | rfl
    · exact ⟨[⟨0x42, by decide⟩], rfl, by decide, by decide⟩
    · exact ⟨[⟨cp, scalar⟩], rfl, by simp, by simp⟩

def letterTables : UcbUcCaseTables where
  toUcbUcRawCaseTables := letterRawTables
  multiLen := letterRawTables_multiLen
  covers := letterRawTables_covers
  entries := letterRawTables_entries

theorem mappingOf_letter (cp : Scalar) :
    letterTables.mappingOf cp = if cp.val = 0 then none else some ⟨1, 0, 1, 0⟩ := by
  have found := letterTables.getCaseProp_eq cp
  have same := Exec.ok.inj ((getCaseProp_letter cp.property.lt).symm.trans found)
  have mapped := letterTables.getMapping_eq cp
  rw [← same] at mapped
  exact (Exec.ok.inj ((getMapping_letter cp.val).symm.trans mapped)).symm

theorem propOf_letter (cp : Scalar) : letterTables.propOf cp = letterProp cp.val :=
  (Exec.ok.inj ((getCaseProp_letter cp.property.lt).symm.trans
    (letterTables.getCaseProp_eq cp))).symm

theorem letterTables_nul : letterTables.NulOnlyFromNul := by
  intro op starts cp
  rw [mapOne, mappingOf_letter]
  refine ⟨fun nul => by rw [if_pos nul], fun other => ?_⟩
  rw [if_neg other]
  intro out member
  have either : caseRef op starts ⟨1, 0, 1, 0⟩ = 1 ∨ caseRef op starts ⟨1, 0, 1, 0⟩ = 0 := by
    cases op <;> cases starts <;> decide
  dsimp only at member
  rcases either with ref | ref
  · rw [ref] at member
    obtain rfl : out = ⟨0x42, by decide⟩ := List.mem_singleton.mp member
    decide
  · have itself : (caseValues letterTables.toUcbUcRawCaseTables cp.val 0).returned.getD [] =
        scalarValues [cp] := rfl
    rw [ref, itself, toScalar_scalarValues] at member
    rw [List.mem_singleton.mp member]
    exact other

/-- The text `a`, NUL, `b`. -/
def letterNulLetter : List Scalar :=
  [⟨0x61, by decide⟩, ⟨0, by decide⟩, ⟨0x62, by decide⟩]

theorem mapOne_letter_title {cp : Scalar} (letter : cp.val ≠ 0) :
    letterTables.mapOne .title true cp = [⟨0x42, by decide⟩] := by
  rw [mapOne, mappingOf_letter, if_neg letter]
  rfl

theorem mapOne_letter_lower {cp : Scalar} (letter : cp.val ≠ 0) :
    letterTables.mapOne .title false cp = [cp] := by
  rw [mapOne, mappingOf_letter, if_neg letter]
  exact toScalar_scalarValues [cp]

theorem startsWord_letter {cp : Scalar} (letter : cp.val ≠ 0) :
    letterTables.startsWord (some cp) = false := by
  rw [startsWord, Option.all_some, propOf_letter, letterProp, if_neg letter, ucbUcIsWordSeparator,
    ite_self]

theorem caseMap_reference_iff_letters :
    letterTables.Maps .title letterNulLetter
      (letterTables.referenceMap .title none letterNulLetter) ↔
      letterTables.UnchangedByNuls .title letterNulLetter :=
  (caseMap_reference_iff letterTables .title letterNulLetter).2 letterTables_nul

theorem carriedMap_letterNulLetter :
    letterTables.carriedMap .title none letterNulLetter =
      [⟨0x42, by decide⟩, ⟨0, by decide⟩, ⟨0x62, by decide⟩] := by
  have first : letterTables.carriedPiece .title none ⟨0x61, by decide⟩ = [⟨0x42, by decide⟩] := by
    rw [carriedPiece, if_neg (by decide)]
    exact mapOne_letter_title (by decide)
  have last : letterTables.carriedPiece .title (some ⟨0x61, by decide⟩) ⟨0x62, by decide⟩ =
      [⟨0x62, by decide⟩] := by
    rw [carriedPiece, if_neg (by decide), startsWord_letter (by decide)]
    exact mapOne_letter_lower (by decide)
  rw [letterNulLetter, carriedMap, first, carriedMap, carriedMap]
  exact congrArg (fun piece => ⟨0x42, by decide⟩ :: ⟨0, by decide⟩ :: (piece ++ [])) last

theorem startsWord_nul : letterTables.startsWord (some ⟨0, by decide⟩) = true := by
  rw [startsWord, Option.all_some, propOf_letter]
  decide

theorem referenceMap_letterNulLetter :
    letterTables.referenceMap .title none letterNulLetter =
      [⟨0x42, by decide⟩, ⟨0, by decide⟩, ⟨0x42, by decide⟩] := by
  have first : letterTables.mapOne .title (letterTables.startsWord none) ⟨0x61, by decide⟩ =
      [⟨0x42, by decide⟩] := mapOne_letter_title (by decide)
  have nul := (letterTables_nul .title (letterTables.startsWord (some ⟨0x61, by decide⟩))
    ⟨0, by decide⟩).1 rfl
  have last : letterTables.mapOne .title (letterTables.startsWord (some ⟨0, by decide⟩))
      ⟨0x62, by decide⟩ = [⟨0x42, by decide⟩] := by
    rw [startsWord_nul]
    exact mapOne_letter_title (by decide)
  rw [letterNulLetter, referenceMap, first, referenceMap, nul, referenceMap, last, referenceMap]
  rfl

/-- NUL is a separator, so `b` starts a word; the function has recorded `a` and maps `b` to lower
case. -/
theorem toTitle_nul :
    letterTables.startsWord (some ⟨0, by decide⟩) = true ∧
      (ucbUcToTitle letterTables.toUcbUcRawCaseTables ⟨fun _ _ => true, fun _ => 0⟩
        [0x61, 0, 0x62] 3 = .ok (.ok ⟨[0x42, 0, 0x62, 0], 3⟩)) ∧
      encode (letterTables.referenceMap .title none letterNulLetter) = [0x42, 0, 0x42] ∧
      ¬ letterTables.Maps .title letterNulLetter
        (letterTables.referenceMap .title none letterNulLetter) := by
  have generous : (⟨fun _ _ => true, fun _ => 0⟩ : Allocator).Generous := fun _ _ => rfl
  have ran : ucbUcCaseMap letterTables.toUcbUcRawCaseTables ⟨fun _ _ => true, fun _ => 0⟩
      (encode letterNulLetter ++ []) (encode letterNulLetter).length .title =
      .ok (.ok ⟨encode (letterTables.carriedMap .title none letterNulLetter) ++ [0],
        (encode (letterTables.carriedMap .title none letterNulLetter)).length⟩) :=
    caseMap_eq generous letterNulLetter []
  rw [carriedMap_letterNulLetter] at ran
  have bytes : encode letterNulLetter = [0x61, 0, 0x62] := rfl
  refine ⟨startsWord_nul, ?_, ?_, fun maps => ?_⟩
  · rw [bytes] at ran
    exact ran
  · rw [referenceMap_letterNulLetter]
    rfl
  · have same := maps_iff.mp maps
    rw [carriedMap_letterNulLetter, referenceMap_letterNulLetter] at same
    simp at same

end UcbUcCaseTables

end Ucb.Unicode
