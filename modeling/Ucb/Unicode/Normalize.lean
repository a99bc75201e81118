import Ucb.Unicode.Encode
import Ucb.Unicode.Hangul
import Ucb.Unicode.Ucd

/-!
Contract: normalization as `unicode.c` computes it.

Owns:
- the reorder window, recursive decomposition and the flushes;
- composition in place and encoding over the composed codepoints;
- the quick check, `ucb_uc_normalize` and `ucb_uc_normalize_full`.

Does not own: what the forms should be, which is `Ucd.normalForm`.

The window is kept as the list of its codepoints with their classes. Sizes are
natural numbers, so the checks against `SIZE_MAX` have no counterpart here, and
neither have the checks of properties for `UCB_NULL`. After a failure the context
is only given back, so a failed step has no context.
-/

namespace Ucb.Unicode

/-! ## Tables -/

def ucbUcGetDecomp (tables : UcbUcRawTables) (prop : UcbUcProp) : Exec (Option UcbUcDecomp) :=
  if prop.decompIdx = 0 then pure none
  else do
    let decomp ← tableAt tables.decomps (prop.decompIdx - 1)
    pure (some decomp)

def ucbUcGetCombiners (tables : UcbUcRawTables) (prop : UcbUcProp) :
    Exec (Option (List UcbUcCombinerEntry)) :=
  if prop.combinerIdx = 0 then pure none
  else do
    let entries ← tableAt tables.combiners (prop.combinerIdx - 1)
    pure (some entries)

/-- Tables whose decompositions come to an end. -/
structure UcbUcNormTables extends UcbUcTables where
  rank : Nat → Nat
  rank_lt : ∀ {cp prop decomp}, ucbUcGetProp toUcbUcRawTables cp = .ok prop →
    ucbUcGetDecomp toUcbUcRawTables prop = .ok (some decomp) → ∀ v ∈ decomp.vals, rank v < rank cp

/-! ## The reorder window -/

def normCtxBufsize : Nat := 18

/-- `norm_ctx_t`. The two flags are the bits of `flags`. -/
structure NormCtx where
  cp : UcbBuffer
  window : List (Nat × Nat)
  cap : Nat
  compose : Bool
  compat : Bool
deriving DecidableEq, Repr

/-- Go on with the context, unless the step before returned false. -/
def andThen (step : Exec (Except EncodeFailure NormCtx))
    (next : NormCtx → Exec (Except EncodeFailure NormCtx)) :
    Exec (Except EncodeFailure NormCtx) := do
  match ← step with
  | .ok ctx => next ctx
  | .error failure => pure (.error failure)

/-- The loop of `norm_ctx_grow_slow`. Doubling a positive capacity `needed` times
is always enough. -/
def normCapLoop (needed : Nat) : Nat → Nat → Nat
  | 0, newcap => newcap
  | fuel + 1, newcap => if newcap < needed then normCapLoop needed fuel (newcap * 2) else newcap

def normCtxGrowSlow (allocator : Allocator) (ctx : NormCtx) (needed : Nat) :
    Except EncodeFailure NormCtx :=
  let newcap := max (normCapLoop needed needed ctx.cap) needed
  match ucbMalloc allocator (newcap * 5) with
  | some _ => .ok { ctx with cap := newcap }
  | none => .error (some ⟨.outOfMemory, "Could not grow normalization buffer"⟩)

/-- The loop that bubbles an entry leftward, over the entries in front of it, last
one first. -/
def bubble (entry : Nat × Nat) : List (Nat × Nat) → List (Nat × Nat)
  | [] => [entry]
  | before :: front =>
      if before.2 > entry.2 then before :: bubble entry front else entry :: before :: front

def normCtxAdd (allocator : Allocator) (ctx : NormCtx) (cp ccc : Nat) :
    Exec (Except EncodeFailure NormCtx) :=
  andThen
    (pure (if ctx.window.length ≥ ctx.cap then
      normCtxGrowSlow allocator ctx (ctx.window.length + 1) else .ok ctx))
    fun ctx =>
      if ccc > 0 ∧ ctx.window.length + 1 > 1 then
        pure (.ok { ctx with window := (bubble (cp, ccc) ctx.window.reverse).reverse })
      else pure (.ok { ctx with window := ctx.window ++ [(cp, ccc)] })

def normCtxFlush (tables : UcbUcNormTables) (allocator : Allocator) (ctx : NormCtx) :
    Exec (Except EncodeFailure NormCtx) :=
  let cps := ctx.window.map Prod.fst
  if ctx.window.length > 0 then
    if ctx.compose then do
      let (buf, pushed) ← ucbBufferPush allocator ctx.cp (wordsBytes cps)
      pure (if pushed then .ok { ctx with cp := buf, window := [] }
        else .error (some ⟨.outOfMemory, "Could not push to internal buffer"⟩))
    else do
      let (buf, encoded) ← ucbUcEncodeCodepoints tables.maxMultiLen allocator ctx.cp cps
      pure (encoded.map fun _ => { ctx with cp := buf, window := [] })
  else pure (.ok ctx)

/-! ## Decomposition -/

def normDecomposeHangul (allocator : Allocator) (ctx : NormCtx) (syllable : Nat) :
    Exec (Except EncodeFailure NormCtx) :=
  (hangulJamo syllable).foldl
    (fun step jamo => andThen step fun ctx => normCtxAdd allocator ctx jamo 0) (pure (.ok ctx))

/-- The end of `norm_decompose_cp`: append the codepoint as it is. -/
def normAppendCp (tables : UcbUcNormTables) (allocator : Allocator) (ctx : NormCtx) (cp ccc : Nat) :
    Exec (Except EncodeFailure NormCtx) :=
  andThen (if ccc = 0 then normCtxFlush tables allocator ctx else pure (.ok ctx))
    fun ctx => normCtxAdd allocator ctx cp ccc

/-- `norm_decompose_cp`, which is always called with `must_decomp`. -/
def normDecomposeCp (tables : UcbUcNormTables) (allocator : Allocator) (ctx : NormCtx) (cp : Nat) :
    Exec (Except EncodeFailure NormCtx) :=
  match _found : ucbUcGetProp tables.toUcbUcRawTables cp with
  | .abort code => .abort code
  | .undefined => .undefined
  | .ok prop =>
      match _stepped : ucbUcGetDecomp tables.toUcbUcRawTables prop with
      | .abort code => .abort code
      | .undefined => .undefined
      | .ok none => normAppendCp tables allocator ctx cp prop.ccc
      | .ok (some decomp) =>
          if decomp.type = .canon ∨ ctx.compat = true then
            decomp.vals.attach.foldl
              (fun step next => andThen step fun ctx =>
                normDecomposeCp tables allocator ctx next.val)
              (pure (.ok ctx))
          else normAppendCp tables allocator ctx cp prop.ccc
termination_by tables.rank cp
decreasing_by exact tables.rank_lt _found _stepped next.val next.property

/-! ## Composition -/

/-- The binary search of `norm_compose_cp` in `[left, right)`. -/
def searchCombiner (entries : List UcbUcCombinerEntry) (combiner left right : Nat) : Exec Nat :=
  if left < right then do
    let entry ← tableAt entries ((left + right) / 2)
    if entry.combiner < combiner then searchCombiner entries combiner ((left + right) / 2 + 1) right
    else if entry.combiner > combiner then searchCombiner entries combiner left ((left + right) / 2)
    else pure entry.composed
  else pure 0
termination_by right - left

def normComposeCp (combiner : Nat) : Option (List UcbUcCombinerEntry) → Exec Nat
  | none => pure 0
  | some entries => searchCombiner entries combiner 0 entries.length

/-- The loop that seeks back from a codepoint over those in front of it, last one
first: these with the composite in its place, or `none` when nothing composes. -/
def seekBack (tables : UcbUcNormTables) (cp ccc : Nat) : List Nat → Exec (Option (List Nat))
  | [] => pure none
  | prev :: before => do
      let prevProp ← ucbUcGetProp tables.toUcbUcRawTables prev
      let combiners ← ucbUcGetCombiners tables.toUcbUcRawTables prevProp
      let composed ← normComposeCp cp combiners
      if composed ≠ 0 then pure (some (composed :: before))
      else if prevProp.ccc = 0 ∨ prevProp.ccc ≥ ccc then pure none
      else do
        let found ← seekBack tables cp ccc before
        pure (found.map fun before => prev :: before)

/-- `(int)i - 1`: the conversion keeps the low 32 bits, and the subtraction is
undefined for `INT_MIN`. -/
def intPred (i : Nat) : Exec Int :=
  let narrowed := Int.bmod i (2 ^ 32)
  if narrowed = -(2 ^ 31) then .undefined else pure (narrowed - 1)

/-- The round of `norm_compose` at the codepoint `cp`, when it is not a vowel behind
a leading jamo. The codepoints in front of it are reversed. -/
def normComposeRound (tables : UcbUcNormTables) (done : List Nat) (cp : Nat) : Exec (List Nat) := do
  let prop ← ucbUcGetProp tables.toUcbUcRawTables cp
  let j ← intPred done.length
  if j < 0 then pure (cp :: done)
  else do
    let skipped := done.length - 1 - j.toNat
    let found ← seekBack tables cp prop.ccc (done.drop skipped)
    pure (found.elim (cp :: done) fun before => done.take skipped ++ before)

/-- The loop of `norm_compose`: the codepoints in front of index `i`, reversed, and
those from `i` on. -/
def normComposeLoop (tables : UcbUcNormTables) : List Nat → List Nat → Exec (List Nat)
  | done, [] => pure done
  | [], cp :: rest => normComposeLoop tables [cp] rest
  | last :: before, cp :: rest =>
      if IsLeadingJamo last ∧ IsVowelJamo cp then
        match rest with
        | [] => pure (composeHangul last cp 0 :: before)
        | t :: rest' =>
            if IsTrailingJamo t then
              normComposeLoop tables (composeHangul last cp t :: before) rest'
            else normComposeLoop tables (composeHangul last cp 0 :: before) (t :: rest')
      else do
        let done ← normComposeRound tables (last :: before) cp
        normComposeLoop tables done rest

def normCompose (tables : UcbUcNormTables) (cps : List Nat) : Exec (List Nat) := do
  let done ← normComposeLoop tables [] cps
  pure done.reverse

/-- The end of `normalize` for the composing forms: compose the codepoints in the
buffer and encode them over themselves. What `memmove` leaves behind the composed
codepoints is not read again. -/
def normRecode (tables : UcbUcNormTables) (allocator : Allocator) (ctx : NormCtx) :
    Exec (Except EncodeFailure NormCtx) := do
  let cps ← wordsAt ctx.cp.data 0 (ctx.cp.size / 4)
  let composed ← normCompose tables cps
  let block ← blit ctx.cp.data 0 (wordsBytes composed)
  let cleared := ucbBufferClear { ctx.cp with data := block }
  let (buf, encoded) ← ucbUcEncodeInPlace tables.maxMultiLen allocator cleared composed.length
  pure (encoded.map fun _ => { ctx with cp := buf })

/-! ## Normalization -/

/-- The body of the loop of `normalize`. -/
def normalizeStep (tables : UcbUcNormTables) (allocator : Allocator) (ctx : NormCtx) (cp : Nat) :
    Exec (Except EncodeFailure NormCtx) :=
  if IsHangulSyllable cp then
    andThen (normDecomposeHangul allocator ctx cp) (normCtxFlush tables allocator)
  else
    andThen (normDecomposeCp tables allocator ctx cp) fun ctx =>
      if (ctx.window.getLast?.map Prod.snd) = some 0 then normCtxFlush tables allocator ctx
      else pure (.ok ctx)

/-- The end of `normalize`: the NUL behind the result. -/
def normTerminate (allocator : Allocator) (ctx : NormCtx) :
    Exec (Except EncodeFailure NormCtx) := do
  let (buf, pushed) ← ucbBufferPush allocator ctx.cp [0]
  pure (if pushed then .ok { ctx with cp := buf } else .error none)

def normalize (tables : UcbUcNormTables) (allocator : Allocator) (ctx : NormCtx) (str : List UInt8)
    (size : Nat) : Exec (Except EncodeFailure NormCtx) := do
  let ran ← forEachCodepoint str size (normalizeStep tables allocator) (size + 1) 0 ctx
  andThen (andThen (pure (ran.map Prod.fst)) (normCtxFlush tables allocator)) fun ctx =>
    andThen (if ctx.compose then normRecode tables allocator ctx else pure (.ok ctx))
      (normTerminate allocator)

/-- The loop body of `ucb_uc_is_normalized`; the state is `last_ccc`. -/
def isNormalizedStep (tables : UcbUcNormTables) (form : NormForm) (lastCcc cp : Nat) :
    Exec (Except Bool Nat) :=
  if IsHangulSyllable cp then
    if form.composes then pure (.ok 0) else pure (.error false)
  else do
    let prop ← ucbUcGetProp tables.toUcbUcRawTables cp
    let rejected ←
      if form.composes then
        pure (decide ((if form.compat then prop.nfkcNo = true else prop.compExcl = true) ∨
          prop.compMaybe = true ∨ IsVowelJamo cp ∨ IsTrailingJamo cp))
      else if prop.decompIdx ≠ 0 then
        if form.compat then pure true
        else do
          let decomp ← ucbUcGetDecomp tables.toUcbUcRawTables prop
          pure (decomp.any fun decomp => decomp.type == .canon)
      else pure false
    if rejected then pure (.error false)
    else if prop.ccc ≠ 0 ∧ prop.ccc < lastCcc then pure (.error false)
    else pure (.ok prop.ccc)

def ucbUcIsNormalized (tables : UcbUcNormTables) (str : List UInt8) (size : Nat) (form : NormForm) :
    Exec Bool := do
  match ← forEachCodepoint str size (isNormalizedStep tables form) (size + 1) 0 0 with
  | .error result => pure result
  | .ok (_, iter) => do
      ucbVerify (iter == size) .invalidUtf8
      pure true

structure UcbUcResult where
  data : List UInt8
  size : Nat
deriving DecidableEq, Repr

/-- The error of an allocation in `normalize_common`. -/
def normAllocFailure : EncodeFailure :=
  some ⟨.outOfMemory, "Failed to allocate buffer"⟩

/-- The end of `normalize_common`: the buffer, fitted to its content, is handed over. -/
def normResult (allocator : Allocator) (ctx : NormCtx) :
    Exec (Except EncodeFailure UcbUcResult) := do
  let (buf, _) ← ucbBufferFit allocator ctx.cp
  pure (.ok ⟨buf.data, buf.size - 1⟩)

/-- `normalize_common` of a string that is not null; `form = none` is a value
outside the enumeration, and `size = none` is `UCB_NPOS`. -/
def normalizeCommon (tables : UcbUcNormTables) (allocator : Allocator) (str : List UInt8)
    (size : Option Nat) (form : Option NormForm) (quick : Bool) :
    Exec (Except EncodeFailure UcbUcResult) := do
  match form with
  | none => .abort .invalidArg
  | some form => do
      let size ← resolveLen str size
      let accepted ← if quick then ucbUcIsNormalized tables str size form else pure false
      if accepted then
        match ucbMalloc allocator (size + 1) with
        | none => pure (.error normAllocFailure)
        | some block => do
            let copied ← blit block 0 (← slice str 0 size)
            let terminated ← blit copied size [0]
            pure (.ok ⟨terminated, size⟩)
      else do
        let numcp ← ucbUcNumCp str (some size)
        let (buf, made) ← ucbBufferInitHeap allocator (4 * numcp * 4 + 1)
        if made = false then pure (.error normAllocFailure)
        else do
          let ctx : NormCtx :=
            ⟨{ buf with growth := .double }, [], normCtxBufsize, form.composes, form.compat⟩
          match ← normalize tables allocator ctx str size with
          | .error failure => pure (.error failure)
          | .ok ctx => normResult allocator ctx

def ucbUcNormalize (tables : UcbUcNormTables) (allocator : Allocator) (str : List UInt8)
    (size : Option Nat) (form : Option NormForm) : Exec (Except EncodeFailure UcbUcResult) :=
  normalizeCommon tables allocator str size form true

def ucbUcNormalizeFull (tables : UcbUcNormTables) (allocator : Allocator) (str : List UInt8)
    (size : Option Nat) (form : Option NormForm) : Exec (Except EncodeFailure UcbUcResult) :=
  normalizeCommon tables allocator str size form false

end Ucb.Unicode
