import Ucb.Core.Exec
import Ucb.Lib.PrefixCode
import Mathlib.Data.Nat.Bitwise

/-!
Contract: UTF-8 encoding, decoding and validation as `unicode.c` computes them,
and the scalar values they are about.

Owns:
- `ucbUcEncodeCodepoint`, `ucbUcNextValid` and `ucbUcValidate`;
- the arithmetic of the one to four byte forms, shared by the three;
- the instance `utf8` of the prefix-code library.

Does not own: what a validated string decodes to as a whole.
-/

namespace Ucb.Unicode

open Ucb.Lib

/-- Unicode scalar values: the codepoints outside the surrogate range. A
`ucb_cp` is kept as a natural number; the modelled functions never wrap it. -/
def IsScalar (cp : Nat) : Prop :=
  cp < 0xD800 ∨ (0xDFFF < cp ∧ cp ≤ 0x10FFFF)

instance (cp : Nat) : Decidable (IsScalar cp) := by
  unfold IsScalar
  infer_instance

abbrev Scalar := { cp : Nat // IsScalar cp }

/-! ## Encoding -/

/-- `ucb_uc_encode_codepoint`: the bytes written, `none` for the result -1.
Called without a destination it returns the length of this list. -/
def ucbUcEncodeCodepoint (cp : Nat) : Option (List UInt8) :=
  if cp ≤ 0x7F then
    some [UInt8.ofNat cp]
  else if cp ≤ 0x7FF then
    some [UInt8.ofNat (0xC0 ||| (cp >>> 6)), UInt8.ofNat (0x80 ||| (cp &&& 0x3F))]
  else if cp ≤ 0xFFFF then
    if 0xD800 ≤ cp ∧ cp ≤ 0xDFFF then none
    else
      some [UInt8.ofNat (0xE0 ||| (cp >>> 12)),
        UInt8.ofNat (0x80 ||| ((cp >>> 6) &&& 0x3F)),
        UInt8.ofNat (0x80 ||| (cp &&& 0x3F))]
  else if cp ≤ 0x10FFFF then
    some [UInt8.ofNat (0xF0 ||| (cp >>> 18)),
      UInt8.ofNat (0x80 ||| ((cp >>> 12) &&& 0x3F)),
      UInt8.ofNat (0x80 ||| ((cp >>> 6) &&& 0x3F)),
      UInt8.ofNat (0x80 ||| (cp &&& 0x3F))]
  else none

/-! ## Decoding -/

def ucbUcFetch2 (bytes : List UInt8) (pos : Nat) : Exec Nat := do
  let b0 ← byteAt bytes pos
  let b1 ← byteAt bytes (pos + 1)
  pure (((b0 &&& 0x1F) <<< 6) ||| (b1 &&& 0x3F))

def ucbUcFetch3 (bytes : List UInt8) (pos : Nat) : Exec Nat := do
  let b0 ← byteAt bytes pos
  let b1 ← byteAt bytes (pos + 1)
  let b2 ← byteAt bytes (pos + 2)
  pure (((b0 &&& 0x0F) <<< 12) ||| ((b1 &&& 0x3F) <<< 6) ||| (b2 &&& 0x3F))

def ucbUcFetch4 (bytes : List UInt8) (pos : Nat) : Exec Nat := do
  let b0 ← byteAt bytes pos
  let b1 ← byteAt bytes (pos + 1)
  let b2 ← byteAt bytes (pos + 2)
  let b3 ← byteAt bytes (pos + 3)
  pure (((b0 &&& 0x07) <<< 18) ||| ((b1 &&& 0x3F) <<< 12) ||| ((b2 &&& 0x3F) <<< 6) |||
    (b3 &&& 0x3F))

/-- `ucb_uc_next_valid`: the codepoint at `iter` and the position after it. No
validation is performed; only the loads are checked. -/
def ucbUcNextValid (bytes : List UInt8) (iter : Nat) : Exec (Nat × Nat) := do
  let b0 ← byteAt bytes iter
  if b0 < 0x80 then
    pure (b0, iter + 1)
  else if b0 &&& 0xE0 = 0xC0 then do
    let cp ← ucbUcFetch2 bytes iter
    pure (cp, iter + 2)
  else if b0 &&& 0xF0 = 0xE0 then do
    let cp ← ucbUcFetch3 bytes iter
    pure (cp, iter + 3)
  else do
    let cp ← ucbUcFetch4 bytes iter
    pure (cp, iter + 4)

/-- `ucb_uc_iter_next`: `none` once `iter` has reached `last`. -/
def ucbUcIterNext (bytes : List UInt8) (last iter : Nat) : Exec (Option (Nat × Nat)) :=
  if iter ≥ last then pure none
  else do
    let next ← ucbUcNextValid bytes iter
    pure (some next)

/-! ## Validation -/

/-- One round of the loop of `ucb_uc_validate` at position `i`: the bytes to
advance by, or the `expected` length the error carries (0 unless truncated). -/
def ucbUcValidateStep (bytes : List UInt8) (len i : Nat) : Exec (Except Nat Nat) := do
  let c ← byteAt bytes i
  if c < 0x80 then
    pure (.ok 1)
  else if c &&& 0xE0 = 0xC0 then
    if i + 1 ≥ len then pure (.error 2)
    else do
      let b1 ← byteAt bytes (i + 1)
      if b1 &&& 0xC0 ≠ 0x80 then pure (.error 0)
      else do
        let cp ← ucbUcFetch2 bytes i
        if cp < 0x80 then pure (.error 0)
        else pure (.ok 2)
  else if c &&& 0xF0 = 0xE0 then
    if i + 2 ≥ len then pure (.error 3)
    else do
      let b1 ← byteAt bytes (i + 1)
      let b2 ← byteAt bytes (i + 2)
      if b1 &&& 0xC0 ≠ 0x80 ∨ b2 &&& 0xC0 ≠ 0x80 then pure (.error 0)
      else do
        let cp ← ucbUcFetch3 bytes i
        if cp < 0x800 then pure (.error 0)
        else if cp ≥ 0xD800 ∧ cp ≤ 0xDFFF then pure (.error 0)
        else pure (.ok 3)
  else if c &&& 0xF8 = 0xF0 then
    if i + 3 ≥ len then pure (.error 4)
    else do
      let b1 ← byteAt bytes (i + 1)
      let b2 ← byteAt bytes (i + 2)
      let b3 ← byteAt bytes (i + 3)
      if b1 &&& 0xC0 ≠ 0x80 ∨ b2 &&& 0xC0 ≠ 0x80 ∨ b3 &&& 0xC0 ≠ 0x80 then pure (.error 0)
      else do
        let cp ← ucbUcFetch4 bytes i
        if cp < 0x10000 ∨ cp > 0x10FFFF then pure (.error 0)
        else pure (.ok 4)
  else pure (.error 0)

/-- Where the validation loop stopped. -/
inductive Utf8Scan where
  | complete
  | bad (errpos expected : Nat)
deriving DecidableEq, Repr

/-- The loop of `ucb_uc_validate` from position `i`. A round advances by at
least one byte, so `len + 1` rounds reach the end; running out of them is
`undefined` and is proved not to happen. -/
def ucbUcValidateLoop (bytes : List UInt8) (len : Nat) : Nat → Nat → Exec Utf8Scan
  | 0, _ => .undefined
  | fuel + 1, i =>
      if i < len then do
        match ← ucbUcValidateStep bytes len i with
        | .ok advance => ucbUcValidateLoop bytes len fuel (i + advance)
        | .error expected => pure (.bad i expected)
      else pure .complete

/-- The error text of `ucb_uc_validate`. -/
def utf8ErrorMsg (errpos expected len : Nat) : String :=
  if expected ≠ 0 then
    "Truncated UTF-8 sequence at position " ++ toString errpos ++ ": expected " ++
      toString expected ++ " bytes, got " ++ toString (len - errpos)
  else
    "Invalid UTF-8 sequence at position " ++ toString errpos

/-- `strlen`: undefined when the block holds no terminator. -/
def strlen (mem : List UInt8) : Exec Nat :=
  match mem.findIdx? (· == 0) with
  | some len => .ok len
  | none => .undefined

theorem strlen_append (text rest : List UInt8) (noNul : 0 ∉ text) :
    strlen (text ++ 0 :: rest) = .ok text.length := by
  have found : (text ++ 0 :: rest).findIdx? (· == 0) = some text.length := by
    rw [List.findIdx?_append, List.findIdx?_eq_none_iff.mpr]
    · simp [List.findIdx?_cons]
    · intro byte member
      simp only [beq_eq_false_iff_ne]
      rintro rfl
      exact noNul member
  rw [strlen, found]

/-- `len`, measured with `strlen` when it is `UCB_NPOS` (`none`). -/
def resolveLen (str : List UInt8) : Option Nat → Exec Nat
  | some len => pure len
  | none => strlen str

/-- `ucb_uc_validate`; `len = none` is `UCB_NPOS`. -/
def ucbUcValidate (str : List UInt8) (len : Option Nat) : Exec (Except UcbError Unit) := do
  let len ← resolveLen str len
  match ← ucbUcValidateLoop str len (len + 1) 0 with
  | .complete => pure (.ok ())
  | .bad errpos expected => pure (.error ⟨.invalidUtf8, utf8ErrorMsg errpos expected len⟩)

/-! ## Iteration -/

/-- The loop `FOR_EACH_CODEPOINT` over `[iter, last)`. The body maps the loop
state and the codepoint to the next state, or leaves the function with a result
(`Except.error`). At the end the state and the final `_iter` are returned. -/
def forEachCodepoint {σ ρ : Type} (str : List UInt8) (last : Nat)
    (body : σ → Nat → Exec (Except ρ σ)) : Nat → Nat → σ → Exec (Except ρ (σ × Nat))
  | 0, _, _ => .undefined
  | fuel + 1, iter, state => do
      match ← ucbUcIterNext str last iter with
      | none => pure (.ok (state, iter))
      | some (cp, next) =>
          match ← body state cp with
          | .ok state => forEachCodepoint str last body fuel next state
          | .error result => pure (.error result)

def ucbUcNumCp (str : List UInt8) (len : Option Nat) : Exec Nat := do
  let len ← resolveLen str len
  let count (num : Nat) (_ : Nat) : Exec (Except Empty Nat) := pure (.ok (num + 1))
  match ← forEachCodepoint str len count (len + 1) 0 0 with
  | .ok (num, iter) => do
      ucbVerify (iter == len) .invalidUtf8
      pure num

end Ucb.Unicode
