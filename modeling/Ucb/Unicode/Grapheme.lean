import Ucb.Unicode.Props

/-!
Contract: the grapheme cluster scanner of `unicode.c`.

Owns:
- the scanner state, its update and the break decision;
- the forward loop shared by `ucb_uc_num_char`, `ucb_uc_char_index` and
  `ucb_uc_grapheme_next_from`, and these three;
- the backward scans of `ucb_uc_grapheme_state_at` and `ucb_uc_next_char`.

Does not own: the boundary rules of UAX #29.

`ucb_uc_get_prop` never returns `UCB_NULL`, so the checks for it have no
counterpart here. `UCB_NPOS` as a result is `none`.
-/

namespace Ucb.Unicode

/-! ## State -/

structure UcbUcGraphemeState where
  riOdd : Bool
  gb11 : Nat
  incbSeq : Bool
  incbLinker : Bool
deriving DecidableEq, Repr

def UcbUcGraphemeState.zero : UcbUcGraphemeState :=
  ⟨false, 0, false, false⟩

def ucbUcGraphemeUpdate (st : UcbUcGraphemeState) (gcb : UcbUcGcb) (extpict : Bool)
    (incb : UcbUcIncb) : UcbUcGraphemeState :=
  { gb11 :=
      if extpict then 1
      else if gcb = .extend ∧ (st.gb11 = 1 ∨ st.gb11 = 2) then 2
      else if gcb = .zwj ∧ (st.gb11 = 1 ∨ st.gb11 = 2) then 3
      else 0
    riOdd := if gcb = .regionalIndicator then !st.riOdd else false
    incbSeq :=
      if incb = .consonant then true
      else if st.incbSeq ∧ (incb = .extend ∨ incb = .linker) then st.incbSeq
      else false
    incbLinker :=
      if incb = .consonant then false
      else if st.incbSeq ∧ (incb = .extend ∨ incb = .linker) then
        if incb = .linker then true else st.incbLinker
      else false }

def ucbUcGraphemeShouldBreak (st : UcbUcGraphemeState) (a b : UcbUcGcb) (curExtpict : Bool)
    (curIncb : UcbUcIncb) : Bool :=
  if a = .cr ∧ b = .lf then false
  else if a = .control ∨ a = .cr ∨ a = .lf then true
  else if b = .control ∨ b = .cr ∨ b = .lf then true
  else if a = .l ∧ (b = .l ∨ b = .v ∨ b = .lv ∨ b = .lvt) then false
  else if (a = .lv ∨ a = .v) ∧ (b = .v ∨ b = .t) then false
  else if (a = .lvt ∨ a = .t) ∧ b = .t then false
  else if b = .extend ∨ b = .zwj then false
  else if b = .spacingMark then false
  else if a = .prepend then false
  else if st.incbSeq ∧ st.incbLinker ∧ curIncb = .consonant then false
  else if st.gb11 = 3 ∧ curExtpict then false
  else if a = .regionalIndicator ∧ b = .regionalIndicator ∧ st.riOdd then false
  else true

def updateBy (st : UcbUcGraphemeState) (prop : UcbUcProp) : UcbUcGraphemeState :=
  ucbUcGraphemeUpdate st prop.gcb prop.extpict prop.incb

/-- The break decision between two codepoints. -/
def breaksBetween (st : UcbUcGraphemeState) (prop nextProp : UcbUcProp) : Bool :=
  ucbUcGraphemeShouldBreak st prop.gcb nextProp.gcb nextProp.extpict nextProp.incb

/-! ## Forward scan -/

/-- `ucb_uc_prop_at`: the properties of the codepoint at `start` and the
position after it. -/
def ucbUcPropAt (tables : UcbUcTables) (str : List UInt8) (start : Nat) :
    Exec (UcbUcProp × Nat) := do
  let (cp, iter) ← ucbUcNextValid str start
  let prop ← ucbUcGetProp tables.toUcbUcRawTables cp
  pure (prop, iter)

/-- The scanning loop from `iter`, after a codepoint with properties `prop`. At
a break `onBreak` sees the position and the loop's own variable, and continues
or leaves the function. A round advances by at least one byte; running out of
rounds is `undefined` and is proved not to happen. -/
def graphemeLoop {σ ρ : Type} (tables : UcbUcTables) (str : List UInt8) (last : Nat)
    (onBreak : σ → Nat → Except ρ σ) :
    Nat → Nat → UcbUcGraphemeState → UcbUcProp → σ → Exec (Except ρ σ)
  | 0, _, _, _, _ => .undefined
  | fuel + 1, iter, st, prop, var =>
      if iter < last then do
        let (nextProp, next) ← ucbUcPropAt tables str iter
        if breaksBetween st prop nextProp then
          match onBreak var iter with
          | .ok var =>
              graphemeLoop tables str last onBreak fuel next (updateBy st nextProp) nextProp var
          | .error result => pure (.error result)
        else
          graphemeLoop tables str last onBreak fuel next (updateBy st nextProp) nextProp var
      else pure (.ok var)

/-- The first codepoint at `start`, then the loop up to `last`. -/
def graphemeScan {σ ρ : Type} (tables : UcbUcTables) (str : List UInt8) (start last : Nat)
    (st : UcbUcGraphemeState) (onBreak : σ → Nat → Except ρ σ) (var : σ) :
    Exec (Except ρ σ) := do
  let (prop, iter) ← ucbUcPropAt tables str start
  graphemeLoop tables str last onBreak (last + 1) iter (updateBy st prop) prop var

def ucbUcGraphemeNextFrom (tables : UcbUcTables) (str : List UInt8) (start last : Nat)
    (st : UcbUcGraphemeState) : Exec (Option Nat) := do
  match ← graphemeScan tables str start last st (fun _ pos => .error pos) () with
  | .error pos => pure (some pos)
  | .ok () => pure none

def ucbUcNumChar (tables : UcbUcTables) (str : List UInt8) (len : Option Nat) : Exec Nat := do
  let len ← resolveLen str len
  if 0 < len then do
    match ← graphemeScan (ρ := Empty) tables str 0 len .zero (fun num _ => .ok (num + 1)) 1 with
    | .ok num => pure num
  else pure 0

def ucbUcCharIndex (tables : UcbUcTables) (str : List UInt8) (len index : Nat) : Exec Nat :=
  if index = 0 then pure len
  else if 0 ≥ len then pure len
  else do
    let onBreak (num pos : Nat) : Except Nat Nat :=
      if num = index then .error pos else .ok (num + 1)
    match ← graphemeScan tables str 0 len .zero onBreak 1 with
    | .error pos => pure pos
    | .ok _ => pure len

/-! ## Backward scans -/

/-- The loop of `ucb_uc_prev_start`: back over continuation bytes. -/
def stepBack (base : List UInt8) : Nat → Exec Nat
  | 0 => pure 0
  | pos + 1 => do
      let byte ← byteAt base (pos + 1)
      if byte &&& 0xC0 = 0x80 then stepBack base pos
      else pure (pos + 1)

def ucbUcPrevStart (base : List UInt8) : Nat → Exec Nat
  | 0 => .undefined
  | pos + 1 => stepBack base pos

/-- The loop of the three backward scans: codepoint by codepoint from `pos`
towards the start of the string, until `body` leaves it with a result. -/
def graphemeBackLoop {σ ρ : Type} (tables : UcbUcTables) (str : List UInt8)
    (body : σ → UcbUcProp → Except ρ σ) : Nat → Nat → σ → Exec (Except ρ σ)
  | 0, _, _ => .undefined
  | fuel + 1, pos, var =>
      if 0 < pos then do
        let start ← ucbUcPrevStart str pos
        let (prop, _) ← ucbUcPropAt tables str start
        match body var prop with
        | .ok var => graphemeBackLoop tables str body fuel start var
        | .error result => pure (.error result)
      else pure (.ok var)

/-- GB12/GB13: continue over regional indicators, flipping the parity. -/
def riStep (odd : Bool) (prop : UcbUcProp) : Except Bool Bool :=
  if prop.gcb ≠ .regionalIndicator then .error odd else .ok (!odd)

/-- The parity of the regional indicators that end at `pos`. -/
def riOddAt (tables : UcbUcTables) (str : List UInt8) (pos : Nat) : Exec Bool := do
  match ← graphemeBackLoop tables str riStep (pos + 1) pos false with
  | .ok odd => pure odd
  | .error odd => pure odd

/-- GB11: continue over extenders until a pictograph. -/
def gb11Step (_ : Unit) (prop : UcbUcProp) : Except Nat Unit :=
  if prop.extpict then .error 3
  else if prop.gcb ≠ .extend then .error 0
  else .ok ()

/-- 3 when the text before `pos` ends with a pictograph, extenders and a joiner. -/
def gb11At (tables : UcbUcTables) (str : List UInt8) (pos : Nat) : Exec Nat :=
  if 0 < pos then do
    let joiner ← ucbUcPrevStart str pos
    let (prop, _) ← ucbUcPropAt tables str joiner
    if prop.gcb = .zwj then do
      match ← graphemeBackLoop tables str gb11Step (joiner + 1) joiner () with
      | .ok () => pure 0
      | .error gb11 => pure gb11
    else pure 0
  else pure 0

/-- GB9c: continue over the marks of a conjunct, noting linkers, until its
consonant. -/
def incbStep (linker : Bool) (prop : UcbUcProp) : Except (Bool × Bool) Bool :=
  if prop.incb = .linker then .ok true
  else if prop.incb = .extend then .ok linker
  else if prop.incb = .consonant then .error (true, linker)
  else .error (false, false)

/-- Whether the text before `pos` ends inside a conjunct, and whether a linker
has been seen in it. -/
def incbAt (tables : UcbUcTables) (str : List UInt8) (pos : Nat) : Exec (Bool × Bool) := do
  match ← graphemeBackLoop tables str incbStep (pos + 1) pos false with
  | .ok _ => pure (false, false)
  | .error incb => pure incb

def ucbUcGraphemeStateAt (tables : UcbUcTables) (str : List UInt8) (start : Nat) :
    Exec UcbUcGraphemeState :=
  if start = 0 then pure .zero
  else do
    let riOdd ← riOddAt tables str start
    let gb11 ← gb11At tables str start
    let (incbSeq, incbLinker) ← incbAt tables str start
    pure ⟨riOdd, gb11, incbSeq, incbLinker⟩

def ucbUcNextChar (tables : UcbUcTables) (str : List UInt8) (len fromByte : Nat) :
    Exec (Option Nat) :=
  if fromByte ≥ len then pure none
  else do
    let st ← ucbUcGraphemeStateAt tables str fromByte
    ucbUcGraphemeNextFrom tables str fromByte len st

end Ucb.Unicode
