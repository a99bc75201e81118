import Ucb.Core.Exec
import Ucb.Lib.Binary64

/-!
Contract: byte sizes as `units/bytes.c` parses them.

Owns:
- the units and their factors;
- `strtod` in the C locale, for texts that begin with a digit;
- the scan of the number and of the unit's letters, and `ucb_bytes_parse`.

Texts are the bytes in front of the terminating NUL.
-/

namespace Ucb.Units

open Ucb.Lib

/-! ## Units -/

/-- The concrete units of `ucb_bytes_unit`, in the order of their values. -/
inductive UcbBytesUnit where
  | b
  | kb
  | mb
  | gb
  | tb
  | pb
  | eb
  | kib
  | mib
  | gib
  | tib
  | pib
  | eib
deriving DecidableEq, Repr

def bytesUnits : List (UcbBytesUnit × Binary64) :=
  [(.b, .ofRat 1), (.kb, .ofRat (10 ^ 3)), (.mb, .ofRat (10 ^ 6)), (.gb, .ofRat (10 ^ 9)),
    (.tb, .ofRat (10 ^ 12)), (.pb, .ofRat (10 ^ 15)), (.eb, .ofRat (10 ^ 18)),
    (.kib, .ofRat 1024), (.mib, .ofRat 1048576), (.gib, .ofRat 1073741824),
    (.tib, .ofRat 1099511627776), (.pib, .ofRat 1125899906842624),
    (.eib, .ofRat 1152921504606846976)]

def ucbBytesKib : Nat := 7

structure UcbBytesParsed where
  bytes : Nat
  unit : UcbBytesUnit
deriving DecidableEq, Repr

/-! ## Characters -/

def bytesIsSpace (c : UInt8) : Bool :=
  c == 0x20 || c == 0x09

def bytesIsDigit (c : UInt8) : Bool :=
  decide (0x30 ≤ c) && decide (c ≤ 0x39)

/-- `isalpha` in the C locale. -/
def isAlpha (c : UInt8) : Bool :=
  (decide (0x41 ≤ c) && decide (c ≤ 0x5A)) || (decide (0x61 ≤ c) && decide (c ≤ 0x7A))

/-- `tolower` in the C locale. -/
def toLower (c : UInt8) : UInt8 :=
  if 0x41 ≤ c ∧ c ≤ 0x5A then c + 0x20 else c

def isHexDigit (c : UInt8) : Bool :=
  bytesIsDigit c || (decide (0x61 ≤ toLower c) && decide (toLower c ≤ 0x66))

def dot : UInt8 := 0x2E

/-! ## `strtod` -/

def digitValue (c : UInt8) : Nat :=
  if bytesIsDigit c then c.toNat - 0x30 else (toLower c).toNat - 0x57

def digitsValue (base : Nat) (digits : List UInt8) : Nat :=
  digits.foldl (fun value digit => base * value + digitValue digit) 0

/-- Digits around a point: all of them, how many stand behind the point, and how many bytes they
take. -/
structure Mantissa where
  digits : List UInt8
  fraction : Nat
  read : Nat

def mantissaAt (isDigit : UInt8 → Bool) (s : List UInt8) : Mantissa :=
  let whole := s.takeWhile isDigit
  let rest := s.dropWhile isDigit
  if rest.head? = some dot then
    let fraction := (rest.drop 1).takeWhile isDigit
    ⟨whole ++ fraction, fraction.length, whole.length + 1 + fraction.length⟩
  else ⟨whole, 0, whole.length⟩

/-- An exponent behind its marker, with the bytes it takes; nothing without digits. -/
def exponentAt (marker : UInt8) (s : List UInt8) : Int × Nat :=
  if s.head?.map toLower = some marker then
    let behind := s.drop 1
    let sign := if behind.head? = some 0x2B ∨ behind.head? = some 0x2D then 1 else 0
    let digits := (behind.drop sign).takeWhile bytesIsDigit
    let magnitude : Int := digitsValue 10 digits
    if digits = [] then (0, 0)
    else (if behind.head? = some 0x2D then -magnitude else magnitude, 1 + sign + digits.length)
  else (0, 0)

/-- What `strtod` returns: the value, how many bytes it read, and whether `errno` is `ERANGE`. -/
structure Strtod where
  value : Binary64
  read : Nat
  erange : Bool

/-- The correctly rounded result. Whether a result below the normal range is a range error is up to
the library. -/
def strtodResult (underflows : ℚ → Bool) (exact : ℚ) (read : Nat) : Strtod where
  value := .ofRat exact
  read := read
  erange := !(Binary64.ofRat exact).isFinite ||
    (decide (exact ≠ 0) && decide (exact < 2 ^ (-1022 : ℤ)) && underflows exact)

/-- `strtod` of a text that begins with a digit. -/
def strtod (underflows : ℚ → Bool) (s : List UInt8) : Strtod :=
  let hex := mantissaAt isHexDigit (s.drop 2)
  if s.head? = some 0x30 ∧ (s.drop 1).head?.map toLower = some 0x78 ∧ hex.digits ≠ [] then
    let (exponent, read) := exponentAt 0x70 (s.drop (2 + hex.read))
    strtodResult underflows (digitsValue 16 hex.digits * 2 ^ (exponent - 4 * hex.fraction))
      (2 + hex.read + read)
  else
    let decimal := mantissaAt bytesIsDigit s
    let (exponent, read) := exponentAt 0x65 (s.drop decimal.read)
    strtodResult underflows (digitsValue 10 decimal.digits * 10 ^ (exponent - decimal.fraction))
      (decimal.read + read)

/-! ## Parsing -/

def invalidSize (msg : String) : UcbError :=
  ⟨.invalidArg, msg⟩

def sizeTooLarge : UcbError :=
  ⟨.outOfBounds, "size does not fit a 64-bit count"⟩

/-- The loop over the number: the bytes of digits and of one dot at most, and the rest. -/
def scanNumber : Bool → List UInt8 → List UInt8 × List UInt8
  | _, [] => ([], [])
  | seenDot, c :: rest =>
      if bytesIsDigit c || (c == dot && !seenDot) then
        let (number, behind) := scanNumber (seenDot || c == dot) rest
        (c :: number, behind)
      else ([], c :: rest)

/-- The loop over the unit's letters, with those collected; `suffix` has room for seven. -/
def scanSuffix : List UInt8 → List UInt8 → Except UcbError (List UInt8 × List UInt8)
  | suffix, [] => .ok (suffix, [])
  | suffix, c :: rest =>
      if isAlpha c then
        if suffix.length + 1 ≥ 8 then .error (invalidSize "size unit is too long")
        else scanSuffix (suffix ++ [toLower c]) rest
      else .ok (suffix, c :: rest)

/-- `PREFIXES`, the text `kmgtpe`. -/
def prefixes : List UInt8 :=
  [0x6B, 0x6D, 0x67, 0x74, 0x70, 0x65]

def suffixIndex (suffix : List UInt8) : Except UcbError Nat :=
  if suffix = [] ∨ suffix = [0x62] then .ok 0
  else
    match prefixes.idxOf? (suffix.headD 0) with
    | none => .error (invalidSize "unknown size unit")
    | some found =>
        let power := found + 1
        let rest := suffix.drop 1
        if rest = [] ∨ rest = [0x69] ∨ rest = [0x69, 0x62] then .ok (ucbBytesKib + power - 1)
        else if rest = [0x62] then .ok power
        else .error (invalidSize "invalid size unit")

/-- The number in front of the unit, and the rest of the text. -/
def readNumber (underflows : ℚ → Bool) (str : List UInt8) :
    Except UcbError (Binary64 × List UInt8) :=
  let numStart := str.dropWhile bytesIsSpace
  if numStart.head?.all (fun c => !bytesIsDigit c) then
    .error (invalidSize "size must start with a digit")
  else
    let (number, rest) := scanNumber false numStart
    let parsed := strtod underflows numStart
    if number.getLast? = some dot then .error (invalidSize "size has a trailing decimal point")
    else if parsed.read ≠ number.length then .error (invalidSize "invalid size number")
    else if parsed.erange || !parsed.value.isFinite then .error sizeTooLarge
    else .ok (parsed.value, rest)

/-- The index of the unit behind the number, where nothing but the unit may stand. -/
def readUnit (str : List UInt8) : Except UcbError Nat := do
  let (suffix, rest) ← scanSuffix [] (str.dropWhile bytesIsSpace)
  if rest.dropWhile bytesIsSpace ≠ [] then
    .error (invalidSize "unexpected characters after size unit")
  else suffixIndex suffix

def bytesLimit : Binary64 :=
  .ofRat 18446744073709551616

/-- The conversion to `ucb_bytes`, which is undefined for values that do not fit. -/
def toUcbBytes : Binary64 → Exec Nat
  | .finite value =>
      if 0 ≤ ⌊value⌋ ∧ ⌊value⌋ < 2 ^ 64 then pure ⌊value⌋.toNat else .undefined
  | .infinity | .nan => .undefined

def scaleBytes (value factor : Binary64) : Exec (Except UcbError Nat) :=
  let scaled := value.mul factor
  let rounded := (scaled.add (.ofRat (1 / 2))).floor
  if !scaled.ge (.ofRat 0) || rounded.ge bytesLimit then pure (.error sizeTooLarge)
  else do
    let bytes ← toUcbBytes rounded
    pure (.ok bytes)

/-- `ucb_bytes_parse`: `*out` after the call and what the call reports. -/
def ucbBytesParse (underflows : ℚ → Bool) (str : List UInt8) (out : UcbBytesParsed) :
    Exec (UcbBytesParsed × Except UcbError Unit) :=
  match readNumber underflows str with
  | .error error => pure (out, .error error)
  | .ok (value, rest) =>
      match readUnit rest with
      | .error error => pure (out, .error error)
      | .ok idx =>
          match bytesUnits[idx]? with
          | none => .undefined
          | some (unit, factor) => do
              match ← scaleBytes value factor with
              | .error error => pure (out, .error error)
              | .ok bytes => pure (⟨bytes, unit⟩, .ok ())

end Ucb.Units
