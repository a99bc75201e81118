import Mathlib.Data.List.TakeWhile
import Ucb.Argparse.Argparse

/-!
Contract: the values that options of an integer type accept.

Owns:
- the texts that denote integers, and the range of each type;
- the pre-checks and the C library together as that language;
- that `convert_store` stores exactly the integers in range.

The widths of `long` and `size_t` depend on the platform. The range checks under
`#if` are there where they are narrower than `long long`.
-/

namespace Ucb.Argparse

/-! ## Texts of integers -/

def plus : UInt8 := 0x2B

/-- A sign and one digit or more, for an integer. A type without negative values has no
`-`. -/
inductive IntegerText (signed : Bool) : List UInt8 → Int → Prop
  | unsigned {digits : List UInt8} (nonempty : digits ≠ []) (all : ∀ d ∈ digits, isDigit d) :
      IntegerText signed digits (digitsValue digits)
  | positive {digits : List UInt8} (nonempty : digits ≠ []) (all : ∀ d ∈ digits, isDigit d) :
      IntegerText signed (plus :: digits) (digitsValue digits)
  | negative {digits : List UInt8} (nonempty : digits ≠ []) (all : ∀ d ∈ digits, isDigit d)
      (isSigned : signed = true) : IntegerText signed (dash :: digits) (-digitsValue digits)

theorem digit_ne {c : UInt8} (digit : isDigit c = true) :
    isSpaceChar c = false ∧ c ≠ dash ∧ c ≠ plus := by
  simp only [isDigit, decide_eq_true_eq, UInt8.le_iff_toNat_le] at digit
  refine ⟨?_, ?_, ?_⟩
  · by_contra space
    simp only [isSpaceChar, Bool.not_eq_false, Bool.or_eq_true, beq_iff_eq] at space
    rcases space with ((((rfl | rfl) | rfl) | rfl) | rfl) | rfl <;> simp at digit
  · rintro rfl
    simp [dash] at digit
  · rintro rfl
    simp [plus] at digit

section Scan

variable {v digits : List UInt8} {c : UInt8}

/-- What is read of a text that does not start with a space. -/
theorem scanInteger_cons (noSpace : isSpaceChar c = false) (rest : List UInt8) :
    scanInteger (c :: rest) =
      let body := if c = dash ∨ c = plus then rest else c :: rest
      let digits := body.takeWhile isDigit
      (c == dash, digitsValue digits,
        if digits = [] then 0 else (if c = dash ∨ c = plus then 1 else 0) + digits.length) := by
  by_cases isDash : c = dash
  · subst isDash
    simp [scanInteger, noSpace]
  · by_cases isPlus : c = plus
    · subst isPlus
      have noSpace' : isSpaceChar 0x2B = false := noSpace
      simp [scanInteger, noSpace', plus, dash]
    · have isPlus' : c ≠ 0x2B := isPlus
      simp [scanInteger, noSpace, isDash, isPlus, isPlus']

theorem takeWhile_digits (all : ∀ d ∈ digits, isDigit d) : digits.takeWhile isDigit = digits :=
  List.takeWhile_eq_self_iff.mpr all

/-- Digits are read as a whole, with the sign in front. -/
theorem scanInteger_digits (nonempty : digits ≠ []) (all : ∀ d ∈ digits, isDigit d) :
    scanInteger digits = (false, digitsValue digits, digits.length) ∧
      scanInteger (plus :: digits) = (false, digitsValue digits, (plus :: digits).length) ∧
      scanInteger (dash :: digits) = (true, digitsValue digits, (dash :: digits).length) := by
  have whole := takeWhile_digits all
  refine ⟨?_, ?_, ?_⟩
  · cases digits with
    | nil => exact absurd rfl nonempty
    | cons c rest =>
        obtain ⟨noSpace, noDash, noPlus⟩ := digit_ne (all c (List.mem_cons_self ..))
        rw [scanInteger_cons noSpace]
        simp [noDash, noPlus, whole]
  · rw [scanInteger_cons (by decide)]
    simp [whole, nonempty, Nat.add_comm, show plus ≠ dash by decide]
  · rw [scanInteger_cons (by decide)]
    simp [whole, nonempty, Nat.add_comm]

theorem integerText_of_scan {negative : Bool} {magnitude read : Nat}
    (started : startsBlank v = false)
    (scanned : scanInteger v = (negative, magnitude, read)) (some : read ≠ 0)
    (whole : read = v.length) :
    IntegerText true v (if negative then -magnitude else magnitude) ∧
      (negative = true ↔ v.head? = Option.some dash) := by
  cases v with
  | nil => cases started
  | cons c rest =>
      have noSpace : isSpaceChar c = false := by simpa [startsBlank] using started
      rw [scanInteger_cons noSpace] at scanned
      simp only [Prod.mk.injEq] at scanned
      obtain ⟨rfl, rfl, rfl⟩ := scanned
      generalize bodyIs : (if c = dash ∨ c = plus then rest else c :: rest) = body at some whole ⊢
      have nonempty : body.takeWhile isDigit ≠ [] := fun none => some (if_pos none)
      rw [if_neg nonempty, List.length_cons] at whole
      have total : (if c = dash ∨ c = plus then 1 else 0) + body.length = rest.length + 1 := by
        rw [← bodyIs]
        split
        · omega
        · rw [List.length_cons]
          omega
      have same : body.takeWhile isDigit = body :=
        (List.takeWhile_prefix _).eq_of_length (by omega)
      have all : ∀ d ∈ body, isDigit d := List.takeWhile_eq_self_iff.mp same
      rw [same] at nonempty ⊢
      by_cases isDash : c = dash
      · subst isDash
        obtain rfl : rest = body := by simpa using bodyIs
        simpa using IntegerText.negative nonempty all rfl
      · by_cases isPlus : c = plus
        · subst isPlus
          obtain rfl : rest = body := by simpa using bodyIs
          simpa [isDash] using IntegerText.positive nonempty all
        · obtain rfl : c :: rest = body := by simpa [isDash, isPlus] using bodyIs
          simpa [isDash] using IntegerText.unsigned nonempty all

end Scan

section Parse

variable {v : List UInt8} {x : Int} {n : Nat}

theorem IntegerText.started {signed : Bool} (text : IntegerText signed v x) :
    startsBlank v = false := by
  have first {digits : List UInt8} (nonempty : digits ≠ []) (all : ∀ d ∈ digits, isDigit d) :
      startsBlank digits = false := by
    cases digits with
    | nil => exact absurd rfl nonempty
    | cons c rest => simp [startsBlank, (digit_ne (all c (List.mem_cons_self ..))).1]
  cases text with
  | unsigned nonempty all => exact first nonempty all
  | positive nonempty all => simp [startsBlank, show isSpaceChar plus = false by decide]
  | negative nonempty all => simp [startsBlank, show isSpaceChar dash = false by decide]

/-- What the C library reads of the text of an integer. -/
theorem IntegerText.scan {signed : Bool} (text : IntegerText signed v x) :
    ∃ negative magnitude, scanInteger v = (negative, magnitude, v.length) ∧ 0 < v.length ∧
      x = (if negative then -magnitude else magnitude : Int) ∧
      (negative = true ↔ v.head? = some dash) := by
  cases text with
  | unsigned nonempty all =>
      obtain ⟨scanned, -, -⟩ := scanInteger_digits nonempty all
      refine ⟨_, _, scanned, List.length_pos_iff.mpr nonempty, rfl, ?_⟩
      cases v with
      | nil => exact absurd rfl nonempty
      | cons c rest => simp [(digit_ne (all c (List.mem_cons_self ..))).2.1]
  | positive nonempty all =>
      obtain ⟨-, scanned, -⟩ := scanInteger_digits nonempty all
      exact ⟨_, _, scanned, Nat.succ_pos _, rfl, by simp [plus, dash]⟩
  | negative nonempty all =>
      obtain ⟨-, -, scanned⟩ := scanInteger_digits nonempty all
      exact ⟨_, _, scanned, Nat.succ_pos _, rfl, by simp⟩

theorem IntegerText.noSign (text : IntegerText true v x) (noDash : v.head? ≠ some dash) :
    IntegerText false v x := by
  cases text with
  | unsigned nonempty all => exact .unsigned nonempty all
  | positive nonempty all => exact .positive nonempty all
  | negative nonempty all => exact absurd rfl noDash

theorem IntegerText.head_ne (text : IntegerText false v x) : v.head? ≠ some dash := by
  cases text with
  | unsigned nonempty all =>
      cases v with
      | nil => simp
      | cons c rest => simp [(digit_ne (all c (List.mem_cons_self ..))).2.1]
  | positive nonempty all => simp [plus, dash]
  | negative nonempty all isSigned => cases isSigned

/-- `parse_ll` accepts the texts of the integers that `long long` holds. -/
theorem parseLl_iff :
    parseLl v = some x ↔ IntegerText true v x ∧ -2 ^ 63 ≤ x ∧ x < 2 ^ 63 := by
  constructor
  · intro parsed
    unfold parseLl at parsed
    split at parsed
    next => cases parsed
    next started =>
      cases scanned : scanInteger v with
      | mk negative rest =>
          obtain ⟨magnitude, read⟩ := rest
          simp only [strtoll, scanned] at parsed
          have text := integerText_of_scan (Bool.eq_false_iff.mpr started) scanned
          generalize (if negative = true then -(magnitude : Int) else magnitude) = value at *
          split at parsed
          next => simp [Strto.whole] at parsed
          next =>
            split at parsed
            next => simp [Strto.whole] at parsed
            next =>
              simp only [Strto.whole, Bool.false_eq_true, or_false] at parsed
              split at parsed
              next => cases parsed
              next read =>
                obtain rfl := Option.some.inj parsed
                rw [not_or, not_not] at read
                exact ⟨(text read.1 read.2).1, by omega, by omega⟩
  · rintro ⟨text, low, high⟩
    obtain ⟨negative, magnitude, scanned, positive, rfl, -⟩ := text.scan
    rw [parseLl, if_neg (by simp [text.started])]
    simp only [strtoll, scanned]
    rw [if_neg (by omega), if_neg (by omega), Strto.whole,
      if_neg (by simp [List.length_pos_iff.mp positive])]

/-- `parse_ull` accepts the texts of the integers that `unsigned long long` holds, without
`-`. -/
theorem parseUll_iff : parseUll v = some n ↔ IntegerText false v n ∧ n < 2 ^ 64 := by
  constructor
  · intro parsed
    unfold parseUll at parsed
    split at parsed
    next => cases parsed
    next both =>
      obtain ⟨started, noDash⟩ := not_or.mp both
      cases scanned : scanInteger v with
      | mk negative rest =>
          obtain ⟨magnitude, read⟩ := rest
          simp only [strtoull, scanned] at parsed
          have text := integerText_of_scan (Bool.eq_false_iff.mpr started) scanned
          split at parsed
          next => simp [Strto.whole] at parsed
          next =>
            simp only [Strto.whole, Bool.false_eq_true, or_false] at parsed
            split at parsed
            next => cases parsed
            next read =>
              rw [not_or, not_not] at read
              obtain ⟨isText, sign⟩ := text read.1 read.2
              have positive : negative = false := by
                rw [← Bool.not_eq_true, sign]
                exact noDash
              subst positive
              obtain rfl : magnitude = n := Option.some.inj parsed
              exact ⟨isText.noSign noDash, by omega⟩
  · rintro ⟨text, high⟩
    obtain ⟨negative, magnitude, scanned, positive, value, sign⟩ := text.scan
    have noDash := text.head_ne
    obtain rfl : negative = false := by
      rw [← Bool.not_eq_true, sign]
      exact noDash
    obtain rfl : n = magnitude := Int.ofNat.inj value
    rw [parseUll, if_neg (by simp [text.started, noDash])]
    simp only [strtoull, scanned]
    rw [if_neg (by omega), Strto.whole, if_neg (by simp [List.length_pos_iff.mp positive])]
    rfl

end Parse

/-! ## Integer types -/

/-- The widths that `limits.h` and `stdint.h` give on a platform. -/
structure DataModel where
  longBits : Nat
  sizeBits : Nat
  long : longBits = 32 ∨ longBits = 64
  size : sizeBits = 32 ∨ sizeBits = 64

def lp64 : DataModel :=
  ⟨64, 64, .inr rfl, .inr rfl⟩

def DataModel.bits (model : DataModel) : UcbArgType → Nat
  | .int | .uint => 32
  | .long | .ulong => model.longBits
  | .size => model.sizeBits
  | _ => 64

def integerSigned : UcbArgType → Option Bool
  | .int | .long | .llong => some true
  | .uint | .ulong | .ullong | .size => some false
  | .none | .bool | .str | .float | .double => none

def InRange (signed : Bool) (bits : Nat) (x : Int) : Prop :=
  if signed then -2 ^ (bits - 1) ≤ x ∧ x < 2 ^ (bits - 1) else 0 ≤ x ∧ x < 2 ^ bits

/-- A destination of an integer type that holds the integer. -/
def integerCell (type : UcbArgType) (x : Int) : DestCell :=
  match type with
  | .int => .int x
  | .uint => .uint x.toNat
  | .long => .long x
  | .ulong => .ulong x.toNat
  | .llong => .llong x
  | .ullong => .ullong x.toNat
  | _ => .size x.toNat

/-- The checks of a signed type behind `parse_ll`; those under `#if` are there if the type
is narrower. -/
def convertSigned (bits : Nat) (cell : Int → DestCell) (v : List UInt8) : Option DestCell :=
  (parseLl v).bind fun x =>
    if bits < 64 ∧ (x < -2 ^ (bits - 1) ∨ x > 2 ^ (bits - 1) - 1) then none else some (cell x)

/-- The checks of an unsigned type behind `parse_ull`. -/
def convertUnsigned (bits : Nat) (cell : Nat → DestCell) (v : List UInt8) : Option DestCell :=
  (parseUll v).bind fun x => if bits < 64 ∧ x > 2 ^ bits - 1 then none else some (cell x)

/-- The integer types in `convert_store`. -/
def convertInteger (model : DataModel) (type : UcbArgType) (v : List UInt8) : Option DestCell :=
  match type with
  | .int => convertSigned 32 .int v
  | .uint => convertUnsigned 32 .uint v
  | .long => convertSigned model.longBits .long v
  | .ulong => convertUnsigned model.longBits .ulong v
  | .llong => convertSigned 64 .llong v
  | .ullong => convertUnsigned 64 .ullong v
  | .size => convertUnsigned model.sizeBits .size v
  | .none | .bool | .str | .float | .double => none

/-- `convert_store` of an integer type on a platform. -/
def convertIntegerStore (model : DataModel) (o : UcbArgOptImpl) (v : List UInt8)
    (memory : DestMemory) : Exec (UcbArgStatus × DestMemory) :=
  match convertInteger model o.type v with
  | some cell => do
      let memory ← writeDest memory o.dest cell
      pure (.ok, memory)
  | none => pure (.error (some (.invalidValue o.type o.canon v)), memory)

section Convert

variable {model : DataModel} {v : List UInt8} {bits : Nat} {type : UcbArgType} {signed : Bool}

theorem convertSigned_iff {cell : Int → DestCell} {stored : DestCell} (narrow : bits ≤ 64) :
    convertSigned bits cell v = some stored ↔
      ∃ x, IntegerText true v x ∧ InRange true bits x ∧ stored = cell x := by
  have fits (x : Int) : (-2 ^ 63 ≤ x ∧ x < 2 ^ 63) ∧
      ¬ (bits < 64 ∧ (x < -2 ^ (bits - 1) ∨ x > 2 ^ (bits - 1) - 1)) ↔ InRange true bits x := by
    rw [InRange, if_pos rfl]
    rcases Nat.lt_or_eq_of_le narrow with small | rfl
    · have power : (2 : Int) ^ (bits - 1) ≤ 2 ^ 63 := pow_le_pow_right₀ (by decide) (by omega)
      omega
    · omega
  simp only [convertSigned, Option.bind_eq_some_iff, parseLl_iff, Option.ite_none_left_eq_some]
  constructor
  · rintro ⟨x, ⟨text, inside⟩, narrowed, same⟩
    exact ⟨x, text, (fits x).mp ⟨inside, narrowed⟩, (Option.some.inj same).symm⟩
  · rintro ⟨x, text, inRange, rfl⟩
    obtain ⟨inside, narrowed⟩ := (fits x).mpr inRange
    exact ⟨x, ⟨text, inside⟩, narrowed, rfl⟩

theorem convertUnsigned_iff {cell : Nat → DestCell} {stored : DestCell} (narrow : bits ≤ 64) :
    convertUnsigned bits cell v = some stored ↔
      ∃ x, IntegerText false v x ∧ InRange false bits x ∧ stored = cell x.toNat := by
  have fits (x : Nat) : x < 2 ^ 64 ∧ ¬ (bits < 64 ∧ x > 2 ^ bits - 1) ↔ InRange false bits x := by
    have cast : ((2 ^ bits : Nat) : Int) = 2 ^ bits := by push_cast; rfl
    have positive : 0 < 2 ^ bits := Nat.two_pow_pos bits
    rw [InRange, if_neg Bool.false_ne_true]
    rcases Nat.lt_or_eq_of_le narrow with small | rfl
    · have power : 2 ^ bits ≤ 2 ^ 64 := Nat.pow_le_pow_right (by decide) narrow
      omega
    · omega
  simp only [convertUnsigned, Option.bind_eq_some_iff, parseUll_iff, Option.ite_none_left_eq_some]
  constructor
  · rintro ⟨x, ⟨text, high⟩, inRange, same⟩
    exact ⟨x, text, (fits x).mp ⟨high, inRange⟩, (Option.some.inj same).symm⟩
  · rintro ⟨x, text, inRange, rfl⟩
    have nonneg : 0 ≤ x := by
      rw [InRange, if_neg Bool.false_ne_true] at inRange
      exact inRange.1
    obtain ⟨n, rfl⟩ := Int.eq_ofNat_of_zero_le nonneg
    obtain ⟨high, small⟩ := (fits n).mpr inRange
    exact ⟨n, ⟨text, high⟩, small, rfl⟩

/-- A value of an integer type is converted exactly if it is the text of an integer in the
range of the type. -/
theorem convertInteger_iff (integer : integerSigned type = some signed) {stored : DestCell} :
    convertInteger model type v = some stored ↔
      ∃ x, IntegerText signed v x ∧ InRange signed (model.bits type) x ∧
        stored = integerCell type x := by
  have long : model.longBits ≤ 64 := by
    rcases model.long with narrow | wide <;> omega
  have size : model.sizeBits ≤ 64 := by
    rcases model.size with narrow | wide <;> omega
  cases type with
  | int | llong =>
      obtain rfl := Option.some.inj integer
      exact convertSigned_iff (by decide)
  | long =>
      obtain rfl := Option.some.inj integer
      exact convertSigned_iff long
  | uint | ullong =>
      obtain rfl := Option.some.inj integer
      exact convertUnsigned_iff (by decide)
  | ulong =>
      obtain rfl := Option.some.inj integer
      exact convertUnsigned_iff long
  | size =>
      obtain rfl := Option.some.inj integer
      exact convertUnsigned_iff size
  | none | bool | str | float | double => cases integer

theorem integerCell_type (integer : integerSigned type = some signed) (x : Int) :
    (integerCell type x).type = type := by
  cases type with
  | int | uint | long | ulong | llong | ullong | size => rfl
  | none | bool | str | float | double => cases integer

/-- A 64-bit POSIX build has the checks that are there without `#if`. -/
theorem convertStore_lp64 (libc : Libc) {o : UcbArgOptImpl}
    (integer : integerSigned o.type = some signed)
    (memory : DestMemory) :
    convertStore libc o v memory = convertIntegerStore lp64 o v memory := by
  have converted : convertCell libc o.type v = .ok (convertInteger lp64 o.type v) := by
    cases type : o.type with
    | int =>
        have narrowed (x : Int) : (x < intMin ∨ x > intMax) ↔
            (32 < 64 ∧ (x < -2 ^ (32 - 1) ∨ x > 2 ^ (32 - 1) - 1)) := by
          simp [intMin, intMax]
        simp only [convertCell, convertInteger, convertSigned, narrowed]
        rfl
    | uint =>
        have narrowed (x : Nat) : x > uintMax ↔ (32 < 64 ∧ x > 2 ^ 32 - 1) := by
          simp [uintMax]
        simp only [convertCell, convertInteger, convertUnsigned, narrowed]
        rfl
    | long | llong =>
        simp [convertCell, convertInteger, convertSigned, lp64, Option.map_eq_bind]
    | ulong | ullong | size =>
        simp [convertCell, convertInteger, convertUnsigned, lp64, Option.map_eq_bind]
    | none | bool | str | float | double =>
        rw [type] at integer
        cases integer
  have notNone : o.type ≠ .none := by
    intro same
    rw [same] at integer
    cases integer
  rw [convertStore, converted, Exec.ok_bind, convertIntegerStore]
  cases convertInteger lp64 o.type v with
  | some cell => rfl
  | none =>
      exact congrArg (fun error => Exec.ok (UcbArgStatus.error error, memory)) (if_neg notNone)

end Convert

/-- A value of an integer option is stored exactly if it is the text of an integer in the
range of the type, and else the destination is left and an error thrown. -/
theorem integer_value_stored_iff (libc : Libc) (model : DataModel) {o : UcbArgOptImpl}
    {signed : Bool}
    (integer : integerSigned o.type = some signed) {memory : DestMemory} {ptr : Nat}
    (dest : o.dest = some ptr) (typed : (memory ptr).map DestCell.type = some o.type)
    (v : List UInt8) :
    (∀ x, IntegerText signed v x → InRange signed (model.bits o.type) x →
      convertIntegerStore model o v memory =
        .ok (.ok, Function.update memory ptr (some (integerCell o.type x)))) ∧
    ((¬ ∃ x, IntegerText signed v x ∧ InRange signed (model.bits o.type) x) →
      ∃ thrown : ArgError, thrown.code = .invalidArg ∧
        convertIntegerStore model o v memory = .ok (.error (some thrown), memory)) ∧
    (model = lp64 → convertStore libc o v memory = convertIntegerStore model o v memory) := by
  refine ⟨fun x text inRange => ?_, fun none => ?_, ?_⟩
  · have converted := (convertInteger_iff (v := v) integer).mpr ⟨x, text, inRange, rfl⟩
    rw [convertIntegerStore, converted]
    simp only [writeDest, dest, typed, integerCell_type integer, if_true, Exec.pure_eq_ok,
      Exec.ok_bind]
  · cases converted : convertInteger model o.type v with
    | some cell =>
        obtain ⟨x, text, inRange, -⟩ := (convertInteger_iff integer).mp converted
        exact absurd ⟨x, text, inRange⟩ none
    | none =>
        refine ⟨.invalidValue o.type o.canon v, rfl, ?_⟩
        rw [convertIntegerStore, converted]
        rfl
  · rintro rfl
    exact convertStore_lp64 libc integer memory

/-- An option `-n` for an `int`. -/
def numberOpt : UcbArgOptImpl :=
  ⟨[0x6E], 0x6E, [], ascii "-n", .int, .store, some 0, none, [], [], [], false⟩

def numberMemory : DestMemory :=
  fun _ => some (.int 7)

/-- The least `int` is stored. -/
theorem integer_value_stored_iff_least :
    convertStore ⟨fun _ => ⟨0, 0, false⟩, fun _ => ⟨0, 0, false⟩⟩ numberOpt (ascii "-2147483648")
        numberMemory = .ok (.ok, Function.update numberMemory 0 (some (.int (-2147483648)))) := by
  have integer : integerSigned numberOpt.type = some true := rfl
  have dest : numberOpt.dest = some 0 := rfl
  have typed : (numberMemory 0).map DestCell.type = some numberOpt.type := rfl
  have text : IntegerText true (ascii "-2147483648") (-2147483648) :=
    show IntegerText true (dash :: ascii "2147483648") (-digitsValue (ascii "2147483648")) from
      .negative (by decide) (List.all_eq_true.mp (by decide)) rfl
  have inRange : InRange true (lp64.bits numberOpt.type) (-2147483648) := by
    rw [InRange, if_pos rfl]
    decide
  have stored := integer_value_stored_iff ⟨fun _ => ⟨0, 0, false⟩, fun _ => ⟨0, 0, false⟩⟩ lp64
    integer dest typed (ascii "-2147483648")
  rw [stored.2.2 rfl]
  exact stored.1 _ text inRange

end Ucb.Argparse
