import Mathlib.Data.List.TakeWhile
import Mathlib.Tactic.IntervalCases
import Ucb.Units.Bytes

/-!
Contract: which byte sizes `ucb_bytes_parse` reads, and which it reads exactly.

Owns:
- the grammar of byte sizes;
- what the scans leave of a text, and the numbers `strtod` reads;
- every text outside the grammar is rejected with the output unchanged;
- a whole number of units is read exactly unless it is an odd number of bytes of 53 bits.
-/

namespace Ucb.Units

open Ucb.Lib

/-! ## The grammar -/

def UcbBytesUnit.factor : UcbBytesUnit → Nat
  | .b => 1
  | .kb => 10 ^ 3
  | .mb => 10 ^ 6
  | .gb => 10 ^ 9
  | .tb => 10 ^ 12
  | .pb => 10 ^ 15
  | .eb => 10 ^ 18
  | .kib => 2 ^ 10
  | .mib => 2 ^ 20
  | .gib => 2 ^ 30
  | .tib => 2 ^ 40
  | .pib => 2 ^ 50
  | .eib => 2 ^ 60

def decimalSpellings (letter : UInt8) : List (List UInt8) :=
  [[letter, 0x62]]

def binarySpellings (letter : UInt8) : List (List UInt8) :=
  [[letter], [letter, 0x69], [letter, 0x69, 0x62]]

/-- How a unit is spelled in lower-case letters. -/
def UcbBytesUnit.spellings : UcbBytesUnit → List (List UInt8)
  | .b => [[], [0x62]]
  | .kb => decimalSpellings 0x6B
  | .mb => decimalSpellings 0x6D
  | .gb => decimalSpellings 0x67
  | .tb => decimalSpellings 0x74
  | .pb => decimalSpellings 0x70
  | .eb => decimalSpellings 0x65
  | .kib => binarySpellings 0x6B
  | .mib => binarySpellings 0x6D
  | .gib => binarySpellings 0x67
  | .tib => binarySpellings 0x74
  | .pib => binarySpellings 0x70
  | .eib => binarySpellings 0x65

def Spells (unit : UcbBytesUnit) (text : List UInt8) : Prop :=
  text.map toLower ∈ unit.spellings

def Blank (text : List UInt8) : Prop :=
  ∀ c ∈ text, bytesIsSpace c = true

structure Digits (text : List UInt8) : Prop where
  nonempty : text ≠ []
  digits : ∀ c ∈ text, bytesIsDigit c = true

/-- Digits, with a fraction of at least one digit behind a point or without. -/
inductive Numeral : List UInt8 → Prop where
  | whole {digits : List UInt8} (isWhole : Digits digits) : Numeral digits
  | fraction {digits behind : List UInt8} (isWhole : Digits digits) (isFraction : Digits behind) :
      Numeral (digits ++ dot :: behind)

def SizeText (numeral : List UInt8) (unit : UcbBytesUnit) (text : List UInt8) : Prop :=
  ∃ lead gap spelling trail, Blank lead ∧ Blank gap ∧ Spells unit spelling ∧ Blank trail ∧
    text = lead ++ (numeral ++ (gap ++ (spelling ++ trail)))

def InGrammar (text : List UInt8) : Prop :=
  ∃ numeral unit, Numeral numeral ∧ SizeText numeral unit text

/-! ## The unit -/

def allUnits : List UcbBytesUnit :=
  [.b, .kb, .mb, .gb, .tb, .pb, .eb, .kib, .mib, .gib, .tib, .pib, .eib]

theorem ofRat_factor (unit : UcbBytesUnit) : Binary64.ofRat unit.factor = .finite unit.factor := by
  have shifted : ∃ m k : ℕ, m < 2 ^ 53 ∧ k ≤ 900 ∧ unit.factor = m * 2 ^ k := by
    cases unit with
    | b => exact ⟨1, 0, by decide⟩
    | kb => exact ⟨5 ^ 3, 3, by decide⟩
    | mb => exact ⟨5 ^ 6, 6, by decide⟩
    | gb => exact ⟨5 ^ 9, 9, by decide⟩
    | tb => exact ⟨5 ^ 12, 12, by decide⟩
    | pb => exact ⟨5 ^ 15, 15, by decide⟩
    | eb => exact ⟨5 ^ 18, 18, by decide⟩
    | kib => exact ⟨1, 10, by decide⟩
    | mib => exact ⟨1, 20, by decide⟩
    | gib => exact ⟨1, 30, by decide⟩
    | tib => exact ⟨1, 40, by decide⟩
    | pib => exact ⟨1, 50, by decide⟩
    | eib => exact ⟨1, 60, by decide⟩
  obtain ⟨m, k, bits, inRange, same⟩ := shifted
  rw [same, Nat.cast_mul, Nat.cast_pow, Nat.cast_ofNat]
  exact Binary64.ofRat_shifted bits inRange

theorem bytesUnits_eq : bytesUnits = allUnits.map fun unit => (unit, .finite unit.factor) := by
  have rounded : bytesUnits = allUnits.map fun unit => (unit, Binary64.ofRat unit.factor) := by
    simp only [bytesUnits, allUnits, List.map_cons, List.map_nil, UcbBytesUnit.factor]
    norm_num
  rw [rounded]
  exact List.map_congr_left fun unit _ => by rw [ofRat_factor]

def unitLetters : List UInt8 :=
  [0x62, 0x69, 0x6B, 0x6D, 0x67, 0x74, 0x70, 0x65]

theorem spellings_letters (unit : UcbBytesUnit) :
    ∀ word ∈ unit.spellings, word.length ≤ 3 ∧ ∀ letter ∈ word, letter ∈ unitLetters := by
  cases unit <;> simp [UcbBytesUnit.spellings, decimalSpellings, binarySpellings, unitLetters]

theorem suffixIndex_spelling {unit : UcbBytesUnit} {word : List UInt8}
    (spelled : word ∈ unit.spellings) :
    ∃ idx, suffixIndex word = .ok idx ∧ allUnits[idx]? = some unit := by
  cases unit <;>
    simp only [UcbBytesUnit.spellings, decimalSpellings, binarySpellings, List.mem_cons,
      List.not_mem_nil, or_false] at spelled
  case b => rcases spelled with rfl | rfl <;> exact ⟨_, rfl, rfl⟩
  case kib | mib | gib | tib | pib | eib =>
    rcases spelled with rfl | rfl | rfl <;> exact ⟨_, rfl, rfl⟩
  all_goals
    subst spelled
    exact ⟨_, rfl, rfl⟩

theorem prefix_units {place : Nat} {letter : UInt8} (known : prefixes[place]? = some letter) :
    (∃ unit, unit.spellings = decimalSpellings letter ∧ allUnits[place + 1]? = some unit) ∧
      ∃ unit, unit.spellings = binarySpellings letter ∧
        allUnits[ucbBytesKib + (place + 1) - 1]? = some unit := by
  have inside := (List.getElem?_eq_some_iff.mp known).1
  rw [prefixes, List.length_cons, List.length_cons, List.length_cons, List.length_cons,
    List.length_cons, List.length_cons, List.length_nil] at inside
  interval_cases place
  all_goals
    obtain rfl := Option.some.inj known
    exact ⟨⟨_, rfl, rfl⟩, ⟨_, rfl, rfl⟩⟩

theorem suffixIndex_ok {word : List UInt8} {idx : Nat} (found : suffixIndex word = .ok idx) :
    ∃ unit, word ∈ unit.spellings ∧ allUnits[idx]? = some unit := by
  rw [suffixIndex] at found
  split at found
  next bytes =>
    obtain rfl := Except.ok.inj found
    exact ⟨.b, by simpa [UcbBytesUnit.spellings] using bytes, rfl⟩
  next named =>
    split at found
    · cases found
    next place known =>
      cases word with
      | nil => exact absurd (.inl rfl) named
      | cons letter rest =>
          obtain ⟨inside, same, -⟩ := List.idxOf?_eq_some_iff.mp known
          obtain ⟨⟨decimal, decimalSpelled, atDecimal⟩, ⟨binary, binarySpelled, atBinary⟩⟩ :=
            prefix_units (List.getElem?_eq_some_iff.mpr ⟨inside, same⟩)
          dsimp only at found
          split at found
          next isBinary =>
            obtain rfl := Except.ok.inj found
            refine ⟨binary, ?_, atBinary⟩
            rw [binarySpelled, binarySpellings]
            rcases isBinary with rfl | rfl | rfl <;> simp
          next =>
            split at found
            next isDecimal =>
              obtain rfl := Except.ok.inj found
              refine ⟨decimal, ?_, atDecimal⟩
              have tail : rest = [0x62] := isDecimal
              rw [decimalSpelled, decimalSpellings, tail]
              exact List.mem_singleton_self _
            next => cases found

/-! ## What the scans leave -/

/-- Behind the dot only digits are scanned. -/
theorem scanNumber_true (s : List UInt8) :
    scanNumber true s = (s.takeWhile bytesIsDigit, s.dropWhile bytesIsDigit) := by
  induction s with
  | nil => rfl
  | cons c rest inductionHypothesis =>
      rw [scanNumber, Bool.not_true, Bool.and_false, Bool.or_false, Bool.true_or,
        inductionHypothesis]
      by_cases digit : bytesIsDigit c = true
      · rw [if_pos digit, List.takeWhile_cons_of_pos digit, List.dropWhile_cons_of_pos digit]
      · rw [if_neg digit, List.takeWhile_cons_of_neg digit, List.dropWhile_cons_of_neg digit]

theorem dot_not_digit : bytesIsDigit dot = false := by
  decide

theorem scanNumber_false (s : List UInt8) :
    scanNumber false s =
      if (s.dropWhile bytesIsDigit).head? = some dot then
        (s.takeWhile bytesIsDigit ++
            dot :: ((s.dropWhile bytesIsDigit).drop 1).takeWhile bytesIsDigit,
          ((s.dropWhile bytesIsDigit).drop 1).dropWhile bytesIsDigit)
      else (s.takeWhile bytesIsDigit, s.dropWhile bytesIsDigit) := by
  induction s with
  | nil => rfl
  | cons c rest inductionHypothesis =>
      rw [scanNumber, Bool.not_false, Bool.and_true, Bool.false_or]
      by_cases digit : bytesIsDigit c = true
      · have other : (c == dot) = false := by
          rw [beq_eq_false_iff_ne]
          rintro rfl
          exact absurd (dot_not_digit.symm.trans digit) Bool.false_ne_true
        rw [digit, Bool.true_or, if_pos rfl, other, inductionHypothesis,
          List.takeWhile_cons_of_pos digit, List.dropWhile_cons_of_pos digit]
        by_cases dotted : (rest.dropWhile bytesIsDigit).head? = some dot
        · rw [if_pos dotted, if_pos dotted]
          rfl
        · rw [if_neg dotted, if_neg dotted]
      · rw [List.takeWhile_cons_of_neg digit, List.dropWhile_cons_of_neg digit, List.head?_cons,
          Bool.not_eq_true _ |>.mp digit, Bool.false_or]
        by_cases isDot : c = dot
        · subst isDot
          rw [beq_self_eq_true, if_pos rfl, if_pos rfl, scanNumber_true]
          rfl
        · rw [if_neg (by simpa using isDot), if_neg (fun same => isDot (Option.some.inj same))]

/-- The letters, if there are at most seven. -/
theorem scanSuffix_short (s : List UInt8) :
    ∀ suffix, suffix.length + (s.takeWhile isAlpha).length < 8 →
      scanSuffix suffix s =
        .ok (suffix ++ (s.takeWhile isAlpha).map toLower, s.dropWhile isAlpha) := by
  induction s with
  | nil =>
      intro suffix short
      rw [scanSuffix, List.takeWhile_nil, List.map_nil, List.append_nil, List.dropWhile_nil]
  | cons c rest inductionHypothesis =>
      intro suffix short
      rw [scanSuffix]
      by_cases letter : isAlpha c = true
      · rw [List.takeWhile_cons_of_pos letter, List.length_cons] at short
        rw [if_pos letter, if_neg (by omega), List.takeWhile_cons_of_pos letter,
          List.dropWhile_cons_of_pos letter, inductionHypothesis _ (by
            rw [List.length_append, List.length_singleton]
            omega), List.append_assoc]
        rfl
      · rw [if_neg letter, List.takeWhile_cons_of_neg letter, List.dropWhile_cons_of_neg letter,
          List.map_nil, List.append_nil]

theorem scanSuffix_ok (s : List UInt8) :
    ∀ {suffix word rest}, scanSuffix suffix s = .ok (word, rest) →
      word = suffix ++ (s.takeWhile isAlpha).map toLower ∧ rest = s.dropWhile isAlpha := by
  induction s with
  | nil =>
      intro suffix word rest scanned
      obtain ⟨rfl, rfl⟩ := Prod.mk.inj (Except.ok.inj scanned)
      exact ⟨(List.append_nil _).symm, rfl⟩
  | cons c behind inductionHypothesis =>
      intro suffix word rest scanned
      rw [scanSuffix] at scanned
      by_cases letter : isAlpha c = true
      · rw [if_pos letter] at scanned
        split at scanned
        · cases scanned
        · obtain ⟨rfl, rfl⟩ := inductionHypothesis scanned
          rw [List.takeWhile_cons_of_pos letter, List.dropWhile_cons_of_pos letter,
            List.append_assoc]
          exact ⟨rfl, rfl⟩
      · rw [if_neg letter] at scanned
        obtain ⟨rfl, rfl⟩ := Prod.mk.inj (Except.ok.inj scanned)
        rw [List.takeWhile_cons_of_neg letter, List.dropWhile_cons_of_neg letter]
        exact ⟨(List.append_nil _).symm, rfl⟩

/-! ## Texts outside the grammar -/

theorem blank_takeWhile (s : List UInt8) : Blank (s.takeWhile bytesIsSpace) :=
  List.all_eq_true.mp List.all_takeWhile

theorem digits_takeWhile {s : List UInt8} (nonempty : s.takeWhile bytesIsDigit ≠ []) :
    Digits (s.takeWhile bytesIsDigit) :=
  ⟨nonempty, List.all_eq_true.mp List.all_takeWhile⟩

/-- A scanned number that begins with a digit and does not end with the dot is a numeral. -/
theorem scanNumber_numeral {s : List UInt8} (started : s.takeWhile bytesIsDigit ≠ [])
    (lastDigit : (scanNumber false s).1.getLast? ≠ some dot) :
    Numeral (scanNumber false s).1 ∧ s = (scanNumber false s).1 ++ (scanNumber false s).2 := by
  have whole := (List.takeWhile_append_dropWhile (p := bytesIsDigit) (l := s)).symm
  rw [scanNumber_false] at lastDigit ⊢
  by_cases dotted : (s.dropWhile bytesIsDigit).head? = some dot
  · rw [if_pos dotted] at lastDigit ⊢
    obtain ⟨behind, rest⟩ := List.head?_eq_some_iff.mp dotted
    rw [rest, List.drop_succ_cons, List.drop_zero] at lastDigit ⊢
    have nonempty : behind.takeWhile bytesIsDigit ≠ [] := by
      intro empty
      rw [empty, List.getLast?_concat] at lastDigit
      exact lastDigit rfl
    refine ⟨.fraction (digits_takeWhile started) (digits_takeWhile nonempty), ?_⟩
    dsimp only
    rw [List.append_assoc, List.cons_append, List.takeWhile_append_dropWhile, ← rest]
    exact whole
  · rw [if_neg dotted]
    exact ⟨.whole (digits_takeWhile started), whole⟩

theorem readNumber_ok {underflows : ℚ → Bool} {str rest : List UInt8} {value : Binary64}
    (numbered : readNumber underflows str = .ok (value, rest)) :
    ∃ lead numeral, Blank lead ∧ Numeral numeral ∧ str = lead ++ (numeral ++ rest) := by
  have split := (List.takeWhile_append_dropWhile (p := bytesIsSpace) (l := str)).symm
  have lead := blank_takeWhile str
  rw [readNumber] at numbered
  generalize str.takeWhile bytesIsSpace = front at lead split
  generalize str.dropWhile bytesIsSpace = numStart at numbered split
  dsimp only at numbered
  split at numbered
  · cases numbered
  next started =>
    split at numbered
    · cases numbered
    next lastDigit =>
      split at numbered
      · cases numbered
      · split at numbered
        · cases numbered
        · obtain ⟨-, rfl⟩ := Prod.mk.inj (Except.ok.inj numbered)
          have nonempty : numStart.takeWhile bytesIsDigit ≠ [] := by
            cases numStart with
            | nil => exact absurd rfl started
            | cons c behind =>
                have digit : bytesIsDigit c = true := by simpa using started
                rw [List.takeWhile_cons_of_pos digit]
                exact List.cons_ne_nil _ _
          obtain ⟨numeral, same⟩ := scanNumber_numeral nonempty lastDigit
          exact ⟨front, _, lead, numeral, split.trans (congrArg (front ++ ·) same)⟩

theorem readUnit_ok {str : List UInt8} {idx : Nat} (named : readUnit str = .ok idx) :
    ∃ gap spelling trail unit, Blank gap ∧ Spells unit spelling ∧ Blank trail ∧
      str = gap ++ (spelling ++ trail) ∧ allUnits[idx]? = some unit := by
  have split := (List.takeWhile_append_dropWhile (p := bytesIsSpace) (l := str)).symm
  have gap := blank_takeWhile str
  rw [readUnit] at named
  generalize str.takeWhile bytesIsSpace = front at gap split
  generalize str.dropWhile bytesIsSpace = behind at named split
  cases scanned : scanSuffix [] behind with
  | error failure =>
      rw [scanned] at named
      cases named
  | ok found =>
      obtain ⟨word, rest⟩ := found
      obtain ⟨rfl, rfl⟩ := scanSuffix_ok behind scanned
      rw [scanned] at named
      have letters := (List.takeWhile_append_dropWhile (p := isAlpha) (l := behind)).symm
      have checked : (if (behind.dropWhile isAlpha).dropWhile bytesIsSpace ≠ [] then
          .error (invalidSize "unexpected characters after size unit")
        else suffixIndex ([] ++ (behind.takeWhile isAlpha).map toLower)) = .ok idx := named
      split at checked
      · cases checked
      next ended =>
        obtain ⟨unit, spelled, place⟩ := suffixIndex_ok checked
        refine ⟨front, behind.takeWhile isAlpha, behind.dropWhile isAlpha, unit, gap, spelled, ?_,
          ?_, place⟩
        · exact List.dropWhile_eq_nil_iff.mp (not_not.mp ended)
        · rw [← letters]
          exact split

/-- A text outside the grammar is rejected, and the output stays. -/
theorem parse_rejects (underflows : ℚ → Bool) {text : List UInt8} (outside : ¬ InGrammar text)
    (out : UcbBytesParsed) :
    ∃ error, ucbBytesParse underflows text out = .ok (out, .error error) := by
  rw [ucbBytesParse]
  cases numbered : readNumber underflows text with
  | error failure => exact ⟨failure, rfl⟩
  | ok found =>
      obtain ⟨value, rest⟩ := found
      obtain ⟨lead, numeral, isLead, isNumeral, rfl⟩ := readNumber_ok numbered
      dsimp only
      cases named : readUnit rest with
      | error failure => exact ⟨failure, rfl⟩
      | ok idx =>
          obtain ⟨gap, spelling, trail, unit, isGap, spelled, isTrail, rfl, -⟩ := readUnit_ok named
          exact absurd ⟨numeral, unit, isNumeral, lead, gap, spelling, trail, isLead, isGap,
            spelled,
            isTrail, rfl⟩ outside

/-! ## Texts of the grammar -/

/-- What may stand behind the number: blanks and the letters of the units. -/
def BehindNumber (c : UInt8) : Prop :=
  bytesIsSpace c = true ∨ toLower c ∈ unitLetters

theorem bytesIsSpace_iff {c : UInt8} : bytesIsSpace c = true ↔ c = 0x20 ∨ c = 0x09 := by
  simp [bytesIsSpace]

theorem toLower_or (c : UInt8) : (0x41 ≤ c ∧ c ≤ 0x5A) ∨ toLower c = c := by
  by_cases upper : 0x41 ≤ c ∧ c ≤ 0x5A
  · exact .inl upper
  · exact .inr (if_neg upper)

theorem isAlpha_of_unitLetter {c : UInt8} (letter : toLower c ∈ unitLetters) :
    isAlpha c = true := by
  rcases toLower_or c with ⟨low, high⟩ | same
  · simp [isAlpha, low, high]
  · rw [same] at letter
    have all : ∀ c ∈ unitLetters, isAlpha c = true := by
      simp [unitLetters, isAlpha]
    exact all c letter

theorem not_isAlpha_of_space {c : UInt8} (space : bytesIsSpace c = true) : isAlpha c = false := by
  rcases bytesIsSpace_iff.mp space with rfl | rfl <;> decide

/-- Neither a digit nor a dot nor the mark of a hexadecimal number may stand there. -/
theorem behindNumber_other {c : UInt8} (behind : BehindNumber c) :
    bytesIsDigit c = false ∧ c ≠ dot ∧ toLower c ≠ 0x78 := by
  rcases behind with space | letter
  · rcases bytesIsSpace_iff.mp space with rfl | rfl <;> decide
  · have noMark : toLower c ≠ 0x78 := by
      intro mark
      rw [mark] at letter
      simp [unitLetters] at letter
    have isLetter := isAlpha_of_unitLetter letter
    refine ⟨?_, ?_, noMark⟩
    · cases digit : bytesIsDigit c with
      | false => rfl
      | true =>
          simp only [bytesIsDigit, isAlpha, Bool.and_eq_true, Bool.or_eq_true, decide_eq_true_eq,
            UInt8.le_iff_toNat_le, UInt8.toNat_ofNat] at digit isLetter
          omega
    · rintro rfl
      simp [isAlpha, dot] at isLetter

section Counted

variable {digits tail : List UInt8} (isDigits : Digits digits)
  (behind : ∀ c ∈ tail, BehindNumber c)

include behind in
theorem behind_takeWhile :
    tail.takeWhile bytesIsDigit = [] ∧ tail.dropWhile bytesIsDigit = tail := by
  cases tail with
  | nil => exact ⟨rfl, rfl⟩
  | cons c rest =>
      have other : ¬ bytesIsDigit c = true := by
        rw [(behindNumber_other (behind c List.mem_cons_self)).1]
        exact Bool.false_ne_true
      exact ⟨List.takeWhile_cons_of_neg other, List.dropWhile_cons_of_neg other⟩

include behind in
theorem behind_head_ne_dot : tail.head? ≠ some dot := by
  intro dotted
  exact (behindNumber_other (behind dot (List.mem_of_mem_head? dotted))).2.1 rfl

include isDigits behind in
theorem counted_takeWhile : (digits ++ tail).takeWhile bytesIsDigit = digits ∧
    (digits ++ tail).dropWhile bytesIsDigit = tail := by
  obtain ⟨taken, dropped⟩ := behind_takeWhile behind
  rw [List.takeWhile_append_of_pos isDigits.digits, List.dropWhile_append_of_pos isDigits.digits,
    taken, dropped, List.append_nil]
  exact ⟨rfl, rfl⟩

include isDigits behind in
/-- The whole number is scanned, and it does not end with a dot. -/
theorem scanNumber_counted : scanNumber false (digits ++ tail) = (digits, tail) ∧
    digits.getLast? ≠ some dot := by
  obtain ⟨taken, dropped⟩ := counted_takeWhile isDigits behind
  refine ⟨?_, fun last => ?_⟩
  · rw [scanNumber_false, taken, dropped, if_neg (behind_head_ne_dot behind)]
  · have digit := isDigits.digits dot (List.mem_of_getLast? last)
    exact absurd (dot_not_digit.symm.trans digit) Bool.false_ne_true

include behind in
theorem exponentAt_behind (marker : UInt8) : exponentAt marker tail = (0, 0) := by
  rw [exponentAt]
  split
  · have noDigits (sign : Nat) : ((tail.drop 1).drop sign).takeWhile bytesIsDigit = [] :=
      (behind_takeWhile fun c member =>
        behind c (List.mem_of_mem_drop (List.mem_of_mem_drop member))).1
    dsimp only
    rw [if_pos (noDigits _)]
  · rfl

theorem toLower_digit {c : UInt8} (digit : bytesIsDigit c = true) : toLower c ≠ 0x78 := by
  rcases toLower_or c with ⟨low, high⟩ | same
  · simp only [bytesIsDigit, Bool.and_eq_true, decide_eq_true_eq, UInt8.le_iff_toNat_le,
      UInt8.toNat_ofNat] at digit low
    omega
  · rw [same]
    rintro rfl
    simp [bytesIsDigit] at digit

include isDigits behind in
theorem strtod_counted (underflows : ℚ → Bool) :
    strtod underflows (digits ++ tail) =
      strtodResult underflows (digitsValue 10 digits) digits.length := by
  have noMark : ¬ ((digits ++ tail).drop 1).head?.map toLower = some 0x78 := by
    intro marked
    obtain ⟨c, first, mark⟩ := Option.map_eq_some_iff.mp marked
    rcases List.mem_append.mp (List.mem_of_mem_drop (List.mem_of_mem_head? first)) with
      digit | other
    · exact toLower_digit (isDigits.digits c digit) mark
    · exact (behindNumber_other (behind c other)).2.2 mark
  obtain ⟨taken, dropped⟩ := counted_takeWhile isDigits behind
  have mantissa : mantissaAt bytesIsDigit (digits ++ tail) = ⟨digits, 0, digits.length⟩ := by
    rw [mantissaAt, taken, dropped, if_neg (behind_head_ne_dot behind)]
  rw [strtod, if_neg (fun hex => noMark hex.2.1), mantissa]
  dsimp only
  rw [List.drop_left, exponentAt_behind behind]
  simp

/-- A natural number of 53 bits is in the range of `strtod`. -/
theorem counted_inRange (underflows : ℚ → Bool) {n : ℕ} (bits : n < 2 ^ 53) (read : Nat) :
    (strtodResult underflows n read).erange = false := by
  have finite : (Binary64.ofRat n).isFinite = true := by
    rw [Binary64.ofRat_natCast bits]
    rfl
  have normal : (decide ((n : ℚ) ≠ 0) && decide ((n : ℚ) < 2 ^ (-1022 : ℤ))) = false := by
    rcases Nat.eq_zero_or_pos n with rfl | positive
    · rw [Nat.cast_zero, decide_eq_false (not_not.mpr rfl), Bool.false_and]
    · have small : (2 : ℚ) ^ (-1022 : ℤ) ≤ 1 := zpow_le_one_of_nonpos₀ one_le_two (by norm_num)
      have large : (1 : ℚ) ≤ n := by exact_mod_cast positive
      rw [decide_eq_false (not_lt.mpr (small.trans large)), Bool.and_false]
  rw [strtodResult, finite, normal]
  rfl

/-- A whole number is read from the digits, whatever the unit behind it. -/
theorem readNumber_counted (underflows : ℚ → Bool) {lead : List UInt8} (isLead : Blank lead)
    (isDigits : Digits digits) (behind : ∀ c ∈ tail, BehindNumber c)
    (bits : digitsValue 10 digits < 2 ^ 53) :
    readNumber underflows (lead ++ (digits ++ tail)) =
      .ok (.finite (digitsValue 10 digits), tail) := by
  obtain ⟨first, rest, rfl⟩ := List.exists_cons_of_ne_nil isDigits.nonempty
  have digit : bytesIsDigit first = true := isDigits.digits first List.mem_cons_self
  have noSpace : ¬ bytesIsSpace first = true := by
    intro space
    rcases bytesIsSpace_iff.mp space with rfl | rfl <;> exact absurd digit (by decide)
  have numStart : (lead ++ (first :: rest ++ tail)).dropWhile bytesIsSpace =
      first :: rest ++ tail := by
    rw [List.dropWhile_append_of_pos isLead, List.cons_append,
      List.dropWhile_cons_of_neg noSpace]
  obtain ⟨scanned, lastDigit⟩ := scanNumber_counted isDigits behind
  have inRange : (strtodResult underflows (digitsValue 10 (first :: rest))
      (first :: rest).length).erange = false :=
    counted_inRange underflows bits _
  rw [readNumber, numStart, scanned, strtod_counted isDigits behind]
  dsimp only
  rw [List.cons_append, List.head?_cons, Option.all_some, digit,
    Bool.not_true, if_neg Bool.false_ne_true, if_neg lastDigit, inRange]
  simp [strtodResult, Binary64.ofRat_natCast bits, Binary64.isFinite]

end Counted

section Spelled

variable {unit : UcbBytesUnit} {gap spelling trail : List UInt8} (isGap : Blank gap)
  (spelled : Spells unit spelling) (isTrail : Blank trail)

include spelled in
theorem spelled_letters : spelling.length ≤ 3 ∧ ∀ c ∈ spelling, toLower c ∈ unitLetters := by
  obtain ⟨short, letters⟩ := spellings_letters unit _ spelled
  rw [List.length_map] at short
  exact ⟨short, fun c member => letters _ (List.mem_map_of_mem member)⟩

include isGap spelled isTrail in
theorem spelled_behind : ∀ c ∈ gap ++ (spelling ++ trail), BehindNumber c := by
  intro c member
  rcases List.mem_append.mp member with inGap | member
  · exact .inl (isGap c inGap)
  · rcases List.mem_append.mp member with inSpelling | inTrail
    · exact .inr ((spelled_letters spelled).2 c inSpelling)
    · exact .inl (isTrail c inTrail)

include isTrail in
theorem trail_letters : trail.takeWhile isAlpha = [] ∧ trail.dropWhile isAlpha = trail := by
  cases trail with
  | nil => exact ⟨rfl, rfl⟩
  | cons c rest =>
      have other : ¬ isAlpha c = true := by
        rw [not_isAlpha_of_space (isTrail c List.mem_cons_self)]
        exact Bool.false_ne_true
      exact ⟨List.takeWhile_cons_of_neg other, List.dropWhile_cons_of_neg other⟩

include isGap spelled isTrail in
theorem readUnit_spelled : readUnit (gap ++ (spelling ++ trail)) =
    suffixIndex (spelling.map toLower) := by
  obtain ⟨short, letters⟩ := spelled_letters spelled
  have alpha : ∀ c ∈ spelling, isAlpha c = true :=
    fun c member => isAlpha_of_unitLetter (letters c member)
  -- without letters the blanks behind the unit are skipped with those in front of it
  obtain ⟨rest, skipped, ended⟩ : ∃ rest,
      (gap ++ (spelling ++ trail)).dropWhile bytesIsSpace = spelling ++ rest ∧ Blank rest := by
    rw [List.dropWhile_append_of_pos isGap]
    cases spelling with
    | nil =>
        refine ⟨[], ?_, fun c member => absurd member List.not_mem_nil⟩
        exact List.dropWhile_eq_nil_iff.mpr isTrail
    | cons c rest =>
        have noSpace : ¬ bytesIsSpace c = true := by
          intro space
          have letter := alpha c List.mem_cons_self
          rw [not_isAlpha_of_space space] at letter
          exact Bool.false_ne_true letter
        exact ⟨trail, List.dropWhile_cons_of_neg noSpace, isTrail⟩
  obtain ⟨taken, dropped⟩ := trail_letters ended
  have scanned : scanSuffix [] (spelling ++ rest) = .ok (spelling.map toLower, rest) := by
    have all : (spelling ++ rest).takeWhile isAlpha = spelling := by
      rw [List.takeWhile_append_of_pos alpha, taken, List.append_nil]
    rw [scanSuffix_short _ _ (by rw [all, List.length_nil]; omega), all,
      List.dropWhile_append_of_pos alpha, dropped]
    rfl
  have blank : rest.dropWhile bytesIsSpace = [] := List.dropWhile_eq_nil_iff.mpr ended
  rw [readUnit, skipped, scanned]
  exact if_neg (not_not.mpr blank)

end Spelled

/-! ## Counts -/

/-- The count of a whole number of units, rounded once more. -/
def countedBytes (count : Nat) : Nat :=
  if 2 ^ 52 ≤ count ∧ count % 2 = 1 then count + 1 else count

theorem bytesLimit_eq : bytesLimit = .finite (2 ^ 64 : ℕ) := by
  have exact := Binary64.ofRat_shifted (m := 1) (k := 64) (by decide) (by decide)
  rw [bytesLimit]
  norm_num at exact ⊢
  exact exact

theorem scaleBytes_counted {n factor : Nat} (bits : n * factor < 2 ^ 53) :
    scaleBytes (.finite n) (.finite factor) = .ok (.ok (countedBytes (n * factor))) := by
  have product : (Binary64.finite n).mul (.finite factor) = .finite (n * factor : ℕ) := by
    have exact := Binary64.ofRat_natCast bits
    rw [Nat.cast_mul] at exact
    rw [Binary64.mul, exact, Nat.cast_mul]
  have rounded : ((Binary64.finite (n * factor : ℕ)).add (.finite (1 / 2))).floor =
      .finite (countedBytes (n * factor) : ℕ) := Binary64.floor_add_half bits
  have small : countedBytes (n * factor) < 2 ^ 64 := by
    rw [countedBytes]
    split <;> omega
  have nonneg : ((n * factor : ℕ) : ℚ) ≥ 0 := Nat.cast_nonneg _
  have below : ¬ ((2 ^ 64 : ℕ) : ℚ) ≤ (countedBytes (n * factor) : ℕ) := by
    exact_mod_cast not_le.mpr small
  have fits : 0 ≤ ⌊((countedBytes (n * factor) : ℕ) : ℚ)⌋ ∧
      ⌊((countedBytes (n * factor) : ℕ) : ℚ)⌋ < 2 ^ 64 := by
    rw [Int.floor_natCast]
    omega
  have converted : toUcbBytes (.finite (countedBytes (n * factor) : ℕ)) =
      .ok (countedBytes (n * factor)) := by
    rw [toUcbBytes, if_pos fits, Int.floor_natCast]
    rfl
  have inRange : (!(Binary64.finite (n * factor : ℕ)).ge (.finite 0) ||
      (Binary64.finite (countedBytes (n * factor) : ℕ)).ge (.finite (2 ^ 64 : ℕ))) = false := by
    rw [Binary64.ge, Binary64.ge, decide_eq_true nonneg, decide_eq_false below]
    rfl
  rw [scaleBytes, product, Binary64.ofRat_half, Binary64.ofRat_zero, bytesLimit_eq, rounded,
    inRange, if_neg Bool.false_ne_true, converted]
  rfl

/-- A text that counts units is read as its count of bytes, rounded once more. -/
theorem parse_counted (underflows : ℚ → Bool) {digits text : List UInt8} {unit : UcbBytesUnit}
    (isDigits : Digits digits) (sized : SizeText digits unit text)
    (bits : digitsValue 10 digits * unit.factor < 2 ^ 53) (out : UcbBytesParsed) :
    ucbBytesParse underflows text out =
      .ok (⟨countedBytes (digitsValue 10 digits * unit.factor), unit⟩, .ok ()) := by
  obtain ⟨lead, gap, spelling, trail, isLead, isGap, spelled, isTrail, rfl⟩ := sized
  have positive : 0 < unit.factor := by
    cases unit <;> decide
  have number : digitsValue 10 digits < 2 ^ 53 :=
    Nat.lt_of_le_of_lt (Nat.le_mul_of_pos_right _ positive) bits
  obtain ⟨idx, found, named⟩ := suffixIndex_spelling spelled
  have entry : bytesUnits[idx]? = some (unit, .finite unit.factor) := by
    rw [bytesUnits_eq, List.getElem?_map, named]
    rfl
  rw [ucbBytesParse,
    readNumber_counted underflows isLead isDigits (spelled_behind isGap spelled isTrail) number]
  dsimp only
  rw [readUnit_spelled isGap spelled isTrail, found]
  dsimp only
  rw [entry]
  dsimp only
  rw [scaleBytes_counted bits]
  rfl

theorem count_odd_iff (n : Nat) (unit : UcbBytesUnit) :
    (2 ^ 52 ≤ n * unit.factor ∧ n * unit.factor % 2 = 1) ↔
      unit = .b ∧ n % 2 = 1 ∧ 2 ^ 52 ≤ n := by
  have even : unit ≠ .b → unit.factor % 2 = 0 := by
    cases unit <;> decide
  by_cases bytes : unit = .b
  · subst bytes
    rw [UcbBytesUnit.factor, Nat.mul_one]
    exact ⟨fun both => ⟨rfl, both.2, both.1⟩, fun both => ⟨both.2.2, both.2.1⟩⟩
  · refine iff_of_false (fun both => ?_) (fun both => bytes both.1)
    have odd := both.2
    rw [Nat.mul_mod, even bytes, Nat.mul_zero, Nat.zero_mod] at odd
    exact absurd odd (by decide)

/-! ## Every text -/

theorem strtod_nonneg (underflows : ℚ → Bool) (s : List UInt8) :
    ∃ exact, 0 ≤ exact ∧ (strtod underflows s).value = .ofRat exact := by
  rw [strtod]
  dsimp only
  split
  · exact ⟨_, mul_nonneg (Nat.cast_nonneg _) (zpow_nonneg (by norm_num) _), rfl⟩
  · exact ⟨_, mul_nonneg (Nat.cast_nonneg _) (zpow_nonneg (by norm_num) _), rfl⟩

theorem readNumber_finite {underflows : ℚ → Bool} {str rest : List UInt8} {value : Binary64}
    (numbered : readNumber underflows str = .ok (value, rest)) :
    ∃ number, 0 ≤ number ∧ value = .finite number := by
  obtain ⟨exact, nonneg, read⟩ := strtod_nonneg underflows (str.dropWhile bytesIsSpace)
  rw [readNumber] at numbered
  dsimp only at numbered
  split at numbered
  · cases numbered
  · split at numbered
    · cases numbered
    · split at numbered
      · cases numbered
      · split at numbered
        · cases numbered
        next finite =>
          obtain ⟨rfl, -⟩ := Prod.mk.inj (Except.ok.inj numbered)
          rw [read, Binary64.ofRat] at finite ⊢
          split at finite
          · exact absurd (by rw [Binary64.isFinite, Bool.not_false, Bool.or_true]) finite
          next small =>
            rw [if_neg small]
            exact ⟨_, roundBinary64_nonneg nonneg, rfl⟩

theorem toUcbBytes_returns {value : Binary64} (notNegative : value.NotNegative)
    (below : value.ge bytesLimit = false) : ∃ bytes, toUcbBytes value = .ok bytes := by
  rw [bytesLimit_eq] at below
  cases value with
  | nan => cases notNegative
  | infinity => exact absurd below.symm Bool.false_ne_true
  | finite x =>
      have small : x < (2 ^ 64 : ℕ) := not_le.mp (of_decide_eq_false below)
      have floorSmall : (⌊x⌋ : ℚ) < (2 ^ 64 : ℕ) := (Int.floor_le x).trans_lt small
      have fits : 0 ≤ ⌊x⌋ ∧ ⌊x⌋ < 2 ^ 64 :=
        ⟨Int.floor_nonneg.mpr notNegative, by exact_mod_cast floorSmall⟩
      rw [toUcbBytes, if_pos fits]
      exact ⟨_, rfl⟩

/-- A number of units is counted or too large. -/
theorem scaleBytes_returns {number : ℚ} (nonneg : 0 ≤ number) (unit : UcbBytesUnit) :
    ∃ result, scaleBytes (.finite number) (.finite unit.factor) = .ok result := by
  have half : (0 : ℚ) ≤ 1 / 2 := by norm_num
  have product := mul_nonneg nonneg (Nat.cast_nonneg (α := ℚ) unit.factor)
  have rounded := ((Binary64.notNegative_ofRat product).add
    (Binary64.notNegative_ofRat half)).floor
  rw [scaleBytes]
  split
  · exact ⟨_, rfl⟩
  next inRange =>
    have below := Bool.or_eq_false_iff.mp (Bool.eq_false_iff.mpr inRange)
    obtain ⟨bytes, converted⟩ := toUcbBytes_returns rounded below.2
    refine ⟨.ok bytes, ?_⟩
    rw [Binary64.mul, converted]
    rfl

/-- Every text is parsed or rejected, and a rejection leaves the output. -/
theorem parse_returns (underflows : ℚ → Bool) (text : List UInt8) (out : UcbBytesParsed) :
    ∃ after report, ucbBytesParse underflows text out = .ok (after, report) ∧
      ∀ error, report = .error error → after = out := by
  rw [ucbBytesParse]
  cases numbered : readNumber underflows text with
  | error failure => exact ⟨out, _, rfl, fun _ _ => rfl⟩
  | ok found =>
      obtain ⟨value, rest⟩ := found
      obtain ⟨number, nonneg, rfl⟩ := readNumber_finite numbered
      dsimp only
      cases named : readUnit rest with
      | error failure => exact ⟨out, _, rfl, fun _ _ => rfl⟩
      | ok idx =>
          obtain ⟨-, -, -, unit, -, -, -, -, atIndex⟩ := readUnit_ok named
          have entry : bytesUnits[idx]? = some (unit, .finite unit.factor) := by
            rw [bytesUnits_eq, List.getElem?_map, atIndex]
            rfl
          obtain ⟨result, scaled⟩ := scaleBytes_returns nonneg unit
          dsimp only
          rw [entry]
          dsimp only
          rw [scaled, Exec.ok_bind]
          cases result with
          | error failure => exact ⟨out, _, rfl, fun _ _ => rfl⟩
          | ok bytes => exact ⟨_, _, rfl, fun error impossible => by cases impossible⟩

/-- Sizes are read exactly, whatever the case of the unit and the blanks, unless the size is an odd
number of single bytes from `2 ^ 52` on; and what is outside the grammar is rejected. -/
theorem bytesParse_exact_iff (underflows : ℚ → Bool) (out : UcbBytesParsed) :
    (∀ n digits unit text, Digits digits → digitsValue 10 digits = n → SizeText digits unit text →
      n * unit.factor < 2 ^ 53 →
        (ucbBytesParse underflows text out = .ok (⟨n * unit.factor, unit⟩, .ok ()) ↔
          ¬ (unit = .b ∧ n % 2 = 1 ∧ 2 ^ 52 ≤ n))) ∧
    (∀ text, ¬ InGrammar text →
      ∃ error, ucbBytesParse underflows text out = .ok (out, .error error)) := by
  refine ⟨?_, fun text outside => parse_rejects underflows outside out⟩
  rintro n digits unit text isDigits rfl sized bits
  rw [parse_counted underflows isDigits sized bits, ← count_odd_iff, countedBytes]
  split
  next odd =>
    refine iff_of_false (fun same => ?_) (not_not.mpr odd)
    have counts := congrArg UcbBytesParsed.bytes (Prod.mk.inj (Exec.ok.inj same)).1
    exact absurd counts (Nat.succ_ne_self _)
  next exact => exact iff_of_true rfl exact

def twelveKib : List UInt8 :=
  [0x31, 0x32, 0x20, 0x4B, 0x69]

theorem digits_twelve : Digits [0x31, 0x32] :=
  ⟨List.cons_ne_nil _ _, by simp [bytesIsDigit]⟩

theorem sizeText_twelveKib : SizeText [0x31, 0x32] .kib twelveKib :=
  ⟨[], [0x20], [0x4B, 0x69], [], by simp [Blank], by simp [Blank, bytesIsSpace],
    by simp [Spells, UcbBytesUnit.spellings, binarySpellings, toLower], by simp [Blank], rfl⟩

theorem bytesParse_exact_iff_twelveKib :
    ucbBytesParse (fun _ => false) twelveKib ⟨0, .b⟩ = .ok (⟨12 * 1024, .kib⟩, .ok ()) :=
  ((bytesParse_exact_iff (fun _ => false) ⟨0, .b⟩).1 12 _ _ _ digits_twelve rfl sizeText_twelveKib
    (by decide)).mpr (by decide)

def oddDigits : List UInt8 :=
  [0x34, 0x35, 0x30, 0x33, 0x35, 0x39, 0x39, 0x36, 0x32, 0x37, 0x33, 0x37, 0x30, 0x34, 0x39, 0x37]

/-- `2 ^ 52 + 1` bytes are read as one byte more. -/
theorem bytesParse_odd :
    digitsValue 10 oddDigits = 2 ^ 52 + 1 ∧
      ucbBytesParse (fun _ => false) oddDigits ⟨0, .b⟩ = .ok (⟨2 ^ 52 + 2, .b⟩, .ok ()) := by
  have isDigits : Digits oddDigits := ⟨List.cons_ne_nil _ _, by simp [oddDigits, bytesIsDigit]⟩
  have sized : SizeText oddDigits .b oddDigits :=
    ⟨[], [], [], [], by simp [Blank], by simp [Blank],
      by simp [Spells, UcbBytesUnit.spellings], by simp [Blank], by simp⟩
  have value : digitsValue 10 oddDigits = 2 ^ 52 + 1 := rfl
  have parsed := parse_counted (fun _ => false) isDigits sized (by rw [value]; decide) ⟨0, .b⟩
  rw [value] at parsed
  exact ⟨value, parsed⟩

end Ucb.Units
