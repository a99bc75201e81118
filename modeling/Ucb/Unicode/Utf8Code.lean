import Ucb.Unicode.Utf8
import Mathlib.Tactic.IntervalCases

/-!
Contract: the three UTF-8 routines agree on every code word.

Owns:
- the arithmetic form of the bit tests and of the four encodings;
- `ucbUcNextValid` reads back what `ucbUcEncodeCodepoint` wrote;
- `ucbUcValidateStep` advances exactly over code words;
- the prefix code `utf8` these facts add up to.
-/

namespace Ucb.Unicode

open Ucb.Lib

/-! ## Bit tests as intervals -/

private theorem lead2_iff : ∀ c < 256, c &&& 0xE0 = 0xC0 ↔ 192 ≤ c ∧ c < 224 := by
  decide +kernel

private theorem lead3_iff : ∀ c < 256, c &&& 0xF0 = 0xE0 ↔ 224 ≤ c ∧ c < 240 := by
  decide +kernel

private theorem lead4_iff : ∀ c < 256, c &&& 0xF8 = 0xF0 ↔ 240 ≤ c ∧ c < 248 := by
  decide +kernel

theorem continuation_iff : ∀ c < 256, c &&& 0xC0 = 0x80 ↔ 128 ≤ c ∧ c < 192 := by
  decide +kernel

private theorem and_3F (n : Nat) : n &&& 0x3F = n % 64 := Nat.and_two_pow_sub_one_eq_mod n 6

private theorem and_1F (n : Nat) : n &&& 0x1F = n % 32 := Nat.and_two_pow_sub_one_eq_mod n 5

private theorem and_0F (n : Nat) : n &&& 0x0F = n % 16 := Nat.and_two_pow_sub_one_eq_mod n 4

private theorem and_07 (n : Nat) : n &&& 0x07 = n % 8 := Nat.and_two_pow_sub_one_eq_mod n 3

private theorem or_80 : ∀ c < 64, 0x80 ||| c = 128 + c := by decide

private theorem or_C0 : ∀ c < 32, 0xC0 ||| c = 192 + c := by decide

private theorem or_E0 : ∀ c < 16, 0xE0 ||| c = 224 + c := by decide

private theorem or_F0 : ∀ c < 8, 0xF0 ||| c = 240 + c := by decide

private theorem shiftLeft_or {high low width : Nat} (fits : low < 2 ^ width) :
    (high <<< width) ||| low = high * 2 ^ width + low := by
  rw [← Nat.shiftLeft_add_eq_or_of_lt fits, Nat.shiftLeft_eq]

private theorem fetch2_value (b0 b1 : Nat) :
    ((b0 &&& 0x1F) <<< 6) ||| (b1 &&& 0x3F) = b0 % 32 * 64 + b1 % 64 := by
  rw [and_1F, and_3F, shiftLeft_or (by omega : b1 % 64 < 2 ^ 6)]
  omega

private theorem fetch3_value (b0 b1 b2 : Nat) :
    ((b0 &&& 0x0F) <<< 12) ||| ((b1 &&& 0x3F) <<< 6) ||| (b2 &&& 0x3F) =
      b0 % 16 * 4096 + b1 % 64 * 64 + b2 % 64 := by
  rw [and_0F, and_3F, and_3F, Nat.or_assoc, shiftLeft_or (by omega : b2 % 64 < 2 ^ 6),
    shiftLeft_or (by omega : b1 % 64 * 2 ^ 6 + b2 % 64 < 2 ^ 12)]
  omega

private theorem fetch4_value (b0 b1 b2 b3 : Nat) :
    ((b0 &&& 0x07) <<< 18) ||| ((b1 &&& 0x3F) <<< 12) ||| ((b2 &&& 0x3F) <<< 6) |||
        (b3 &&& 0x3F) =
      b0 % 8 * 262144 + b1 % 64 * 4096 + b2 % 64 * 64 + b3 % 64 := by
  rw [and_07, and_3F, and_3F, and_3F, Nat.or_assoc, Nat.or_assoc,
    shiftLeft_or (by omega : b3 % 64 < 2 ^ 6),
    shiftLeft_or (by omega : b2 % 64 * 2 ^ 6 + b3 % 64 < 2 ^ 12),
    shiftLeft_or (by omega : b1 % 64 * 2 ^ 12 + (b2 % 64 * 2 ^ 6 + b3 % 64) < 2 ^ 18)]
  omega

/-! ## The four encodings -/

theorem encodeCodepoint_one {cp : Nat} (small : cp < 0x80) :
    ucbUcEncodeCodepoint cp = some [UInt8.ofNat cp] := by
  rw [ucbUcEncodeCodepoint, if_pos (by omega : cp ≤ 0x7F)]

theorem encodeCodepoint_two {cp : Nat} (low : 0x80 ≤ cp) (high : cp < 0x800) :
    ucbUcEncodeCodepoint cp =
      some [UInt8.ofNat (192 + cp / 64), UInt8.ofNat (128 + cp % 64)] := by
  rw [ucbUcEncodeCodepoint, if_neg (by omega : ¬ cp ≤ 0x7F), if_pos (by omega : cp ≤ 0x7FF),
    and_3F, Nat.shiftRight_eq_div_pow, or_C0 _ (by omega), or_80 _ (by omega)]

theorem encodeCodepoint_three {cp : Nat} (low : 0x800 ≤ cp) (high : cp < 0x10000)
    (scalar : IsScalar cp) :
    ucbUcEncodeCodepoint cp =
      some [UInt8.ofNat (224 + cp / 4096), UInt8.ofNat (128 + cp / 64 % 64),
        UInt8.ofNat (128 + cp % 64)] := by
  have notSurrogate : ¬ (0xD800 ≤ cp ∧ cp ≤ 0xDFFF) := by
    unfold IsScalar at scalar
    omega
  rw [ucbUcEncodeCodepoint, if_neg (by omega : ¬ cp ≤ 0x7F), if_neg (by omega : ¬ cp ≤ 0x7FF),
    if_pos (by omega : cp ≤ 0xFFFF), if_neg notSurrogate, and_3F, and_3F,
    Nat.shiftRight_eq_div_pow, Nat.shiftRight_eq_div_pow, or_E0 _ (by omega),
    or_80 _ (by omega), or_80 _ (by omega)]

theorem encodeCodepoint_four {cp : Nat} (low : 0x10000 ≤ cp) (high : cp ≤ 0x10FFFF) :
    ucbUcEncodeCodepoint cp =
      some [UInt8.ofNat (240 + cp / 262144), UInt8.ofNat (128 + cp / 4096 % 64),
        UInt8.ofNat (128 + cp / 64 % 64), UInt8.ofNat (128 + cp % 64)] := by
  rw [ucbUcEncodeCodepoint, if_neg (by omega : ¬ cp ≤ 0x7F), if_neg (by omega : ¬ cp ≤ 0x7FF),
    if_neg (by omega : ¬ cp ≤ 0xFFFF), if_pos high, and_3F, and_3F, and_3F,
    Nat.shiftRight_eq_div_pow,
    Nat.shiftRight_eq_div_pow, Nat.shiftRight_eq_div_pow, or_F0 _ (by omega),
    or_80 _ (by omega), or_80 _ (by omega), or_80 _ (by omega)]

/-- The encoder rejects exactly the codepoints that are not scalar values. -/
theorem encodeCodepoint_isSome_iff (cp : Nat) :
    (ucbUcEncodeCodepoint cp).isSome ↔ IsScalar cp := by
  unfold ucbUcEncodeCodepoint IsScalar
  split_ifs <;> simp <;> omega

theorem encodeCodepoint_eq_none_iff (cp : Nat) :
    ucbUcEncodeCodepoint cp = none ↔ ¬ IsScalar cp := by
  rw [← encodeCodepoint_isSome_iff, Option.not_isSome_iff_eq_none]

def encodeScalar (cp : Scalar) : List UInt8 :=
  (ucbUcEncodeCodepoint cp.val).getD []

theorem encodeCodepoint_scalar (cp : Scalar) :
    ucbUcEncodeCodepoint cp.val = some (encodeScalar cp) := by
  have present := (encodeCodepoint_isSome_iff cp.val).mpr cp.property
  unfold encodeScalar
  obtain ⟨bytes, written⟩ := Option.isSome_iff_exists.mp present
  rw [written, Option.getD_some]

/-- The shape of a code word: which of the four encodings applies, and its bytes. -/
inductive CodeWord (cp : Nat) : List UInt8 → Prop where
  | one (b0 : UInt8) (lead : b0.toNat = cp) (small : cp < 0x80) : CodeWord cp [b0]
  | two (b0 b1 : UInt8) (lead : b0.toNat = 192 + cp / 64) (tail1 : b1.toNat = 128 + cp % 64)
      (low : 0x80 ≤ cp) (high : cp < 0x800) : CodeWord cp [b0, b1]
  | three (b0 b1 b2 : UInt8) (lead : b0.toNat = 224 + cp / 4096)
      (tail1 : b1.toNat = 128 + cp / 64 % 64) (tail2 : b2.toNat = 128 + cp % 64)
      (low : 0x800 ≤ cp) (high : cp < 0x10000) (scalar : IsScalar cp) : CodeWord cp [b0, b1, b2]
  | four (b0 b1 b2 b3 : UInt8) (lead : b0.toNat = 240 + cp / 262144)
      (tail1 : b1.toNat = 128 + cp / 4096 % 64) (tail2 : b2.toNat = 128 + cp / 64 % 64)
      (tail3 : b3.toNat = 128 + cp % 64) (low : 0x10000 ≤ cp) (high : cp ≤ 0x10FFFF) :
      CodeWord cp [b0, b1, b2, b3]

private theorem toNat_ofNat {n : Nat} (small : n < 256) : (UInt8.ofNat n).toNat = n := by
  rw [UInt8.toNat_ofNat']
  exact Nat.mod_eq_of_lt small

private theorem ofNat_of_toNat {byte : UInt8} {n : Nat} (value : byte.toNat = n) :
    byte = UInt8.ofNat n := by
  rw [← value, UInt8.ofNat_toNat]

theorem codeWord_encodeScalar (cp : Scalar) : CodeWord cp.val (encodeScalar cp) := by
  obtain ⟨cp, scalar⟩ := cp
  have bound : cp ≤ 0x10FFFF := by unfold IsScalar at scalar; omega
  have written := encodeCodepoint_scalar ⟨cp, scalar⟩
  dsimp only at written ⊢
  rcases Nat.lt_or_ge cp 0x80 with small | low
  · rw [encodeCodepoint_one small] at written
    rw [← Option.some.inj written]
    exact .one _ (toNat_ofNat (by omega)) small
  rcases Nat.lt_or_ge cp 0x800 with high | low2
  · rw [encodeCodepoint_two low high] at written
    rw [← Option.some.inj written]
    exact .two _ _ (toNat_ofNat (by omega)) (toNat_ofNat (by omega)) low high
  rcases Nat.lt_or_ge cp 0x10000 with high | low3
  · rw [encodeCodepoint_three low2 high scalar] at written
    rw [← Option.some.inj written]
    exact .three _ _ _ (toNat_ofNat (by omega)) (toNat_ofNat (by omega))
      (toNat_ofNat (by omega)) low2 high scalar
  · rw [encodeCodepoint_four low3 bound] at written
    rw [← Option.some.inj written]
    exact .four _ _ _ _ (toNat_ofNat (by omega)) (toNat_ofNat (by omega))
      (toNat_ofNat (by omega)) (toNat_ofNat (by omega)) low3 bound

theorem CodeWord.isScalar {cp : Nat} {bytes : List UInt8} (word : CodeWord cp bytes) :
    IsScalar cp := by
  cases word with
  | one | two | four => unfold IsScalar; omega
  | three _ _ _ _ _ _ _ _ scalar => exact scalar

theorem CodeWord.eq_encodeScalar {cp : Nat} {bytes : List UInt8} (word : CodeWord cp bytes) :
    bytes = encodeScalar ⟨cp, word.isScalar⟩ := by
  have written := encodeCodepoint_scalar ⟨cp, word.isScalar⟩
  apply Option.some.inj
  rw [← written]
  cases word with
  | one b0 lead small =>
      rw [encodeCodepoint_one small, ofNat_of_toNat lead]
  | two b0 b1 lead tail1 low high =>
      rw [encodeCodepoint_two low high, ofNat_of_toNat lead, ofNat_of_toNat tail1]
  | three b0 b1 b2 lead tail1 tail2 low high scalar =>
      rw [encodeCodepoint_three low high scalar, ofNat_of_toNat lead, ofNat_of_toNat tail1,
        ofNat_of_toNat tail2]
  | four b0 b1 b2 b3 lead tail1 tail2 tail3 low high =>
      rw [encodeCodepoint_four low high, ofNat_of_toNat lead, ofNat_of_toNat tail1,
        ofNat_of_toNat tail2, ofNat_of_toNat tail3]

/-! ## Decoding a code word -/

private theorem nextValid_codeWord {cp : Nat} {bytes : List UInt8} (word : CodeWord cp bytes)
    (rest : List UInt8) :
    ucbUcNextValid (bytes ++ rest) 0 = .ok (cp, bytes.length) := by
  cases word with
  | one b0 lead small =>
      simp [ucbUcNextValid, lead, small]
  | two b0 b1 lead tail1 low high =>
      have twoLead : b0.toNat &&& 0xE0 = 0xC0 := (lead2_iff _ (by omega)).mpr (by omega)
      have value : b0.toNat % 32 * 64 + b1.toNat % 64 = cp := by omega
      simp [ucbUcNextValid, ucbUcFetch2, fetch2_value, twoLead, value,
        show ¬ b0.toNat < 128 by omega]
  | three b0 b1 b2 lead tail1 tail2 low high scalar =>
      have notTwo : ¬ b0.toNat &&& 0xE0 = 0xC0 := by
        rw [lead2_iff _ (by omega)]; omega
      have threeLead : b0.toNat &&& 0xF0 = 0xE0 := (lead3_iff _ (by omega)).mpr (by omega)
      have value : b0.toNat % 16 * 4096 + b1.toNat % 64 * 64 + b2.toNat % 64 = cp := by omega
      simp [ucbUcNextValid, ucbUcFetch3, fetch3_value, notTwo, threeLead, value,
        show ¬ b0.toNat < 128 by omega]
  | four b0 b1 b2 b3 lead tail1 tail2 tail3 low high =>
      have notTwo : ¬ b0.toNat &&& 0xE0 = 0xC0 := by
        rw [lead2_iff _ (by omega)]; omega
      have notThree : ¬ b0.toNat &&& 0xF0 = 0xE0 := by
        rw [lead3_iff _ (by omega)]; omega
      have value : b0.toNat % 8 * 262144 + b1.toNat % 64 * 4096 + b2.toNat % 64 * 64 +
          b3.toNat % 64 = cp := by omega
      simp [ucbUcNextValid, ucbUcFetch4, fetch4_value, notTwo, notThree, value,
        show ¬ b0.toNat < 128 by omega]

theorem nextValid_encodeScalar (cp : Scalar) (rest : List UInt8) :
    ucbUcNextValid (encodeScalar cp ++ rest) 0 = .ok (cp.val, (encodeScalar cp).length) :=
  nextValid_codeWord (codeWord_encodeScalar cp) rest

/-- Decoding only looks at what follows the position. -/
theorem nextValid_drop (bytes : List UInt8) (iter : Nat) :
    ucbUcNextValid bytes iter =
      (fun next => (next.1, iter + next.2)) <$> ucbUcNextValid (bytes.drop iter) 0 := by
  simp only [ucbUcNextValid, ucbUcFetch2, ucbUcFetch3, ucbUcFetch4, byteAt_drop, Nat.add_zero,
    Nat.zero_add]
  cases byteAt bytes iter with
  | abort | undefined => rfl
  | ok b0 =>
      simp only [Exec.ok_bind, Exec.pure_eq_ok]
      split_ifs with one two three
      · rfl
      · cases byteAt bytes (iter + 1) <;> rfl
      · cases byteAt bytes (iter + 1) <;> cases byteAt bytes (iter + 2) <;> rfl
      · cases byteAt bytes (iter + 1) <;> cases byteAt bytes (iter + 2) <;>
          cases byteAt bytes (iter + 3) <;> rfl

/-! ## Validating a code word -/

/-- Validation only looks at what follows the position. -/
theorem validateStep_drop (bytes : List UInt8) {i : Nat} (inside : i ≤ bytes.length) :
    ucbUcValidateStep bytes bytes.length i =
      ucbUcValidateStep (bytes.drop i) (bytes.drop i).length 0 := by
  have room (width : Nat) : (i + width ≥ bytes.length) = (0 + width ≥ (bytes.drop i).length) := by
    rw [List.length_drop, eq_iff_iff]
    omega
  simp only [ucbUcValidateStep, ucbUcFetch2, ucbUcFetch3, ucbUcFetch4, byteAt_drop, Nat.add_zero,
    room, Nat.zero_add]

private theorem validateStep_codeWord {cp : Nat} {bytes : List UInt8}
    (word : CodeWord cp bytes) (rest : List UInt8) :
    ucbUcValidateStep (bytes ++ rest) (bytes ++ rest).length 0 = .ok (.ok bytes.length) := by
  cases word with
  | one b0 lead small =>
      simp [ucbUcValidateStep, lead, small]
  | two b0 b1 lead tail1 low high =>
      have twoLead : b0.toNat &&& 0xE0 = 0xC0 := (lead2_iff _ (by omega)).mpr (by omega)
      have cont1 : b1.toNat &&& 0xC0 = 0x80 := (continuation_iff _ (by omega)).mpr (by omega)
      have value : b0.toNat % 32 * 64 + b1.toNat % 64 = cp := by omega
      simp [ucbUcValidateStep, ucbUcFetch2, fetch2_value, twoLead, cont1, value,
        show ¬ b0.toNat < 128 by omega, show ¬ cp < 128 by omega]
  | three b0 b1 b2 lead tail1 tail2 low high scalar =>
      have notTwo : ¬ b0.toNat &&& 0xE0 = 0xC0 := by
        rw [lead2_iff _ (by omega)]; omega
      have threeLead : b0.toNat &&& 0xF0 = 0xE0 := (lead3_iff _ (by omega)).mpr (by omega)
      have cont1 : b1.toNat &&& 0xC0 = 0x80 := (continuation_iff _ (by omega)).mpr (by omega)
      have cont2 : b2.toNat &&& 0xC0 = 0x80 := (continuation_iff _ (by omega)).mpr (by omega)
      have value : b0.toNat % 16 * 4096 + b1.toNat % 64 * 64 + b2.toNat % 64 = cp := by omega
      have notSurrogate : ¬ (0xD800 ≤ cp ∧ cp ≤ 0xDFFF) := by
        unfold IsScalar at scalar
        omega
      simp [ucbUcValidateStep, ucbUcFetch3, fetch3_value, notTwo, threeLead, cont1, cont2, value,
        show ¬ b0.toNat < 128 by omega, show ¬ cp < 2048 by omega, notSurrogate]
  | four b0 b1 b2 b3 lead tail1 tail2 tail3 low high =>
      have notTwo : ¬ b0.toNat &&& 0xE0 = 0xC0 := by
        rw [lead2_iff _ (by omega)]; omega
      have notThree : ¬ b0.toNat &&& 0xF0 = 0xE0 := by
        rw [lead3_iff _ (by omega)]; omega
      have fourLead : b0.toNat &&& 0xF8 = 0xF0 := (lead4_iff _ (by omega)).mpr (by omega)
      have cont1 : b1.toNat &&& 0xC0 = 0x80 := (continuation_iff _ (by omega)).mpr (by omega)
      have cont2 : b2.toNat &&& 0xC0 = 0x80 := (continuation_iff _ (by omega)).mpr (by omega)
      have cont3 : b3.toNat &&& 0xC0 = 0x80 := (continuation_iff _ (by omega)).mpr (by omega)
      have value : b0.toNat % 8 * 262144 + b1.toNat % 64 * 4096 + b2.toNat % 64 * 64 +
          b3.toNat % 64 = cp := by omega
      simp [ucbUcValidateStep, ucbUcFetch4, fetch4_value, notTwo, notThree, fourLead, cont1,
        cont2, cont3, value, show ¬ b0.toNat < 128 by omega, show ¬ cp < 65536 by omega,
        show ¬ 1114111 < cp by omega]

theorem validateStep_encodeScalar (cp : Scalar) (rest : List UInt8) :
    ucbUcValidateStep (encodeScalar cp ++ rest) (encodeScalar cp ++ rest).length 0 =
      .ok (.ok (encodeScalar cp).length) :=
  validateStep_codeWord (codeWord_encodeScalar cp) rest

/-- A round of the validator on a non-empty rest stays inside it, and advances
only over a code word. -/
theorem validateStep_cases (b0 : UInt8) (rest : List UInt8) :
    (∃ cp word tail, CodeWord cp word ∧ b0 :: rest = word ++ tail ∧
      ucbUcValidateStep (b0 :: rest) (b0 :: rest).length 0 = .ok (.ok word.length)) ∨
    ∃ expected, ucbUcValidateStep (b0 :: rest) (b0 :: rest).length 0 = .ok (.error expected) := by
  have byte0 := b0.toNat_lt
  by_cases one : b0.toNat < 0x80
  · exact .inl ⟨b0.toNat, [b0], rest, .one b0 rfl one, rfl, by simp [ucbUcValidateStep, one]⟩
  by_cases two : b0.toNat &&& 0xE0 = 0xC0
  · have lead := (lead2_iff _ byte0).mp two
    rcases rest with _ | ⟨b1, rest⟩
    · exact .inr ⟨2, by simp [ucbUcValidateStep, one, two]⟩
    have byte1 := b1.toNat_lt
    by_cases cont1 : b1.toNat &&& 0xC0 = 0x80
    · have tail1 := (continuation_iff _ byte1).mp cont1
      by_cases overlong : b0.toNat % 32 * 64 + b1.toNat % 64 < 0x80
      · exact .inr ⟨0, by
          simp [ucbUcValidateStep, ucbUcFetch2, fetch2_value, one, two, cont1, overlong]⟩
      · refine .inl ⟨b0.toNat % 32 * 64 + b1.toNat % 64, [b0, b1], rest,
          .two b0 b1 (by omega) (by omega) (by omega) (by omega), rfl, ?_⟩
        simp [ucbUcValidateStep, ucbUcFetch2, fetch2_value, one, two, cont1, overlong]
    · exact .inr ⟨0, by simp [ucbUcValidateStep, one, two, cont1]⟩
  by_cases three : b0.toNat &&& 0xF0 = 0xE0
  · have lead := (lead3_iff _ byte0).mp three
    rcases rest with _ | ⟨b1, _ | ⟨b2, rest⟩⟩
    · exact .inr ⟨3, by simp [ucbUcValidateStep, one, two, three]⟩
    · exact .inr ⟨3, by simp [ucbUcValidateStep, one, two, three]⟩
    by_cases cont : b1.toNat &&& 0xC0 = 0x80 ∧ b2.toNat &&& 0xC0 = 0x80
    · obtain ⟨cont1, cont2⟩ := cont
      have tail1 := (continuation_iff _ b1.toNat_lt).mp cont1
      have tail2 := (continuation_iff _ b2.toNat_lt).mp cont2
      obtain ⟨cp, cpEq⟩ : ∃ cp, b0.toNat % 16 * 4096 + b1.toNat % 64 * 64 + b2.toNat % 64 = cp :=
        ⟨_, rfl⟩
      by_cases overlong : cp < 0x800
      · exact .inr ⟨0, by
          simp [ucbUcValidateStep, ucbUcFetch3, fetch3_value, one, two, three, cont1, cont2, cpEq,
            overlong]⟩
      by_cases surrogate : 0xD800 ≤ cp ∧ cp ≤ 0xDFFF
      · exact .inr ⟨0, by
          simp [ucbUcValidateStep, ucbUcFetch3, fetch3_value, one, two, three, cont1, cont2, cpEq,
            overlong, surrogate]⟩
      · refine .inl ⟨cp, [b0, b1, b2], rest,
          .three b0 b1 b2 (by omega) (by omega) (by omega) (by omega) (by omega)
            (by unfold IsScalar; omega), rfl, ?_⟩
        simp [ucbUcValidateStep, ucbUcFetch3, fetch3_value, one, two, three, cont1, cont2, cpEq,
          overlong, surrogate]
    · refine .inr ⟨0, ?_⟩
      rw [not_and_or] at cont
      simp [ucbUcValidateStep, one, two, three, cont]
  by_cases four : b0.toNat &&& 0xF8 = 0xF0
  · have lead := (lead4_iff _ byte0).mp four
    rcases rest with _ | ⟨b1, _ | ⟨b2, _ | ⟨b3, rest⟩⟩⟩
    · exact .inr ⟨4, by simp [ucbUcValidateStep, one, two, three, four]⟩
    · exact .inr ⟨4, by simp [ucbUcValidateStep, one, two, three, four]⟩
    · exact .inr ⟨4, by simp [ucbUcValidateStep, one, two, three, four]⟩
    by_cases cont : b1.toNat &&& 0xC0 = 0x80 ∧ b2.toNat &&& 0xC0 = 0x80 ∧
        b3.toNat &&& 0xC0 = 0x80
    · obtain ⟨cont1, cont2, cont3⟩ := cont
      have tail1 := (continuation_iff _ b1.toNat_lt).mp cont1
      have tail2 := (continuation_iff _ b2.toNat_lt).mp cont2
      have tail3 := (continuation_iff _ b3.toNat_lt).mp cont3
      obtain ⟨cp, cpEq⟩ : ∃ cp, b0.toNat % 8 * 262144 + b1.toNat % 64 * 4096 +
          b2.toNat % 64 * 64 + b3.toNat % 64 = cp := ⟨_, rfl⟩
      by_cases outside : cp < 0x10000 ∨ cp > 0x10FFFF
      · exact .inr ⟨0, by
          simp [ucbUcValidateStep, ucbUcFetch4, fetch4_value, one, two, three, cont1, cont2, cpEq,
            outside]⟩
      · refine .inl ⟨cp, [b0, b1, b2, b3], rest,
          .four b0 b1 b2 b3 (by omega) (by omega) (by omega) (by omega) (by omega) (by omega),
          rfl, ?_⟩
        simp [ucbUcValidateStep, ucbUcFetch4, fetch4_value, one, two, three, four, cont1, cont2,
          cont3, cpEq, outside]
    · refine .inr ⟨0, ?_⟩
      rw [not_and_or, not_and_or] at cont
      simp [ucbUcValidateStep, one, two, three, cont]
  · exact .inr ⟨0, by simp [ucbUcValidateStep, one, two, three, four]⟩

/-! ## The prefix code -/

/-- The scalar value whose code word starts the input, read the way the
iterator reads it and checked by encoding it again. -/
def readScalar (input : List UInt8) : Option Scalar :=
  match ucbUcNextValid input 0 with
  | .ok (cp, _) =>
      if scalar : IsScalar cp then
        if encodeScalar ⟨cp, scalar⟩ <+: input then some ⟨cp, scalar⟩ else none
      else none
  | _ => none

def utf8 : PrefixCode Scalar UInt8 where
  encode := encodeScalar
  read := readScalar
  encode_ne_nil := by
    intro cp empty
    have word := codeWord_encodeScalar cp
    rw [empty] at word
    cases word
  read_eq_some := by
    intro input cp
    constructor
    · intro found
      unfold readScalar at found
      split at found
      · split_ifs at found with scalar starts
        exact Option.some.inj found ▸ starts
      · contradiction
    · rintro ⟨rest, rfl⟩
      simp [readScalar, nextValid_encodeScalar, cp.property]

end Ucb.Unicode
