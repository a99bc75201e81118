import Mathlib.Data.List.Infix

/-!
Contract: prefix codes and the left-to-right scanner that reads them.

Owns:
- the prefix-free encoding laws and the concatenated encoding of a list;
- unique decodability, also for two concatenations that extend one another;
- the greedy scan of an arbitrary word list: it recovers the longest encodable
  prefix, and consumes everything exactly on the encodable words.

Nothing here knows which alphabet or which encoding is used.
-/

namespace Ucb.Lib

universe u v

/-- An encoding in which no code word extends another one. `read` recovers the
value whose code word starts the input. -/
structure PrefixCode (α : Type u) (β : Type v) where
  encode : α → List β
  read : List β → Option α
  encode_ne_nil : ∀ value, encode value ≠ []
  read_eq_some : ∀ input value, read input = some value ↔ encode value <+: input

namespace PrefixCode

variable {α : Type u} {β : Type v} (code : PrefixCode α β)

/-- Concatenated code words. -/
def encodeAll (values : List α) : List β :=
  values.flatMap code.encode

@[simp] theorem encodeAll_nil : code.encodeAll [] = [] := rfl

@[simp] theorem encodeAll_cons (value : α) (values : List α) :
    code.encodeAll (value :: values) = code.encode value ++ code.encodeAll values := by
  simp [encodeAll]

@[simp] theorem encodeAll_append (left right : List α) :
    code.encodeAll (left ++ right) = code.encodeAll left ++ code.encodeAll right := by
  simp [encodeAll]

theorem read_encode_append (value : α) (rest : List β) :
    code.read (code.encode value ++ rest) = some value :=
  (code.read_eq_some _ _).mpr (List.prefix_append _ _)

theorem read_nil : code.read [] = none := by
  cases result : code.read [] with
  | none => rfl
  | some value =>
      have empty := List.prefix_nil.mp ((code.read_eq_some _ _).mp result)
      exact absurd empty (code.encode_ne_nil value)

theorem encode_length_pos (value : α) : 0 < (code.encode value).length :=
  List.length_pos_of_ne_nil (code.encode_ne_nil value)

/-- A concatenation that starts another one was encoded from a prefix of it. -/
theorem prefix_of_encodeAll_prefix {left right : List α}
    (extends_ : code.encodeAll left <+: code.encodeAll right) : left <+: right := by
  induction left generalizing right with
  | nil => exact List.nil_prefix
  | cons head tail inductionHypothesis =>
      cases right with
      | nil =>
          have empty := List.prefix_nil.mp extends_
          simp [code.encode_ne_nil head] at empty
      | cons other rest =>
          rw [encodeAll_cons, encodeAll_cons] at extends_
          have headRead : code.read (code.encode other ++ code.encodeAll rest) = some head :=
            (code.read_eq_some _ _).mpr
              ((List.prefix_append _ _).trans extends_)
          rw [code.read_encode_append] at headRead
          obtain rfl := Option.some.inj headRead
          have tailExtends := (List.prefix_append_right_inj _).mp extends_
          exact List.cons_prefix_cons.mpr ⟨rfl, inductionHypothesis tailExtends⟩

/-- Unique decodability. -/
theorem encodeAll_injective : Function.Injective code.encodeAll := by
  intro left right same
  have forward := code.prefix_of_encodeAll_prefix (same ▸ List.prefix_refl _ :
    code.encodeAll left <+: code.encodeAll right)
  have backward := code.prefix_of_encodeAll_prefix (same ▸ List.prefix_refl _ :
    code.encodeAll right <+: code.encodeAll left)
  exact List.IsPrefix.eq_of_length_le forward backward.length_le

/-- A word list is encodable when it is a concatenation of code words. -/
def Encodable (input : List β) : Prop :=
  ∃ values, input = code.encodeAll values

/-- What a scan from the left recovers: the input starts with the encoding of
`values`, and no code word starts what remains. -/
structure Scanned (input : List β) (values : List α) (rest : List β) : Prop where
  split : input = code.encodeAll values ++ rest
  stuck : code.read rest = none

theorem Scanned.nil {input : List β} (stuck : code.read input = none) :
    code.Scanned input [] input :=
  ⟨rfl, stuck⟩

theorem Scanned.cons {value : α} {input rest : List β} {values : List α}
    (scanned : code.Scanned input values rest) :
    code.Scanned (code.encode value ++ input) (value :: values) rest :=
  ⟨by rw [scanned.split, encodeAll_cons, List.append_assoc], scanned.stuck⟩

/-- Encodable inputs are exactly those the scan consumes completely. -/
theorem Scanned.encodable_iff {input rest : List β} {values : List α}
    (scanned : code.Scanned input values rest) :
    code.Encodable input ↔ rest = [] := by
  constructor
  · rintro ⟨others, rfl⟩
    have valuesPrefix : values <+: others :=
      code.prefix_of_encodeAll_prefix ⟨rest, scanned.split.symm⟩
    obtain ⟨missing, rfl⟩ := valuesPrefix
    have restEq : code.encodeAll missing = rest := by
      simpa using scanned.split
    cases missing with
    | nil => simpa using restEq.symm
    | cons head tail =>
        have readHead := code.read_encode_append head (code.encodeAll tail)
        rw [← encodeAll_cons, restEq, scanned.stuck] at readHead
        contradiction
  · rintro rfl
    exact ⟨values, by simpa using scanned.split⟩

/-- The scanned part is the longest encodable prefix of the input. -/
theorem Scanned.longest {input rest : List β} {values : List α}
    (scanned : code.Scanned input values rest) {part : List β}
    (encodable : code.Encodable part) (starts : part <+: input) :
    part <+: code.encodeAll values := by
  obtain ⟨others, rfl⟩ := encodable
  obtain ⟨after, whole⟩ := starts
  induction others generalizing input values with
  | nil => exact List.nil_prefix
  | cons head tail inductionHypothesis =>
      cases values with
      | nil =>
          have readHead := code.read_encode_append head (code.encodeAll tail ++ after)
          rw [← List.append_assoc, ← encodeAll_cons, whole, scanned.split] at readHead
          simp [scanned.stuck] at readHead
      | cons value rest' =>
          have readHead := code.read_encode_append head (code.encodeAll tail ++ after)
          rw [← List.append_assoc, ← encodeAll_cons, whole, scanned.split, encodeAll_cons,
            List.append_assoc, code.read_encode_append] at readHead
          obtain rfl := Option.some.inj readHead
          have splitTail : code.Scanned (code.encodeAll rest' ++ rest) rest' rest :=
            ⟨rfl, scanned.stuck⟩
          have wholeTail : code.encodeAll tail ++ after = code.encodeAll rest' ++ rest := by
            have joined := whole.trans scanned.split
            rw [encodeAll_cons, encodeAll_cons, List.append_assoc, List.append_assoc] at joined
            exact List.append_cancel_left joined
          have tailPrefix := inductionHypothesis splitTail wholeTail
          rw [encodeAll_cons, encodeAll_cons]
          exact (List.prefix_append_right_inj _).mpr tailPrefix

end PrefixCode

end Ucb.Lib
