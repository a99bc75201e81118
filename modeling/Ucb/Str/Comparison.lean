import Ucb.Lib.LexOrder
import Ucb.Str.Exact

/-!
Contract: `ucb_str_comp`, as `string.c` computes it.

Owns:
- the comparison, with the difference of the sizes narrowed to `int`;
- which sizes survive the narrowing;
- that the comparison orders a set of strings exactly when all their sizes do.

Sizes are 64 bits wide and `int` is 32 bits wide.
-/

namespace Ucb.Str

open Ucb.Lib Ucb.Unicode

/-! ## The comparison -/

/-- `memcmp`: the difference of the first bytes that differ. -/
def memcmp : List UInt8 → List UInt8 → Int
  | left :: lefts, right :: rights =>
      if left = right then memcmp lefts rights else (left.toNat : Int) - right.toNat
  | _, _ => 0

/-- `(int)` of a `size_t` keeps the low 32 bits. -/
def intOfSize (size : Int) : Int :=
  if size % 2 ^ 32 < 2 ^ 31 then size % 2 ^ 32 else size % 2 ^ 32 - 2 ^ 32

def ucbStrComp (str1 str2 : UcbStr) : Exec Int := do
  let minLen := if str1.size < str2.size then str1.size else str2.size
  let data1 ← str1.data.load
  let data2 ← str2.data.load
  let bytes1 ← slice data1 0 minLen
  let bytes2 ← slice data2 0 minLen
  let cmp := memcmp bytes1 bytes2
  if cmp ≠ 0 then pure cmp
  else pure (intOfSize (((str1.size : Int) - str2.size) % 2 ^ 64))

/-! ## Bytes in order -/

abbrev ByteLt (left right : UInt8) : Prop :=
  left.toNat < right.toNat

instance : Std.Irrefl ByteLt :=
  ⟨fun byte => Nat.lt_irrefl byte.toNat⟩

instance : IsTrans UInt8 ByteLt :=
  ⟨fun _ _ _ before further => Nat.lt_trans before further⟩

instance : Std.Trichotomous ByteLt :=
  ⟨fun _ _ notBefore notBehind =>
    UInt8.toNat_inj.mp (Nat.le_antisymm (Nat.not_lt.mp notBehind) (Nat.not_lt.mp notBefore))⟩

theorem memcmp_take (left right : List UInt8) {len : Nat}
    (shorter : len = min left.length right.length) :
    memcmp (left.take len) (right.take len) = memcmp left right := by
  induction left generalizing right len with
  | nil => simp [memcmp]
  | cons x left inductionHypothesis =>
      cases right with
      | nil => simp [shorter, memcmp]
      | cons y right =>
          obtain rfl : len = min left.length right.length + 1 := by
            rw [shorter, List.length_cons, List.length_cons, Nat.add_min_add_right]
          rw [List.take_succ_cons, List.take_succ_cons, memcmp, memcmp,
            inductionHypothesis right rfl]

/-- Texts that differ at some byte: the sign is their order. -/
theorem memcmp_sign {left right : List UInt8} (differ : memcmp left right ≠ 0) :
    SignIsLex ByteLt left right (memcmp left right) := by
  induction left generalizing right with
  | nil => exact absurd (by simp [memcmp]) differ
  | cons x left inductionHypothesis =>
      cases right with
      | nil => exact absurd (by simp [memcmp]) differ
      | cons y right =>
          rw [memcmp] at differ ⊢
          by_cases same : x = y
          · subst same
            rw [if_pos rfl] at differ ⊢
            have sign := inductionHypothesis differ
            exact ⟨sign.before.trans (List.lex_cons_iff (r := ByteLt)).symm,
              sign.behind.trans (List.lex_cons_iff (r := ByteLt)).symm⟩
          · rw [if_neg same] at differ ⊢
            have unequal : x.toNat ≠ y.toNat := fun equal => same (UInt8.toNat_inj.mp equal)
            constructor
            · rw [List.cons_lex_cons_iff]
              simp only [same, false_and, or_false]
              omega
            · rw [List.cons_lex_cons_iff]
              simp only [Ne.symm same, false_and, or_false]
              omega

/-- Otherwise one of the texts begins with the other. -/
theorem prefix_of_memcmp {left right : List UInt8} (same : memcmp left right = 0) :
    left <+: right ∨ right <+: left := by
  induction left generalizing right with
  | nil => exact .inl (List.nil_prefix)
  | cons x left inductionHypothesis =>
      cases right with
      | nil => exact .inr (List.nil_prefix)
      | cons y right =>
          rw [memcmp] at same
          split at same
          next equal =>
            subst equal
            rw [List.cons_prefix_cons, List.cons_prefix_cons]
            exact (inductionHypothesis same).imp (⟨rfl, ·⟩) (⟨rfl, ·⟩)
          next unequal =>
            have bytes : x.toNat ≠ y.toNat := fun equal => unequal (UInt8.toNat_inj.mp equal)
            omega

theorem memcmp_of_isPrefix {left right : List UInt8} (isPrefix : left <+: right) :
    memcmp left right = 0 ∧ memcmp right left = 0 := by
  obtain ⟨rest, rfl⟩ := isPrefix
  induction left with
  | nil => cases rest <;> simp [memcmp]
  | cons x left inductionHypothesis => simpa [memcmp] using inductionHypothesis

/-! ## Sizes -/

/-- If one text begins with the other, the difference of their sizes keeps its sign as `int`. -/
structure SizesTold (left right : List UInt8) : Prop where
  before : left <+: right → left ≠ right →
    0 < (right.length - left.length) % 2 ^ 32 ∧ (right.length - left.length) % 2 ^ 32 ≤ 2 ^ 31
  behind : right <+: left → left ≠ right →
    0 < (left.length - right.length) % 2 ^ 32 ∧ (left.length - right.length) % 2 ^ 32 < 2 ^ 31

theorem comp_eq {str1 str2 : UcbStr} (valid1 : RepInv str1) (valid2 : RepInv str2) :
    ucbStrComp str1 str2 = .ok (if memcmp str1.text str2.text ≠ 0 then memcmp str1.text str2.text
      else intOfSize (((str1.text.length : Int) - str2.text.length) % 2 ^ 64)) := by
  have size1 := valid1.holds_text.size_eq
  have size2 := valid2.holds_text.size_eq
  obtain ⟨spare1, load1⟩ := valid1.holds_text.load
  obtain ⟨spare2, load2⟩ := valid2.holds_text.load
  have shorter : (if str1.text.length < str2.text.length then str1.text.length
      else str2.text.length) = min str1.text.length str2.text.length := by
    split <;> omega
  have read (text spare : List UInt8) {len : Nat} (inside : len ≤ text.length) :
      slice (text ++ spare) 0 len = .ok (text.take len) := by
    have whole : 0 + len ≤ (text ++ spare).length := by
      rw [List.length_append]
      omega
    rw [slice, if_pos whole, List.drop_zero, List.take_append_of_le_length inside]
  rw [ucbStrComp, size1, size2, shorter]
  simp only [load1, load2, Exec.ok_bind, read _ _ (Nat.min_le_left _ _),
    read _ _ (Nat.min_le_right _ _), memcmp_take _ _ rfl]
  split <;> rfl

/-- The comparison of two strings gives their order exactly if their sizes are told apart. -/
theorem comp_sign_iff {left right : List UInt8} : SignIsLex ByteLt left right
    (if memcmp left right ≠ 0 then memcmp left right
      else intOfSize (((left.length : Int) - right.length) % 2 ^ 64)) ↔ SizesTold left right := by
  by_cases same : memcmp left right = 0
  · rw [if_neg (not_not.mpr same)]
    generalize narrowed : intOfSize (((left.length : Int) - right.length) % 2 ^ 64) = result
    rw [intOfSize] at narrowed
    by_cases equal : left = right
    · subst equal
      have zero : result = 0 := by
        rw [← narrowed]
        simp
      subst zero
      have notBefore := not_lex_self (r := ByteLt) left
      refine ⟨fun _ => ⟨fun _ differ => absurd rfl differ, fun _ differ => absurd rfl differ⟩,
        fun _ => ⟨?_, ?_⟩⟩ <;> simp [notBefore]
    · rcases prefix_of_memcmp same with isPrefix | isPrefix
      · have before := lex_of_prefix ByteLt isPrefix equal
        have notBehind := not_lex_swapped before
        have notPrefix : ¬ right <+: left := fun other => equal
          (isPrefix.eq_of_length (Nat.le_antisymm isPrefix.length_le other.length_le))
        have shorter := isPrefix.length_le
        constructor
        · intro sign
          have negative := sign.before.mpr before
          refine ⟨fun _ _ => ?_, fun other => absurd other notPrefix⟩
          split at narrowed <;> omega
        · intro told
          have sizes := told.before isPrefix equal
          have negative : result < 0 := by
            split at narrowed <;> omega
          exact ⟨iff_of_true negative before, iff_of_false (by omega) notBehind⟩
      · have behind := lex_of_prefix ByteLt isPrefix (Ne.symm equal)
        have notBefore := not_lex_swapped behind
        have notPrefix : ¬ left <+: right := fun other => equal
          (other.eq_of_length (Nat.le_antisymm other.length_le isPrefix.length_le))
        have shorter := isPrefix.length_le
        constructor
        · intro sign
          have positive := sign.behind.mpr behind
          refine ⟨fun other => absurd other notPrefix, fun _ _ => ?_⟩
          split at narrowed <;> omega
        · intro told
          have sizes := told.behind isPrefix equal
          have positive : 0 < result := by
            split at narrowed <;> omega
          exact ⟨iff_of_false (by omega) notBefore, iff_of_true positive behind⟩
  · rw [if_pos same]
    refine iff_of_true (memcmp_sign same) ⟨fun isPrefix => ?_, fun isPrefix => ?_⟩
    · exact absurd (memcmp_of_isPrefix isPrefix).1 same
    · exact absurd (memcmp_of_isPrefix isPrefix).2 same

/-! ## Sets of strings -/

/-- The comparison is the lexicographic order on the strings: each result has its sign, zero is
equality, and the signs are antisymmetric and transitive. -/
structure OrdersStrs (strs : Set UcbStr) : Prop where
  lexicographic : ∀ str1 ∈ strs, ∀ str2 ∈ strs, ∃ result, ucbStrComp str1 str2 = .ok result ∧
    SignIsLex ByteLt str1.text str2.text result
  zero : ∀ str1 ∈ strs, ∀ str2 ∈ strs,
    (ucbStrComp str1 str2 = .ok 0 ↔ ucbStrEqual str1 str2 = .ok true)
  antisymmetric : ∀ str1 ∈ strs, ∀ str2 ∈ strs, ∀ x y, ucbStrComp str1 str2 = .ok x →
    ucbStrComp str2 str1 = .ok y → (x < 0 ↔ 0 < y) ∧ (0 < x ↔ y < 0)
  transitive : ∀ str1 ∈ strs, ∀ str2 ∈ strs, ∀ str3 ∈ strs, ∀ x y z,
    ucbStrComp str1 str2 = .ok x → ucbStrComp str2 str3 = .ok y → ucbStrComp str1 str3 = .ok z →
      x ≤ 0 → y ≤ 0 → z ≤ 0

/-- On a set of valid strings the comparison is the lexicographic order, a total one, exactly if
the sizes of any two of them are told apart. -/
theorem comp_orders_iff {strs : Set UcbStr} (valid : ∀ str ∈ strs, RepInv str) :
    OrdersStrs strs ↔ ∀ str1 ∈ strs, ∀ str2 ∈ strs, SizesTold str1.text str2.text := by
  constructor
  · intro orders str1 member1 str2 member2
    obtain ⟨result, compared, sign⟩ := orders.lexicographic str1 member1 str2 member2
    rw [comp_eq (valid str1 member1) (valid str2 member2)] at compared
    rw [← comp_sign_iff, Exec.ok.inj compared]
    exact sign
  · intro told
    have lexicographic : ∀ str1 ∈ strs, ∀ str2 ∈ strs, ∃ result,
        ucbStrComp str1 str2 = .ok result ∧ SignIsLex ByteLt str1.text str2.text result :=
      fun str1 member1 str2 member2 => ⟨_, comp_eq (valid str1 member1) (valid str2 member2),
        comp_sign_iff.mpr (told str1 member1 str2 member2)⟩
    have sign {str1 str2 : UcbStr} {x : Int} (member1 : str1 ∈ strs) (member2 : str2 ∈ strs)
        (compared : ucbStrComp str1 str2 = .ok x) :
        SignIsLex ByteLt str1.text str2.text x := by
      obtain ⟨result, compared', sign⟩ := lexicographic str1 member1 str2 member2
      rw [compared] at compared'
      rwa [Exec.ok.inj compared']
    refine ⟨lexicographic, ?_, ?_, ?_⟩
    · intro str1 member1 str2 member2
      obtain ⟨result, compared, sign⟩ := lexicographic str1 member1 str2 member2
      rw [compared, equal_eq (valid str1 member1) (valid str2 member2), Exec.ok.injEq,
        Exec.ok.injEq, decide_eq_true_iff, sign.zero_iff]
    · intro str1 member1 str2 member2 x y forward backward
      exact (sign member1 member2 forward).swap (sign member2 member1 backward)
    · intro str1 member1 str2 member2 str3 member3 x y z first later whole
      exact (sign member1 member2 first).trans (sign member2 member3 later)
        (sign member1 member3 whole)

def letters (n : Nat) : List UInt8 :=
  List.replicate n 97

theorem isText_letters (n : Nat) : IsText (letters n) := by
  refine isText_of_ascii fun c member => ?_
  obtain rfl := List.eq_of_mem_replicate member
  simp

/-- Where a text is a proper prefix of the other by few bytes. -/
theorem comp_orders_iff_letters : OrdersStrs {madeOf (letters 1), madeOf (letters 2)} := by
  have valid (n : Nat) : RepInv (madeOf (letters n)) := madeOf_repInv (isText_letters n)
  refine (comp_orders_iff ?_).mpr ?_
  · rintro str (rfl | rfl)
    · exact valid 1
    · exact valid 2
  · have told : SizesTold (letters 1) (letters 2) ∧ SizesTold (letters 2) (letters 1) := by
      constructor <;> constructor <;> decide
    have same (text : List UInt8) : SizesTold text text :=
      ⟨fun _ differ => absurd rfl differ, fun _ differ => absurd rfl differ⟩
    rintro str1 (rfl | rfl) str2 (rfl | rfl)
    · exact same _
    · exact told.1
    · exact told.2
    · exact same _

/-- A string of 2^31 bytes sorts before the empty one, and one of 2^32 bytes compares as equal
to it. -/
theorem comp_narrowed : RepInv .interned ∧
    RepInv (madeOf (letters (2 ^ 31))) ∧ RepInv (madeOf (letters (2 ^ 32))) ∧
    ucbStrComp (madeOf (letters (2 ^ 31))) .interned = .ok (-2 ^ 31) ∧
    ucbStrComp .interned (madeOf (letters (2 ^ 31))) = .ok (-2 ^ 31) ∧
    ucbStrComp (madeOf (letters (2 ^ 32))) .interned = .ok 0 ∧
    ucbStrEqual (madeOf (letters (2 ^ 32))) .interned = .ok false ∧
    ¬ OrdersStrs {.interned, madeOf (letters (2 ^ 32))} := by
  have valid (n : Nat) : RepInv (madeOf (letters n)) := madeOf_repInv (isText_letters n)
  have length (n : Nat) : (letters n).length = n := List.length_replicate
  have memcmpLeft (n : Nat) : memcmp (letters n) [] = 0 := (memcmp_of_isPrefix List.nil_prefix).2
  have memcmpRight (n : Nat) : memcmp [] (letters n) = 0 := (memcmp_of_isPrefix List.nil_prefix).1
  have compared (n : Nat) : ucbStrComp (madeOf (letters n)) .interned =
      .ok (intOfSize ((n : Int) % 2 ^ 64)) := by
    rw [comp_eq (valid n) repInv_interned, text_madeOf, text_interned, memcmpLeft, length]
    simp
  have swapped (n : Nat) : ucbStrComp .interned (madeOf (letters n)) =
      .ok (intOfSize ((-n : Int) % 2 ^ 64)) := by
    rw [comp_eq repInv_interned (valid n), text_madeOf, text_interned, memcmpRight, length]
    simp
  have zero : ucbStrComp (madeOf (letters (2 ^ 32))) .interned = .ok 0 := compared _
  have unequal : ucbStrEqual (madeOf (letters (2 ^ 32))) .interned = .ok false := by
    have nonempty : letters (2 ^ 32) ≠ [] := fun empty => by
      have lengths := length (2 ^ 32)
      rw [empty] at lengths
      cases lengths
    rw [equal_eq (valid _) repInv_interned, text_madeOf, text_interned, decide_eq_false nonempty]
  refine ⟨repInv_interned, valid _, valid _, compared _, swapped _, zero, unequal, ?_⟩
  intro orders
  have equal := (orders.zero _ (.inr rfl) _ (.inl rfl)).mp zero
  rw [unequal] at equal
  cases equal

end Ucb.Str
