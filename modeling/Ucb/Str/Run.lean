import Ucb.Str.Mutation
import Mathlib.Logic.Relation

/-!
Contract: sequences of public string operations.

Owns:
- the operations on one string, with arguments that are valid strings or any
  C strings, and one step of a sequence of them;
- the allocation requests whose refusal damages the string;
- that a step with these requests granted keeps a text in the string, and
  except for `ucb_str_append_cp` also its terminator.

A released or abandoned string can only be initialized again. `ucb_str_clone`,
`ucb_str_concat` and `ucb_str_substr` make a new string; the sequence goes on
with that one.
-/

namespace Ucb.Str

open Ucb.Unicode

/-! ## Operations -/

/-- A public operation on an initialized string. For a string argument `none` is
the string itself. -/
inductive StrOp where
  | copy (src : Option ValidStr)
  | assign (cstr : CstrArg) (len : Nat)
  | fit
  | reserve (size : UInt64)
  | adopt (cstr : List UInt8) (len alloc : Nat)
  | adoptC (cstr : List UInt8)
  | clear
  | append (astr : Option ValidStr)
  | appendCstr (cstr : CstrArg) (len : Nat)
  | appendCp (cps : List Nat)
  | insert (index : Nat) (istr : Option ValidStr)
  | insertCstr (index : Nat) (cstr : CstrArg) (len : Nat)
  | insertCp (index : Nat) (cps : List Nat)
  | adoptUcResult (res : Option (List UInt8))
  | clone
  | concat (others : List ValidStr)
  | substr (start : Nat) (stop : Option Nat)

def strArg : Option ValidStr → StrArg
  | none => .self
  | some astr => .other astr.val

/-- The new string, or the old one when none could be made. -/
def follow (str : UcbStr) (made : UcbStr × Bool) : UcbStr × Bool :=
  if made.2 then made else (str, false)

/-- The string after an operation and the result; functions without a result
count as true. `alloc` of an adopted block must not exceed it. -/
def strOp (tables : UcbUcTables) (allocator : Allocator) (str : UcbStr) :
    StrOp → Exec (UcbStr × Bool)
  | .copy src => ucbStrCopy allocator str (strArg src)
  | .assign cstr len => ucbStrAssign allocator str cstr len
  | .fit => ucbStrFit allocator str
  | .reserve size => ucbStrReserve allocator str size
  | .adopt cstr len alloc =>
      if alloc ≤ cstr.length then (·, true) <$> ucbStrAdopt str cstr len alloc else .undefined
  | .adoptC cstr => (·, true) <$> ucbStrAdoptC str cstr
  | .clear => (·, true) <$> ucbStrClear str
  | .append astr => (·, true) <$> ucbStrAppend allocator str (strArg astr)
  | .appendCstr cstr len => (·, true) <$> ucbStrAppendCstr allocator str cstr len
  | .appendCp cps =>
      (fun result => (result.1, result.2.1)) <$> ucbStrAppendCp tables allocator str cps
  | .insert index istr => (·, true) <$> ucbStrInsert tables allocator str index (strArg istr)
  | .insertCstr index cstr len =>
      (·, true) <$> ucbStrInsertCstr tables allocator str index cstr len
  | .insertCp index cps =>
      (fun result => (result.1, result.2.1)) <$> ucbStrInsertCp tables allocator str index cps
  | .adoptUcResult res => ucbStrAdoptUcResult str res
  | .clone => follow str <$> ucbStrClone allocator str
  | .concat others =>
      (fun made => (made.getD str, made.isSome)) <$>
        ucbStrConcat allocator str (others.map Subtype.val)
  | .substr start stop => follow str <$> ucbStrSubstr allocator str start stop

/-- A string over its life: `zeroed` before initialization and after it was
released or abandoned. -/
inductive StrPhase where
  | zeroed
  | live (str : UcbStr)
deriving DecidableEq, Repr

inductive StrCall where
  | init (cstr : Option (List UInt8)) (len : Nat)
  | release
  | abandon
  | op (op : StrOp)

def strCall (tables : UcbUcTables) (allocator : Allocator) :
    StrPhase → StrCall → Exec (StrPhase × Bool)
  | .zeroed, .init cstr len =>
      (fun made => (if made.2 then .live made.1 else .zeroed, made.2)) <$>
        ucbStrInit allocator cstr len
  | .live str, .release => (fun _ => (.zeroed, true)) <$> ucbStrReleaseCommon str
  | .live str, .abandon => pure (.zeroed, decide (str.alloc > 0))
  | .live str, .op op => (fun next => (.live next.1, next.2)) <$> strOp tables allocator str op
  | _, _ => .undefined

/-! ## Allocation requests -/

/-- The allocator does not refuse the reallocation of `ucb_str_reserve`, which
would free the string's memory. -/
def RoomGranted (allocator : Allocator) (str : UcbStr) (n : Nat) : Prop :=
  Grows str n → str.alloc ≠ 0 → GrowGranted allocator str n

/-- The allocator does not refuse the memory for the new content of a string
whose old memory has been released. -/
def AssignGranted (allocator : Allocator) (str : UcbStr) (cstr : CstrArg) (len : Nat) : Prop :=
  ∀ mem n, cstr.load str = .ok mem → cstrLen mem len = .ok n →
    (ucbStrAliases str cstr = true ∧ (n = 0 ∨ ¬ allocator.grants .malloc n = true)) ∨
      allocator.grants .malloc (n + 1) = true

/-- The allocator does not refuse the growth for an argument. -/
def ArgGranted (allocator : Allocator) (str : UcbStr) (cstr : CstrArg) (len : Nat) : Prop :=
  ∀ mem n, cstr.load str = .ok mem → cstrLen mem len = .ok n →
    n = 0 ∨ CopyRefused allocator str cstr n ∨ RoomGranted allocator str n

/-- No allocation is refused that would leave the string without its memory. -/
def AllocMeets (tables : UcbUcTables) (allocator : Allocator) (str : UcbStr) : StrOp → Prop
  | .copy none => True
  | .copy (some src) => allocator.grants .malloc (src.val.size + 1) = true
  | .assign cstr len => AssignGranted allocator str cstr len
  | .fit =>
      str.alloc > str.size + 1 → allocator.grants .realloc (str.size + 1) = true
  | .reserve size =>
      size.toNat + str.size + 1 < 2 ^ 64 → RoomGranted allocator str size.toNat
  | .append astr =>
      ∀ cstr, (strArg astr).data str = .ok cstr →
        ArgGranted allocator str cstr ((strArg astr).get str).size
  | .appendCstr cstr len => ArgGranted allocator str cstr len
  | .appendCp cps => RoomGranted allocator str (4 * cps.length)
  | .insert _ istr =>
      ∀ cstr, (strArg istr).data str = .ok cstr →
        ArgGranted allocator str cstr ((strArg istr).get str).size
  | .insertCstr _ cstr len => ArgGranted allocator str cstr len
  | .insertCp index cps => ∀ scalars pos, cps = scalarValues scalars →
      ucbStrMapCharPos tables str index = .ok (.ok pos) →
        allocator.grants .calloc (4 * cps.length) = true →
          RoomGranted allocator str (encode scalars).length
  | _ => True

/-- `ucb_str_append_cp` meets no codepoint that cannot be encoded after it has
pushed a chunk into the spare memory. -/
def ChunkMeets (tables : UcbUcTables) (allocator : Allocator) (str : UcbStr) : StrOp → Prop
  | .appendCp cps => ∀ front bad rest, cps = scalarValues front ++ bad :: rest → ¬ IsScalar bad →
      Grows str (4 * cps.length) → GrowGranted allocator str (4 * cps.length) →
        (encode front).length < 4 * tables.maxMultiLen
  | _ => True

theorem grownTo_of_roomGranted {allocator : Allocator} {str : UcbStr} {n : Nat}
    (granted : RoomGranted allocator str n) (new : UcbStr) :
    grownTo allocator str n new = str ∨ grownTo allocator str n new = new := by
  unfold grownTo
  split
  · rename_i grows
    split
    · exact .inr rfl
    · rename_i refused
      split
      · exact .inl rfl
      · rename_i nonempty
        exact absurd (granted grows nonempty) refused
  · exact .inl rfl

/-! ## What an operation leaves behind -/

/-- The string holds a text; its terminator may be damaged. -/
def HoldsText (str : UcbStr) : Prop :=
  ∃ content, Holds str content ∧ IsText content

/-- The operation left the string alone or in a state that meets the invariant. -/
def Kept (str str' : UcbStr) : Prop :=
  str' = str ∨ RepInv str'

theorem Kept.holdsText {str str' : UcbStr} (kept : Kept str str') (holds : HoldsText str) :
    HoldsText str' := by
  rcases kept with rfl | invariant
  · exact holds
  · exact invariant.holds

theorem Kept.repInv {str str' : UcbStr} (kept : Kept str str') (invariant : RepInv str) :
    RepInv str' := by
  rcases kept with rfl | kept
  · exact invariant
  · exact kept

theorem repInv_interned : RepInv .interned :=
  ⟨⟨[], .interned, isText_nil⟩, terminated_interned⟩

theorem repInv_owned {content : List UInt8} (isText : IsText content) (spare : List UInt8)
    {alloc : Nat} (above : content.length < alloc)
    (inside : alloc ≤ content.length + spare.length + 1) :
    RepInv (ownedStr content (0 :: spare) alloc) :=
  ⟨⟨content, .owned content (0 :: spare) alloc above
      (by rw [List.length_cons]; omega), isText⟩,
    terminated_owned content spare alloc⟩

theorem kept_grownTo {allocator : Allocator} {str : UcbStr} {n : Nat}
    (granted : RoomGranted allocator str n) {content : List UInt8} (isText : IsText content) :
    Kept str (grownTo allocator str n (ownedStr content [0] (content.length + 1))) := by
  rcases grownTo_of_roomGranted granted (ownedStr content [0] (content.length + 1)) with same | new
  · exact .inl same
  · rw [new]
    exact .inr (repInv_owned isText [] (Nat.lt_succ_self _) (by simp))

theorem Holds.release {str : UcbStr} {content : List UInt8} (holds : Holds str content) :
    ucbStrReleaseCommon str = .ok () := by
  cases holds with
  | interned => rfl
  | owned content spare alloc above inside =>
      have nonzero : alloc ≠ 0 := by omega
      simp [ucbStrReleaseCommon, ownedStr, nonzero]

/-- `ucb_str_init_common` makes a valid string unless memory is refused. -/
theorem initCommon_cases {allocator : Allocator} {str str' : UcbStr} {cstr : Option (List UInt8)}
    {len : Nat} {made : Bool} (ran : ucbStrInitCommon allocator str cstr len = .ok (str', made)) :
    (made = true ∧ RepInv str') ∨
      (made = false ∧ ∃ mem n, cstr = some mem ∧ cstrLen mem len = .ok n ∧
        ¬ allocator.grants .malloc (n + 1) = true) := by
  cases cstr with
  | none =>
      obtain ⟨rfl, rfl⟩ := Prod.mk.inj (Exec.ok.inj ran)
      exact .inl ⟨rfl, repInv_interned⟩
  | some mem =>
      obtain ⟨n, measured, ran⟩ := Exec.bind_eq_ok.mp ran
      obtain ⟨_, verified, ran⟩ := Exec.bind_eq_ok.mp ran
      by_cases granted : allocator.grants .malloc (n + 1) = true
      · rw [malloc_granted granted (Nat.succ_pos n)] at ran
        obtain ⟨bytes, read, ran⟩ := Exec.bind_eq_ok.mp ran
        obtain ⟨isText, rfl⟩ := text_of_verify_slice verified read
        have room : bytes.length ≤ (allocator.freshBlock (bytes.length + 1)).length := by simp
        have written := blit_spare [] (allocator.freshBlock (bytes.length + 1)) room
        have terminated := blit_terminator bytes
          ((allocator.freshBlock (bytes.length + 1)).drop bytes.length) (by simp)
        simp only [List.nil_append, List.length_nil] at written
        simp only [written, terminated, Exec.ok_bind] at ran
        obtain ⟨rfl, rfl⟩ := Prod.mk.inj (Exec.ok.inj ran)
        exact .inl ⟨rfl, repInv_owned isText _ (Nat.lt_succ_self _) (by simp)⟩
      · rw [malloc_refused granted] at ran
        obtain ⟨-, rfl⟩ := Prod.mk.inj (Exec.ok.inj ran)
        exact .inr ⟨rfl, mem, n, rfl, measured, granted⟩

end Ucb.Str
