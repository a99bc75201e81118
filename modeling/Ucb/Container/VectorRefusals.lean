import Ucb.Container.VectorRefinement
import Ucb.Lib.Refusal

/-!
Contract: the typed vectors when the allocator refuses a request.

Owns:
- what each operation does when the array it needs is refused;
- exactly which sequences leave the vectors as they were at each refusal.

A refused `ucb_realloc` has freed the array, and the vector still points at it. Only a
vector without an array has nothing to lose.
-/

namespace Ucb.Container

open Ucb.Lib

variable {α : Type}

/-- The typed vectors of one element width, with the lists they hold. -/
def typedVectors (α : Type) (width : Nat) :
    Component Allocator (Nat → UcbVectorT α) (VectorOp α) (VectorResult α) (Nat → List α) where
  step allocator := vectorRun allocator width
  granting := Allocator.granting
  holds := HoldAll width

/-- What `reserve` asks for, if anything, is not refused. -/
def RequestGranted (allocator : Allocator) (width : Nat) (vec : UcbVectorT α) (newCapacity : Nat) :
    Prop :=
  vec.capacity < askedCapacity newCapacity →
    allocator.grants .realloc (askedCapacity newCapacity * width % 2 ^ 64) = true

/-- What an insertion asks for, if anything, is not refused. -/
def InsertGranted (allocator : Allocator) (width : Nat) (vec : UcbVectorT α) : Prop :=
  vec.size = vec.capacity →
    RequestGranted allocator width vec (vec.capacity * 2 % 2 ^ 64)

/-- What `fit` asks for, if anything, is not refused. -/
def ShrinkGranted (allocator : Allocator) (width : Nat) (vec : UcbVectorT α) : Prop :=
  vec.size < vec.capacity → allocator.grants .realloc (vec.size * width % 2 ^ 64) = true

/-- No vector that has an array is refused what it asks for. -/
def ArraysGranted (width : Nat) (vecs : Nat → UcbVectorT α) (call : Allocator × VectorOp α) :
    Prop :=
  match call.2 with
  | .reserve vec newCapacity =>
      0 < (vecs vec).capacity → RequestGranted call.1 width (vecs vec) newCapacity
  | .fit vec => 0 < (vecs vec).capacity → ShrinkGranted call.1 width (vecs vec)
  | .insert vec _ _ | .pushBack vec _ | .pushFront vec _ =>
      0 < (vecs vec).capacity → InsertGranted call.1 width (vecs vec)
  | .copy dst src =>
      0 < (vecs dst).capacity → RequestGranted call.1 width (vecs dst) (vecs src).capacity
  | _ => True

/-- The operation has a list effect, and the storage for its elements when no refusal shows. -/
def ProperVectorCall (width : Nat) (vecs : Nat → UcbVectorT α) (call : Allocator × VectorOp α) :
    Prop :=
  (∃ lists, HoldAll width vecs lists ∧ (listStep lists call.2).isSome) ∧
    ((typedVectors α width).Unhindered vecs call → FitsElements width vecs call.2)

/-! ## Requests for arrays -/

/-- A vector that has been refused an array. It has lost the one it had. -/
def deniedVec (vec : UcbVectorT α) : UcbVectorT α :=
  { vec with data := if vec.capacity = 0 then vec.data else .dangling }

theorem deniedVec_of_none {vec : UcbVectorT α} (noArray : vec.capacity = 0) :
    deniedVec vec = vec := by
  rw [deniedVec, if_pos noArray]

section Requests

variable {allocator : Allocator} {width newCapacity : Nat} {vec : UcbVectorT α} {content : List α}

/-- A vector without an array does not need one to be freed. -/
theorem Holds.freed (holds : Holds width vec content) :
    vec.data.freed = .ok (if vec.capacity = 0 then vec.data else .dangling) := by
  rcases holds.array with ⟨null, noRoom⟩ | ⟨cells, same, -, room, -⟩
  · rw [if_pos noRoom, null]
    rfl
  · rw [if_neg (Nat.ne_of_gt room), same]
    rfl

/-- `reserve` with the request it makes granted, or with none. -/
theorem reserve_granting (granted : RequestGranted allocator width vec newCapacity) :
    ucbVectorTReserve allocator width vec newCapacity =
      ucbVectorTReserve allocator.granting width vec newCapacity := by
  by_cases enough : askedCapacity newCapacity ≤ vec.capacity
  · rw [reserve_enough allocator width enough, reserve_enough _ width enough]
  · have more := Nat.not_le.mp enough
    rw [reserve_asks allocator width more, reserve_asks _ width more,
      realloc_granting (granted more)]

theorem reserve_denied (holds : Holds width vec content)
    (refused : ¬ RequestGranted allocator width vec newCapacity) :
    ucbVectorTReserve allocator width vec newCapacity =
      .ok (deniedVec vec, false) := by
  obtain ⟨more, refused⟩ := Classical.not_imp.mp refused
  rw [reserve_asks allocator width more, realloc_refused refused holds.freed]
  rfl

/-- `fit` with the request it makes granted, or with none. -/
theorem fit_granting (granted : ShrinkGranted allocator width vec) :
    ucbVectorTFit allocator width vec = ucbVectorTFit allocator.granting width vec := by
  by_cases loose : vec.capacity > vec.size
  · simp only [ucbVectorTFit, realloc_granting (granted loose)]
  · simp only [ucbVectorTFit, if_neg loose]

theorem fit_denied (holds : Holds width vec content)
    (refused : ¬ ShrinkGranted allocator width vec) :
    ucbVectorTFit allocator width vec = .ok (deniedVec vec) := by
  obtain ⟨loose, refused⟩ := Classical.not_imp.mp refused
  rw [ucbVectorTFit, if_pos loose, realloc_refused refused holds.freed]
  rfl

theorem insert_granting (granted : InsertGranted allocator width vec) (index : Nat) (data : α) :
    ucbVectorTInsert allocator width vec index data =
      ucbVectorTInsert allocator.granting width vec index data := by
  by_cases full : vec.size = vec.capacity
  · rw [ucbVectorTInsert, ucbVectorTInsert, reserve_granting (granted full)]
  · simp only [ucbVectorTInsert, if_neg full]

theorem insert_denied (holds : Holds width vec content)
    (refused : ¬ InsertGranted allocator width vec) {index : Nat} (inside : index ≤ content.length)
    (data : α) :
    ucbVectorTInsert allocator width vec index data =
      .ok (deniedVec vec) := by
  obtain ⟨full, refused⟩ := Classical.not_imp.mp refused
  rw [ucbVectorTInsert_eq, holds.size, decide_eq_true inside, ucbVerify_true, Exec.ok_bind,
    ← holds.size, if_pos full, reserve_denied holds refused]
  rfl

theorem pushBack_granting (granted : InsertGranted allocator width vec) (data : α) :
    ucbVectorTPushBack allocator width vec data =
      ucbVectorTPushBack allocator.granting width vec data := by
  rw [ucbVectorTPushBack, ucbVectorTPushBack, insert_granting granted]

theorem pushBack_denied (holds : Holds width vec content)
    (refused : ¬ InsertGranted allocator width vec) (data : α) :
    ucbVectorTPushBack allocator width vec data =
      .ok (deniedVec vec) := by
  have full := (Classical.not_imp.mp refused).1
  rw [ucbVectorTPushBack, if_neg (Nat.not_lt.mpr (Nat.le_of_eq full.symm)),
    insert_denied holds refused (Nat.le_of_eq holds.size)]

theorem pushFront_granting (granted : InsertGranted allocator width vec) (data : α) :
    ucbVectorTPushFront allocator width vec data =
      ucbVectorTPushFront allocator.granting width vec data := by
  rw [ucbVectorTPushFront, ucbVectorTPushFront, insert_granting granted]

theorem pushFront_denied (holds : Holds width vec content)
    (refused : ¬ InsertGranted allocator width vec) (data : α) :
    ucbVectorTPushFront allocator width vec data =
      .ok (deniedVec vec) := by
  have full := (Classical.not_imp.mp refused).1
  rw [ucbVectorTPushFront, if_neg (by omega), insert_denied holds refused (Nat.zero_le _)]

/-- A copy with the request it makes granted, or with none. -/
theorem copy_granting {dst src : UcbVectorT α}
    (granted : RequestGranted allocator width dst src.capacity) :
    ucbVectorTCopy allocator width dst src = ucbVectorTCopy allocator.granting width dst src := by
  have cleared : ucbVectorTReserve allocator width (ucbVectorTClear dst) src.capacity =
      ucbVectorTReserve allocator.granting width (ucbVectorTClear dst) src.capacity :=
    reserve_granting granted
  rw [ucbVectorTCopy, ucbVectorTCopy, cleared]

theorem copy_denied {dst src : UcbVectorT α} (holds : Holds width dst content)
    (refused : ¬ RequestGranted allocator width dst src.capacity) :
    ucbVectorTCopy allocator width dst src =
      .ok (deniedVec (ucbVectorTClear dst), false) := by
  have refused : ¬ RequestGranted allocator width (ucbVectorTClear dst) src.capacity := refused
  rw [ucbVectorTCopy, reserve_denied (clear_holds holds) refused]
  rfl

theorem clone_denied
    (refused : ¬ RequestGranted allocator width (ucbVectorTNew : UcbVectorT α) vec.capacity) :
    ucbVectorTClone allocator width vec = .ok none := by
  rw [ucbVectorTClone, copy_denied (holds_new width) refused]
  rfl

/-- A vector that points at freed memory holds nothing. -/
theorem not_holds_of_dangling (dangling : vec.data = .dangling) : ¬ Holds width vec content := by
  intro holds
  rcases holds.array with ⟨null, -⟩ | ⟨cells, heap, -⟩
  · cases dangling.symm.trans null
  · cases dangling.symm.trans heap

end Requests

/-! ## Operations -/

section Operations

variable {allocator : Allocator} {width : Nat} {vecs : Nat → UcbVectorT α} {op : VectorOp α}

/-- An operation in which no refusal shows leaves lists in all vectors. -/
theorem withstands_granted (wide : 0 < width) (narrow : ucbVectorTDefaultCapacity * width < 2 ^ 64)
    (proper : ProperVectorCall width vecs (allocator, op))
    (unhindered : (typedVectors α width).Unhindered vecs (allocator, op)) :
    (typedVectors α width).Withstands vecs (allocator, op) := by
  apply Component.withstands_of_unhindered unhindered
  intro after ran
  obtain ⟨⟨lists, holds, inRange⟩, fits⟩ := proper
  obtain ⟨effect, found⟩ := Option.isSome_iff_exists.mp inRange
  obtain ⟨state, ran', related⟩ :=
    (performs_iff allocator.granting_generous wide narrow holds op effect found).mpr
      (fits unhindered)
  obtain rfl := Option.some.inj (ran'.symm.trans (unhindered.symm.trans ran))
  exact ⟨effect.1, related⟩

/-- An operation that asks for an array of one vector. -/
theorem withstands_iff_granted (wide : 0 < width)
    (narrow : ucbVectorTDefaultCapacity * width < 2 ^ 64)
    (proper : ProperVectorCall width vecs (allocator, op)) (index : Nat) {granted : Prop}
    (same : granted → vectorStep allocator width vecs op =
      vectorStep allocator.granting width vecs op)
    (refusal : ¬ granted → ∃ before result,
      vectorStep allocator width vecs op =
          .ok (Function.update vecs index (deniedVec before), result) ∧
        before.capacity = (vecs index).capacity ∧
        ((vecs index).capacity = 0 → before = vecs index)) :
    (typedVectors α width).Withstands vecs (allocator, op) ↔
      (0 < (vecs index).capacity → granted) := by
  by_cases met : granted
  · refine iff_of_true (withstands_granted wide narrow proper ?_) fun _ => met
    exact congrArg Exec.returned (same met)
  · obtain ⟨before, result, stepped, capacity, kept⟩ := refusal met
    have ran : (typedVectors α width).run vecs (allocator, op) =
        some (Function.update vecs index (deniedVec before), result) :=
      congrArg Exec.returned stepped
    by_cases noArray : (vecs index).capacity = 0
    · rw [kept noArray, deniedVec_of_none noArray, Function.update_eq_self] at ran
      obtain ⟨lists, holds, -⟩ := proper.1
      exact iff_of_true (Component.withstands_of_survives ran ⟨lists, holds⟩ fun _ held => held)
        fun some => absurd noArray (Nat.ne_of_gt some)
    · refine iff_of_false (Component.not_withstands ran ?_) ?_
      · rintro ⟨lists, holds⟩
        have here : Holds width (Function.update vecs index (deniedVec before) index)
          (lists index) := holds index
        rw [Function.update_self] at here
        exact not_holds_of_dangling (if_neg (capacity ▸ noArray)) here
      · exact fun all => met (all (Nat.pos_of_ne_zero noArray))

/-- The vectors withstand the refusals of an operation exactly when no vector that has an array
is refused what it asks for. -/
theorem typedVectors_sparedBy (wide : 0 < width)
    (narrow : ucbVectorTDefaultCapacity * width < 2 ^ 64) :
    (typedVectors α width).SparedBy (ProperVectorCall width) (ArraysGranted width) := by
  rintro vecs ⟨allocator, op⟩ - proper
  have free (same : vectorStep allocator width vecs op =
      vectorStep allocator.granting width vecs op) :
      (typedVectors α width).Withstands vecs (allocator, op) :=
    withstands_granted wide narrow proper (congrArg Exec.returned same)
  obtain ⟨lists, holds, inRange⟩ := proper.1
  cases op with
  | reserve vec newCapacity =>
      refine withstands_iff_granted wide narrow proper vec (fun granted => ?_) fun refused => ?_
      · simp only [vectorStep, reserve_granting granted]
      · refine ⟨vecs vec, .flag false, ?_, rfl, fun _ => rfl⟩
        rw [vectorStep, reserve_denied (holds vec) refused]
        rfl
  | fit vec =>
      refine withstands_iff_granted wide narrow proper vec (fun granted => ?_) fun refused => ?_
      · simp only [vectorStep, fit_granting granted]
      · refine ⟨vecs vec, .nothing, ?_, rfl, fun _ => rfl⟩
        rw [vectorStep, fit_denied (holds vec) refused]
        rfl
  | insert vec index data =>
      have inside : index ≤ (lists vec).length := by
        by_contra outside
        rw [listStep, if_neg outside] at inRange
        cases inRange
      refine withstands_iff_granted wide narrow proper vec (fun granted => ?_) fun refused => ?_
      · simp only [vectorStep, insert_granting granted]
      · refine ⟨vecs vec, .nothing, ?_, rfl, fun _ => rfl⟩
        rw [vectorStep, insert_denied (holds vec) refused inside]
        rfl
  | pushBack vec data =>
      refine withstands_iff_granted wide narrow proper vec (fun granted => ?_) fun refused => ?_
      · simp only [vectorStep, pushBack_granting granted]
      · refine ⟨vecs vec, .nothing, ?_, rfl, fun _ => rfl⟩
        rw [vectorStep, pushBack_denied (holds vec) refused]
        rfl
  | pushFront vec data =>
      refine withstands_iff_granted wide narrow proper vec (fun granted => ?_) fun refused => ?_
      · simp only [vectorStep, pushFront_granting granted]
      · refine ⟨vecs vec, .nothing, ?_, rfl, fun _ => rfl⟩
        rw [vectorStep, pushFront_denied (holds vec) refused]
        rfl
  | copy dst src =>
      have apart : dst ≠ src := by
        intro same
        rw [listStep, if_neg (not_not.mpr same)] at inRange
        cases inRange
      refine withstands_iff_granted wide narrow proper dst (fun granted => ?_) fun refused => ?_
      · simp only [vectorStep, copy_granting granted]
      · refine ⟨ucbVectorTClear (vecs dst), .flag false, ?_, rfl, fun noArray => ?_⟩
        · rw [vectorStep, decide_eq_true apart, copy_denied (holds dst) refused]
          rfl
        · have inside := (holds dst).inside
          have empty : (vecs dst).size = 0 := by omega
          rw [ucbVectorTClear, ← empty]
  | clone dst src =>
      refine iff_of_true ?_ trivial
      by_cases granted : RequestGranted allocator width (ucbVectorTNew : UcbVectorT α)
          (vecs src).capacity
      · apply free
        simp only [vectorStep, ucbVectorTClone, copy_granting granted]
      · have stepped : vectorStep allocator width vecs (.clone dst src) =
            .ok (vecs, .flag false) := by
          rw [vectorStep, clone_denied granted]
          rfl
        have ran : (typedVectors α width).run vecs (allocator, .clone dst src) =
            some (vecs, .flag false) :=
          congrArg Exec.returned stepped
        exact Component.withstands_of_survives ran ⟨lists, holds⟩ fun _ held => held
  | clear vec | remove vec index | popBack vec | popFront vec | get vec index
  | set vec index data | move dst src => exact iff_of_true (free rfl) trivial

/-- New vectors hold empty lists. -/
theorem typedVectors_sound (α : Type) (width : Nat) :
    (typedVectors α width).Sound fun _ => ucbVectorTNew :=
  ⟨fun _ => [], fun _ => holds_new width⟩

end Operations

end Ucb.Container
