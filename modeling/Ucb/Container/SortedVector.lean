import Ucb.Container.VectorRefinement
import Ucb.Lib.SortedList

/-!
Contract: search and insertion in typed vectors that are kept sorted.

Owns:
- `find_with` and `insert_sorted_with` of `vector_template.h`;
- what they do for every comparison that is a total preorder.

`vector_str` and the other instances repeat the template. Positions are `ucb_ssize`,
whose arithmetic is undefined when it overflows.
-/

namespace Ucb.Container

open Ucb.Lib

variable {α : Type}

/-! ## Search and insertion -/

/-- The value of a `size_t` as a `ucb_ssize`. -/
def ssizeOf (size : Nat) : Int :=
  if size < 2 ^ 63 then size else (size : Int) - 2 ^ 64

/-- The result of arithmetic on `ucb_ssize`. -/
def ssizeResult (value : Int) : Exec Int :=
  if -2 ^ 63 ≤ value ∧ value < 2 ^ 63 then pure value else .undefined

def Storage.loadAt (data : Storage α) (index : Int) : Exec α :=
  if 0 ≤ index then data.load index.toNat else .undefined

/-- The inner loop of `UCB_VECTOR_T_FIND_WITH`. -/
def findRightmost (func : α → α → Int) (data : Storage α) (val : α) (high mid : Int) : Exec Int :=
  if _below : mid < high then do
    let next ← data.loadAt (mid + 1)
    if func val next = 0 then findRightmost func data val high (mid + 1) else pure mid
  else pure mid
termination_by (high - mid).toNat
decreasing_by omega

/-- The loop of `UCB_VECTOR_T_FIND_WITH`. The two ends are positions of the array or next
to one, so only the result can overflow. -/
def findLoop (func : α → α → Int) (data : Storage α) (val : α) (low high : Int) : Exec Int :=
  if _inside : low ≤ high then do
    let mid := low + (high - low) / 2
    let item ← data.loadAt mid
    let cmp := func val item
    if cmp = 0 then findRightmost func data val high mid
    else if cmp < 0 then findLoop func data val low (mid - 1)
    else findLoop func data val (mid + 1) high
  else do
    let position ← ssizeResult (low + 1)
    ssizeResult (-position)
termination_by (high - low + 1).toNat
decreasing_by all_goals omega

def ucbVectorTFindWith (vec : UcbVectorT α) (val : α) (func : α → α → Int) : Exec Int := do
  let high ← ssizeResult (ssizeOf vec.size - 1)
  findLoop func vec.data val 0 high

/-- `ins_pos`: to the right of a match, or where a new element belongs. -/
def insertPosition (pos : Int) : Exec Int :=
  if pos ≥ 0 then ssizeResult (pos + 1)
  else do
    let positive ← ssizeResult (-pos)
    ssizeResult (positive - 1)

/-- `UCB_VECTOR_T_INSERT_SORTED_WITH`: the vector and the position that is returned. -/
def ucbVectorTInsertSortedWith (allocator : Allocator) (width : Nat) (vec : UcbVectorT α) (val : α)
    (func : α → α → Int) : Exec (UcbVectorT α × Nat) := do
  let pos ← ucbVectorTFindWith vec val func
  let insPos ← insertPosition pos
  let vec ← ucbVectorTInsert allocator width vec insPos.toNat val
  pure (vec, insPos.toNat)

/-! ## Comparisons -/

/-- The order of two elements by the sign of what a comparison function returns. -/
def orderOf (func : α → α → Int) (a b : α) : Ordering :=
  if func a b < 0 then .lt else if func a b = 0 then .eq else .gt

variable {func : α → α → Int} {a b : α}

theorem orderOf_eq : orderOf func a b = .eq ↔ func a b = 0 := by
  unfold orderOf
  split
  next => simp; omega
  next => split <;> simp [*]

theorem orderOf_lt : orderOf func a b = .lt ↔ func a b < 0 := by
  unfold orderOf
  split
  next less => simp [less]
  next other => split <;> simp [other]

theorem orderOf_gt : orderOf func a b = .gt ↔ 0 < func a b := by
  unfold orderOf
  split
  next => simp; omega
  next => split <;> simp <;> omega

/-! ## Search -/

section Search

variable {width : Nat} {vec : UcbVectorT α} {content : List α} {val : α} {low high mid : Int}

theorem loadAt_holds (holds : Holds width vec content) {index : Nat} {item : α}
    (found : content[index]? = some item) : vec.data.loadAt index = .ok item := by
  have load := get_holds holds found
  obtain ⟨inside, -⟩ := List.getElem?_eq_some_iff.mp found
  have below : index < vec.size := holds.size ▸ inside
  simp only [ucbVectorTGet, ucbVerify, below, decide_true, if_true, Exec.ok_bind] at load
  rw [Storage.loadAt, if_pos (Int.natCast_nonneg index), Int.toNat_natCast, load]

/-- The result of a search that is where the value belongs. -/
def FindResult (func : α → α → Int) (val : α) (content : List α) (result : Int) : Prop :=
  (∃ index : Nat, result = index ∧ LastEqual (orderOf func) val content index) ∨
    ∃ index : Nat, result = -(index + 1) ∧ Parts (orderOf func) val content index

/-- The value inserted behind all elements that are not greater. -/
structure Inserted (func : α → α → Int) (val : α) (content : List α) (position : Nat)
    (after : List α) : Prop where
  inside : position ≤ content.length
  placed : after = content.take position ++ val :: content.drop position
  sorted : SortedBy (orderOf func) after
  behindEqual : ∀ j item, content[j]? = some item → func val item = 0 → j < position

theorem insertsAt_inserted {position : Nat}
    (inserts : InsertsAt (orderOf func) val content position)
    (sorted : SortedBy (orderOf func) content) :
    Inserted func val content position
      (content.take position ++ val :: content.drop position) where
  inside := inserts.inside
  placed := rfl
  sorted := inserts.sorted sorted
  behindEqual j item there equal := by
    by_contra notBefore
    have less := inserts.behind j item (by omega) there
    rw [orderOf_eq.mpr equal] at less
    cases less

/-- An array that is no larger than an object can be, of elements of more than a byte, has
positions that fit and room to double. -/
theorem positions_of_object (wide : 1 < width)
    (narrow : ucbVectorTDefaultCapacity * width < 2 ^ 64) (holds : Holds width vec content)
    (object : vec.capacity * width < 2 ^ 63) :
    content.length + 1 < 2 ^ 63 ∧ GrowsWithin width vec := by
  have inside := holds.inside
  have size := holds.size
  have doubled : vec.capacity * 2 ≤ vec.capacity * width := Nat.mul_le_mul_left _ wide
  refine ⟨by omega, fun _ => ?_⟩
  rw [askedCapacity]
  split
  next => exact narrow
  next =>
    have regrouped : vec.capacity * 2 * width = 2 * (vec.capacity * width) := by
      rw [Nat.mul_comm vec.capacity 2, Nat.mul_assoc]
    omega

variable [Std.TransCmp (orderOf func)]

/-- Walking right from an equal element ends at the last one: behind `high` all are
greater. -/
theorem findRightmost_last (holds : Holds width vec content)
    (sorted : SortedBy (orderOf func) content)
    {index last : Nat} (order : index ≤ last) (inside : last < content.length)
    (equal : ∃ item, content[index]? = some item ∧ func val item = 0)
    (behind : ∀ j item, last < j → content[j]? = some item → orderOf func val item = .lt) :
    ∃ found : Nat, findRightmost func vec.data val last index = .ok found ∧
      LastEqual (orderOf func) val content found := by
  obtain ⟨item, here, same⟩ := equal
  have isEqual : ∃ item, content[index]? = some item ∧ orderOf func val item = .eq :=
    ⟨item, here, orderOf_eq.mpr same⟩
  rw [findRightmost]
  split
  next below =>
    have next : content[index + 1]? = some content[index + 1] :=
      List.getElem?_eq_getElem (by omega)
    have load : vec.data.loadAt ((index : Int) + 1) = .ok content[index + 1] :=
      loadAt_holds holds next
    have step : index + 1 ≤ last := by omega
    rw [load, Exec.ok_bind]
    split
    next equal => exact findRightmost_last holds sorted step inside ⟨_, next, equal⟩ behind
    next other =>
      refine ⟨index, rfl, sorted.lt_of_next isEqual fun item found => ?_⟩
      obtain rfl := Option.some.inj (next.symm.trans found)
      exact orderOf_eq.not.mpr other
  next atEnd =>
    obtain rfl : index = last := by omega
    exact ⟨index, rfl, ⟨isEqual, behind⟩⟩
termination_by last - index

/-- The search keeps that all in front of `low` are less than the value, and all behind
`high` greater. -/
theorem findLoop_result (holds : Holds width vec content) (sorted : SortedBy (orderOf func) content)
    (positions : content.length + 1 < 2 ^ 63) (low : Nat) (high : Int) (order : low ≤ high + 1)
    (inside : high < content.length)
    (before : ∀ j item, j < low → content[j]? = some item → orderOf func val item = .gt)
    (behind : ∀ (j : Nat) item, high < j → content[j]? = some item → orderOf func val item = .lt) :
    ∃ result, findLoop func vec.data val low high = .ok result ∧
      FindResult func val content result := by
  rw [findLoop]
  split
  next open_ =>
    obtain ⟨mid, isMid⟩ : ∃ mid : Nat, (low : Int) + (high - low) / 2 = mid :=
      ⟨((low : Int) + (high - low) / 2).toNat, by omega⟩
    have here : content[mid]? = some content[mid] := List.getElem?_eq_getElem (by omega)
    simp only [isMid, loadAt_holds holds here, Exec.ok_bind]
    split
    next equal =>
      obtain ⟨last, rfl⟩ : ∃ last : Nat, high = last := ⟨high.toNat, by omega⟩
      have reached : mid ≤ last := by omega
      obtain ⟨found, walked, isLast⟩ := findRightmost_last holds sorted reached (by omega)
        ⟨_, here, equal⟩ fun j item order there => behind j item (by omega) there
      exact ⟨found, walked, .inl ⟨found, rfl, isLast⟩⟩
    next different =>
      split
      next less =>
        refine findLoop_result holds sorted positions low (mid - 1) (by omega) (by omega) before ?_
        intro j item order there
        exact sorted.lt_behind (by omega) here there (orderOf_lt.mpr less)
      next notLess =>
        have greater : orderOf func val content[mid] = .gt := orderOf_gt.mpr (by omega)
        refine findLoop_result holds sorted positions (mid + 1) high (by omega) inside ?_ behind
        intro j item order there
        exact sorted.gt_before (by omega) there here greater
  next closed =>
    have parts : Parts (orderOf func) val content low :=
      ⟨by omega, before, fun j item order there => behind j item (by omega) there⟩
    refine ⟨-(low + 1), ?_, .inr ⟨low, rfl, parts⟩⟩
    rw [ssizeResult, if_pos (by omega), Exec.pure_eq_ok, Exec.ok_bind, ssizeResult,
      if_pos (by omega), Exec.pure_eq_ok]
termination_by (high - low + 1).toNat
decreasing_by all_goals omega

/-- A search ends at the last equal element, or says how many are less. -/
theorem findWith_result (holds : Holds width vec content) (sorted : SortedBy (orderOf func) content)
    (positions : content.length + 1 < 2 ^ 63) (val : α) :
    ∃ result, ucbVectorTFindWith vec val func = .ok result ∧
      FindResult func val content result := by
  have size := holds.size
  obtain ⟨result, searched, isResult⟩ := findLoop_result holds sorted positions 0
    (content.length - 1) (by omega) (by omega)
      (fun j item order => absurd order (Nat.not_lt_zero j))
    fun j item order there => by
      obtain ⟨inside, -⟩ := List.getElem?_eq_some_iff.mp there
      omega
  refine ⟨result, ?_, isResult⟩
  rw [ucbVectorTFindWith, ssizeOf, if_pos (by omega), size, ssizeResult, if_pos (by omega),
    Exec.pure_eq_ok, Exec.ok_bind]
  exact searched

/-- The position that is made of the result of a search. -/
theorem findResult_position {result : Int} (found : FindResult func val content result)
    (sorted : SortedBy (orderOf func) content) (positions : content.length + 1 < 2 ^ 63) :
    ∃ position : Nat, insertPosition result = .ok (position : Int) ∧
      InsertsAt (orderOf func) val content position := by
  rcases found with ⟨index, rfl, last⟩ | ⟨index, rfl, parts⟩
  · have belongs := last.insertsAt sorted
    have inside := belongs.inside
    refine ⟨index + 1, ?_, belongs⟩
    rw [insertPosition, if_pos (Int.natCast_nonneg index), ssizeResult, if_pos (by omega)]
    rfl
  · have inside := parts.inside
    refine ⟨index, ?_, parts.insertsAt⟩
    rw [insertPosition, if_neg (by omega), ssizeResult, if_pos (by omega), Exec.pure_eq_ok,
      Exec.ok_bind, ssizeResult, if_pos (by omega), Exec.pure_eq_ok]
    congr 1
    omega

/-- An insertion puts the value behind all elements that are not greater. -/
theorem insertSortedWith_inserted {allocator : Allocator} (generous : allocator.Generous)
    (wide : 0 < width) (holds : Holds width vec content)
    (sorted : SortedBy (orderOf func) content) (positions : content.length + 1 < 2 ^ 63)
    (grows : GrowsWithin width vec) (val : α) :
    ∃ after position list,
      ucbVectorTInsertSortedWith allocator width vec val func = .ok (after, position) ∧
        Holds width after list ∧ Inserted func val content position list := by
  obtain ⟨result, searched, found⟩ := findWith_result holds sorted positions val
  obtain ⟨position, made, belongs⟩ := findResult_position found sorted positions
  have split : Holds width vec (content.take position ++ content.drop position) := by
    rwa [List.take_append_drop]
  have long : (content.take position).length = position := by
    rw [List.length_take, Nat.min_eq_left belongs.inside]
  obtain ⟨after, inserted, holds'⟩ := insert_holds generous wide split grows val
  refine ⟨after, position, _, ?_, holds', insertsAt_inserted belongs sorted⟩
  rw [long] at inserted
  rw [ucbVectorTInsertSortedWith, searched, Exec.ok_bind, made, Exec.ok_bind, Int.toNat_natCast,
    inserted, Exec.ok_bind, Exec.pure_eq_ok]

/-- For every comparison that is a total preorder, a search in a sorted vector finds the last
equal element or counts the elements that are less, and an insertion keeps the vector sorted. -/
theorem sorted_find_and_insert {allocator : Allocator} (generous : allocator.Generous)
    (wide : 1 < width) (narrow : ucbVectorTDefaultCapacity * width < 2 ^ 64)
    (holds : Holds width vec content) (object : vec.capacity * width < 2 ^ 63)
    (sorted : SortedBy (orderOf func) content) (val : α) :
    (∃ result, ucbVectorTFindWith vec val func = .ok result ∧
      ((∃ item ∈ content, func val item = 0) →
        ∃ index : Nat, result = index ∧ LastEqual (orderOf func) val content index) ∧
      ((∀ item ∈ content, func val item ≠ 0) →
        result = -(content.countP (fun item => func item val < 0) + 1))) ∧
    ∃ after position list,
      ucbVectorTInsertSortedWith allocator width vec val func = .ok (after, position) ∧
        Holds width after list ∧ Inserted func val content position list := by
  obtain ⟨positions, grows⟩ := positions_of_object wide narrow holds object
  refine ⟨?_, insertSortedWith_inserted generous (by omega) holds sorted positions grows val⟩
  obtain ⟨result, searched, found⟩ := findWith_result holds sorted positions val
  refine ⟨result, searched, fun some => ?_, fun none => ?_⟩
  · rcases found with last | ⟨index, -, parts⟩
    · exact last
    · obtain ⟨item, member, equal⟩ := some
      obtain ⟨j, there⟩ := List.mem_iff_getElem?.mp member
      have before := (insertsAt_inserted parts.insertsAt sorted).behindEqual j item there equal
      have greater := parts.before j item before there
      rw [orderOf_eq.mpr equal] at greater
      cases greater
  · rcases found with ⟨index, -, last⟩ | ⟨index, rfl, parts⟩
    · obtain ⟨item, here, equal⟩ := last.equal
      exact absurd (orderOf_eq.mp equal) (none item (List.mem_of_getElem? here))
    · have count := parts.countP
      simp only [orderOf_lt] at count
      rw [count]

end Search

theorem orderOf_sub : (orderOf fun a b : Int => a - b) = compare := by
  funext a b
  have less : a - b < 0 ↔ a < b := by omega
  have same : a - b = 0 ↔ a = b := by omega
  simp only [orderOf, less, same]
  rfl

/-- A five into a vector of a three and two fives. -/
theorem sorted_find_and_insert_fives :
    ∃ after position list,
      ucbVectorTInsertSortedWith ⟨fun _ _ => true, fun _ => 0⟩ 4
          ⟨.heap [some 3, some 5, some 5, none], 3, 4⟩ (5 : Int) (fun a b => a - b) =
        .ok (after, position) ∧
      Holds 4 after list ∧ Inserted (fun a b => a - b) 5 [3, 5, 5] position list := by
  have : Std.TransCmp (orderOf fun a b : Int => a - b) := by
    rw [orderOf_sub]
    infer_instance
  exact (sorted_find_and_insert (fun _ _ => rfl) (by decide) (by decide)
    ⟨rfl, by decide, by decide, .inr ⟨_, rfl, rfl, by decide, [none], rfl⟩⟩ (by decide)
    (by unfold SortedBy; decide) 5).2

end Ucb.Container
