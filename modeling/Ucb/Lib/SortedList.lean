import Mathlib.Data.List.Count
import Mathlib.Order.Compare

/-!
Contract: lists sorted by a comparison in which different elements can be equal.

Owns:
- how a value compares along a sorted list;
- the two positions that a search for the value can end at, and how many elements
  are less than it;
- the position behind the elements that are not greater, where it can be inserted.
-/

namespace Ucb.Lib

variable {α : Type} (cmp : α → α → Ordering)

/-- No element is greater than one behind it. -/
def SortedBy (xs : List α) : Prop :=
  xs.Pairwise fun before after => (cmp before after).isLE

/-- The last position that holds a value equal to `value`. -/
structure LastEqual (value : α) (xs : List α) (index : Nat) : Prop where
  equal : ∃ found, xs[index]? = some found ∧ cmp value found = .eq
  behind : ∀ j item, index < j → xs[j]? = some item → cmp value item = .lt

/-- The position that parts the elements less than `value` from the greater ones. -/
structure Parts (value : α) (xs : List α) (index : Nat) : Prop where
  inside : index ≤ xs.length
  before : ∀ j item, j < index → xs[j]? = some item → cmp value item = .gt
  behind : ∀ j item, index ≤ j → xs[j]? = some item → cmp value item = .lt

/-- The position behind the last element that is not greater than `value`. -/
structure InsertsAt (value : α) (xs : List α) (index : Nat) : Prop where
  inside : index ≤ xs.length
  before : ∀ j item, j < index → xs[j]? = some item → (cmp item value).isLE
  behind : ∀ j item, index ≤ j → xs[j]? = some item → cmp value item = .lt

variable {cmp} {value : α} {xs : List α} {i j index : Nat} {a b : α}

/-- There the list stays sorted. -/
theorem InsertsAt.sorted (inserts : InsertsAt cmp value xs index) (sorted : SortedBy cmp xs) :
    SortedBy cmp (xs.take index ++ value :: xs.drop index) := by
  have before : ∀ item ∈ xs.take index, (cmp item value).isLE := by
    intro item member
    obtain ⟨j, there⟩ := List.mem_iff_getElem?.mp member
    obtain ⟨below, -⟩ := List.getElem?_eq_some_iff.mp there
    rw [List.length_take] at below
    rw [List.getElem?_take_of_lt (by omega)] at there
    exact inserts.before j item (by omega) there
  have behind : ∀ item ∈ xs.drop index, cmp value item = .lt := by
    intro item member
    obtain ⟨j, there⟩ := List.mem_iff_getElem?.mp member
    rw [List.getElem?_drop] at there
    exact inserts.behind (index + j) item (by omega) there
  rw [← List.take_append_drop index xs] at sorted
  obtain ⟨inFront, inBack, across⟩ := List.pairwise_append.mp sorted
  refine List.pairwise_append.mpr ⟨inFront, List.pairwise_cons.mpr ⟨?_, inBack⟩, ?_⟩
  · intro item member
    rw [behind item member]
    rfl
  · intro first member second member'
    rcases List.mem_cons.mp member' with rfl | member'
    · exact before first member
    · exact across first member second member'

variable [Std.TransCmp cmp]

theorem SortedBy.isLE (sorted : SortedBy cmp xs) (order : i ≤ j) (first : xs[i]? = some a)
    (second : xs[j]? = some b) : (cmp a b).isLE := by
  rcases Nat.lt_or_eq_of_le order with before | rfl
  · obtain ⟨inside, rfl⟩ := List.getElem?_eq_some_iff.mp first
    obtain ⟨inside', rfl⟩ := List.getElem?_eq_some_iff.mp second
    exact List.pairwise_iff_getElem.mp sorted i j inside inside' before
  · obtain rfl := Option.some.inj (first.symm.trans second)
    exact Std.ReflCmp.isLE_rfl

/-- Behind an element that is greater than the value all are. -/
theorem SortedBy.lt_behind (sorted : SortedBy cmp xs) (order : i ≤ j) (first : xs[i]? = some a)
    (second : xs[j]? = some b) (less : cmp value a = .lt) : cmp value b = .lt :=
  Std.TransCmp.lt_of_lt_of_isLE less (sorted.isLE order first second)

/-- In front of an element that is less than the value all are. -/
theorem SortedBy.gt_before (sorted : SortedBy cmp xs) (order : i ≤ j) (first : xs[i]? = some a)
    (second : xs[j]? = some b) (greater : cmp value b = .gt) : cmp value a = .gt := by
  rw [Std.OrientedCmp.gt_iff_lt] at greater ⊢
  exact Std.TransCmp.lt_of_isLE_of_lt (sorted.isLE order first second) greater

/-- In front of an element that is not greater than the value none is. -/
theorem SortedBy.isLE_before (sorted : SortedBy cmp xs) (order : i ≤ j) (first : xs[i]? = some a)
    (second : xs[j]? = some b) (equal : cmp value b = .eq) : (cmp a value).isLE := by
  have equal' : cmp b value = .eq := by rwa [Std.OrientedCmp.eq_comm]
  exact Std.TransCmp.isLE_trans (sorted.isLE order first second) (by rw [equal']; rfl)

/-- Behind an equal element that the next one is not equal to, all are greater. -/
theorem SortedBy.lt_of_next (sorted : SortedBy cmp xs) (equal : ∃ found, xs[index]? = some found ∧
    cmp value found = .eq) (next : ∀ item, xs[index + 1]? = some item → cmp value item ≠ .eq) :
    LastEqual cmp value xs index where
  equal := equal
  behind := by
    obtain ⟨found, here, same⟩ := equal
    intro j item order there
    obtain ⟨inside, -⟩ := List.getElem?_eq_some_iff.mp there
    have after : xs[index + 1]? = some xs[index + 1] := List.getElem?_eq_getElem (by omega)
    have atMost : (cmp value xs[index + 1]).isLE := by
      rw [Std.TransCmp.congr_left same]
      exact sorted.isLE (Nat.le_succ index) here after
    have less : cmp value xs[index + 1] = .lt :=
      (Ordering.isLE_iff_eq_lt_or_eq_eq.mp atMost).resolve_right (next _ after)
    exact sorted.lt_behind order after there less

/-- The position that parts a list is the number of elements less than the value. -/
theorem Parts.countP (parts : Parts cmp value xs index) :
    xs.countP (fun item => cmp item value = .lt) = index := by
  have split := List.take_append_drop index xs
  have first : (xs.take index).countP (fun item => cmp item value = .lt) = index := by
    have all : ∀ item ∈ xs.take index, (decide (cmp item value = .lt)) = true := by
      intro item member
      obtain ⟨j, there⟩ := List.mem_iff_getElem?.mp member
      obtain ⟨below, -⟩ := List.getElem?_eq_some_iff.mp there
      rw [List.length_take] at below
      rw [List.getElem?_take_of_lt (by omega)] at there
      exact decide_eq_true (Std.OrientedCmp.gt_iff_lt.mp (parts.before j item (by omega) there))
    rw [List.countP_eq_length.mpr all, List.length_take, Nat.min_eq_left parts.inside]
  have second : (xs.drop index).countP (fun item => cmp item value = .lt) = 0 := by
    rw [List.countP_eq_zero]
    intro item member less
    obtain ⟨j, there⟩ := List.mem_iff_getElem?.mp member
    rw [List.getElem?_drop] at there
    have greater := parts.behind (index + j) item (by omega) there
    rw [decide_eq_true_eq, ← Std.OrientedCmp.gt_iff_lt, greater] at less
    cases less
  rw [← split, List.countP_append, first, second]
  rfl

theorem LastEqual.insertsAt (last : LastEqual cmp value xs index) (sorted : SortedBy cmp xs) :
    InsertsAt cmp value xs (index + 1) := by
  obtain ⟨found, here, equal⟩ := last.equal
  obtain ⟨inside, -⟩ := List.getElem?_eq_some_iff.mp here
  refine ⟨inside, fun j item order there => ?_, fun j item order => last.behind j item (by omega)⟩
  exact sorted.isLE_before (by omega) there here equal

theorem Parts.insertsAt (parts : Parts cmp value xs index) : InsertsAt cmp value xs index where
  inside := parts.inside
  before j item order there := by
    rw [Std.OrientedCmp.gt_iff_lt.mp (parts.before j item order there)]
    rfl
  behind := parts.behind

end Ucb.Lib
