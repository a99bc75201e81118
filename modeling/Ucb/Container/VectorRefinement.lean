import Ucb.Container.Vector
import Mathlib.Data.List.Basic

/-!
Contract: the typed vectors against lists.

Owns:
- `Holds`, that a vector holds a list in an array of its own;
- the list effect of each operation, and that it leaves the array live;
- exactly when a sequence of operations refines lists.

`fit` of an empty vector with room asks for an array of no elements. The request
frees the old array and gives `UCB_NULL`, which `fit` takes for a refusal. A request
for 2^64 bytes or more wraps around and gives too few cells.
-/

namespace Ucb.Container

open Ucb.Lib

variable {α : Type}

/-- The vector holds a list in a live array of `capacity` elements, or in none when the
capacity is 0. -/
structure Holds (width : Nat) (vec : UcbVectorT α) (content : List α) : Prop where
  size : vec.size = content.length
  inside : vec.size ≤ vec.capacity
  bytes : vec.capacity * width < 2 ^ 64
  array : (vec.data = .null ∧ vec.capacity = 0) ∨
    ∃ cells, vec.data = .heap cells ∧ cells.length = vec.capacity ∧ 0 < vec.capacity ∧
      Filled content cells

theorem holds_new (width : Nat) : Holds width (ucbVectorTNew : UcbVectorT α) [] where
  size := rfl
  inside := Nat.le_refl 0
  bytes := by simp [ucbVectorTNew]
  array := .inl ⟨rfl, rfl⟩

variable {width : Nat} {vec : UcbVectorT α} {content : List α}

theorem Holds.heap (holds : Holds width vec content) (room : 0 < vec.capacity) :
    ∃ spare, vec = ⟨.heap (content.map some ++ spare), content.length,
      content.length + spare.length⟩ := by
  obtain ⟨data, size, capacity⟩ := vec
  obtain ⟨rfl, inside, -, array⟩ := holds
  rcases array with ⟨-, none⟩ | ⟨cells, rfl, same, -, spare, rfl⟩
  · exact absurd none (Nat.ne_of_gt room)
  · refine ⟨spare, ?_⟩
    rw [List.length_append, List.length_map] at same
    rw [same]

/-! ## Capacity -/

/-- The capacity a request to `reserve` asks for. -/
def askedCapacity (newCapacity : Nat) : Nat :=
  if newCapacity = 0 then ucbVectorTDefaultCapacity else newCapacity

theorem askedCapacity_pos (newCapacity : Nat) : 0 < askedCapacity newCapacity := by
  rw [askedCapacity]
  split
  next none => decide
  next some => exact Nat.pos_of_ne_zero some

theorem le_askedCapacity (newCapacity : Nat) : newCapacity ≤ askedCapacity newCapacity := by
  rw [askedCapacity]
  split
  next none => simp [none]
  next some => exact Nat.le_refl _

theorem reserve_enough (allocator : Allocator) (width : Nat) {newCapacity : Nat}
    (enough : askedCapacity newCapacity ≤ vec.capacity) :
    ucbVectorTReserve allocator width vec newCapacity = .ok (vec, true) :=
  if_pos enough

/-- `reserve` of more than the vector has is a request to `ucb_realloc_type`. -/
theorem reserve_asks (allocator : Allocator) (width : Nat) {newCapacity : Nat}
    (more : vec.capacity < askedCapacity newCapacity) :
    ucbVectorTReserve allocator width vec newCapacity =
      ucbReallocType allocator width vec.data (askedCapacity newCapacity) >>= fun request =>
        match request.2 with
        | none => pure ({ vec with data := request.1 }, false)
        | some newData =>
            pure ({ vec with data := newData, capacity := askedCapacity newCapacity }, true) :=
  if_neg (Nat.not_le.mpr more)

/-- A wrapped request loses the array, or gives one with too few cells. -/
theorem reserve_wrapped {newCapacity : Nat} {allocator : Allocator} {after : UcbVectorT α}
    {reserved : Bool} (more : vec.capacity < askedCapacity newCapacity)
    (wraps : 2 ^ 64 ≤ askedCapacity newCapacity * width)
    (ran : ucbVectorTReserve allocator width vec newCapacity = .ok (after, reserved)) :
    (reserved = false ∧ after.size = vec.size) ∨
      (reserved = true ∧ ∃ cells, after.data = .heap cells ∧ cells.length < after.capacity) := by
  rw [reserve_asks allocator width more] at ran
  cases request : ucbReallocType allocator width vec.data (askedCapacity newCapacity) with
  | ok answer =>
      obtain ⟨old, answer⟩ := answer
      rw [request, Exec.ok_bind] at ran
      rcases realloc_wrapped vec.data wraps request with rfl | ⟨cells, rfl, short⟩
      · obtain ⟨rfl, rfl⟩ := Prod.mk.inj (Exec.ok.inj ran)
        exact .inl ⟨rfl, rfl⟩
      · obtain ⟨rfl, rfl⟩ := Prod.mk.inj (Exec.ok.inj ran)
        exact .inr ⟨rfl, cells, rfl, short⟩
  | abort code => simp [request] at ran
  | undefined => simp [request] at ran

/-- A vector with an array of too few cells holds no list. -/
theorem not_holds_of_short {cells : List (Option α)} (same : vec.data = .heap cells)
    (short : cells.length < vec.capacity) : ¬ Holds width vec content := by
  intro holds
  rcases holds.array with ⟨none, -⟩ | ⟨cells', some, length, -⟩
  · cases same.symm.trans none
  · obtain rfl := Storage.heap.inj (same.symm.trans some)
    exact absurd length (Nat.ne_of_lt short)

def GrowsWithin (width : Nat) (vec : UcbVectorT α) : Prop :=
  vec.size = vec.capacity → askedCapacity (vec.capacity * 2) * width < 2 ^ 64

section Capacity

variable {allocator : Allocator} (generous : allocator.Generous) (wide : 0 < width)

/-- A vector has fewer than 2^64 elements. -/
theorem Holds.capacity_lt (wide : 0 < width) (holds : Holds width vec content) :
    vec.capacity < 2 ^ 64 :=
  Nat.lt_of_le_of_lt (Nat.le_mul_of_pos_right _ wide) holds.bytes

include generous wide

theorem reserve_holds (holds : Holds width vec content) {newCapacity : Nat}
    (fits : askedCapacity newCapacity ≤ vec.capacity ∨
      askedCapacity newCapacity * width < 2 ^ 64) :
    ∃ after, ucbVectorTReserve allocator width vec newCapacity = .ok (after, true) ∧
      Holds width after content ∧ askedCapacity newCapacity ≤ after.capacity := by
  have nonzero := askedCapacity_pos newCapacity
  by_cases enough : askedCapacity newCapacity ≤ vec.capacity
  · exact ⟨vec, reserve_enough allocator width enough, holds, enough⟩
  · rw [reserve_asks allocator width (Nat.not_le.mp enough)]
    replace fits := fits.resolve_left enough
    generalize askedCapacity newCapacity = count at enough fits nonzero
    obtain ⟨data, size, capacity⟩ := vec
    obtain ⟨rfl, inside, -, array⟩ := holds
    dsimp only at enough inside array
    dsimp only
    rcases array with ⟨rfl, rfl⟩ | ⟨cells, rfl, rfl, -, spare, rfl⟩
    · have empty : content = [] := List.eq_nil_of_length_eq_zero (Nat.le_zero.mp inside)
      subst empty
      rw [realloc_null (generous .realloc _) wide nonzero fits]
      refine ⟨_, rfl, ?_, Nat.le_refl count⟩
      exact ⟨rfl, Nat.zero_le _, fits, .inr ⟨_, rfl, List.length_replicate, nonzero, _, rfl⟩⟩
    · have short : (content.map Option.some ++ spare).length ≤ count := by omega
      rw [realloc_heap (generous .realloc _) _ wide nonzero fits, List.take_of_length_le short]
      refine ⟨_, rfl, ?_, Nat.le_refl count⟩
      refine ⟨rfl, by dsimp only; omega, fits,
        .inr ⟨_, rfl, ?_, nonzero, _, List.append_assoc _ _ _⟩⟩
      rw [List.length_append, List.length_replicate]
      exact Nat.add_sub_of_le short

/-- Exactly the requests that do not wrap around are met. -/
theorem reserve_holds_iff (holds : Holds width vec content) (newCapacity : Nat) :
    (∃ after, ucbVectorTReserve allocator width vec newCapacity = .ok (after, true) ∧
      Holds width after content) ↔
      askedCapacity newCapacity ≤ vec.capacity ∨ askedCapacity newCapacity * width < 2 ^ 64 := by
  constructor
  · rintro ⟨after, reserved, holds'⟩
    by_contra wraps
    rw [not_or, Nat.not_le, Nat.not_lt] at wraps
    rcases reserve_wrapped wraps.1 wraps.2 reserved with ⟨refused, -⟩ | ⟨-, cells, same, short⟩
    · cases refused
    · exact not_holds_of_short same short holds'
  · intro fits
    obtain ⟨after, reserved, holds', -⟩ := reserve_holds generous wide holds fits
    exact ⟨after, reserved, holds'⟩

/-- Making room for one more element. -/
theorem grow_holds (holds : Holds width vec content) (grows : GrowsWithin width vec) :
    ∃ after, (if vec.size = vec.capacity then
        ucbVectorTReserve allocator width vec (vec.capacity * 2 % 2 ^ 64) else pure (vec, true)) =
          .ok (after, true) ∧ Holds width after content ∧ content.length < after.capacity := by
  have inside := holds.inside
  have size := holds.size
  by_cases full : vec.size = vec.capacity
  · have fits := grows full
    have double : vec.capacity * 2 % 2 ^ 64 = vec.capacity * 2 := by
      apply Nat.mod_eq_of_lt
      exact Nat.lt_of_le_of_lt
        (Nat.le_trans (le_askedCapacity _) (Nat.le_mul_of_pos_right _ wide)) fits
    obtain ⟨after, reserved, holds', enough⟩ := reserve_holds generous wide holds (.inr fits)
    refine ⟨after, by rw [if_pos full, double, reserved], holds', ?_⟩
    have more := le_askedCapacity (vec.capacity * 2)
    have nonzero := askedCapacity_pos (vec.capacity * 2)
    omega
  · exact ⟨vec, if_neg full, holds, by omega⟩

/-- `fit` keeps a vector right exactly when it is not empty or has no array. -/
theorem fit_holds_iff (holds : Holds width vec content) :
    (∃ after, ucbVectorTFit allocator width vec = .ok after ∧ Holds width after content) ↔
      vec.size ≠ 0 ∨ vec.capacity = 0 := by
  have inside := holds.inside
  by_cases loose : vec.capacity > vec.size
  · obtain ⟨spare, rfl⟩ := holds.heap (by omega)
    dsimp only at loose
    by_cases empty : content = []
    · -- the array is freed and the vector still points at it
      subst empty
      have freed : ucbVectorTFit allocator width
          (⟨.heap (([] : List α).map some ++ spare), ([] : List α).length,
            ([] : List α).length + spare.length⟩ : UcbVectorT α) =
          .ok ⟨.dangling, 0, ([] : List α).length + spare.length⟩ := by
        rw [ucbVectorTFit, if_pos loose, List.length_nil, realloc_zero]
        rfl
      rw [freed]
      constructor
      · rintro ⟨after, same, -, -, -, array⟩
        obtain rfl := Exec.ok.inj same
        rcases array with ⟨other, -⟩ | ⟨cells, other, -⟩
        · cases other
        · cases other
      · intro either
        rcases either with some | none
        · exact absurd rfl some
        · dsimp only at none
          omega
    · have nonzero : 0 < content.length := List.length_pos_iff.mpr empty
      have fits : content.length * width < 2 ^ 64 :=
        Nat.lt_of_le_of_lt (Nat.mul_le_mul_right width inside) holds.bytes
      apply iff_of_true
      · refine ⟨⟨.heap (content.map some), content.length, content.length⟩, ?_, ?_⟩
        · have whole : (content.map some ++ spare).take content.length = content.map some := by
            rw [← List.length_map (f := some), List.take_left]
          have noMore : content.length - (content.map some ++ spare).length = 0 := by simp
          simp only [ucbVectorTFit, if_pos loose,
            realloc_heap (generous .realloc _) _ wide nonzero fits, Exec.ok_bind,
            whole, noMore, List.replicate_zero, List.append_nil]
          rfl
        · exact ⟨rfl, Nat.le_refl _, fits,
            .inr ⟨_, rfl, List.length_map _, nonzero, [], (List.append_nil _).symm⟩⟩
      · exact .inl fun none => empty (List.eq_nil_of_length_eq_zero none)
  · apply iff_of_true
    · exact ⟨vec, by simp [ucbVectorTFit, loose], holds⟩
    · by_cases none : vec.capacity = 0
      · exact .inr none
      · exact .inl (by omega)

end Capacity

/-! ## Elements -/

section Elements

/-- An insertion is making room, moving and storing. -/
theorem ucbVectorTInsert_eq (allocator : Allocator) (width : Nat) (vec : UcbVectorT α)
    (index : Nat) (data : α) :
    ucbVectorTInsert allocator width vec index data =
      (ucbVerify (decide (index ≤ vec.size)) .invalidArg >>= fun _ =>
        (if vec.size = vec.capacity then
            ucbVectorTReserve allocator width vec (vec.capacity * 2 % 2 ^ 64)
          else pure (vec, true)) >>= fun grown =>
        if grown.2 then
          (if index < grown.1.size then
              grown.1.data.move (index + 1) index (grown.1.size - index)
            else pure grown.1.data) >>= fun moved =>
          moved.store index data >>= fun stored =>
          pure { grown.1 with data := stored, size := grown.1.size + 1 }
        else pure grown.1) := by
  have moving : ∀ grown : UcbVectorT α,
      (if index < grown.size then do
          let moved ← grown.data.move (index + 1) index (grown.size - index)
          let stored ← moved.store index data
          pure { grown with data := stored, size := grown.size + 1 }
        else do
          let stored ← grown.data.store index data
          pure { grown with data := stored, size := grown.size + 1 }) =
        ((if index < grown.size then grown.data.move (index + 1) index (grown.size - index)
          else pure grown.data) >>= fun moved =>
          moved.store index data >>= fun stored =>
          pure { grown with data := stored, size := grown.size + 1 }) := by
    intro grown
    split <;> rfl
  rw [ucbVectorTInsert]
  congr 1
  funext _
  split
  next full => simp only [← moving]; rfl
  next room => simp only [← moving]; rfl

/-- Move the elements behind `front` one cell up and store one in the gap. -/
theorem insert_cells (front back : List α) (cell : Option α) (spare : List (Option α)) (data : α) :
    ∃ moved, (if front.length < (front ++ back).length then
        (Storage.heap ((front ++ back).map some ++ cell :: spare)).move (front.length + 1)
          front.length ((front ++ back).length - front.length)
        else pure (.heap ((front ++ back).map some ++ cell :: spare))) = .ok moved ∧
      moved.store front.length data =
        .ok (.heap ((front ++ data :: back).map some ++ spare)) := by
  have count : (front ++ back).length - front.length = back.length := by
    rw [List.length_append, Nat.add_sub_cancel_left]
  rw [count, List.map_append, List.append_assoc]
  have stored : ∀ gap, (Storage.heap (front.map some ++ gap :: (back.map some ++ spare))).store
      front.length data = .ok (.heap ((front ++ data :: back).map some ++ spare)) := by
    intro gap
    rw [store_cells]
    simp
  cases back with
  | nil => exact ⟨_, if_neg (by simp), stored cell⟩
  | cons first rest =>
      obtain ⟨left, length, moved⟩ := move_up front (first :: rest) [cell] spare
      obtain ⟨gap, rfl⟩ := List.length_eq_one_iff.mp length
      exact ⟨_, (if_pos (by simp)).trans moved, stored gap⟩

end Elements

section Changes

variable {allocator : Allocator} (generous : allocator.Generous) (wide : 0 < width)
  {front back : List α}

/-- A vector of a non-empty list has an array. -/
theorem Holds.array_of_cons {data : α} (holds : Holds width vec (front ++ data :: back)) :
    ∃ spare, vec = ⟨.heap ((front ++ data :: back).map some ++ spare),
      (front ++ data :: back).length, (front ++ data :: back).length + spare.length⟩ := by
  apply holds.heap
  have inside := holds.inside
  rw [holds.size, List.length_append, List.length_cons] at inside
  omega

theorem holds_cells (content : List α) (spare : List (Option α))
    (some : content ≠ [] ∨ spare ≠ []) {capacity : Nat}
    (room : capacity = content.length + spare.length) (bytes : capacity * width < 2 ^ 64) :
    Holds width ⟨.heap (content.map Option.some ++ spare), content.length, capacity⟩ content where
  size := rfl
  inside := by dsimp only; omega
  bytes := bytes
  array := by
    refine .inr ⟨_, rfl, by simp [room], ?_, spare, rfl⟩
    dsimp only
    rcases some with some | some
    · have := List.length_pos_iff.mpr some
      omega
    · have := List.length_pos_iff.mpr some
      omega

include generous wide in
theorem insert_holds (holds : Holds width vec (front ++ back)) (grows : GrowsWithin width vec)
    (data : α) :
    ∃ after, ucbVectorTInsert allocator width vec front.length data = .ok after ∧
      Holds width after (front ++ data :: back) := by
  have index : front.length ≤ vec.size := by
    rw [holds.size, List.length_append]
    exact Nat.le_add_right _ _
  obtain ⟨grown, reserved, holds', room⟩ := grow_holds generous wide holds grows
  have bytes := holds'.bytes
  obtain ⟨spare, rfl⟩ := holds'.heap (by omega)
  dsimp only at room
  cases spare with
  | nil => exact absurd room (by simp)
  | cons cell spare =>
      obtain ⟨moved, shifted, stored⟩ := insert_cells front back cell spare data
      refine ⟨⟨.heap ((front ++ data :: back).map some ++ spare),
        (front ++ data :: back).length, (front ++ back).length + (cell :: spare).length⟩, ?_, ?_⟩
      · rw [ucbVectorTInsert_eq, reserved]
        simp only [ucbVerify, index, decide_true, if_true, Exec.ok_bind]
        rw [shifted, Exec.ok_bind, stored]
        simp [Nat.add_assoc]
      · exact holds_cells _ spare (.inl (by simp)) (by simp; omega) bytes

/-- Without a cell behind the elements there is none for another one. -/
theorem insert_outside (front back : List α) (data : α) {moved stored : Storage α}
    (shifted : (if front.length < (front ++ back).length then
        (Storage.heap ((front ++ back).map some)).move (front.length + 1) front.length
          ((front ++ back).length - front.length)
        else pure (.heap ((front ++ back).map some))) = .ok moved) :
    moved.store front.length data ≠ .ok stored := by
  cases back with
  | nil =>
      rw [if_neg (by simp), List.append_nil] at shifted
      obtain rfl := Exec.ok.inj shifted
      rw [store_outside (by simp)]
      intro impossible
      cases impossible
  | cons first rest =>
      have count : (front ++ first :: rest).length - front.length = (first :: rest).length := by
        rw [List.length_append, Nat.add_sub_cancel_left]
      have sliced := slice_cells front (first :: rest) []
      rw [List.append_nil, ← List.map_append] at sliced
      have outside : (Storage.heap ((front ++ first :: rest).map some)).blit (front.length + 1)
          ((first :: rest).map some) = .undefined :=
        blit_outside (by simp) (by simp)
      rw [if_pos (by simp), count, Storage.move, sliced, Exec.ok_bind, outside] at shifted
      cases shifted

/-- The doubled capacity wraps around to one that the vector has. -/
theorem asked_double {capacity : Nat} (below : capacity < 2 ^ 64) :
    askedCapacity (capacity * 2 % 2 ^ 64) ≤ capacity ∨ capacity * 2 % 2 ^ 64 = capacity * 2 := by
  by_cases small : capacity * 2 < 2 ^ 64
  · exact .inr (Nat.mod_eq_of_lt small)
  · refine .inl ?_
    have default : ucbVectorTDefaultCapacity = 8 := rfl
    rw [askedCapacity]
    split
    next none => omega
    next some => omega

/-- A full vector whose doubled capacity wraps around loses its array or writes behind it. -/
theorem insert_wrapped (wide : 0 < width) (holds : Holds width vec (front ++ back))
    (wraps : ¬ GrowsWithin width vec) {data : α} {after : UcbVectorT α}
    (ran : ucbVectorTInsert allocator width vec front.length data = .ok after) :
    ¬ Holds width after (front ++ data :: back) := by
  rw [GrowsWithin, Classical.not_imp, Nat.not_lt] at wraps
  obtain ⟨full, wraps⟩ := wraps
  rw [ucbVectorTInsert_eq, if_pos full] at ran
  obtain ⟨-, -, ran⟩ := Exec.bind_eq_ok.mp ran
  obtain ⟨⟨reserved, flag⟩, grown, ran⟩ := Exec.bind_eq_ok.mp ran
  dsimp only at ran
  by_cases enough : askedCapacity (vec.capacity * 2 % 2 ^ 64) ≤ vec.capacity
  · rw [reserve_enough allocator width enough] at grown
    obtain ⟨rfl, rfl⟩ := Prod.mk.inj (Exec.ok.inj grown)
    obtain ⟨spare, rfl⟩ := holds.heap (Nat.lt_of_lt_of_le (askedCapacity_pos _) enough)
    obtain rfl : spare = [] := List.eq_nil_of_length_eq_zero (by simpa using full)
    rw [if_pos rfl, List.append_nil] at ran
    obtain ⟨moved, shifted, ran⟩ := Exec.bind_eq_ok.mp ran
    obtain ⟨stored, written, -⟩ := Exec.bind_eq_ok.mp ran
    exact absurd written (insert_outside front back data shifted)
  · have double := (asked_double (holds.capacity_lt wide)).resolve_left enough
    rw [double] at grown enough
    rcases reserve_wrapped (Nat.not_le.mp enough) wraps grown with
      ⟨rfl, same⟩ | ⟨rfl, cells, array, short⟩
    · -- the array is lost and nothing is inserted
      obtain rfl := Exec.ok.inj ran
      intro holds'
      have size := holds'.size
      rw [same, holds.size] at size
      simp at size
    · rw [if_pos rfl, array] at ran
      obtain ⟨moved, shifted, ran⟩ := Exec.bind_eq_ok.mp ran
      obtain ⟨stored, written, ran⟩ := Exec.bind_eq_ok.mp ran
      obtain rfl := Exec.ok.inj ran
      obtain ⟨cells', rfl, kept⟩ :
        ∃ cells', moved = .heap cells' ∧ cells'.length = cells.length := by
        split at shifted
        next behind => exact move_room shifted
        next last => exact ⟨cells, (Exec.ok.inj shifted).symm, rfl⟩
      obtain ⟨cells'', rfl, kept'⟩ := store_room written
      exact not_holds_of_short rfl (by rw [kept', kept]; exact short)

include generous wide in
/-- Exactly the insertions that grow within 2^64 bytes, if at all, are right. -/
theorem insert_holds_iff (holds : Holds width vec (front ++ back)) (data : α) :
    (∃ after, ucbVectorTInsert allocator width vec front.length data = .ok after ∧
      Holds width after (front ++ data :: back)) ↔ GrowsWithin width vec := by
  constructor
  · rintro ⟨after, inserted, holds'⟩
    by_contra wraps
    exact insert_wrapped wide holds wraps inserted holds'
  · exact fun grows => insert_holds generous wide holds grows data

theorem remove_holds {data : α} (holds : Holds width vec (front ++ data :: back)) :
    ∃ after, ucbVectorTRemove vec front.length = .ok (after, data) ∧
      Holds width after (front ++ back) := by
  have bytes := holds.bytes
  obtain ⟨spare, rfl⟩ := holds.array_of_cons
  have index : front.length < (front ++ data :: back).length := by simp
  have some : (front ++ data :: back).length > 0 := Nat.zero_lt_of_lt index
  have last : (front ++ data :: back).length - 1 = (front ++ back).length := by simp
  have count : (front ++ data :: back).length - front.length - 1 = back.length := by
    simp
  have loaded : (Storage.heap ((front ++ data :: back).map Option.some ++ spare)).load
      front.length = .ok data := load_filled ⟨spare, rfl⟩ (by simp)
  have moved : ∃ spare', (if front.length < (front ++ back).length then
        (Storage.heap ((front ++ data :: back).map Option.some ++ spare)).move front.length
          (front.length + 1) back.length
        else pure (.heap ((front ++ data :: back).map Option.some ++ spare))) =
          .ok (.heap ((front ++ back).map Option.some ++ spare')) ∧
      spare'.length = spare.length + 1 := by
    cases back with
    | nil =>
        refine ⟨Option.some data :: spare, ?_, rfl⟩
        rw [if_neg (by simp)]
        simp
    | cons first rest =>
        obtain ⟨left, length, moved⟩ := move_down front (first :: rest) [Option.some data] spare
        have cells : (front ++ data :: first :: rest).map Option.some ++ spare =
            front.map Option.some ++ ([Option.some data] ++
              ((first :: rest).map Option.some ++ spare)) := by
          simp
        rw [List.length_singleton] at length moved
        refine ⟨left ++ spare, ?_, by rw [List.length_append, length, Nat.add_comm]⟩
        rw [if_pos (by simp), cells, moved]
        simp
  obtain ⟨spare', moved, longer⟩ := moved
  refine ⟨⟨.heap ((front ++ back).map Option.some ++ spare'), (front ++ back).length,
    (front ++ data :: back).length + spare.length⟩, ?_, ?_⟩
  · simp only [ucbVectorTRemove, ucbVerify, index, some, decide_true, if_true, Exec.ok_bind, loaded,
      last, count]
    split at moved
    next behind =>
      rw [if_pos behind, moved]
      rfl
    next last =>
      rw [if_neg last, moved]
      rfl
  · refine holds_cells _ spare' (.inr ?_) (by simp; omega) bytes
    exact List.ne_nil_of_length_eq_add_one longer

include generous wide in
theorem pushBack_holds_iff (holds : Holds width vec content) (data : α) :
    (∃ after, ucbVectorTPushBack allocator width vec data = .ok after ∧
      Holds width after (content ++ [data])) ↔ GrowsWithin width vec := by
  by_cases room : vec.size < vec.capacity
  · have bytes := holds.bytes
    refine iff_of_true ?_ fun full => absurd full (Nat.ne_of_lt room)
    obtain ⟨spare, rfl⟩ := holds.heap (by omega)
    cases spare with
    | nil => exact absurd room (by simp)
    | cons cell spare =>
        refine ⟨⟨.heap ((content ++ [data]).map some ++ spare), (content ++ [data]).length,
          content.length + (cell :: spare).length⟩, ?_, ?_⟩
        · rw [ucbVectorTPushBack, if_pos room]
          simp only [store_cells, Exec.ok_bind]
          simp
        · exact holds_cells _ spare (.inl (by simp)) (by simp; omega) bytes
  · have holds' : Holds width vec (content ++ []) := by rwa [List.append_nil]
    rw [ucbVectorTPushBack, if_neg room, holds.size]
    exact insert_holds_iff generous wide holds' data

include generous wide in
theorem pushFront_holds_iff (holds : Holds width vec content) (data : α) :
    (∃ after, ucbVectorTPushFront allocator width vec data = .ok after ∧
      Holds width after (data :: content)) ↔ GrowsWithin width vec := by
  by_cases fresh : vec.size = 0 ∧ vec.capacity > 0
  · obtain rfl : content = [] := List.eq_nil_of_length_eq_zero (holds.size ▸ fresh.1)
    rw [← pushBack_holds_iff generous wide holds data, ucbVectorTPushFront, if_pos fresh,
      ucbVectorTPushBack, if_pos (fresh.1 ▸ fresh.2), fresh.1]
    rfl
  · rw [ucbVectorTPushFront, if_neg fresh]
    have holds' : Holds width vec ([] ++ content) := holds
    exact insert_holds_iff generous wide holds' data

theorem popBack_holds {data : α} (holds : Holds width vec (front ++ [data])) :
    ∃ after, ucbVectorTPopBack vec = .ok (after, data) ∧ Holds width after front := by
  have bytes := holds.bytes
  obtain ⟨spare, rfl⟩ := holds.array_of_cons
  have some : (front ++ [data]).length ≠ 0 := by simp
  have last : (front ++ [data]).length - 1 = front.length := by simp
  have loaded : (Storage.heap ((front ++ [data]).map Option.some ++ spare)).load front.length =
      .ok data := load_filled ⟨spare, rfl⟩ (by simp)
  refine ⟨⟨.heap ((front ++ [data]).map Option.some ++ spare), front.length,
    (front ++ [data]).length + spare.length⟩, ?_, ?_⟩
  · simp only [ucbVectorTPopBack, ucbVerify, some, last, loaded, ne_eq, not_false_eq_true,
      decide_true, if_true, Exec.ok_bind]
    rfl
  · have kept :
        Holds width ⟨.heap (front.map Option.some ++ Option.some data :: spare), front.length,
        (front ++ [data]).length + spare.length⟩ front :=
      holds_cells front (Option.some data :: spare) (.inr (by simp)) (by simp; omega) bytes
    simpa using kept

theorem popFront_holds {data : α} (holds : Holds width vec (data :: content)) :
    ∃ after, ucbVectorTPopFront vec = .ok (after, data) ∧ Holds width after content := by
  have holds' : Holds width vec ([] ++ data :: content) := holds
  obtain ⟨after, removed, result⟩ := remove_holds holds'
  refine ⟨after, ?_, result⟩
  have some : vec.size ≠ 0 := by simp [holds.size]
  have index : 0 < vec.size := Nat.pos_of_ne_zero some
  simp only [ucbVectorTRemove, ucbVerify, List.length_nil, index, decide_true, if_true,
    Exec.ok_bind, Nat.sub_zero, Nat.zero_add] at removed
  simpa only [ucbVectorTPopFront, ucbVerify, some, ne_eq, not_false_eq_true, decide_true, if_true,
    Exec.ok_bind, gt_iff_lt] using removed

theorem get_holds (holds : Holds width vec content) {index : Nat} {data : α}
    (found : content[index]? = some data) : ucbVectorTGet vec index = .ok data := by
  obtain ⟨inside, -⟩ := List.getElem?_eq_some_iff.mp found
  obtain ⟨spare, rfl⟩ := holds.heap (by have := holds.inside; rw [holds.size] at this; omega)
  simp only [ucbVectorTGet, ucbVerify, inside, decide_true, if_true, Exec.ok_bind]
  exact load_filled ⟨spare, rfl⟩ found

theorem set_holds (holds : Holds width vec content) {index : Nat} (inside : index < content.length)
    (data : α) :
    ∃ after, ucbVectorTSet vec index data = .ok after ∧
      Holds width after (content.set index data) := by
  have bytes := holds.bytes
  obtain ⟨spare, rfl⟩ := holds.heap (by have := holds.inside; rw [holds.size] at this; omega)
  refine ⟨⟨.heap ((content.set index data).map some ++ spare), (content.set index data).length,
    content.length + spare.length⟩, ?_, ?_⟩
  · have stored : (Storage.heap (content.map some ++ spare)).store index data =
        .ok (.heap ((content.set index data).map some ++ spare)) := by
      rw [store_heap (by simp; omega), List.set_append_left _ _ (by simpa using inside),
        List.map_set]
    simp only [ucbVectorTSet, ucbVerify, inside, decide_true, if_true, Exec.ok_bind, stored,
      List.length_set]
    rfl
  · refine holds_cells _ spare (.inl ?_) (by simp) bytes
    exact List.length_pos_iff.mp (by rw [List.length_set]; omega)

/-! ## Whole vectors -/

theorem clear_holds (holds : Holds width vec content) : Holds width (ucbVectorTClear vec) [] where
  size := rfl
  inside := Nat.zero_le _
  bytes := holds.bytes
  array := by
    rcases holds.array with none | ⟨cells, same, length, some, -⟩
    · exact .inl none
    · exact .inr ⟨cells, same, length, some, cells, rfl⟩

include generous wide in
theorem copy_holds (narrow : ucbVectorTDefaultCapacity * width < 2 ^ 64) {dst src : UcbVectorT α}
    {old : List α} (held : Holds width dst old) (holds : Holds width src content) :
    ∃ after, ucbVectorTCopy allocator width dst src = .ok (after, true) ∧
      Holds width after content := by
  have fits : askedCapacity src.capacity * width < 2 ^ 64 := by
    rw [askedCapacity]
    split
    next none => exact narrow
    next some => exact holds.bytes
  obtain ⟨reserved, grown, empty, enough⟩ :=
    reserve_holds generous wide (clear_holds held) (.inr fits)
  have room : content.length ≤ reserved.capacity := by
    have inside := holds.inside
    rw [holds.size] at inside
    exact Nat.le_trans inside (Nat.le_trans (le_askedCapacity _) enough)
  have positive : 0 < reserved.capacity := Nat.lt_of_lt_of_le (askedCapacity_pos _) enough
  have bytes := empty.bytes
  obtain ⟨spare, rfl⟩ := empty.heap positive
  have sliced : src.data.slice 0 src.size = .ok (content.map some) := by
    rw [holds.size]
    rcases holds.array with ⟨-, none⟩ | ⟨cells, same, -, -, spare, rfl⟩
    · obtain rfl : content = [] := by
        have inside := holds.inside
        rw [none, holds.size] at inside
        exact List.eq_nil_of_length_eq_zero (Nat.le_zero.mp inside)
      rfl
    · rw [same]
      exact slice_cells [] content spare
  dsimp only [List.length_nil] at room
  have written := blit_cells [] (spare.take content.length) (content.map some)
    (spare.drop content.length) (by simp; omega)
  rw [List.take_append_drop] at written
  refine ⟨⟨.heap (content.map some ++ spare.drop content.length), content.length,
    ([] : List α).length + spare.length⟩, ?_, ?_⟩
  · simp only [ucbVectorTCopy, grown, Exec.ok_bind, sliced, if_true, List.map_nil, List.nil_append]
    rw [List.length_nil, List.nil_append, List.nil_append] at written
    rw [written, holds.size]
    rfl
  · refine holds_cells _ _ ?_ (by simp; omega) bytes
    by_cases none : content = []
    · subst none
      refine .inr (List.length_pos_iff.mp ?_)
      simpa using positive
    · exact .inl none

include generous wide in
theorem clone_holds (narrow : ucbVectorTDefaultCapacity * width < 2 ^ 64)
    (holds : Holds width vec content) :
    ∃ after, ucbVectorTClone allocator width vec = .ok (some after) ∧
      Holds width after content := by
  obtain ⟨after, copied, result⟩ := copy_holds generous wide narrow (holds_new width) holds
  exact ⟨after, by rw [ucbVectorTClone, copied]; rfl, result⟩

theorem move_holds {dst src : UcbVectorT α} {old : List α} (held : Holds width dst old) :
    ucbVectorTMove dst src = .ok (src, ucbVectorTNew) := by
  rcases held.array with ⟨none, -⟩ | ⟨cells, same, -⟩
  · rw [ucbVectorTMove, none]
    rfl
  · rw [ucbVectorTMove, same]
    rfl

end Changes

/-! ## Sequences of operations -/

section Sequences

variable {allocator : Allocator} (generous : allocator.Generous) (wide : 0 < width)
  (narrow : ucbVectorTDefaultCapacity * width < 2 ^ 64)
  {vecs : Nat → UcbVectorT α} {lists : Nat → List α}

def HoldAll (width : Nat) (vecs : Nat → UcbVectorT α) (lists : Nat → List α) : Prop :=
  ∀ vec, Holds width (vecs vec) (lists vec)

/-- The storage an operation asks for has its elements: `fit` meets a vector that has some,
or no room, and no growth asks for 2^64 bytes or more. -/
def FitsElements (width : Nat) (vecs : Nat → UcbVectorT α) : VectorOp α → Prop
  | .fit vec => (vecs vec).size ≠ 0 ∨ (vecs vec).capacity = 0
  | .reserve vec newCapacity =>
      askedCapacity newCapacity ≤ (vecs vec).capacity ∨
        askedCapacity newCapacity * width < 2 ^ 64
  | .insert vec _ _ | .pushBack vec _ | .pushFront vec _ => GrowsWithin width (vecs vec)
  | _ => True

/-- The operation as long as it keeps to its contract and memory. -/
def vectorRun (allocator : Allocator) (width : Nat) (vecs : Nat → UcbVectorT α)
    (op : VectorOp α) : Option ((Nat → UcbVectorT α) × VectorResult α) :=
  (vectorStep allocator width vecs op).returned

theorem HoldAll.update (holds : HoldAll width vecs lists) (index : Nat)
    (new : Holds width vec content) :
    HoldAll width (Function.update vecs index vec) (Function.update lists index content) := by
  intro other
  by_cases same : other = index
  · subst same
    simpa using new
  · simpa [same] using holds other

/-- An operation that changes one vector performs a list effect exactly when that
vector comes to hold the list. -/
theorem performs_replace (holds : HoldAll width vecs lists) {op : VectorOp α} {index : Nat}
    {outcome : Exec (UcbVectorT α × VectorResult α)} {result : VectorResult α}
    (step : vectorStep allocator width vecs op = replaceVec vecs index outcome) :
    Lib.Performs (vectorRun allocator width) (HoldAll width) vecs op
        (Function.update lists index content, result) ↔
      ∃ after, outcome = .ok (after, result) ∧ Holds width after content := by
  rw [Lib.Performs, vectorRun, step]
  constructor
  · rintro ⟨state, ran, related⟩
    cases outcome with
    | ok value =>
        obtain ⟨rfl, rfl⟩ := Prod.mk.inj (Option.some.inj ran)
        have new : Holds width value.1 content := by simpa using related index
        exact ⟨value.1, rfl, new⟩
    | abort code => cases ran
    | undefined => cases ran
  · rintro ⟨after, rfl, new⟩
    exact ⟨_, rfl, holds.update index new⟩

/-- The same with the change of the vector and the result apart. -/
theorem performs_change (holds : HoldAll width vecs lists) {op : VectorOp α} {index : Nat}
    {changed : Exec (UcbVectorT α)} {result : VectorResult α}
    (step : vectorStep allocator width vecs op =
      replaceVec vecs index (changed >>= fun vec => pure (vec, result))) :
    Lib.Performs (vectorRun allocator width) (HoldAll width) vecs op
        (Function.update lists index content, result) ↔
      ∃ after, changed = .ok after ∧ Holds width after content := by
  rw [performs_replace holds step]
  cases changed with
  | ok value => simp
  | abort code => simp
  | undefined => simp

theorem split_at {list : List α} {index : Nat} {data : α} (found : list[index]? = some data) :
    list = list.take index ++ data :: list.drop (index + 1) ∧ (list.take index).length = index := by
  obtain ⟨inside, rfl⟩ := List.getElem?_eq_some_iff.mp found
  exact ⟨by rw [List.getElem_cons_drop, List.take_append_drop], by simp; omega⟩

include generous wide narrow

/-- Each operation by itself has the list effect exactly when the storage it asks for
has its elements. -/
theorem performs_iff (holds : HoldAll width vecs lists) (op : VectorOp α)
    (after : (Nat → List α) × VectorResult α) (effect : listStep lists op = some after) :
    Lib.Performs (vectorRun allocator width) (HoldAll width) vecs op after ↔
      FitsElements width vecs op := by
  cases op with
  | reserve vec newCapacity =>
      obtain rfl := Option.some.inj effect
      rw [performs_replace holds rfl, FitsElements,
        ← reserve_holds_iff generous wide (holds vec)]
      cases ucbVectorTReserve allocator width (vecs vec) newCapacity with
      | ok answer => simp [Prod.ext_iff]
      | abort code => simp
      | undefined => simp
  | fit vec =>
      obtain rfl := Option.some.inj effect
      rw [performs_change holds rfl, fit_holds_iff generous wide (holds vec)]
      rfl
  | clear vec =>
      obtain rfl := Option.some.inj effect
      exact iff_of_true ((performs_replace holds rfl).mpr ⟨_, rfl, clear_holds (holds vec)⟩) trivial
  | insert vec index data =>
      simp only [listStep] at effect
      split at effect
      next inside =>
        obtain rfl := Option.some.inj effect
        have split := List.take_append_drop index (lists vec)
        have length : ((lists vec).take index).length = index := List.length_take_of_le inside
        have exact := insert_holds_iff generous wide (split ▸ holds vec) data
        rw [length] at exact
        rw [performs_change holds rfl, exact]
        rfl
      next outside => cases effect
  | remove vec index =>
      simp only [listStep] at effect
      split at effect
      next data found =>
        obtain rfl := Option.some.inj effect
        obtain ⟨split, length⟩ := split_at found
        obtain ⟨changed, removed, new⟩ := remove_holds (split ▸ holds vec)
        rw [length] at removed
        refine iff_of_true ((performs_replace holds rfl).mpr ⟨changed, ?_, new⟩) trivial
        rw [removed]
        rfl
      next => cases effect
  | pushBack vec data =>
      obtain rfl := Option.some.inj effect
      rw [performs_change holds rfl, pushBack_holds_iff generous wide (holds vec)]
      rfl
  | pushFront vec data =>
      obtain rfl := Option.some.inj effect
      rw [performs_change holds rfl, pushFront_holds_iff generous wide (holds vec)]
      rfl
  | popBack vec =>
      simp only [listStep] at effect
      split at effect
      next data last =>
        obtain rfl := Option.some.inj effect
        have split : lists vec = (lists vec).dropLast ++ [data] :=
          (List.dropLast_append_getLast? data last).symm
        obtain ⟨changed, popped, new⟩ := popBack_holds (split ▸ holds vec)
        refine iff_of_true ((performs_replace holds rfl).mpr ⟨changed, ?_, new⟩) trivial
        rw [popped]
        rfl
      next => cases effect
  | popFront vec =>
      simp only [listStep] at effect
      split at effect
      next data rest split =>
        obtain rfl := Option.some.inj effect
        obtain ⟨changed, popped, new⟩ := popFront_holds (split ▸ holds vec)
        refine iff_of_true ((performs_replace holds rfl).mpr ⟨changed, ?_, new⟩) trivial
        rw [popped]
        rfl
      next => cases effect
  | get vec index =>
      obtain ⟨data, found, rfl⟩ := Option.map_eq_some_iff.mp effect
      refine iff_of_true ⟨vecs, ?_, holds⟩ trivial
      rw [vectorRun, vectorStep, get_holds (holds vec) found]
      rfl
  | set vec index data =>
      simp only [listStep] at effect
      split at effect
      next inside =>
        obtain rfl := Option.some.inj effect
        exact iff_of_true ((performs_change holds rfl).mpr
          (set_holds (holds vec) inside data)) trivial
      next => cases effect
  | copy dst src =>
      simp only [listStep] at effect
      split at effect
      next apart =>
        obtain rfl := Option.some.inj effect
        obtain ⟨changed, copied, new⟩ := copy_holds generous wide narrow (holds dst) (holds src)
        refine iff_of_true ⟨Function.update vecs dst changed, ?_, holds.update dst new⟩ trivial
        rw [vectorRun, vectorStep, decide_eq_true apart, copied]
        rfl
      next => cases effect
  | clone dst src =>
      obtain rfl := Option.some.inj effect
      obtain ⟨changed, cloned, new⟩ := clone_holds generous wide narrow (holds src)
      refine iff_of_true ⟨Function.update vecs dst changed, ?_, holds.update dst new⟩ trivial
      rw [vectorRun, vectorStep, cloned]
      rfl
  | move dst src =>
      simp only [listStep] at effect
      split at effect
      next apart =>
        obtain rfl := Option.some.inj effect
        refine iff_of_true ⟨_, ?_,
          (holds.update dst (holds src)).update src (holds_new width)⟩ trivial
        rw [vectorRun, vectorStep, decide_eq_true apart, move_holds (holds dst)]
        rfl
      next => cases effect

/-- Sequences of operations on new vectors refine lists, with every array live, exactly
when the storage that each operation asks for has the elements. -/
theorem typedVectors_refine_iff {ops : List (VectorOp α)}
    (inContract : (performAll listStep (fun _ => ([] : List α)) ops).isSome) :
    RefinesOn (vectorRun allocator width) listStep (HoldAll width) (fun _ => ucbVectorTNew)
        (fun _ => []) ops ↔
      Throughout (vectorRun allocator width) (FitsElements width)
        (fun _ => ucbVectorTNew) ops :=
  refinesOn_iff (fun _ _ op after holds => performs_iff generous wide narrow holds op after)
    (fun _ => holds_new width) inContract

end Sequences

/-- A vector that keeps an element may be fitted. -/
theorem typedVectors_refine_iff_fit :
    RefinesOn (vectorRun ⟨fun _ _ => true, fun _ => 0⟩ 4) listStep (HoldAll 4)
        (fun _ => ucbVectorTNew) (fun _ => []) [VectorOp.pushBack 0 'a', .fit 0, .pushBack 0 'b'] ↔
      Throughout (vectorRun ⟨fun _ _ => true, fun _ => 0⟩ 4) (FitsElements 4)
        (fun _ => ucbVectorTNew) [VectorOp.pushBack 0 'a', .fit 0, .pushBack 0 'b'] :=
  typedVectors_refine_iff (fun _ _ => rfl) (by decide) (by decide) rfl

/-- The cleared vector has room for eight elements in memory that `fit` frees, and the
next element is written there. -/
theorem fit_of_cleared_vector :
    (performAll (vectorRun ⟨fun _ _ => true, fun _ => 0⟩ 4) (fun _ => ucbVectorTNew)
        [.pushBack 0 'a', .clear 0, .fit 0]).map (fun after => after.1 0) =
      some ⟨.dangling, 0, 8⟩ ∧
    (performAll (vectorRun ⟨fun _ _ => true, fun _ => 0⟩ 4) (fun _ => ucbVectorTNew)
        [.pushBack 0 'a', .clear 0, .fit 0, .pushBack 0 'b']).isNone ∧
    (performAll listStep (fun _ => [])
        [VectorOp.pushBack 0 'a', .clear 0, .fit 0, .pushBack 0 'b']).map (fun after => after.1 0) =
      some ['b'] ∧
    ¬ RefinesOn (vectorRun ⟨fun _ _ => true, fun _ => 0⟩ 4) listStep (HoldAll 4)
        (fun _ => ucbVectorTNew) (fun _ => [])
        [VectorOp.pushBack 0 'a', .clear 0, .fit 0, .pushBack 0 'b'] := by
  refine ⟨rfl, rfl, rfl, ?_⟩
  intro refines
  obtain ⟨state, ran, -⟩ := refines _ [] (List.append_nil _).symm _ rfl
  cases ran

end Ucb.Container
