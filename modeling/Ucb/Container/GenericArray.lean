import Ucb.Container.GenericVector

/-!
Contract: single operations of the generic vector on the array they work in.

Owns:
- `Keeps`, that a vector keeps a list in an array with room for `capacity` elements;
- capacity, insertion, removal and access against the list, and exactly when they
  leave such an array.

`fit` of an empty vector frees the array. A vector that was moved from has capacity 0,
twice which is 0. A request for 2^64 bytes or more wraps around.
-/

namespace Ucb.Container

open Ucb.Lib

/-! ## Vectors that keep a list -/

/-- The array has room for `capacity` elements of `esize` bytes and begins with `bytes`.
Without an array there is no capacity. -/
def Room (data : Storage UInt8) (capacity esize : Nat) (bytes : List UInt8) : Prop :=
  (data = .null ∧ capacity = 0 ∧ bytes = []) ∨
    (0 < capacity ∧ ∃ spare, data = .heap (bytes.map some ++ spare) ∧
      capacity * esize ≤ bytes.length + spare.length ∧ bytes.length + spare.length < 2 ^ 64)

def VectorMode.vector (mode : VectorMode) (data : Storage UInt8) (size capacity : Nat) :
    UcbVector :=
  ⟨data, mode.esize, size, capacity, mode.owns, mode.owns, mode.isPointer⟩

structure Keeps (vec : UcbVector) (list : ItemList) : Prop where
  fields : vec = list.mode.vector vec.data list.items.length vec.capacity
  inside : list.items.length ≤ vec.capacity
  array : Room vec.data vec.capacity list.mode.esize list.items.flatten

theorem Keeps.elim {vec : UcbVector} {list : ItemList} (keeps : Keeps vec list) :
    ∃ data capacity, vec = list.mode.vector data list.items.length capacity ∧
      list.items.length ≤ capacity ∧ Room data capacity list.mode.esize list.items.flatten :=
  ⟨_, _, keeps.fields, keeps.inside, keeps.array⟩

section Fields

variable (mode : VectorMode) (data : Storage UInt8) (size capacity : Nat)

@[simp] theorem vector_data : (mode.vector data size capacity).data = data := rfl
@[simp] theorem vector_esize : (mode.vector data size capacity).esize = mode.esize := rfl
@[simp] theorem vector_size : (mode.vector data size capacity).size = size := rfl
@[simp] theorem vector_capacity : (mode.vector data size capacity).capacity = capacity := rfl
@[simp] theorem vector_clone : (mode.vector data size capacity).dataClone = mode.owns := rfl
@[simp] theorem vector_free : (mode.vector data size capacity).dataFree = mode.owns := rfl
@[simp] theorem vector_pointer : (mode.vector data size capacity).isPointer = mode.isPointer := rfl

@[simp] theorem vector_mk :
    (⟨data, mode.esize, size, capacity, mode.owns, mode.owns, mode.isPointer⟩ : UcbVector) =
      mode.vector data size capacity := rfl

end Fields

theorem VectorMode.wide (mode : VectorMode) : 0 < mode.esize := by
  cases mode with
  | value esize wide => exact wide
  | borrowed => decide
  | owned => decide

theorem VectorMode.pointer_esize {mode : VectorMode} (pointer : mode.isPointer = true) :
    mode.esize = pointerSize := by
  cases mode with
  | value esize wide => cases pointer
  | borrowed => rfl
  | owned => rfl

theorem VectorMode.owns_pointer {mode : VectorMode} (owns : mode.owns = true) :
    mode.isPointer = true := by
  cases mode with
  | value esize wide => cases owns
  | borrowed => cases owns
  | owned => rfl

theorem flatten_length {esize : Nat} {items : List (List UInt8)}
    (sized : ∀ item ∈ items, item.length = esize) :
    items.flatten.length = items.length * esize := by
  induction items with
  | nil => simp
  | cons item rest inductionHypothesis =>
      rw [List.flatten_cons, List.length_append, sized item List.mem_cons_self,
        inductionHypothesis fun other inside => sized other (List.mem_cons_of_mem _ inside),
        List.length_cons, Nat.succ_mul, Nat.add_comm]

/-- A vector with elements, or with capacity, has an array. -/
theorem Room.heap {data : Storage UInt8} {capacity esize : Nat} {bytes : List UInt8}
    (array : Room data capacity esize bytes) (positive : 0 < capacity) :
    ∃ spare, data = .heap (bytes.map some ++ spare) ∧
      capacity * esize ≤ bytes.length + spare.length ∧ bytes.length + spare.length < 2 ^ 64 := by
  rcases array with ⟨-, none, -⟩ | ⟨-, some⟩
  · exact absurd none (Nat.ne_of_gt positive)
  · exact some

theorem Room.le_room {data : Storage UInt8} {capacity esize : Nat} {bytes : List UInt8}
    (array : Room data capacity esize bytes) : capacity * esize ≤ data.room := by
  rcases array with ⟨rfl, rfl, -⟩ | ⟨-, spare, rfl, enough, -⟩
  · simp
  · simpa [Storage.room] using enough

/-- The requests for the elements of a kept vector do not wrap around. -/
theorem Room.bytes_lt {data : Storage UInt8} {capacity esize : Nat} {bytes : List UInt8}
    (array : Room data capacity esize bytes) : capacity * esize < 2 ^ 64 := by
  rcases array with ⟨-, rfl, -⟩ | ⟨-, spare, -, enough, small⟩
  · simp
  · exact Nat.lt_of_le_of_lt enough small

/-! ## Elements -/

section Elements

variable {mode : VectorMode} {front back : List (List UInt8)} {item : List UInt8}

theorem loadAll_item (sized : ∀ item ∈ front, item.length = mode.esize)
    (size : item.length = mode.esize) (cells : List (Option UInt8)) :
    (Storage.heap (front.flatten.map some ++ (item.map some ++ cells))).loadAll
      (front.length * mode.esize) mode.esize = .ok item := by
  rw [← flatten_length sized]
  have loaded := loadAll_cells front.flatten item cells
  rwa [size] at loaded

theorem pointerAt_item (mode : VectorMode) (pointer : mode.isPointer = true)
    (sized : ∀ item ∈ front, item.length = mode.esize) (size : item.length = mode.esize)
    (cells : List (Option UInt8)) :
    pointerAt (.heap (front.flatten.map some ++ (item.map some ++ cells))) front.length =
      .ok item := by
  rw [pointerAt, ← VectorMode.pointer_esize pointer]
  exact loadAll_item sized size cells

theorem itemAt_item (sized : ∀ item ∈ front, item.length = mode.esize)
    (size : item.length = mode.esize) (cells : List (Option UInt8)) (count capacity : Nat) :
    itemAt (mode.vector (.heap (front.flatten.map some ++ (item.map some ++ cells))) count capacity)
      front.length = .ok item := by
  rw [itemAt]
  split
  next pointer => exact pointerAt_item _ pointer sized size cells
  next value => exact loadAll_item sized size cells

/-- A loop over the elements meets them in order. -/
theorem pointersFrom_items (pointer : mode.isPointer = true) {items : List (List UInt8)}
    (cells : List (Option UInt8)) : ∀ front : List (List UInt8),
      (∀ item ∈ front, item.length = mode.esize) → (∀ item ∈ items, item.length = mode.esize) →
      pointersFrom (.heap (front.flatten.map some ++ (items.flatten.map some ++ cells)))
        front.length items.length = .ok items := by
  induction items with
  | nil =>
      intro front sized others
      rfl
  | cons item rest inductionHypothesis =>
      intro front sized others
      have size := others item List.mem_cons_self
      have first := pointerAt_item _ pointer sized size (rest.flatten.map some ++ cells)
      have more := inductionHypothesis (front ++ [item])
        (fun other inside => by
          rcases List.mem_append.mp inside with before | last
          · exact sized other before
          · obtain rfl := List.mem_singleton.mp last
            exact size)
        fun other inside => others other (List.mem_cons_of_mem _ inside)
      have same : front.flatten.map some ++ ((item :: rest).flatten.map some ++ cells) =
          front.flatten.map some ++ (item.map some ++ (rest.flatten.map some ++ cells)) := by
        simp
      have same' : (front ++ [item]).flatten.map some ++ (rest.flatten.map some ++ cells) =
          front.flatten.map some ++ (item.map some ++ (rest.flatten.map some ++ cells)) := by
        simp
      rw [same', List.length_append, List.length_singleton] at more
      rw [same, List.length_cons, pointersFrom, first, Exec.ok_bind, more]
      rfl

end Elements

/-! ## Clearing -/

/-- The loop of `ucb_vector_clear` and of `ucb_vector_copy` meets the elements. -/
theorem Room.pointers {data : Storage UInt8} {capacity : Nat} (list : ItemList)
    (inside : list.items.length ≤ capacity)
    (array : Room data capacity list.mode.esize list.items.flatten)
    (pointer : list.mode.isPointer = true) :
    pointersFrom data 0 list.items.length = .ok list.items := by
  rcases array with ⟨-, rfl, -⟩ | ⟨-, spare, rfl, -⟩
  · rw [List.eq_nil_of_length_eq_zero (Nat.le_zero.mp inside)]
    rfl
  · exact pointersFrom_items pointer spare [] (by simp) list.sized

theorem sized_nil (mode : VectorMode) :
    ∀ item ∈ ([] : List (List UInt8)), item.length = mode.esize := by
  simp

def emptyList (mode : VectorMode) : ItemList := ⟨mode, [], sized_nil mode⟩

theorem Room.clear {data : Storage UInt8} {capacity esize : Nat} {bytes : List UInt8}
    (array : Room data capacity esize bytes) : Room data capacity esize [] := by
  rcases array with ⟨null, none, -⟩ | ⟨some, spare, same, enough, small⟩
  · exact .inl ⟨null, none, rfl⟩
  · exact .inr ⟨some, bytes.map Option.some ++ spare, same, by simpa using enough,
      by simpa using small⟩

/-- Clearing frees the items of a vector that owns them. -/
theorem clear_vector {data : Storage UInt8} {capacity : Nat} {list : ItemList}
    (inside : list.items.length ≤ capacity)
    (array : Room data capacity list.mode.esize list.items.flatten) :
    ucbVectorClear (list.mode.vector data list.items.length capacity) =
      .ok (list.mode.vector data 0 capacity, list.mode.dropped list.items) := by
  obtain ⟨mode, items, sized⟩ := list
  cases mode with
  | value esize wide => rfl
  | borrowed => rfl
  | owned =>
      have pointers : pointersFrom data 0 items.length = .ok items :=
        Room.pointers ⟨.owned, items, sized⟩ inside array rfl
      show (pointersFrom data 0 items.length >>= fun freed => pure (_, freed)) = _
      rw [pointers]
      rfl

theorem clear_keeps {data : Storage UInt8} {capacity : Nat} {mode : VectorMode}
    {bytes : List UInt8} (array : Room data capacity mode.esize bytes) :
    Keeps (mode.vector data 0 capacity) (emptyList mode) :=
  ⟨rfl, Nat.zero_le _, array.clear⟩

/-! ## Capacity -/

section Capacity

variable {allocator : Allocator} {mode : VectorMode} {data : Storage UInt8}
  {size capacity : Nat} {bytes : List UInt8}

/-- `ucb_realloc` behind `ucb_vector_reserve`. -/
theorem reserve_asks_bytes (allocator : Allocator) {vec : UcbVector} {newCapacity : Nat}
    (more : vec.capacity < newCapacity) :
    ucbVectorReserve allocator vec newCapacity =
      ucbReallocType allocator 1 vec.data (newCapacity * vec.esize % 2 ^ 64) >>= fun request =>
        match request.2 with
        | none => pure ({ vec with data := request.1 }, false)
        | some newData => pure ({ vec with data := newData, capacity := newCapacity }, true) :=
  if_neg (Nat.not_le.mpr more)

theorem reserve_enough_bytes (allocator : Allocator) {vec : UcbVector} {newCapacity : Nat}
    (enough : newCapacity ≤ vec.capacity) :
    ucbVectorReserve allocator vec newCapacity = .ok (vec, true) :=
  if_pos enough

theorem realloc_bytes (generous : allocator.Generous) {esize : Nat}
    (array : Room data capacity esize bytes) {count : Nat} (nonzero : 0 < count)
    (small : count < 2 ^ 64) (enough : bytes.length ≤ count) :
    ∃ old spare, ucbReallocType allocator 1 data count =
      .ok (old, some (.heap (bytes.map some ++ spare))) ∧ bytes.length + spare.length = count := by
  rcases array with ⟨rfl, -, rfl⟩ | ⟨-, spare, rfl, -⟩
  · refine ⟨.null, List.replicate count none, ?_, by simp⟩
    exact realloc_null (generous .realloc _) Nat.one_pos nonzero (by rwa [Nat.mul_one])
  · refine ⟨.dangling, spare.take (count - bytes.length) ++
      List.replicate (count - (bytes.map some ++ spare).length) none, ?_, ?_⟩
    · rw [realloc_heap (generous .realloc _) _ Nat.one_pos nonzero (by rwa [Nat.mul_one]),
        List.take_append, List.take_of_length_le (by rwa [List.length_map]), List.length_map,
        List.append_assoc]
    · simp only [List.length_append, List.length_map, List.length_take, List.length_replicate]
      omega

/-- A request for more elements than there are, below 2^64 bytes, gives the room. The array
may have been one of elements of another size. -/
theorem reserve_grows (generous : allocator.Generous) (size : Nat) {esize : Nat}
    (array : Room data capacity esize bytes) {newCapacity : Nat} (more : capacity < newCapacity)
    (fits : newCapacity * mode.esize < 2 ^ 64) (used : bytes.length ≤ newCapacity * mode.esize) :
    ∃ data', ucbVectorReserve allocator (mode.vector data size capacity) newCapacity =
        .ok (mode.vector data' size newCapacity, true) ∧
      Room data' newCapacity mode.esize bytes := by
  have nonzero : 0 < newCapacity * mode.esize := Nat.mul_pos (Nat.zero_lt_of_lt more) mode.wide
  obtain ⟨old, spare, request, length⟩ := realloc_bytes generous array nonzero fits used
  refine ⟨.heap (bytes.map some ++ spare), ?_, ?_⟩
  · rw [reserve_asks_bytes allocator more, vector_esize, vector_data, Nat.mod_eq_of_lt fits,
      request]
    rfl
  · exact .inr ⟨Nat.zero_lt_of_lt more, spare, rfl, Nat.le_of_eq length.symm, by omega⟩

/-- A request for fewer than 2^64 bytes gives the room. -/
theorem reserve_vector (generous : allocator.Generous) (size : Nat)
    (array : Room data capacity mode.esize bytes) {newCapacity : Nat}
    (fits : newCapacity ≤ capacity ∨ newCapacity * mode.esize < 2 ^ 64)
    (used : bytes.length ≤ capacity * mode.esize) :
    ∃ data' capacity', ucbVectorReserve allocator (mode.vector data size capacity) newCapacity =
        .ok (mode.vector data' size capacity', true) ∧
      Room data' capacity' mode.esize bytes ∧ newCapacity ≤ capacity' ∧ capacity ≤ capacity' := by
  by_cases enough : newCapacity ≤ capacity
  · exact ⟨data, capacity, reserve_enough_bytes allocator enough, array, enough, Nat.le_refl _⟩
  · have fits := fits.resolve_left enough
    rw [Nat.not_le] at enough
    have more : capacity * mode.esize ≤ newCapacity * mode.esize :=
      Nat.mul_le_mul_right _ (Nat.le_of_lt enough)
    obtain ⟨data', reserved, array'⟩ :=
      reserve_grows generous size array enough fits (Nat.le_trans used more)
    exact ⟨data', newCapacity, reserved, array', Nat.le_refl _, Nat.le_of_lt enough⟩

/-- A request for 2^64 bytes or more loses the array or gives one without the room. -/
theorem reserve_vector_wrapped {newCapacity : Nat} (more : capacity < newCapacity)
    (wraps : 2 ^ 64 ≤ newCapacity * mode.esize) {after : UcbVector} {reserved : Bool}
    (ran : ucbVectorReserve allocator (mode.vector data size capacity) newCapacity =
      .ok (after, reserved)) :
    (reserved = false ∧ after.size = size) ∨
      (reserved = true ∧ ∃ cells, after = mode.vector (.heap cells) size newCapacity ∧
        cells.length < newCapacity * mode.esize) := by
  rw [reserve_asks_bytes allocator more] at ran
  obtain ⟨⟨old, answer⟩, request, ran⟩ := Exec.bind_eq_ok.mp ran
  cases answer with
  | none =>
      obtain ⟨rfl, rfl⟩ := Prod.mk.inj (Exec.ok.inj ran)
      exact .inl ⟨rfl, rfl⟩
  | some newData =>
      obtain ⟨rfl, rfl⟩ := Prod.mk.inj (Exec.ok.inj ran)
      obtain ⟨cells, rfl, length⟩ := realloc_cells request
      refine .inr ⟨rfl, cells, rfl, ?_⟩
      rw [length, Nat.div_one, Nat.mul_one, Nat.mod_mod]
      exact Nat.lt_of_lt_of_le (Nat.mod_lt _ (by decide)) wraps

end Capacity

/-- The outcome of an operation and the list that a vector keeps afterwards. -/
def Leaves {Result : Type} (run : Exec (UcbVector × Result)) (list : ItemList) (result : Result) :
    Prop :=
  ∃ after, run = .ok (after, result) ∧ Keeps after list

section Whole

variable {allocator : Allocator} {vec : UcbVector} {list : ItemList}

/-- Exactly the requests that do not wrap around are met. -/
theorem reserve_leaves_iff (generous : allocator.Generous) (keeps : Keeps vec list)
    (newCapacity : Nat) :
    Leaves (ucbVectorReserve allocator vec newCapacity) list true ↔
      newCapacity ≤ vec.capacity ∨ newCapacity * vec.esize < 2 ^ 64 := by
  obtain ⟨data, capacity, rfl, inside, array⟩ := keeps.elim
  constructor
  · rintro ⟨after, reserved, keeps'⟩
    by_contra wraps
    rw [not_or, Nat.not_le, Nat.not_lt] at wraps
    rcases reserve_vector_wrapped wraps.1 wraps.2 reserved with
      ⟨refused, -⟩ | ⟨-, cells, rfl, short⟩
    · cases refused
    · exact absurd keeps'.array.le_room (Nat.not_le.mpr short)
  · intro fits
    have used : list.items.flatten.length ≤ capacity * list.mode.esize := by
      rw [flatten_length list.sized]
      exact Nat.mul_le_mul_right _ inside
    obtain ⟨data', capacity', reserved, array', -, more⟩ :=
      reserve_vector generous list.items.length array fits used
    exact ⟨_, reserved, rfl, Nat.le_trans inside more, array'⟩

/-- `ucb_realloc` behind `ucb_vector_fit`. -/
theorem fit_asks_bytes (allocator : Allocator) (loose : vec.size < vec.capacity) :
    ucbVectorFit allocator vec =
      ucbReallocType allocator 1 vec.data (vec.size * vec.esize % 2 ^ 64) >>= fun request =>
        match request.2 with
        | none => pure { vec with data := request.1 }
        | some newData => pure { vec with data := newData, capacity := vec.size } :=
  if_pos loose

/-- `fit` is right exactly when the vector is not empty or has no array. -/
theorem fit_leaves_iff (generous : allocator.Generous) (keeps : Keeps vec list) :
    (∃ after, ucbVectorFit allocator vec = .ok after ∧ Keeps after list) ↔
      vec.size ≠ 0 ∨ vec.capacity = 0 := by
  obtain ⟨data, capacity, rfl, inside, array⟩ := keeps.elim
  have used := flatten_length list.sized
  by_cases loose : capacity > list.items.length
  · obtain ⟨spare, rfl, enough, small⟩ := array.heap (Nat.zero_lt_of_lt loose)
    by_cases empty : list.items = []
    · -- the array is freed and the vector still points at it
      have freed : ucbVectorFit allocator (list.mode.vector
          (.heap (list.items.flatten.map some ++ spare)) list.items.length capacity) =
          .ok (list.mode.vector .dangling list.items.length capacity) := by
        rw [fit_asks_bytes allocator loose, vector_size, empty, List.length_nil, Nat.zero_mul,
          Nat.zero_mod, vector_data, realloc_zero]
        rfl
      rw [freed]
      constructor
      · rintro ⟨after, same, keeps'⟩
        obtain rfl := Exec.ok.inj same
        obtain ⟨spare', other, -⟩ := keeps'.array.heap (Nat.zero_lt_of_lt loose)
        cases other
      · intro either
        rcases either with some | none
        · exact absurd (by rw [vector_size, empty]; rfl) some
        · exact absurd none (Nat.ne_of_gt (Nat.zero_lt_of_lt loose))
    · have some : 0 < list.items.length := List.length_pos_iff.mpr empty
      have nonzero : 0 < list.items.length * list.mode.esize := Nat.mul_pos some list.mode.wide
      have fits : list.items.length * list.mode.esize < 2 ^ 64 := by omega
      obtain ⟨old, spare', request, length⟩ :=
        realloc_bytes generous array nonzero fits (Nat.le_of_eq used)
      refine iff_of_true ⟨list.mode.vector (.heap (list.items.flatten.map Option.some ++ spare'))
        list.items.length list.items.length, ?_, rfl, Nat.le_refl _,
        .inr ⟨some, spare', rfl, Nat.le_of_eq length.symm, by omega⟩⟩ (.inl (Nat.ne_of_gt some))
      rw [fit_asks_bytes allocator loose, vector_size, vector_esize, Nat.mod_eq_of_lt fits,
        vector_data, request]
      rfl
  · refine iff_of_true ⟨_, if_neg loose, keeps⟩ ?_
    by_cases none : capacity = 0
    · exact .inr none
    · refine .inl ?_
      rw [vector_size]
      omega

end Whole

/-! ## Putting in -/

def RoomToGrow (vec : UcbVector) : Prop :=
  vec.size = vec.capacity → 0 < vec.capacity ∧ vec.capacity * 2 * vec.esize < 2 ^ 64

section Insert

variable {allocator : Allocator} {cloner : CloneFunc} {mode : VectorMode}
  {front back : List (List UInt8)} {size capacity calls calls' : Nat} {item data : List UInt8}

theorem sized_middle (sized : ∀ item ∈ front ++ back, item.length = mode.esize)
    (size : item.length = mode.esize) :
    ∀ other ∈ front ++ item :: back, other.length = mode.esize := by
  intro other inside
  rcases List.mem_append.mp inside with before | rest
  · exact sized other (List.mem_append_left _ before)
  · rcases List.mem_cons.mp rest with rfl | behind
    · exact size
    · exact sized other (List.mem_append_right _ behind)

theorem put_length (put : mode.put cloner calls data = some (item, calls'))
    (size : data.length = mode.esize) : item.length = mode.esize := by
  cases mode with
  | value esize wide =>
      obtain ⟨rfl, -⟩ := Prod.mk.inj (Option.some.inj put)
      exact size
  | borrowed =>
      obtain ⟨rfl, -⟩ := Prod.mk.inj (Option.some.inj put)
      exact size
  | owned =>
      obtain ⟨copy, cloned, same⟩ := Option.map_eq_some_iff.mp put
      obtain ⟨rfl, -⟩ := Prod.mk.inj same
      exact cloner.pointer calls data copy cloned

theorem blit_item {gap : List (Option UInt8)} (sized : ∀ item ∈ front, item.length = mode.esize)
    (gapped : gap.length = mode.esize) (size : item.length = mode.esize)
    (cells : List (Option UInt8)) :
    (Storage.heap (front.flatten.map some ++ (gap ++ cells))).blit (front.length * mode.esize)
        (item.map some) =
      .ok (.heap (front.flatten.map some ++ (item.map some ++ cells))) := by
  have written := blit_cells (front.flatten.map some) gap (item.map some) cells
    (by rw [gapped, List.length_map, size])
  rwa [List.length_map, flatten_length sized] at written

/-- The item that is put into the list is written at its index. -/
theorem placeItem_eq (array : Storage UInt8) (index : Nat)
    (put : mode.put cloner calls data = some (item, calls'))
    (length : data.length = mode.esize) :
    placeItem cloner calls (mode.vector array size capacity) index data =
      array.blit (index * mode.esize) (item.map some) >>= fun stored =>
        pure (some stored, calls') := by
  cases mode with
  | value esize wide =>
      obtain ⟨rfl, rfl⟩ := Prod.mk.inj (Option.some.inj put)
      have whole : slice data 0 esize = .ok data := by
        have left := slice_left data []
        rw [List.append_nil, length] at left
        exact left
      show (slice data 0 esize >>= fun bytes => _ >>= fun stored => pure _) = _
      rw [whole]
      rfl
  | borrowed =>
      obtain ⟨rfl, rfl⟩ := Prod.mk.inj (Option.some.inj put)
      rfl
  | owned =>
      obtain ⟨copy, cloned, same⟩ := Option.map_eq_some_iff.mp put
      obtain ⟨rfl, rfl⟩ := Prod.mk.inj same
      simp only [placeItem, vector_pointer, vector_clone, VectorMode.isPointer, VectorMode.owns,
        if_true, cloned]
      rfl

theorem placeItem_vector (size capacity : Nat) {gap : List (Option UInt8)}
    (sized : ∀ item ∈ front, item.length = mode.esize) (gapped : gap.length = mode.esize)
    (length : data.length = mode.esize) (put : mode.put cloner calls data = some (item, calls'))
    (cells : List (Option UInt8)) :
    placeItem cloner calls (mode.vector (.heap (front.flatten.map some ++ (gap ++ cells))) size
        capacity) front.length data =
      .ok (some (.heap (front.flatten.map some ++ (item.map some ++ cells))), calls') := by
  rw [placeItem_eq _ _ put length, blit_item sized gapped (put_length put length)]
  rfl

/-- The elements behind an index move up by one. -/
theorem shiftUp_vector (capacity : Nat) {gap : List (Option UInt8)}
    (sized : ∀ item ∈ front ++ back, item.length = mode.esize)
    (gapped : gap.length = mode.esize) (cells : List (Option UInt8)) :
    ∃ left, left.length = mode.esize ∧
      shiftUp (mode.vector (.heap ((front ++ back).flatten.map some ++ (gap ++ cells)))
          (front ++ back).length capacity) front.length =
        .ok (.heap (front.flatten.map some ++ (left ++ (back.flatten.map some ++ cells)))) := by
  have before := flatten_length fun item inside => sized item (List.mem_append_left back inside)
  have behind := flatten_length fun item inside => sized item (List.mem_append_right front inside)
  have split : (front ++ back).flatten.map some ++ (gap ++ cells) =
      front.flatten.map some ++ (back.flatten.map some ++ (gap ++ cells)) := by
    simp
  rw [split]
  cases back with
  | nil => exact ⟨gap, gapped, by simp [shiftUp]⟩
  | cons item rest =>
      obtain ⟨left, length, moved⟩ := move_up front.flatten (item :: rest).flatten gap cells
      refine ⟨left, length.trans gapped, ?_⟩
      have count : (front ++ item :: rest).length - front.length = (item :: rest).length := by
        rw [List.length_append, Nat.add_sub_cancel_left]
      have next : (front.length + 1) * mode.esize = front.flatten.length + gap.length := by
        rw [before, gapped, Nat.succ_mul]
      rw [shiftUp, if_pos (by simp), vector_data, vector_esize, vector_size, count, next, ← before,
        ← behind, moved]

theorem grow_vector (generous : allocator.Generous) {array : Storage UInt8}
    {items : List (List UInt8)} (sized : ∀ item ∈ items, item.length = mode.esize)
    (inside : items.length ≤ capacity) (room : Room array capacity mode.esize items.flatten)
    (grows : RoomToGrow (mode.vector array items.length capacity)) :
    ∃ array' capacity', growFull allocator (mode.vector array items.length capacity) =
        .ok (mode.vector array' items.length capacity', true) ∧
      Room array' capacity' mode.esize items.flatten ∧ items.length < capacity' := by
  by_cases full : items.length = capacity
  · obtain ⟨some, fits⟩ := grows full
    rw [vector_capacity] at some
    rw [vector_capacity, vector_esize] at fits
    have double : capacity * 2 % 2 ^ 64 = capacity * 2 :=
      Nat.mod_eq_of_lt (Nat.lt_of_le_of_lt (Nat.le_mul_of_pos_right _ mode.wide) fits)
    obtain ⟨array', capacity', reserved, room', enough, -⟩ :=
      reserve_vector generous items.length room (.inr fits)
        (by rw [flatten_length sized]; exact Nat.mul_le_mul_right _ inside)
    refine ⟨array', capacity', ?_, room', by omega⟩
    rw [growFull, vector_size, vector_capacity, if_pos full, double, reserved]
  · exact ⟨array, capacity, if_neg full, room, Nat.lt_of_le_of_ne inside full⟩

/-- A vector that can grow takes the item between the others. -/
theorem insert_vector (generous : allocator.Generous) {array : Storage UInt8}
    (sized : ∀ item ∈ front ++ back, item.length = mode.esize)
    (inside : (front ++ back).length ≤ capacity)
    (room : Room array capacity mode.esize (front ++ back).flatten)
    (grows : RoomToGrow (mode.vector array (front ++ back).length capacity))
    (length : data.length = mode.esize) (put : mode.put cloner calls data = some (item, calls')) :
    ∃ array' capacity', ucbVectorInsert allocator cloner calls
        (mode.vector array (front ++ back).length capacity) front.length data =
        .ok (mode.vector array' (front ++ item :: back).length capacity', calls') ∧
      (front ++ item :: back).length ≤ capacity' ∧
      Room array' capacity' mode.esize (front ++ item :: back).flatten := by
  obtain ⟨array', capacity', grown, room', more⟩ :=
    grow_vector generous sized inside room grows
  obtain ⟨spare, rfl, enough, small⟩ := room'.heap (Nat.zero_lt_of_lt more)
  have used := flatten_length sized
  have wider : (front ++ back).length * mode.esize + mode.esize ≤ capacity' * mode.esize := by
    rw [← Nat.succ_mul]
    exact Nat.mul_le_mul_right _ more
  have gapped : (spare.take mode.esize).length = mode.esize := by
    rw [List.length_take]
    omega
  obtain ⟨left, width, moved⟩ := shiftUp_vector capacity' sized gapped
    (spare.drop mode.esize)
  rw [List.take_append_drop] at moved
  have before : ∀ item ∈ front, item.length = mode.esize :=
    fun item inside => sized item (List.mem_append_left back inside)
  have placed := placeItem_vector (front ++ back).length capacity'
    before width length put (back.flatten.map some ++ spare.drop mode.esize)
  have same : front.flatten.map some ++ (item.map some ++
        (back.flatten.map some ++ spare.drop mode.esize)) =
      (front ++ item :: back).flatten.map some ++ spare.drop mode.esize := by
    simp
  rw [same] at placed
  have total :
      (front ++ item :: back).flatten.length = (front ++ back).flatten.length + mode.esize := by
    rw [flatten_length (sized_middle sized (put_length put length)), used]
    simp only [List.length_append, List.length_cons]
    rw [← Nat.succ_mul]
    rfl
  have index : front.length ≤ (front ++ back).length := by simp
  refine ⟨.heap ((front ++ item :: back).flatten.map some ++ spare.drop mode.esize), capacity', ?_,
    by simp at more ⊢; omega, .inr ⟨Nat.zero_lt_of_lt more, _, rfl, ?_, ?_⟩⟩
  · have size : (front ++ item :: back).length = (front ++ back).length + 1 := by
      simp only [List.length_append, List.length_cons]
      rfl
    simp only [ucbVectorInsert, vector_size, index, decide_true, ucbVerify_true, Exec.ok_bind,
      grown, if_true, moved, vector_esize, vector_capacity, vector_clone, vector_free,
      vector_pointer, vector_mk, placed, size]
    rfl
  · rw [total, List.length_drop]
    omega
  · rw [total, List.length_drop]
    omega

/-- Doubling a capacity either wraps around to a smaller one or does not. -/
theorem double_wraps (capacity : Nat) (below : capacity < 2 ^ 64) :
    capacity * 2 % 2 ^ 64 ≤ capacity ∨ capacity * 2 % 2 ^ 64 = capacity * 2 := by
  omega

/-- The rest of `ucb_vector_insert` keeps the capacity, and the number of cells. -/
theorem insert_rest {index : Nat} {array : Storage UInt8} {after : UcbVector} {made : Nat}
    (length : data.length = mode.esize) (put : mode.put cloner calls data = some (item, calls'))
    (ran : (shiftUp (mode.vector array size capacity) index >>= fun moved =>
      placeItem cloner calls (mode.vector moved size capacity) index data >>= fun placed =>
      match placed.1 with
      | none => pure (mode.vector moved size capacity, placed.2)
      | some stored => pure (mode.vector stored (size + 1) capacity, placed.2)) =
        .ok (after, made)) :
    after.capacity = capacity ∧ ∀ cells, array = .heap cells → after.data.room = cells.length := by
  obtain ⟨moved, shifted, ran⟩ := Exec.bind_eq_ok.mp ran
  rw [placeItem_eq _ _ put length] at ran
  obtain ⟨placed, stored, ran⟩ := Exec.bind_eq_ok.mp ran
  obtain ⟨new, written, same⟩ := Exec.bind_eq_ok.mp stored
  obtain rfl := Exec.ok.inj same
  obtain ⟨rfl, -⟩ := Prod.mk.inj (Exec.ok.inj ran)
  refine ⟨rfl, ?_⟩
  rintro cells rfl
  obtain ⟨cells', rfl, kept⟩ : ∃ cells', moved = .heap cells' ∧ cells'.length = cells.length := by
    rw [shiftUp] at shifted
    split at shifted
    next behind => exact move_room shifted
    next last => exact ⟨cells, (Exec.ok.inj shifted).symm, rfl⟩
  obtain ⟨cells'', rfl, kept'⟩ := blit_room written
  exact kept'.trans kept

/-- A full vector that cannot grow loses its array, or the room for its elements. -/
theorem insert_vector_wrapped {array : Storage UInt8} {index : Nat} {list : ItemList}
    (small : capacity * mode.esize < 2 ^ 64)
    (stuck : ¬ RoomToGrow (mode.vector array size capacity))
    (index_le : index ≤ size) (length : data.length = mode.esize)
    (put : mode.put cloner calls data = some (item, calls')) {after : UcbVector} {made : Nat}
    (ran : ucbVectorInsert allocator cloner calls (mode.vector array size capacity) index data =
      .ok (after, made)) (same : list.mode = mode) (more : list.items.length = size + 1) :
    ¬ Keeps after list := by
  intro keeps
  simp only [RoomToGrow, vector_size, vector_capacity, vector_esize, Classical.not_imp,
    not_and, Nat.not_lt] at stuck
  obtain ⟨rfl, stuck⟩ := stuck
  have below : size < 2 ^ 64 :=
    Nat.lt_of_le_of_lt (Nat.le_mul_of_pos_right _ mode.wide) small
  simp only [ucbVectorInsert, vector_size, index_le, decide_true, ucbVerify_true,
    Exec.ok_bind] at ran
  obtain ⟨⟨grown, reserved⟩, growth, ran⟩ := Exec.bind_eq_ok.mp ran
  rw [growFull, vector_size, vector_capacity, if_pos rfl] at growth
  by_cases enough : size * 2 % 2 ^ 64 ≤ size
  · -- nothing grows, and the new element is not counted in the capacity
    rw [reserve_enough_bytes allocator enough] at growth
    obtain ⟨rfl, rfl⟩ := Prod.mk.inj (Exec.ok.inj growth)
    have kept := (insert_rest length put ran).1
    have inside := keeps.inside
    omega
  · have double := (double_wraps size below).resolve_left enough
    rw [double] at growth enough
    have wraps : 2 ^ 64 ≤ size * 2 * mode.esize := stuck (by omega)
    rcases reserve_vector_wrapped (Nat.not_le.mp enough) wraps growth with
      ⟨rfl, kept⟩ | ⟨rfl, cells, rfl, short⟩
    · obtain ⟨rfl, -⟩ := Prod.mk.inj (Exec.ok.inj ran)
      have fields := congrArg UcbVector.size keeps.fields
      rw [kept, vector_size, more] at fields
      omega
    · obtain ⟨kept, room⟩ := insert_rest length put ran
      have enough := keeps.array.le_room
      rw [room cells rfl, kept, same] at enough
      omega

end Insert

section Insert

variable {allocator : Allocator} {cloner : CloneFunc} {list after : ItemList} {vec : UcbVector}
  {calls calls' : Nat} {item data : List UInt8}

/-- Exactly the insertions into a vector that can grow, if it has to, are right. -/
theorem insert_leaves_iff (generous : allocator.Generous) (keeps : Keeps vec list) {index : Nat}
    (inside : index ≤ list.items.length) (length : data.length = list.mode.esize)
    (put : list.mode.put cloner calls data = some (item, calls'))
    (same : after.mode = list.mode)
    (items : after.items = list.items.take index ++ item :: list.items.drop index) :
    Leaves (ucbVectorInsert allocator cloner calls vec index data) after calls' ↔
      RoomToGrow vec := by
  obtain ⟨array, capacity, rfl, fits, room⟩ := keeps.elim
  have split := List.take_append_drop index list.items
  have front : (list.items.take index).length = index := List.length_take_of_le inside
  constructor
  · rintro ⟨changed, ran, keeps'⟩
    by_contra stuck
    refine insert_vector_wrapped room.bytes_lt stuck inside length put ran same ?_ keeps'
    rw [items, List.length_append, List.length_cons, List.length_drop, front]
    omega
  · intro grows
    have sized := list.sized
    rw [← split] at sized fits room grows
    obtain ⟨array', capacity', inserted, fits', room'⟩ :=
      insert_vector generous sized fits room grows length put
    rw [split, front] at inserted
    refine ⟨_, inserted, ?_⟩
    rw [← items] at fits' room' ⊢
    rw [← same] at room' ⊢
    exact ⟨rfl, fits', room'⟩

/-- The shorter way of `ucb_vector_push_back` is an insertion behind the last element. -/
theorem pushBack_eq_insert (allocator : Allocator) (cloner : CloneFunc) (calls : Nat)
    (vec : UcbVector) (data : List UInt8) :
    ucbVectorPushBack allocator cloner calls vec data =
      ucbVectorInsert allocator cloner calls vec vec.size data := by
  rw [ucbVectorPushBack]
  split
  next room =>
    simp only [Bool.and_eq_true, Bool.not_eq_true', decide_eq_true_eq] at room
    obtain ⟨value, room⟩ := room
    simp only [ucbVectorInsert, growFull, shiftUp, placeItem, Nat.le_refl, Nat.ne_of_lt room,
      Nat.lt_irrefl, value, decide_true, ucbVerify_true, Exec.ok_bind, Exec.pure_eq_ok, if_true,
      if_false, Bool.false_eq_true]
    cases slice data 0 vec.esize with
    | ok bytes =>
        rw [Exec.ok_bind, Exec.ok_bind]
        cases vec.data.blit (vec.size * vec.esize) (bytes.map some) with
        | ok stored => rfl
        | abort code => rfl
        | undefined => rfl
    | abort code => rfl
    | undefined => rfl
  next full => rfl

end Insert

/-! ## Taking out -/

section Remove

variable {mode : VectorMode} {front back : List (List UInt8)} {size capacity : Nat}
  {item : List UInt8} {list after : ItemList} {vec : UcbVector}

/-- The elements behind an index move down by one. -/
theorem shiftDown_vector (capacity : Nat) (cells : List (Option UInt8))
    (sized : ∀ item ∈ front ++ back, item.length = mode.esize)
    (width : item.length = mode.esize)
    (small : (front ++ item :: back).length * mode.esize < 2 ^ 64) :
    ∃ left, left.length = mode.esize ∧
      shiftDown (mode.vector (.heap ((front ++ item :: back).flatten.map some ++ cells))
          (front ++ item :: back).length capacity) front.length =
        .ok (.heap ((front ++ back).flatten.map some ++ (left ++ cells))) := by
  have before := flatten_length fun item inside => sized item (List.mem_append_left back inside)
  have behind := flatten_length fun item inside => sized item (List.mem_append_right front inside)
  have below : (front ++ item :: back).length < 2 ^ 64 :=
    Nat.lt_of_le_of_lt (Nat.le_mul_of_pos_right _ mode.wide) small
  have total : (front ++ item :: back).length = front.length + back.length + 1 := by
    simp only [List.length_append, List.length_cons]
    omega
  have last : ((front ++ item :: back).length + 2 ^ 64 - 1) % 2 ^ 64 =
      front.length + back.length := by
    omega
  have count : ((front ++ item :: back).length + 2 ^ 64 - front.length - 1) % 2 ^ 64 =
      back.length := by
    omega
  rw [shiftDown, vector_size, vector_esize, vector_data, last, count]
  cases back with
  | nil =>
      refine ⟨item.map some, by rw [List.length_map, width], ?_⟩
      rw [if_neg (by simp)]
      simp
  | cons first rest =>
      obtain ⟨left, length, moved⟩ := move_down front.flatten (first :: rest).flatten
        (item.map some) cells
      rw [List.length_map, width] at length moved
      refine ⟨left, length, ?_⟩
      have next : (front.length + 1) * mode.esize = front.flatten.length + mode.esize := by
        rw [before, Nat.succ_mul]
      have bytes : (first :: rest).length * mode.esize % 2 ^ 64 =
          (first :: rest).flatten.length := by
        rw [behind]
        apply Nat.mod_eq_of_lt
        refine Nat.lt_of_le_of_lt (Nat.mul_le_mul_right _ ?_) small
        omega
      have split : (front ++ item :: first :: rest).flatten.map some ++ cells =
          front.flatten.map some ++
            (item.map some ++ ((first :: rest).flatten.map some ++ cells)) := by
        simp
      rw [if_pos (by simp), bytes, next, ← before, split, moved]
      simp

def taken (mode : VectorMode) (item : List UInt8) (wanted : Bool) : VectorOutcome :=
  if wanted then ⟨true, some item, []⟩ else ⟨true, none, mode.dropped [item]⟩

theorem takeOut_vector (size capacity : Nat) (sized : ∀ item ∈ front, item.length = mode.esize)
    (width : item.length = mode.esize) (cells : List (Option UInt8)) (wanted : Bool) :
    takeOut (mode.vector (.heap (front.flatten.map some ++ (item.map some ++ cells))) size capacity)
      front.length wanted = .ok (taken mode item wanted) := by
  cases wanted with
  | true =>
      rw [takeOut, if_pos rfl, itemAt_item sized width]
      rfl
  | false =>
      cases mode with
      | value esize wide => rfl
      | borrowed => rfl
      | owned =>
          have pointer := pointerAt_item .owned rfl sized width cells
          simp only [takeOut, vector_free, VectorMode.owns, vector_data, if_true, pointer,
            Exec.ok_bind, Bool.false_eq_true, if_false]
          rfl

theorem oldItem_vector (size capacity : Nat) (sized : ∀ item ∈ front, item.length = mode.esize)
    (width : item.length = mode.esize) (cells : List (Option UInt8)) :
    oldItem (mode.vector (.heap (front.flatten.map some ++ (item.map some ++ cells))) size capacity)
      front.length = .ok (mode.dropped [item]) := by
  cases mode with
  | value esize wide => rfl
  | borrowed => rfl
  | owned =>
      have pointer := pointerAt_item .owned rfl sized width cells
      simp only [oldItem, vector_free, VectorMode.owns, vector_data, if_true, pointer,
        Exec.ok_bind]
      rfl

theorem items_split {items : List (List UInt8)} {index : Nat} (found : items[index]? = some item) :
    items = items.take index ++ item :: items.drop (index + 1) ∧
      (items.take index).length = index := by
  obtain ⟨inside, rfl⟩ := List.getElem?_eq_some_iff.mp found
  exact ⟨by rw [List.getElem_cons_drop, List.take_append_drop], by simp; omega⟩

theorem remove_leaves (keeps : Keeps vec list) {index : Nat}
    (found : list.items[index]? = some item) (wanted : Bool) (same : after.mode = list.mode)
    (items : after.items = list.items.take index ++ list.items.drop (index + 1)) :
    Leaves (ucbVectorRemove vec index wanted) after (taken list.mode item wanted) := by
  obtain ⟨array, capacity, rfl, fits, room⟩ := keeps.elim
  obtain ⟨split, front⟩ := items_split found
  have sized := list.sized
  generalize list.items.take index = before at split front items
  generalize list.items.drop (index + 1) = behind at split items
  subst front
  rw [split] at sized fits room ⊢
  have others : ∀ item ∈ before ++ behind, item.length = list.mode.esize := by
    intro other inside
    rcases List.mem_append.mp inside with left | right
    · exact sized other (List.mem_append_left _ left)
    · exact sized other (List.mem_append_right _ (List.mem_cons_of_mem _ right))
  have width : item.length = list.mode.esize :=
    sized item (List.mem_append_right _ List.mem_cons_self)
  have some : 0 < (before ++ item :: behind).length := by
    rw [List.length_append, List.length_cons]
    omega
  obtain ⟨spare, rfl, enough, small⟩ := room.heap (Nat.lt_of_lt_of_le some fits)
  have used := flatten_length sized
  have bytes : (before ++ item :: behind).length * list.mode.esize < 2 ^ 64 := by omega
  obtain ⟨left, length, moved⟩ := shiftDown_vector capacity spare others width bytes
  have out := takeOut_vector (before ++ item :: behind).length capacity
    (fun item inside => others item (List.mem_append_left _ inside)) width
    (behind.flatten.map Option.some ++ spare) wanted
  have cells : before.flatten.map Option.some ++ (item.map Option.some ++
        (behind.flatten.map Option.some ++ spare)) =
      (before ++ item :: behind).flatten.map Option.some ++ spare := by
    simp
  rw [cells] at out
  have fewer : ((before ++ item :: behind).length + 2 ^ 64 - 1) % 2 ^ 64 =
      (before ++ behind).length := by
    have below : (before ++ item :: behind).length < 2 ^ 64 :=
      Nat.lt_of_le_of_lt (Nat.le_mul_of_pos_right _ list.mode.wide) bytes
    simp only [List.length_append, List.length_cons] at below ⊢
    omega
  have less : (before ++ item :: behind).flatten.length =
      (before ++ behind).flatten.length + list.mode.esize := by
    simp only [List.flatten_append, List.flatten_cons, List.length_append, width]
    omega
  have tail : (left ++ spare).length = list.mode.esize + spare.length := by
    rw [List.length_append, length]
  refine ⟨list.mode.vector (.heap ((before ++ behind).flatten.map Option.some ++ (left ++ spare)))
    (before ++ behind).length capacity, ?_, ?_⟩
  · rw [ucbVectorRemove, out, Exec.ok_bind, moved, Exec.ok_bind, vector_size, fewer]
    rfl
  · rw [← items, ← same]
    refine ⟨rfl, ?_, .inr ⟨Nat.lt_of_lt_of_le some fits, _, rfl, ?_, ?_⟩⟩
    · rw [items]
      simp only [vector_capacity, List.length_append, List.length_cons] at fits ⊢
      omega
    · rw [items, same, tail]
      simp only [vector_capacity]
      omega
    · rw [items, tail]
      omega

/-- An element is handed out. -/
theorem get_vector (keeps : Keeps vec list) {index : Nat}
    (found : list.items[index]? = some item) : ucbVectorGet vec index = .ok item := by
  obtain ⟨array, capacity, rfl, fits, room⟩ := keeps.elim
  obtain ⟨inside, -⟩ := List.getElem?_eq_some_iff.mp found
  obtain ⟨split, front⟩ := items_split found
  obtain ⟨spare, rfl, -⟩ := room.heap (by omega)
  have sized := list.sized
  rw [split] at sized
  have read := itemAt_item (fun item inside => sized item (List.mem_append_left _ inside))
    (sized item (List.mem_append_right _ List.mem_cons_self))
    ((list.items.drop (index + 1)).flatten.map some ++ spare) list.items.length capacity
  have cells : (list.items.take index).flatten.map some ++ (item.map some ++
        ((list.items.drop (index + 1)).flatten.map some ++ spare)) =
      list.items.flatten.map some ++ spare := by
    conv => rhs; rw [split]
    simp
  rw [cells, front] at read
  rw [ucbVectorGet, vector_size, decide_eq_true inside, ucbVerify_true, Exec.ok_bind, read]

/-- The item that an element is replaced by is put in its place. -/
theorem set_leaves {cloner : CloneFunc} {calls calls' : Nat} {data old : List UInt8}
    (keeps : Keeps vec list) {index : Nat} (found : list.items[index]? = some old)
    (length : data.length = list.mode.esize)
    (put : list.mode.put cloner calls data = some (item, calls'))
    (same : after.mode = list.mode) (items : after.items = list.items.set index item) :
    ∃ changed, ucbVectorSet cloner calls vec index data =
      .ok ((changed, list.mode.dropped [old]), calls') ∧ Keeps changed after := by
  obtain ⟨array, capacity, rfl, fits, room⟩ := keeps.elim
  obtain ⟨inside, -⟩ := List.getElem?_eq_some_iff.mp found
  obtain ⟨split, front⟩ := items_split found
  obtain ⟨spare, rfl, enough, small⟩ := room.heap (by omega)
  have sized := list.sized
  rw [split] at sized
  have before : ∀ item ∈ list.items.take index, item.length = list.mode.esize :=
    fun item inside => sized item (List.mem_append_left _ inside)
  have width : old.length = list.mode.esize :=
    sized old (List.mem_append_right _ List.mem_cons_self)
  have width' := put_length put length
  generalize rest : (list.items.drop (index + 1)).flatten.map some ++ spare = cells
  have array : list.items.flatten.map some ++ spare =
      (list.items.take index).flatten.map some ++ (old.map some ++ cells) := by
    rw [← rest]
    conv => lhs; rw [split]
    simp
  have array' : (list.items.take index).flatten.map some ++ (item.map some ++ cells) =
      after.items.flatten.map some ++ spare := by
    rw [items, ← rest, List.set_eq_take_append_cons_drop, if_pos inside]
    simp
  have freed := oldItem_vector list.items.length capacity before width cells
  rw [← array, front] at freed
  have gapped : (old.map some).length = list.mode.esize := by rw [List.length_map, width]
  have placed := placeItem_vector list.items.length capacity before gapped length put cells
  rw [array', front, ← array] at placed
  refine ⟨list.mode.vector (.heap (after.items.flatten.map some ++ spare)) list.items.length
    capacity, ?_, ?_⟩
  · rw [ucbVectorSet, vector_size, decide_eq_true inside, ucbVerify_true, Exec.ok_bind, freed,
      Exec.ok_bind, placed]
    rfl
  · have count : after.items.length = list.items.length := by rw [items, List.length_set]
    have bytes : after.items.flatten.length = list.items.flatten.length := by
      rw [flatten_length after.sized, flatten_length list.sized, count, same]
    rw [← same, ← count]
    refine ⟨rfl, by rw [vector_capacity, count]; exact fits,
      .inr ⟨by simp only [vector_capacity]; omega, spare, rfl, ?_, ?_⟩⟩
    · rw [bytes, same]
      exact enough
    · rw [bytes]
      exact small

end Remove

end Ucb.Container
