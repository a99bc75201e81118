import Mathlib.Data.List.Basic
import Ucb.Container.GenericRefinement

/-!
Contract: the generic vector when `data_clone` returns `UCB_NULL`.

Owns:
- what a failed insertion, replacement, copy and clone of a vector leave;
- the list effect the operations should have then, and exactly when an operation has
  it.

A failed insertion has moved the elements up already, and a failed replacement has
freed the old element.
-/

namespace Ucb.Container

open Ucb.Lib

/-! ## One list for a vector -/

section Functional

variable {mode : VectorMode} {vec : UcbVector} {list other : ItemList}

/-- Elements of one size can be read back from their bytes. -/
theorem flatten_inj {esize : Nat} {items others : List (List UInt8)}
    (sized : ∀ item ∈ items, item.length = esize) (sized' : ∀ item ∈ others, item.length = esize)
    (count : items.length = others.length) (bytes : items.flatten = others.flatten) :
    items = others := by
  induction items generalizing others with
  | nil => exact (List.eq_nil_of_length_eq_zero count.symm).symm
  | cons item rest inductionHypothesis =>
      cases others with
      | nil => cases count
      | cons item' rest' =>
          rw [List.flatten_cons, List.flatten_cons] at bytes
          obtain ⟨same, behind⟩ := List.append_inj bytes
            ((sized item List.mem_cons_self).trans (sized' item' List.mem_cons_self).symm)
          rw [same, inductionHypothesis
            (fun other inside => sized other (List.mem_cons_of_mem _ inside))
            (fun other inside => sized' other (List.mem_cons_of_mem _ inside))
            (Nat.succ.inj count) behind]

theorem Keeps.items_eq (keeps : Keeps vec list) (keeps' : Keeps vec other)
    (same : list.mode = other.mode) : list.items = other.items := by
  have count : list.items.length = other.items.length := by
    have fields := keeps.fields.symm.trans keeps'.fields
    exact congrArg UcbVector.size fields
  have bytes : list.items.flatten.length = other.items.flatten.length := by
    rw [flatten_length list.sized, flatten_length other.sized, count, same]
  refine flatten_inj list.sized (same ▸ other.sized) count ?_
  rcases keeps.array with ⟨-, -, none⟩ | ⟨positive, spare, here, -⟩
  · rw [none] at bytes ⊢
    exact (List.eq_nil_of_length_eq_zero bytes.symm).symm
  · obtain ⟨spare', here', -⟩ := keeps'.array.heap positive
    have cells := Storage.heap.inj (here.symm.trans here')
    have same := (List.append_inj cells (by simp only [List.length_map, bytes])).1
    exact List.map_injective_iff.mpr (Option.some_injective _) same

end Functional

/-! ## Insertion -/

def SameFrom (vec : UcbVector) (index : Nat) : Prop :=
  ∀ place, index ≤ place → place + 1 < vec.size →
    pointerAt vec.data place = pointerAt vec.data (place + 1)

/-- A failed insertion into a vector at an index leaves it as it was: there is nothing to grow, or
there is room for it, and moving the elements up does not change those that count. -/
def FailsInPlace (vec : UcbVector) (index : Nat) : Prop :=
  (RoomToGrow vec ∨ vec.capacity = 0) ∧ SameFrom vec index

section Insert

variable {allocator : Allocator} {cloner : CloneFunc} {mode : VectorMode}
  {front rest : List (List UInt8)} {item data : List UInt8} {size capacity calls : Nat}

/-- Without a clone nothing is put into the vector. -/
theorem placeItem_refused (size capacity : Nat) (array : Storage UInt8) (index : Nat)
    (refused : cloner.clone calls data = none) :
    placeItem cloner calls (VectorMode.owned.vector array size capacity) index data =
      .ok (none, calls + 1) := by
  simp [placeItem, VectorMode.isPointer, VectorMode.owns, refused]

/-- The element at the index is there a second time when the others have moved up. -/
theorem shiftUp_again (capacity : Nat) {gap : List (Option UInt8)}
    (sized : ∀ other ∈ front ++ item :: rest, other.length = pointerSize)
    (gapped : gap.length = pointerSize) (cells : List (Option UInt8)) :
    shiftUp (VectorMode.owned.vector
        (.heap ((front ++ item :: rest).flatten.map some ++ (gap ++ cells)))
        (front ++ item :: rest).length capacity) front.length =
      .ok (.heap ((front ++ item :: item :: rest).flatten.map some ++ cells)) := by
  have before : front.flatten.length = front.length * pointerSize :=
    flatten_length fun other inside => sized other (List.mem_append_left _ inside)
  have behind : (item :: rest).flatten.length = (item :: rest).length * pointerSize :=
    flatten_length fun other inside => sized other (List.mem_append_right front inside)
  have width : item.length = pointerSize :=
    sized item (List.mem_append_right front List.mem_cons_self)
  have split : (front ++ item :: rest).flatten.map some ++ (gap ++ cells) =
      front.flatten.map some ++ ((item :: rest).flatten.map some ++ (gap ++ cells)) := by
    simp
  have first : ((item :: rest).flatten.map some ++ gap).take gap.length = item.map some := by
    have length : gap.length = (item.map some).length := by rw [gapped, List.length_map, width]
    rw [List.flatten_cons, List.map_append, List.append_assoc, length, List.take_left]
  have moved := move_up_eq front.flatten (item :: rest).flatten gap cells
  have count : (front ++ item :: rest).length - front.length = (item :: rest).length := by
    rw [List.length_append, Nat.add_sub_cancel_left]
  have next : (front.length + 1) * pointerSize = front.flatten.length + gap.length := by
    rw [before, gapped, Nat.succ_mul]
  have esize : VectorMode.owned.esize = pointerSize := rfl
  rw [shiftUp, if_pos (by simp), vector_data, vector_esize, esize, vector_size, count, next,
    ← before,
    ← behind, split, moved, first]
  simp

/-- The elements that count when those from an index on have moved up. -/
def shifted (items : List (List UInt8)) (index : Nat) : List (List UInt8) :=
  (items.take (index + 1) ++ items.drop index).take items.length

/-- An insertion without a clone leaves the elements moved up, in a vector with room. -/
theorem insert_refused (generous : allocator.Generous) {array : Storage UInt8}
    {items : List (List UInt8)} {index : Nat}
    (sized : ∀ item ∈ items, item.length = pointerSize) (fits : items.length ≤ capacity)
    (inside : index ≤ items.length)
    (room : Room array capacity pointerSize items.flatten)
    (grows : RoomToGrow (VectorMode.owned.vector array items.length capacity))
    (refused : cloner.clone calls data = none) :
    ∃ array' capacity', ucbVectorInsert allocator cloner calls
        (VectorMode.owned.vector array items.length capacity) index data =
        .ok (VectorMode.owned.vector array' items.length capacity', calls + 1) ∧
      items.length ≤ capacity' ∧
      Room array' capacity' pointerSize (shifted items index).flatten := by
  obtain ⟨array', capacity', grown, room', more⟩ :=
    grow_vector generous sized fits room grows
  obtain ⟨spare, rfl, enough, small⟩ := room'.heap (Nat.zero_lt_of_lt more)
  have enough : capacity' * pointerSize ≤ items.flatten.length + spare.length := enough
  have used := flatten_length sized
  have run : ∀ moved, shiftUp (VectorMode.owned.vector (.heap (items.flatten.map some ++ spare))
        items.length capacity') index = .ok moved →
      ucbVectorInsert allocator cloner calls (VectorMode.owned.vector array items.length capacity)
        index data = .ok (VectorMode.owned.vector moved items.length capacity', calls + 1) := by
    intro moved ran
    have placed := placeItem_refused items.length capacity' moved index refused
    simp only [ucbVectorInsert, vector_size, inside, decide_true, ucbVerify_true, Exec.ok_bind,
      grown, if_true, ran, vector_esize, vector_capacity, vector_clone, vector_free,
      vector_pointer, vector_mk, placed]
    rfl
  rcases Nat.lt_or_eq_of_le inside with within | rfl
  · have wider : items.length * pointerSize + pointerSize ≤
        capacity' * pointerSize := by
      rw [← Nat.succ_mul]
      exact Nat.mul_le_mul_right _ more
    have gapped : (spare.take pointerSize).length = pointerSize := by
      rw [List.length_take]
      omega
    obtain ⟨split, length⟩ := items_split (List.getElem?_eq_getElem within)
    have again := sized
    rw [split] at again
    have moved := shiftUp_again capacity' again gapped (spare.drop pointerSize)
    rw [List.take_append_drop, ← split, length] at moved
    have all : items.take index ++ items[index] :: items[index] :: items.drop (index + 1) =
        items.take (index + 1) ++ items.drop index := by
      rw [List.take_succ_eq_append_getElem within, List.append_assoc, List.singleton_append,
        ← List.drop_eq_getElem_cons within]
    rw [all, ← List.take_append_drop items.length (items.take (index + 1) ++ items.drop index),
      List.flatten_append, List.map_append, List.append_assoc] at moved
    have allSized : ∀ item ∈ items.take (index + 1) ++ items.drop index,
        item.length = pointerSize := by
      intro item member
      rcases List.mem_append.mp member with before | behind
      · exact sized item (List.mem_of_mem_take before)
      · exact sized item (List.mem_of_mem_drop behind)
    have total : (shifted items index).flatten.length +
        ((items.take (index + 1) ++ items.drop index).drop items.length).flatten.length =
          items.flatten.length + pointerSize := by
      rw [← List.length_append, ← List.flatten_append, shifted, List.take_append_drop,
        flatten_length allSized, used, List.length_append, List.length_take, List.length_drop,
        ← Nat.succ_mul]
      congr 1
      omega
    refine ⟨_, capacity', run _ moved, Nat.le_of_lt more,
      .inr ⟨Nat.zero_lt_of_lt more, _, rfl, ?_, ?_⟩⟩
    · rw [List.length_append, List.length_map, List.length_drop]
      omega
    · rw [List.length_append, List.length_map, List.length_drop]
      omega
  · have same : shifted items items.length = items := by
      rw [shifted, List.take_of_length_le (Nat.le_succ _), List.drop_length, List.append_nil,
        List.take_length]
    rw [same]
    refine ⟨_, capacity', run _ (if_neg (Nat.lt_irrefl _)), Nat.le_of_lt more,
      .inr ⟨Nat.zero_lt_of_lt more, spare, rfl, enough, small⟩⟩

/-- A full vector that cannot grow loses its array, or the room for its elements. -/
theorem insert_refused_wrapped {array : Storage UInt8} {index : Nat} {list : ItemList}
    (small : capacity * pointerSize < 2 ^ 64)
    (stuck : ¬ RoomToGrow (VectorMode.owned.vector array size capacity)) (some : capacity ≠ 0)
    (refused : cloner.clone calls data = none) (index_le : index ≤ size) {after : UcbVector}
    (ran : ucbVectorInsert allocator cloner calls (VectorMode.owned.vector array size capacity)
      index data = .ok (after, calls + 1)) (same : list.mode = .owned) : ¬ Keeps after list := by
  intro keeps
  simp only [RoomToGrow, vector_size, vector_capacity, vector_esize, Classical.not_imp,
    not_and, Nat.not_lt] at stuck
  obtain ⟨rfl, stuck⟩ := stuck
  have wraps : 2 ^ 64 ≤ size * 2 * pointerSize := stuck (Nat.pos_of_ne_zero some)
  have double : size * 2 % 2 ^ 64 = size * 2 := by
    have width : pointerSize = 8 := rfl
    rw [width] at small
    omega
  simp only [ucbVectorInsert, vector_size, index_le, decide_true, ucbVerify_true,
    Exec.ok_bind] at ran
  obtain ⟨⟨grown, reserved⟩, growth, ran⟩ := Exec.bind_eq_ok.mp ran
  rw [growFull, vector_size, vector_capacity, if_pos rfl, double] at growth
  rcases reserve_vector_wrapped (by omega) wraps growth with ⟨rfl, -⟩ | ⟨rfl, cells, rfl, short⟩
  · obtain ⟨-, count⟩ := Prod.mk.inj (Exec.ok.inj ran)
    omega
  · obtain ⟨moved, shift, ran⟩ := Exec.bind_eq_ok.mp ran
    have placed := placeItem_refused size (size * 2) moved index refused
    obtain ⟨place, here, ran⟩ := Exec.bind_eq_ok.mp ran
    obtain rfl := Exec.ok.inj (placed.symm.trans here)
    obtain ⟨rfl, -⟩ := Prod.mk.inj (Exec.ok.inj ran)
    have kept : moved.room = cells.length := by
      rw [shiftUp] at shift
      split at shift
      next behind =>
        obtain ⟨cells', rfl, kept⟩ := move_room shift
        exact kept
      next last =>
        obtain rfl := Exec.ok.inj shift
        rfl
    have enough : size * 2 * list.mode.esize ≤ moved.room := keeps.array.le_room
    rw [kept, same] at enough
    exact absurd enough (Nat.not_le.mpr short)

end Insert

section Insert

variable {allocator : Allocator} {cloner : CloneFunc} {vec : UcbVector} {list : ItemList}
  {data : List UInt8} {index calls : Nat}

/-- The pointers of a vector are the elements of its list. -/
theorem Keeps.pointerAt (keeps : Keeps vec list) (pointer : list.mode.isPointer = true)
    {item : List UInt8} (found : list.items[index]? = some item) :
    pointerAt vec.data index = .ok item := by
  have read := get_vector keeps found
  obtain ⟨-, -, read⟩ := Exec.bind_eq_ok.mp read
  rw [itemAt] at read
  have isPointer : vec.isPointer = true := by
    rw [keeps.fields]
    exact pointer
  rwa [if_pos isPointer] at read

theorem shifted_length (items : List (List UInt8)) (index : Nat) :
    (shifted items index).length = items.length := by
  simp only [shifted, List.length_take, List.length_append, List.length_drop]
  omega

theorem shifted_getElem? {items : List (List UInt8)} {place : Nat} (index : Nat)
    (within : place < items.length) :
    (shifted items index)[place]? =
      if place ≤ index then items[place]? else items[place - 1]? := by
  rw [shifted, List.getElem?_take_of_lt within]
  split
  next before =>
    rw [List.getElem?_append_left (by rw [List.length_take]; omega),
      List.getElem?_take_of_lt (Nat.lt_succ_of_le before)]
  next behind =>
    have length : (items.take (index + 1)).length = index + 1 :=
      List.length_take_of_le (by omega)
    rw [List.getElem?_append_right (by omega), length, List.getElem?_drop]
    congr 1
    omega

/-- Moving the elements up does not change those that count exactly when they are all
the same from the index on. -/
theorem shifted_eq_iff (items : List (List UInt8)) (index : Nat) :
    shifted items index = items ↔
      ∀ place, index ≤ place → place + 1 < items.length → items[place]? = items[place + 1]? := by
  constructor
  · intro same place behind within
    have moved := shifted_getElem? index within
    rw [same, if_neg (by omega), Nat.add_sub_cancel] at moved
    exact moved.symm
  · intro same
    apply List.ext_getElem?
    intro place
    by_cases within : place < items.length
    · rw [shifted_getElem? index within]
      split
      next before => rfl
      next behind =>
        have next := same (place - 1) (by omega) (by omega)
        rwa [Nat.sub_add_cancel (by omega)] at next
    · rw [List.getElem?_eq_none (by rw [shifted_length]; omega),
        List.getElem?_eq_none (by omega)]

theorem sameFrom_iff (keeps : Keeps vec list) (pointer : list.mode.isPointer = true) :
    SameFrom vec index ↔ shifted list.items index = list.items := by
  have size : vec.size = list.items.length := by
    rw [keeps.fields]
    rfl
  rw [shifted_eq_iff, SameFrom, size]
  refine forall_congr' fun place => forall_congr' fun _ => forall_congr' fun within => ?_
  have here := List.getElem?_eq_getElem (Nat.lt_of_succ_lt within)
  have next := List.getElem?_eq_getElem within
  rw [keeps.pointerAt pointer here, keeps.pointerAt pointer next, here, next]
  simp

/-- Exactly the failed insertions that find room and nothing to change leave a vector of
its own elements as it was. -/
theorem insert_refused_leaves_iff (generous : allocator.Generous) (keeps : Keeps vec list)
    (owned : list.mode = .owned) (inside : index ≤ list.items.length)
    (refused : cloner.clone calls data = none) :
    Leaves (ucbVectorInsert allocator cloner calls vec index data) list (calls + 1) ↔
      FailsInPlace vec index := by
  have pointer : list.mode.isPointer = true := by rw [owned]; rfl
  rw [FailsInPlace, sameFrom_iff keeps pointer]
  have sized : ∀ item ∈ list.items, item.length = pointerSize := by
    have sized := list.sized
    rwa [owned] at sized
  obtain ⟨array, capacity, rfl, fits, room⟩ := keeps.elim
  rw [owned] at room ⊢
  by_cases roomy : RoomToGrow (VectorMode.owned.vector array list.items.length capacity)
  · -- the elements have moved up
    obtain ⟨array', capacity', ran, fits', room'⟩ :=
      insert_refused generous sized fits inside room roomy refused
    have moved : Keeps (VectorMode.owned.vector array' list.items.length capacity')
        ⟨.owned, shifted list.items index, fun item member => by
          rcases List.mem_append.mp (List.mem_of_mem_take member) with before | behind
          · exact sized item (List.mem_of_mem_take before)
          · exact sized item (List.mem_of_mem_drop behind)⟩ := by
      refine ⟨?_, ?_, room'⟩
      · simp only [shifted_length, vector_data, vector_capacity]
      · simpa only [shifted_length, vector_capacity] using fits'
    rw [Leaves, ran, and_iff_right (.inl roomy)]
    constructor
    · rintro ⟨after, same, keeps'⟩
      obtain ⟨rfl, -⟩ := Prod.mk.inj (Exec.ok.inj same)
      exact moved.items_eq keeps' owned.symm
    · intro same
      refine ⟨_, rfl, ?_⟩
      obtain ⟨mode, items, size⟩ := list
      subst owned
      simpa only [same] using moved
  · by_cases nothing : capacity = 0
    · -- there is no element, and no place is asked for
      subst nothing
      have empty : list.items = [] := List.eq_nil_of_length_eq_zero (Nat.le_zero.mp fits)
      have first : index = 0 := by rw [empty] at inside; exact Nat.le_zero.mp inside
      have placed := placeItem_refused 0 0 array 0 refused
      refine iff_of_true ⟨_, ?_, keeps⟩ ⟨.inr rfl, by simp [empty, shifted]⟩
      rw [owned, empty, List.length_nil, first]
      have grown : growFull allocator (VectorMode.owned.vector array 0 0) =
          .ok (VectorMode.owned.vector array 0 0, true) := rfl
      have stays : shiftUp (VectorMode.owned.vector array 0 0) 0 = .ok array := rfl
      rw [ucbVectorInsert, decide_eq_true (Nat.zero_le _), ucbVerify_true, Exec.ok_bind, grown]
      show (shiftUp (VectorMode.owned.vector array 0 0) 0 >>= fun moved => _) = _
      rw [stays, Exec.ok_bind]
      show (placeItem cloner calls (VectorMode.owned.vector array 0 0) 0 data >>= fun placed => _) =
        _
      rw [placed]
      rfl
    · refine iff_of_false ?_ fun either => either.1.elim roomy nothing
      rintro ⟨after, ran, keeps'⟩
      exact insert_refused_wrapped room.bytes_lt roomy nothing refused inside ran owned keeps'

end Insert

/-! ## What the operations should do -/

section Specification

variable (cloner : CloneFunc)

/-- An item that cannot be cloned is not put into a list, which stays as it is. -/
def refuseItem (all : Lists) (number : Nat) (inRange : ItemList → Bool) (data : List UInt8) :
    Option (Lists × VectorOutcome) := do
  let list ← all.lists number
  if list.mode = .owned ∧ inRange list ∧ data.length = pointerSize ∧
      cloner.clone all.calls data = none then
    pure (all.put number list (all.calls + 1), ⟨true, none, []⟩)
  else none

/-- The list effect of an operation in which a clone fails: the target of a copy has the
clones made so far, and those of a new vector are freed. -/
def refusedStep (all : Lists) : GenericOp → Option (Lists × VectorOutcome)
  | .insert number index data =>
      refuseItem cloner all number (fun list => decide (index ≤ list.items.length)) data
  | .pushBack number data | .pushFront number data =>
      refuseItem cloner all number (fun _ => true) data
  | .set number index data =>
      refuseItem cloner all number (fun list => decide (index < list.items.length)) data
  | .copy dst src => do
      let old ← all.lists dst
      let list ← all.lists src
      let copied := list.mode.copies cloner all.calls list.items
      if dst = src ∨ copied.1.2 then none
      else do
        let after ← list.replace copied.1.1
        pure (all.put dst after copied.2, ⟨false, none, old.mode.dropped old.items⟩)
  | .clone _ src => do
      let list ← all.lists src
      let copied := list.mode.copies cloner all.calls list.items
      if copied.1.2 then none
      else pure ({ all with calls := copied.2 }, ⟨false, none, list.mode.dropped copied.1.1⟩)
  | _ => none

def TakesFreeNumber (all : Lists) : GenericOp → Prop
  | .new number _ | .clone number _ => (all.lists number).isNone
  | _ => True

instance (all : Lists) (op : GenericOp) : Decidable (TakesFreeNumber all op) := by
  unfold TakesFreeNumber
  split <;> infer_instance

/-- The list effect of an operation, whether its clones succeed or not. -/
def ownedStep (all : Lists) (op : GenericOp) : Option (Lists × VectorOutcome) :=
  if TakesFreeNumber all op then
    (itemStep cloner all op).orElse fun _ => refusedStep cloner all op
  else none

end Specification

/-! ## Single operations with a failed clone -/

/-- The vector clones its elements and cannot clone this one. -/
def Refuses (cloner : CloneFunc) (calls : Nat) (vec : UcbVector) (data : List UInt8) : Prop :=
  vec.dataClone = true ∧ cloner.clone calls data = none

instance (cloner : CloneFunc) (calls : Nat) (vec : UcbVector) (data : List UInt8) :
    Decidable (Refuses cloner calls vec data) := by
  unfold Refuses
  infer_instance

/-- The operation has its storage; if a clone fails, it is not that of an element to replace
another one, and an insertion fails in place. -/
def SafeWhenRefused (cloner : CloneFunc) (vectors : Vectors) : GenericOp → Prop
  | .insert number index data => ∀ vec ∈ vectors.vecs number,
      if Refuses cloner vectors.calls vec data then FailsInPlace vec index else RoomToGrow vec
  | .pushBack number data => ∀ vec ∈ vectors.vecs number,
      if Refuses cloner vectors.calls vec data then FailsInPlace vec vec.size else RoomToGrow vec
  | .pushFront number data => ∀ vec ∈ vectors.vecs number,
      if Refuses cloner vectors.calls vec data then FailsInPlace vec 0 else RoomToGrow vec
  | .set number _ data => ∀ vec ∈ vectors.vecs number, ¬ Refuses cloner vectors.calls vec data
  | op => StorageFits vectors op

section Performs

variable {allocator : Allocator} {cloner : CloneFunc} {vectors : Vectors} {all : Lists}
  {number : Nat} {list after : ItemList} {vec : UcbVector} {calls : Nat} {op : GenericOp}
  {next : Lists × VectorOutcome} {data : List UInt8}

theorem refuseItem_some {inRange : ItemList → Bool}
    (effect : refuseItem cloner all number inRange data = some next) :
    ∃ list, all.lists number = some list ∧ list.mode = .owned ∧ inRange list = true ∧
      cloner.clone all.calls data = none ∧
      next = (all.put number list (all.calls + 1), ⟨true, none, []⟩) := by
  obtain ⟨list, found, effect⟩ := Option.bind_eq_some_iff.mp effect
  split at effect
  next valid =>
    obtain ⟨owned, inside, -, refused⟩ := valid
    exact ⟨list, found, owned, inside, refused, (Option.some.inj effect).symm⟩
  next => cases effect

/-- Only a list that owns its elements can be refused one. -/
theorem refuses_iff (kept : Keeps vec list) :
    Refuses cloner calls vec data ↔ list.mode = .owned ∧ cloner.clone calls data = none := by
  rw [Refuses, kept.fields, vector_clone]
  cases list.mode <;> simp [VectorMode.owns]

theorem not_refuses {item : List UInt8} {calls' : Nat} (kept : Keeps vec list)
    (put : list.mode.put cloner calls data = some (item, calls')) :
    ¬ Refuses cloner calls vec data := by
  rw [refuses_iff kept]
  rintro ⟨owned, refused⟩
  rw [owned] at put
  obtain ⟨copy, cloned, -⟩ := Option.map_eq_some_iff.mp put
  exact Option.some_ne_none _ (cloned.symm.trans refused)

/-- An insertion that is refused has no effect exactly when it fails in place. -/
theorem performs_refused (generous : allocator.Generous) (keeps : KeepAll vectors all)
    {index : UcbVector → Nat} {inRange : ItemList → Bool}
    {change : UcbVector → Exec (UcbVector × Nat)}
    (step : genericStep allocator cloner vectors op = changeVector vectors number change)
    (inserts : ∀ vec,
      change vec = ucbVectorInsert allocator cloner vectors.calls vec (index vec) data)
    (inside : ∀ vec list, Keeps vec list → inRange list = true → index vec ≤ list.items.length)
    (effect : refuseItem cloner all number inRange data = some next) :
    Lib.Performs (genericRun allocator cloner) KeepAll vectors op next ↔
      ∀ vec ∈ vectors.vecs number, if Refuses cloner vectors.calls vec data
        then FailsInPlace vec (index vec) else RoomToGrow vec := by
  obtain ⟨list, found, owned, range, refused, rfl⟩ := refuseItem_some effect
  obtain ⟨vec, here, kept⟩ := keeps.vector found
  rw [← keeps.calls] at refused ⊢
  rw [performs_changed keeps here step, inserts vec,
    insert_refused_leaves_iff generous kept owned (inside vec list kept range) refused, here]
  simp [refuses_iff kept, owned, refused]

/-- A replacement that is refused has freed the element that it leaves in the list. -/
theorem set_refused {index : Nat} (keeps : KeepAll vectors all)
    (effect : refuseItem cloner all number (fun list => decide (index < list.items.length)) data =
      some next) :
    (∀ vec ∈ vectors.vecs number, Refuses cloner vectors.calls vec data) ∧
      ¬ Lib.Performs (genericRun allocator cloner) KeepAll vectors (.set number index data)
        next := by
  obtain ⟨list, found, owned, range, refused, rfl⟩ := refuseItem_some effect
  obtain ⟨vec, here, kept⟩ := keeps.vector found
  have inside : index < list.items.length := of_decide_eq_true range
  rw [← keeps.calls] at refused
  refine ⟨fun vec' there => ?_, ?_⟩
  · obtain rfl := Option.some.inj (here.symm.trans there)
    exact (refuses_iff kept).mpr ⟨owned, refused⟩
  · rintro ⟨state, ran, -⟩
    obtain ⟨array, capacity, rfl, -, -⟩ := kept.elim
    have read := kept.pointerAt (by rw [owned]; rfl) (List.getElem?_eq_getElem inside)
    rw [owned] at here read
    have freed : oldItem (VectorMode.owned.vector array list.items.length capacity) index =
        .ok [list.items[index]] := by
      show (pointerAt array index >>= fun item => pure [item]) = _
      rw [show pointerAt array index = .ok list.items[index] from read]
      rfl
    have placed := placeItem_refused list.items.length capacity array index refused
    rw [genericRun, genericStep, Vectors.find, here] at ran
    change (ucbVectorSet cloner vectors.calls _ index data >>= _).returned = _ at ran
    rw [ucbVectorSet, vector_size, decide_eq_true inside, ucbVerify_true, Exec.ok_bind, freed,
      Exec.ok_bind, placed, Exec.ok_bind] at ran
    obtain ⟨-, same⟩ := Prod.mk.inj (Option.some.inj ran)
    obtain ⟨-, -, freed⟩ := VectorOutcome.mk.inj same
    cases freed

/-- A copy that breaks off is right exactly when it fits. -/
theorem copy_refused {dst src : Nat} (generous : allocator.Generous) (keeps : KeepAll vectors all)
    (effect : refusedStep cloner all (.copy dst src) = some next) :
    Lib.Performs (genericRun allocator cloner) KeepAll vectors (.copy dst src) next ↔
      StorageFits vectors (.copy dst src) := by
  obtain ⟨old, target, effect⟩ := Option.bind_eq_some_iff.mp effect
  obtain ⟨list, found, effect⟩ := Option.bind_eq_some_iff.mp effect
  generalize copied : list.mode.copies cloner all.calls list.items = copies at effect
  obtain ⟨⟨items, whole⟩, calls⟩ := copies
  simp only at effect
  split at effect
  next => cases effect
  next breaks =>
    obtain ⟨apart, broken⟩ := not_or.mp breaks
    obtain rfl : whole = false := by simpa using broken
    obtain ⟨after, replaced, effect⟩ := Option.bind_eq_some_iff.mp effect
    obtain rfl := Option.some.inj effect
    obtain ⟨mode, content⟩ := replace_some replaced
    obtain ⟨to', here, held⟩ := keeps.vector target
    obtain ⟨vec, there, kept⟩ := keeps.vector found
    rw [← keeps.calls] at copied
    have fits : StorageFits vectors (.copy dst src) ↔ CopyFits to' vec := by
      rw [StorageFits, here, there]
      simp
    rw [fits, ← copy_keeps_iff generous held kept copied mode content,
      performs_put keeps (step_copy apart here there)]
    constructor
    · rintro ⟨⟨⟨⟨changed, success⟩, freed⟩, made⟩, ran, rfl, same, new⟩
      obtain ⟨rfl, -, rfl⟩ := VectorOutcome.mk.inj same
      exact ⟨changed, ran, new⟩
    · rintro ⟨changed, ran, new⟩
      exact ⟨_, ran, rfl, rfl, new⟩

/-- A clone of a vector that breaks off is freed with the clones it has. -/
theorem clone_refused {dst src : Nat} (generous : allocator.Generous)
    (keeps : KeepAll vectors all)
    (effect : refusedStep cloner all (.clone dst src) = some next) :
    Lib.Performs (genericRun allocator cloner) KeepAll vectors (.clone dst src) next ∧
      StorageFits vectors (.clone dst src) := by
  obtain ⟨list, found, effect⟩ := Option.bind_eq_some_iff.mp effect
  generalize copied : list.mode.copies cloner all.calls list.items = copies at effect
  obtain ⟨⟨items, whole⟩, calls⟩ := copies
  simp only at effect
  split at effect
  next => cases effect
  next breaks =>
    obtain rfl : whole = false := by simpa using breaks
    obtain rfl := Option.some.inj effect
    obtain ⟨vec, here, kept⟩ := keeps.vector found
    rw [← keeps.calls] at copied
    -- A vector with an element has capacity.
    have fits : CloneFits vec := by
      intro none
      have empty : list.items = [] :=
        List.eq_nil_of_length_eq_zero (Nat.le_zero.mp (none ▸ kept.inside))
      rw [empty] at copied
      cases mode : list.mode <;>
        (rw [mode] at copied
         exact absurd (Prod.mk.inj (Prod.mk.inj copied).1).2 (by simp))
    have sized := (copies_length list.sized copied).2
    have same : (⟨list.mode, items, sized⟩ : ItemList).mode = list.mode := rfl
    obtain ⟨changed, cloned, new⟩ := clone_copies generous kept fits copied same rfl
    obtain ⟨data, capacity, rfl, inside, array⟩ := new.elim
    refine ⟨⟨{ vectors with calls := calls }, ?_, rfl, keeps.slots⟩, ?_⟩
    · have freed : ∃ left, data.freed = .ok left := by
        rcases array with ⟨rfl, -⟩ | ⟨-, spare, rfl, -⟩
        · exact ⟨_, rfl⟩
        · exact ⟨_, rfl⟩
      obtain ⟨left, freed⟩ := freed
      have cleared := clear_vector inside array
      rw [cleared, Exec.ok_bind, vector_data, freed] at cloned
      rw [genericRun, step_clone here, cloned]
      rfl
    · rw [StorageFits, here]
      simpa using fits

theorem safe_iff_fits (keeps : KeepAll vectors all) (effect : itemStep cloner all op = some next) :
    SafeWhenRefused cloner vectors op ↔ StorageFits vectors op := by
  have inserts : ∀ {number index : Nat} {data : List UInt8} {change : UcbVector → Prop},
      insertItem cloner all number index data = some next →
      ((∀ vec ∈ vectors.vecs number,
          if Refuses cloner vectors.calls vec data then change vec else RoomToGrow vec) ↔
        ∀ vec ∈ vectors.vecs number, RoomToGrow vec) := by
    intro number index data change effect
    refine forall_congr' fun vec => forall_congr' fun here => ?_
    obtain ⟨list, item, made, after, found, -, -, put, -⟩ := insertItem_some effect
    obtain ⟨vec', here', kept⟩ := keeps.vector found
    obtain rfl := Option.some.inj (here'.symm.trans here)
    rw [← keeps.calls] at put
    rw [if_neg (not_refuses kept put)]
  cases op with
  | insert number index data => exact inserts effect
  | pushBack number data =>
      obtain ⟨list, found, effect⟩ := Option.bind_eq_some_iff.mp effect
      exact inserts effect
  | pushFront number data => exact inserts effect
  | set number index data =>
      refine iff_of_true ?_ trivial
      intro vec here
      obtain ⟨list, found, effect⟩ := Option.bind_eq_some_iff.mp effect
      obtain ⟨old, there, effect⟩ := Option.bind_eq_some_iff.mp effect
      split at effect
      next length =>
        obtain ⟨⟨item, calls⟩, put, effect⟩ := Option.bind_eq_some_iff.mp effect
        obtain ⟨vec', here', kept⟩ := keeps.vector found
        obtain rfl := Option.some.inj (here'.symm.trans here)
        rw [← keeps.calls] at put
        exact not_refuses kept put
      next => cases effect
  | _ => exact Iff.rfl

/-- Each operation by itself, with clones that succeed or fail, has the list effect exactly when
it is safe. -/
theorem owned_performs_iff (generous : allocator.Generous) (keeps : KeepAll vectors all)
    (effect : ownedStep cloner all op = some next) :
    Lib.Performs (genericRun allocator cloner) KeepAll vectors op next ↔
      SafeWhenRefused cloner vectors op := by
  obtain ⟨-, effect⟩ := Option.ite_none_right_eq_some.mp effect
  cases succeeds : itemStep cloner all op with
  | some made =>
      rw [succeeds] at effect
      obtain rfl := Option.some.inj effect
      rw [safe_iff_fits keeps succeeds]
      exact generic_performs_iff generous keeps op _ succeeds
  | none =>
      rw [succeeds] at effect
      replace effect : refusedStep cloner all op = some next := effect
      cases op with
      | insert number index data =>
          exact performs_refused generous keeps rfl (fun _ => rfl)
            (fun vec list kept range => of_decide_eq_true range) effect
      | pushBack number data =>
          refine performs_refused generous keeps rfl
            (fun vec => pushBack_eq_insert allocator cloner vectors.calls vec data)
            (fun vec list kept _ => ?_) effect
          exact Nat.le_of_eq (congrArg UcbVector.size kept.fields)
      | pushFront number data =>
          exact performs_refused generous keeps rfl (fun _ => rfl)
            (fun vec list kept _ => Nat.zero_le _) effect
      | set number index data =>
          obtain ⟨refuses, fails⟩ := set_refused keeps effect
          refine iff_of_false fails fun safe => ?_
          obtain ⟨list, found, -⟩ := refuseItem_some effect
          obtain ⟨vec, here, -⟩ := keeps.vector found
          exact safe vec here (refuses vec here)
      | copy dst src => exact copy_refused generous keeps effect
      | clone dst src =>
          obtain ⟨performs, fits⟩ := clone_refused generous keeps effect
          exact iff_of_true performs fits
      | _ => cases effect

end Performs

end Ucb.Container
