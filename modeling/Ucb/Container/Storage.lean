import Ucb.Core.Memory

/-!
Contract: the array behind a `data` pointer.

Owns:
- where the pointer points, and what its cells hold;
- checked loads, stores and moves of cells;
- `ucb_realloc_type`.

A cell nobody has written holds `none`, and loading it is undefined. Moving no cells
touches no memory, also through a null pointer.
-/

namespace Ucb.Container

variable {α : Type}

/-- Where `data` points: nowhere, at freed memory, or at an array. -/
inductive Storage (α : Type) where
  | null
  | dangling
  | heap (cells : List (Option α))
deriving DecidableEq, Repr

namespace Storage

/-- The array behind a pointer that is dereferenced. -/
def cells : Storage α → Exec (List (Option α))
  | heap cells => .ok cells
  | null | dangling => .undefined

def load (data : Storage α) (index : Nat) : Exec α := do
  let cells ← data.cells
  match cells[index]? with
  | some (some value) => pure value
  | some none | none => .undefined

def store (data : Storage α) (index : Nat) (value : α) : Exec (Storage α) := do
  let cells ← data.cells
  if index < cells.length then pure (heap (cells.set index (some value))) else .undefined

/-- The `count` cells from `index` on. -/
def slice (data : Storage α) (index count : Nat) : Exec (List (Option α)) :=
  if count = 0 then pure []
  else do
    let cells ← data.cells
    if index + count ≤ cells.length then pure ((cells.drop index).take count) else .undefined

/-- The values of cells that have all been written. -/
def written : List (Option α) → Option (List α)
  | [] => some []
  | none :: _ => none
  | some value :: rest => (written rest).map (value :: ·)

/-- The values of the `count` cells from `index` on. -/
def loadAll (data : Storage α) (index count : Nat) : Exec (List α) := do
  let cells ← data.slice index count
  match written cells with
  | some values => pure values
  | none => .undefined

def room : Storage α → Nat
  | heap cells => cells.length
  | null | dangling => 0

/-- Write cells from `index` on. -/
def blit (data : Storage α) (index : Nat) (values : List (Option α)) : Exec (Storage α) :=
  if values = [] then pure data
  else do
    let cells ← data.cells
    if index + values.length ≤ cells.length then
      pure (heap (cells.take index ++ values ++ cells.drop (index + values.length)))
    else .undefined

/-- `memmove` of `count` cells within the array. -/
def move (data : Storage α) (dst src count : Nat) : Exec (Storage α) := do
  let values ← data.slice src count
  data.blit dst values

/-- The pointer behind which the memory has been freed. -/
def freed : Storage α → Exec (Storage α)
  | heap _ => .ok dangling
  | null => .ok null
  | dangling => .undefined

end Storage

/-- `ucb_realloc_type` of elements that are `width` bytes wide: what the pointer
argument is worth afterwards, and the new pointer or `UCB_NULL`. The product of count and
width wraps around, so that the array may have fewer cells than asked for. -/
def ucbReallocType (allocator : Allocator) (width : Nat) (data : Storage α) (count : Nat) :
    Exec (Storage α × Option (Storage α)) := do
  let freed ← data.freed
  let bytes := count * width % 2 ^ 64
  if 0 < bytes ∧ allocator.grants .realloc bytes = true then
    let old := match data with
      | .heap cells => cells
      | .null | .dangling => []
    let cells := bytes / width
    pure (freed, some (.heap (old.take cells ++ List.replicate (cells - old.length) none)))
  else pure (freed, none)

/-! ## Arrays that hold a list -/

/-- The array begins with the elements of a list. -/
def Filled (content : List α) (cells : List (Option α)) : Prop :=
  ∃ spare, cells = content.map some ++ spare

theorem load_filled {content : List α} {cells : List (Option α)} (filled : Filled content cells)
    {index : Nat} {value : α} (found : content[index]? = some value) :
    (Storage.heap cells).load index = .ok value := by
  obtain ⟨spare, rfl⟩ := filled
  have inside : index < (content.map some).length := by
    rw [List.length_map]
    exact (List.getElem?_eq_some_iff.mp found).1
  have cell : (content.map some ++ spare)[index]? = some (some value) := by
    rw [List.getElem?_append_left inside, List.getElem?_map, found]
    rfl
  simp only [Storage.load, Storage.cells, Exec.ok_bind, cell]
  rfl

theorem store_heap {cells : List (Option α)} {index : Nat} (inside : index < cells.length)
    (value : α) :
    (Storage.heap cells).store index value = .ok (.heap (cells.set index (some value))) := by
  simp [Storage.store, Storage.cells, inside]

theorem slice_heap {cells : List (Option α)} {index count : Nat}
    (inside : index + count ≤ cells.length) :
    (Storage.heap cells).slice index count = .ok ((cells.drop index).take count) := by
  by_cases none : count = 0
  · simp [Storage.slice, none]
  · simp [Storage.slice, Storage.cells, none, inside]

theorem blit_heap {cells values : List (Option α)} {index : Nat}
    (inside : index + values.length ≤ cells.length) :
    (Storage.heap cells).blit index values =
      .ok (.heap (cells.take index ++ values ++ cells.drop (index + values.length))) := by
  by_cases none : values = []
  · subst none
    simp [Storage.blit]
  · simp [Storage.blit, Storage.cells, none, inside]

theorem store_outside {cells : List (Option α)} {index : Nat} (outside : cells.length ≤ index)
    (value : α) : (Storage.heap cells).store index value = .undefined := by
  simp [Storage.store, Storage.cells, Nat.not_lt.mpr outside]

theorem blit_outside {cells values : List (Option α)} {index : Nat} (some : values ≠ [])
    (outside : cells.length < index + values.length) :
    (Storage.heap cells).blit index values = .undefined := by
  simp [Storage.blit, Storage.cells, some, Nat.not_le.mpr outside]

/-- An array keeps its cells when one is written. -/
theorem store_room {cells : List (Option α)} {index : Nat} {value : α} {data : Storage α}
    (stored : (Storage.heap cells).store index value = .ok data) :
    ∃ cells', data = .heap cells' ∧ cells'.length = cells.length := by
  simp only [Storage.store, Storage.cells, Exec.ok_bind] at stored
  split at stored
  next inside => exact ⟨_, (Exec.ok.inj stored).symm, List.length_set⟩
  next outside => cases stored

/-- An array keeps its cells when some are written. -/
theorem blit_room {cells values : List (Option α)} {index : Nat} {data : Storage α}
    (written : (Storage.heap cells).blit index values = .ok data) :
    ∃ cells', data = .heap cells' ∧ cells'.length = cells.length := by
  by_cases inside : index + values.length ≤ cells.length
  · rw [blit_heap inside] at written
    refine ⟨_, (Exec.ok.inj written).symm, ?_⟩
    simp only [List.length_append, List.length_take, List.length_drop]
    omega
  · by_cases none : values = []
    · rw [Storage.blit, if_pos none] at written
      exact ⟨cells, (Exec.ok.inj written).symm, rfl⟩
    · rw [blit_outside none (Nat.not_le.mp inside)] at written
      cases written

/-- An array keeps its cells when some are moved. -/
theorem move_room {cells : List (Option α)} {dst src count : Nat} {data : Storage α}
    (moved : (Storage.heap cells).move dst src count = .ok data) :
    ∃ cells', data = .heap cells' ∧ cells'.length = cells.length := by
  obtain ⟨values, -, written⟩ := Exec.bind_eq_ok.mp moved
  exact blit_room written

/-! ## Cells between other cells -/

theorem drop_cells (front : List α) (cells : List (Option α)) :
    (front.map some ++ cells).drop front.length = cells := by
  rw [← List.length_map (f := some), List.drop_left]

theorem take_cells (front : List α) (cells : List (Option α)) :
    (front.map some ++ cells).take front.length = front.map some := by
  rw [← List.length_map (f := some), List.take_left]

/-- The cells of elements in the middle of the array. -/
theorem slice_cells (front back : List α) (cells : List (Option α)) :
    (Storage.heap (front.map some ++ (back.map some ++ cells))).slice front.length back.length =
      .ok (back.map some) := by
  rw [slice_heap (by simp), drop_cells, take_cells]

theorem written_map (content : List α) : Storage.written (content.map some) = some content := by
  induction content with
  | nil => rfl
  | cons first rest inductionHypothesis =>
      rw [List.map_cons, Storage.written, inductionHypothesis]
      rfl

theorem loadAll_cells (front back : List α) (cells : List (Option α)) :
    (Storage.heap (front.map some ++ (back.map some ++ cells))).loadAll front.length back.length =
      .ok back := by
  rw [Storage.loadAll, slice_cells, Exec.ok_bind, written_map]
  rfl

theorem blit_cells (front overwritten values cells : List (Option α))
    (same : overwritten.length = values.length) :
    (Storage.heap (front ++ (overwritten ++ cells))).blit front.length values =
      .ok (.heap (front ++ (values ++ cells))) := by
  have rest : (front ++ (overwritten ++ cells)).drop (front.length + values.length) = cells := by
    rw [← List.append_assoc, ← same, ← List.length_append, List.drop_left]
  rw [blit_heap (by simp [same]), List.take_left, rest, List.append_assoc]

/-- Moving elements up over the cells behind them leaves the first cells there were. -/
theorem move_up_eq (front back : List α) (gap spare : List (Option α)) :
    (Storage.heap (front.map some ++ (back.map some ++ (gap ++ spare)))).move
        (front.length + gap.length) front.length back.length =
      .ok (.heap (front.map some ++
        ((back.map some ++ gap).take gap.length ++ (back.map some ++ spare)))) := by
  have length : ((back.map some ++ gap).take gap.length).length = gap.length := by simp
  have split : front.map some ++ (back.map some ++ (gap ++ spare)) =
      (front.map some ++ (back.map some ++ gap).take gap.length) ++
        ((back.map some ++ gap).drop gap.length ++ spare) := by
    rw [List.append_assoc, ← List.append_assoc (List.take _ _), List.take_append_drop,
      List.append_assoc]
  have written := blit_cells (front.map some ++ (back.map some ++ gap).take gap.length)
    ((back.map some ++ gap).drop gap.length) (back.map some) spare (by simp)
  rw [List.length_append, List.length_map, length] at written
  rw [Storage.move, slice_cells, Exec.ok_bind, split, written, List.append_assoc]

/-- As many cells are left before them as there were behind them. -/
theorem move_up (front back : List α) (gap spare : List (Option α)) :
    ∃ left, left.length = gap.length ∧
      (Storage.heap (front.map some ++ (back.map some ++ (gap ++ spare)))).move
          (front.length + gap.length) front.length back.length =
        .ok (.heap (front.map some ++ (left ++ (back.map some ++ spare)))) :=
  ⟨_, by simp, move_up_eq front back gap spare⟩

/-- Moving elements down over the cells before them leaves as many cells behind them. -/
theorem move_down (front back : List α) (gap spare : List (Option α)) :
    ∃ left, left.length = gap.length ∧
      (Storage.heap (front.map some ++ (gap ++ (back.map some ++ spare)))).move
          front.length (front.length + gap.length) back.length =
        .ok (.heap (front.map some ++ (back.map some ++ (left ++ spare)))) := by
  refine ⟨(gap ++ back.map some).drop back.length, by simp, ?_⟩
  have sliced : (Storage.heap (front.map some ++ (gap ++ (back.map some ++ spare)))).slice
      (front.length + gap.length) back.length = .ok (back.map some) := by
    have behind : front.length + gap.length = (front.map some ++ gap).length := by simp
    have count : back.length = (back.map some).length := by simp
    rw [slice_heap (by simp; omega), ← List.append_assoc, behind, List.drop_left, count,
      List.take_left]
  have split : front.map some ++ (gap ++ (back.map some ++ spare)) =
      front.map some ++ ((gap ++ back.map some).take back.length ++
        ((gap ++ back.map some).drop back.length ++ spare)) := by
    rw [← List.append_assoc (List.take _ _), List.take_append_drop, List.append_assoc]
  have written := blit_cells (front.map some) ((gap ++ back.map some).take back.length)
    (back.map some) ((gap ++ back.map some).drop back.length ++ spare) (by simp)
  rw [List.length_map] at written
  rw [Storage.move, sliced, Exec.ok_bind, split, written]

theorem store_cells (front : List α) (cell : Option α) (cells : List (Option α)) (data : α) :
    (Storage.heap (front.map some ++ cell :: cells)).store front.length data =
      .ok (.heap ((front ++ [data]).map some ++ cells)) := by
  rw [store_heap (by simp)]
  simp

/-! ## Requests -/

section Requests

variable {allocator : Allocator} {width count : Nat}

theorem realloc_null (granted : allocator.grants .realloc (count * width) = true)
    (wide : 0 < width) (nonzero : 0 < count) (fits : count * width < 2 ^ 64) :
    ucbReallocType allocator width (Storage.null : Storage α) count =
      .ok (.null, some (.heap (List.replicate count none))) := by
  have positive : 0 < count * width := Nat.mul_pos nonzero wide
  simp only [ucbReallocType, Nat.mod_eq_of_lt fits]
  simp [Storage.freed, positive, granted, Nat.mul_div_cancel _ wide]

theorem realloc_heap (granted : allocator.grants .realloc (count * width) = true)
    (cells : List (Option α)) (wide : 0 < width) (nonzero : 0 < count)
    (fits : count * width < 2 ^ 64) :
    ucbReallocType allocator width (.heap cells) count =
      .ok (.dangling, some (.heap (cells.take count ++
        List.replicate (count - cells.length) none))) := by
  have positive : 0 < count * width := Nat.mul_pos nonzero wide
  simp only [ucbReallocType, Nat.mod_eq_of_lt fits]
  simp [Storage.freed, positive, granted, Nat.mul_div_cancel _ wide]

/-- A request that is refused gives no array. -/
theorem realloc_refused (refused : ¬ allocator.grants .realloc (count * width % 2 ^ 64) = true)
    {data after : Storage α} (live : data.freed = .ok after) :
    ucbReallocType allocator width data count = .ok (after, none) := by
  have not_granted : ¬ (0 < count * width % 2 ^ 64 ∧
      allocator.grants .realloc (count * width % 2 ^ 64) = true) :=
    fun both => refused both.2
  simp only [ucbReallocType, live, Exec.ok_bind, if_neg not_granted]
  rfl

/-- Only the answer to the request matters. -/
theorem realloc_granting (granted : allocator.grants .realloc (count * width % 2 ^ 64) = true)
    (data : Storage α) :
    ucbReallocType allocator width data count =
      ucbReallocType allocator.granting width data count := by
  simp only [ucbReallocType, Allocator.granting, granted]

/-- A request for nothing frees the array. -/
theorem realloc_zero (cells : List (Option α)) :
    ucbReallocType allocator width (.heap cells) 0 = .ok (.dangling, none) := by
  simp [ucbReallocType, Storage.freed]

/-- The array of a granted request has the bytes that were asked for. -/
theorem realloc_cells {data old new : Storage α}
    (ran : ucbReallocType allocator width data count = .ok (old, some new)) :
    ∃ cells, new = .heap cells ∧ cells.length = count * width % 2 ^ 64 / width := by
  simp only [ucbReallocType] at ran
  obtain ⟨after, -, ran⟩ := Exec.bind_eq_ok.mp ran
  split at ran
  next granted =>
    obtain ⟨-, same⟩ := Prod.mk.inj (Exec.ok.inj ran)
    refine ⟨_, (Option.some.inj same).symm, ?_⟩
    simp only [List.length_append, List.length_take, List.length_replicate]
    omega
  next refused => cases (Prod.mk.inj (Exec.ok.inj ran)).2

/-- A request for 2^64 bytes or more gives fewer cells than it asks for, if any. -/
theorem realloc_wrapped (data : Storage α) (wraps : 2 ^ 64 ≤ count * width)
    {old : Storage α} {answer : Option (Storage α)}
    (ran : ucbReallocType allocator width data count = .ok (old, answer)) :
    answer = none ∨ ∃ cells, answer = some (.heap cells) ∧ cells.length < count := by
  cases answer with
  | none => exact .inl rfl
  | some new =>
      obtain ⟨cells, rfl, length⟩ := realloc_cells ran
      refine .inr ⟨cells, rfl, ?_⟩
      rw [length]
      apply Nat.div_lt_of_lt_mul
      rw [Nat.mul_comm width count]
      exact Nat.lt_of_lt_of_le (Nat.mod_lt _ (by decide)) wraps

end Requests

end Ucb.Container
