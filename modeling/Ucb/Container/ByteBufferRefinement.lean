import Ucb.Container.ByteBuffer

/-!
Contract: byte buffers against byte lists.

Owns:
- `Stores`, that a buffer stores a list of bytes in a block of `alloc` bytes;
- the list effect of each operation, what it reports and when it may abort;
- exactly when growing makes the room that it reports, and exactly when whole
  sequences of operations are right;
- that doubling always makes the room.

A grow function whose answer is too small is clamped to the capacity the buffer has.
Resizing to that is a success, and whatever needed the room is written behind the
block.
-/

namespace Ucb.Container

open Ucb.Lib

/-! ## Buffers that store a list -/

/-- The buffer stores a list in a live block of `alloc` bytes, or in none. -/
structure Stores (buf : ByteBuffer) (content : List UInt8) : Prop where
  size : buf.size = content.length
  block : (buf.data = .null ∧ buf.alloc = 0 ∧ content = []) ∨
    (0 < buf.alloc ∧ ∃ spare, buf.data = .heap (content.map some ++ spare) ∧
      content.length + spare.length = buf.alloc)
  small : buf.alloc < 2 ^ 64

inductive Begun : ByteBuffer → Prop where
  | static {data : List (Option UInt8)} {buf : ByteBuffer} (small : data.length < 2 ^ 64)
      (made : ucbBufferInitStatic data = .ok buf) : Begun buf
  | heap {allocator : Allocator} {initialCapacity : Nat} {buf : ByteBuffer}
      (small : initialCapacity < 2 ^ 64)
      (made : ucbBufferInitHeap allocator initialCapacity = .ok (buf, true)) : Begun buf

theorem Begun.stores {buf : ByteBuffer} (begun : Begun buf) : Stores buf [] := by
  cases begun with
  | @static data buf small made =>
      obtain ⟨_, nonempty, made⟩ := Exec.bind_eq_ok.mp made
      have positive := of_decide_eq_true (ucbVerify_ok nonempty)
      obtain rfl := Exec.ok.inj made
      exact ⟨rfl, .inr ⟨positive, data, rfl, Nat.zero_add _⟩, small⟩
  | @heap allocator initialCapacity buf small made =>
      obtain ⟨_, nonempty, made⟩ := Exec.bind_eq_ok.mp made
      have positive := of_decide_eq_true (ucbVerify_ok nonempty)
      split at made
      next refused => cases made
      next block granted =>
        obtain ⟨rfl, -⟩ := Prod.mk.inj (Exec.ok.inj made)
        rw [ucbCalloc] at granted
        split at granted
        next given =>
          obtain rfl := Option.some.inj granted
          exact ⟨rfl, .inr ⟨positive, _, rfl, by simp⟩, small⟩
        next => cases granted

variable {env : Surroundings} {buf : ByteBuffer} {content : List UInt8}

theorem Stores.inside (stores : Stores buf content) : buf.size ≤ buf.alloc := by
  rw [stores.size]
  rcases stores.block with ⟨-, -, rfl⟩ | ⟨-, spare, -, length⟩
  · exact Nat.zero_le _
  · omega

theorem Stores.freed (stores : Stores buf content) : ∃ after, buf.data.freed = .ok after := by
  rcases stores.block with ⟨null, -⟩ | ⟨-, spare, heap, -⟩
  · exact ⟨.null, by rw [null]; rfl⟩
  · exact ⟨.dangling, by rw [heap]; rfl⟩

/-! ## Resizing -/

/-- The new block of a granted request begins with what fits of the old one. -/
theorem resizeHeap_granted (stores : Stores buf content) {newCapacity : Nat}
    (nonzero : newCapacity ≠ 0) (small : newCapacity < 2 ^ 64)
    (granted : env.allocator.grants .realloc newCapacity = true) :
    ∃ cells, ucbBufferResizeHeap env buf newCapacity =
        .ok ({ buf with data := .heap cells, alloc := newCapacity }, true) ∧
      cells.length = newCapacity ∧
      ∃ spare, cells = (content.take newCapacity).map some ++ spare := by
  have positive : 0 < newCapacity := Nat.pos_of_ne_zero nonzero
  have granted' : env.allocator.grants .realloc (newCapacity * 1) = true := by rwa [Nat.mul_one]
  have small' : newCapacity * 1 < 2 ^ 64 := by rwa [Nat.mul_one]
  rcases stores.block with ⟨null, -, rfl⟩ | ⟨-, spare, heap, -⟩
  · refine ⟨List.replicate newCapacity none, ?_, List.length_replicate,
      List.replicate newCapacity none, by simp⟩
    rw [ucbBufferResizeHeap, if_neg nonzero, null,
      realloc_null granted' Nat.one_pos positive small']
    rfl
  · refine ⟨(content.map some ++ spare).take newCapacity ++
      List.replicate (newCapacity - (content.map some ++ spare).length) none, ?_, ?_, ?_⟩
    · rw [ucbBufferResizeHeap, if_neg nonzero, heap,
        realloc_heap granted' _ Nat.one_pos positive small']
      rfl
    · rw [List.length_append, List.length_take, List.length_replicate]
      omega
    · rw [List.take_append, List.map_take, List.append_assoc]
      exact ⟨_, rfl⟩

/-- A resize that succeeds keeps what fits. -/
theorem resize_stores (env : Surroundings) (stores : Stores buf content)
    (resizable : buf.resizable = true)
    {newCapacity : Nat} (small : newCapacity < 2 ^ 64)
    (granted : buf.alloc = newCapacity ∨ newCapacity = 0 ∨
      env.allocator.grants .realloc newCapacity = true) :
    ∃ after, ucbBufferResize env buf newCapacity = .ok (after, true) ∧
      Stores after (content.take newCapacity) ∧ after.alloc = newCapacity := by
  have inside := stores.inside
  have size := stores.size
  by_cases same : buf.alloc = newCapacity
  · have whole : content.take newCapacity = content :=
      List.take_of_length_le (by omega)
    have fits : ¬ buf.size > buf.alloc := Nat.not_lt.mpr inside
    refine ⟨buf, ?_, whole.symm ▸ stores, same⟩
    simp only [ucbBufferResize, resizable, ucbVerify_true, Exec.ok_bind, resizeUnlessSame,
      if_pos same, Exec.pure_eq_ok, if_true, if_neg fits]
  · by_cases nothing : newCapacity = 0
    · subst nothing
      obtain ⟨gone, freed⟩ := stores.freed
      refine ⟨{ buf with data := .null, alloc := 0, size := 0 }, ?_, ⟨rfl, .inl ⟨rfl, rfl, rfl⟩,
        (by decide : 0 < 2 ^ 64)⟩, rfl⟩
      simp only [ucbBufferResize, resizable, ucbVerify_true, Exec.ok_bind, resizeUnlessSame,
        if_neg same, ucbBufferResizeHeap, if_true, freed, Exec.pure_eq_ok]
      by_cases some : buf.size > 0
      · rw [if_pos some]
      · rw [if_neg some]
        have none : buf.size = 0 := by omega
        rw [← none]
    · have granted := (granted.resolve_left same).resolve_left nothing
      obtain ⟨cells, resized, length, spare, rfl⟩ :=
        resizeHeap_granted stores nothing small granted
      have positive : 0 < newCapacity := Nat.pos_of_ne_zero nothing
      have count : (content.take newCapacity).length = min newCapacity content.length :=
        List.length_take
      refine ⟨{ buf with
        data := .heap ((content.take newCapacity).map some ++ spare)
        alloc := newCapacity
        size := (content.take newCapacity).length }, ?_, ⟨rfl, .inr ⟨positive, spare, rfl, ?_⟩,
          small⟩, rfl⟩
      · simp only [ucbBufferResize, resizable, ucbVerify_true, Exec.ok_bind, resizeUnlessSame,
          if_neg same, resized, if_true, Exec.pure_eq_ok]
        by_cases cut : buf.size > newCapacity
        · rw [if_pos cut, count, Nat.min_eq_left (by omega)]
        · rw [if_neg cut, count, Nat.min_eq_right (by omega), ← size]
      · rw [List.length_append, List.length_map] at length
        exact length

theorem resize_refused (stores : Stores buf content) (resizable : buf.resizable = true)
    {newCapacity : Nat} (small : newCapacity < 2 ^ 64) (differs : buf.alloc ≠ newCapacity)
    (nonzero : newCapacity ≠ 0) (refused : ¬ env.allocator.grants .realloc newCapacity = true) :
    ucbBufferResize env buf newCapacity = .ok (buf, false) := by
  obtain ⟨after, freed⟩ := stores.freed
  have request : ucbReallocType env.allocator 1 buf.data newCapacity = .ok (after, none) :=
    realloc_refused (by rwa [Nat.mul_one, Nat.mod_eq_of_lt small]) freed
  simp only [ucbBufferResize, resizable, ucbVerify_true, Exec.ok_bind, resizeUnlessSame,
    if_neg differs, ucbBufferResizeHeap, if_neg nonzero, request, Exec.pure_eq_ok,
    Bool.false_eq_true, if_false]

/-! ## Making room -/

/-- Making room for `size` more bytes is right: a success has the room and a failure
changes nothing. It aborts only where `ucb_buffer_can_ensure` says so. -/
def EnsureRight (env : Surroundings) (buf : ByteBuffer) (content : List UInt8) (size : Nat) :
    Prop :=
  match ucbBufferEnsure env buf size with
  | .ok (after, true) => Stores after content ∧ size ≤ after.alloc - after.size
  | .ok (after, false) => after = buf
  | .abort _ => ucbBufferCanEnsure buf size = false
  | .undefined => False

/-- A buffer that has to grow and is asked by its grow function for too little is not given
it. -/
def RoomFor (env : Surroundings) (buf : ByteBuffer) (size : Nat) : Prop :=
  buf.alloc - buf.size < size → buf.resizable = true → ∀ answer ∈ env.growFunc,
    buf.size + size ≤ answer.toNat ∨
      (buf.alloc < answer.toNat ∧ env.allocator.grants .realloc answer.toNat = false)

theorem resize_larger (env : Surroundings) (stores : Stores buf content)
    (resizable : buf.resizable = true)
    {newCapacity : Nat} (small : newCapacity < 2 ^ 64) (larger : buf.alloc < newCapacity) :
    (env.allocator.grants .realloc newCapacity = true ∧
      ∃ after, ucbBufferResize env buf newCapacity = .ok (after, true) ∧ Stores after content ∧
        after.alloc = newCapacity) ∨
    (env.allocator.grants .realloc newCapacity = false ∧
      ucbBufferResize env buf newCapacity = .ok (buf, false)) := by
  have inside := stores.inside
  have size := stores.size
  cases granted : env.allocator.grants .realloc newCapacity with
  | true =>
      obtain ⟨after, resized, stores', alloc⟩ :=
        resize_stores env stores resizable small (.inr (.inr granted))
      rw [List.take_of_length_le (by omega)] at stores'
      exact .inl ⟨rfl, after, resized, stores', alloc⟩
  | false =>
      refine .inr ⟨rfl, resize_refused stores resizable small (Nat.ne_of_lt larger) ?_ ?_⟩
      · exact Nat.ne_of_gt (Nat.zero_lt_of_lt larger)
      · rw [granted]
        exact Bool.false_ne_true

/-- Without a resize function nothing can be ensured that does not fit. -/
theorem canEnsure_fixed {size : Nat} (fits : ¬ size ≤ buf.alloc - buf.size)
    (fixed : buf.resizable = false) : ucbBufferCanEnsure buf size = false := by
  rw [ucbBufferCanEnsure, if_neg fits, fixed]
  rfl

/-- Exactly the buffers with room for what is asked, if it is granted, make it. -/
theorem ensure_right_iff (stores : Stores buf content) (size : Nat) :
    EnsureRight env buf content size ↔ RoomFor env buf size := by
  have inside := stores.inside
  have small := stores.small
  have length := stores.size
  by_cases fits : size ≤ buf.alloc - buf.size
  · have enough : ucbBufferEnsure env buf size = .ok (buf, true) := if_pos fits
    rw [EnsureRight, enough]
    exact iff_of_true ⟨stores, fits⟩ fun more => absurd fits (Nat.not_le.mpr more)
  · have grows : ucbBufferEnsure env buf size =
        ucbBufferGrow env buf (size - (buf.alloc - buf.size)) := if_neg fits
    rw [EnsureRight, grows, ucbBufferGrow]
    cases answered : env.growFunc with
    | none =>
        have room : RoomFor env buf size := by
          intro _ _ answer unset
          rw [answered] at unset
          cases unset
        refine iff_of_true ?_ room
        by_cases overflow : size - (buf.alloc - buf.size) ≤ sizeMax - buf.alloc
        · simp only [overflow, decide_true, ucbVerify_true, Exec.ok_bind]
          have total : buf.alloc + (size - (buf.alloc - buf.size)) = buf.size + size := by omega
          rw [total]
          cases resizable : buf.resizable with
          | false =>
              simp only [ucbBufferResize, resizable, ucbVerify_false, Exec.abort_bind]
              exact canEnsure_fixed fits resizable
          | true =>
              have bound : buf.size + size < 2 ^ 64 := by
                have most : sizeMax = 2 ^ 64 - 1 := rfl
                omega
              rcases resize_larger env stores resizable bound (by omega) with
                ⟨-, after, resized, stores', alloc⟩ | ⟨-, resized⟩
              · rw [resized]
                refine ⟨stores', ?_⟩
                rw [alloc, stores'.size]
                omega
              · rw [resized]
        · simp only [overflow, decide_false, ucbVerify_false, Exec.abort_bind]
          cases resizable : buf.resizable with
          | false => exact canEnsure_fixed fits resizable
          | true =>
              have most : ¬ size ≤ sizeMax - buf.size := by
                have most : sizeMax = 2 ^ 64 - 1 := rfl
                omega
              rw [ucbBufferCanEnsure, if_neg fits, resizable]
              exact decide_eq_false most
    | some answer =>
        dsimp only
        cases resizable : buf.resizable with
        | false =>
            simp only [ucbBufferResize, resizable, ucbVerify_false, Exec.abort_bind]
            refine iff_of_true (canEnsure_fixed fits resizable) ?_
            intro _ impossible
            rw [resizable] at impossible
            cases impossible
        | true =>
            have room_iff : RoomFor env buf size ↔ buf.size + size ≤ answer.toNat ∨
                (buf.alloc < answer.toNat ∧
                  env.allocator.grants .realloc answer.toNat = false) := by
              rw [RoomFor, answered]
              simp [Nat.not_le.mp fits, resizable]
            rw [room_iff]
            by_cases larger : buf.alloc < answer.toNat
            · rw [if_neg (Nat.lt_asymm larger)]
              rcases resize_larger env stores resizable answer.toNat_lt larger with
                ⟨granted, after, resized, stores', alloc⟩ | ⟨refused, resized⟩
              · rw [resized, granted]
                dsimp only
                rw [alloc, stores'.size, ← length]
                constructor
                · intro right
                  exact .inl (by omega)
                · intro right
                  rcases right with enough | ⟨-, impossible⟩
                  · exact ⟨stores', by omega⟩
                  · cases impossible
              · rw [resized]
                exact iff_of_true rfl (.inr ⟨larger, refused⟩)
            · -- the answer is clamped to the capacity, and nothing grows
              have clamped : (if answer.toNat < buf.alloc then buf.alloc else answer.toNat) =
                  buf.alloc := by
                split
                · rfl
                · omega
              obtain ⟨after, resized, stores', alloc⟩ :=
                resize_stores env stores resizable small (.inl rfl)
              rw [List.take_of_length_le (by omega)] at stores'
              rw [clamped, resized]
              apply iff_of_false
              · intro right
                have room := right.2
                rw [alloc, stores'.size, ← length] at room
                exact fits room
              · rintro (enough | ⟨more, -⟩)
                · omega
                · exact larger more

/-! ## What the operations are for -/

def listEffect (content : List UInt8) : BufferCall → BufferResult → List UInt8
  | .push data, .flag true => content ++ data
  | .pushNull, .status 0 => content ++ [0]
  | .pop size, _ => content.take (content.length - size)
  | .resize newCapacity, .flag true => content.take newCapacity.toNat
  | .truncate newSize, _ => content.take newSize
  | .clear, _ => []
  | _, _ => content

/-- What the report of an operation says about the buffer and the list before it. A failure
leaves the buffer unchanged. -/
def Reported (before : ByteBuffer) (content : List UInt8) (after : ByteBuffer) :
    BufferCall → BufferResult → Prop
  | .push _, .flag success => success = false → after = before
  | .pushNull, .status code => code = 0 ∨ (code = -1 ∧ after = before)
  | .pop size, .bytes data => data = content.drop (content.length - size)
  | .read size offset, .bytes data => data = (content.drop offset).take size ∧ after = before
  | .ensure size, .flag success =>
      if success then size.toNat ≤ after.alloc - after.size else after = before
  | .grow _, .flag success => if success then before.alloc ≤ after.alloc else after = before
  | .resize newCapacity, .flag success =>
      if success then after.alloc = newCapacity.toNat else after = before
  | .fit, .flag success => if success then after.alloc = after.size else after = before
  | .truncate _, .nothing | .clear, .nothing => after.alloc = before.alloc
  | _, _ => False

def Permitted (buf : ByteBuffer) : BufferCall → Prop
  | .push data => ucbBufferCanEnsure buf data.length = true
  | .pushNull => ucbBufferCanEnsure buf 1 = true
  | .ensure size => ucbBufferCanEnsure buf size.toNat = true
  | .grow incCapacity => buf.resizable = true ∧ incCapacity.toNat ≤ sizeMax - buf.alloc
  | .resize _ => buf.resizable = true
  | .fit => buf.size = buf.alloc ∨ buf.resizable = true
  | .pop size | .truncate size => size ≤ buf.size
  | .read size offset => offset + size ≤ buf.size
  | .clear => True

/-- An operation is right on a buffer that is to store a list: it touches no other memory,
aborts only where it is not permitted, has the list effect and reports the truth. -/
def Right (state : ByteBuffer × List UInt8) (op : BufferOp) : Prop :=
  match bufferStep state.1 op with
  | .ok (after, result) =>
      Stores after (listEffect state.2 op.call result) ∧
        Reported state.1 state.2 after op.call result
  | .abort _ => ¬ Permitted state.1 op.call
  | .undefined => False

/-- The bytes for which an operation makes room. -/
def requested : BufferCall → Nat
  | .push data => data.length
  | .pushNull => 1
  | .ensure size => size.toNat
  | .pop _ | .read _ _ | .grow _ | .resize _ | .truncate _ | .clear | .fit => 0

/-- An operation that needs more room than there is either gets an answer of the grow
function that has it, or gets no block for the answer. -/
def GrowthSuffices (state : ByteBuffer × List UInt8) (op : BufferOp) : Prop :=
  RoomFor op.env state.1 (requested op.call)

theorem roomFor_zero (env : Surroundings) (buf : ByteBuffer) : RoomFor env buf 0 :=
  fun more => absurd more (Nat.not_lt_zero _)

theorem blit_stores (stores : Stores buf content) {data : List UInt8}
    (room : data.length ≤ buf.alloc - buf.size) :
    ∃ written, buf.data.blit buf.size (data.map some) = .ok written ∧
      Stores { buf with data := written, size := buf.size + data.length } (content ++ data) := by
  have size := stores.size
  rcases stores.block with ⟨null, none, rfl⟩ | ⟨some, spare, heap, length⟩
  · have empty : data = [] := List.eq_nil_of_length_eq_zero (by omega)
    subst empty
    refine ⟨buf.data, if_pos rfl, ⟨?_, .inl ⟨null, none, rfl⟩, stores.small⟩⟩
    rw [size]
    rfl
  · have written := blit_cells (content.map Option.some) (spare.take data.length)
      (data.map Option.some) (spare.drop data.length)
      (by rw [List.length_take, List.length_map]; omega)
    rw [List.take_append_drop, List.length_map, ← size, ← heap] at written
    refine ⟨_, written, ⟨?_, .inr ⟨some, spare.drop data.length, ?_, ?_⟩, stores.small⟩⟩
    · rw [size, List.length_append]
    · simp
    · rw [List.length_append, List.length_drop]
      dsimp only
      omega

theorem store_stores (stores : Stores buf content) (room : 1 ≤ buf.alloc - buf.size)
    (byte : UInt8) :
    ∃ written, buf.data.store buf.size byte = .ok written ∧
      Stores { buf with data := written, size := buf.size + 1 } (content ++ [byte]) := by
  have size := stores.size
  rcases stores.block with ⟨-, none, -⟩ | ⟨some, spare, heap, length⟩
  · omega
  · cases spare with
    | nil =>
        rw [List.length_nil] at length
        omega
    | cons cell spare =>
        have written := store_cells content cell spare byte
        rw [← size, ← heap] at written
        refine ⟨_, written, ⟨?_, .inr ⟨some, spare, rfl, ?_⟩, stores.small⟩⟩
        · rw [size, List.length_append]
          rfl
        · rw [List.length_append]
          rw [List.length_cons] at length
          dsimp only [List.length_singleton]
          omega

theorem loadAll_stores (stores : Stores buf content) {offset size : Nat}
    (inside : offset + size ≤ buf.size) (nonzero : size > 0) :
    buf.data.loadAll offset size = .ok ((content.drop offset).take size) := by
  rw [stores.size] at inside
  rcases stores.block with ⟨-, -, rfl⟩ | ⟨-, spare, heap, -⟩
  · rw [List.length_nil] at inside
    omega
  · have front : (content.take offset).length = offset := List.length_take_of_le (by omega)
    have middle : ((content.drop offset).take size).length = size := by
      rw [List.length_take, List.length_drop]
      omega
    have loaded := loadAll_cells (content.take offset) ((content.drop offset).take size)
      (((content.drop offset).drop size).map some ++ spare)
    have cells : (content.take offset).map some ++ (((content.drop offset).take size).map some ++
        (((content.drop offset).drop size).map some ++ spare)) = content.map some ++ spare := by
      rw [← List.append_assoc (((content.drop offset).take size).map some), ← List.map_append,
        List.take_append_drop, ← List.append_assoc, ← List.map_append, List.take_append_drop]
    rwa [cells, front, middle, ← heap] at loaded

/-! ## Single operations -/

/-- A failed attempt to make room and the report about it. -/
theorem ensure_cases (env : Surroundings) (buf : ByteBuffer) (size : Nat) :
    (∃ after, ucbBufferEnsure env buf size = .ok (after, true)) ∨
    (∃ after, ucbBufferEnsure env buf size = .ok (after, false)) ∨
    (∃ code, ucbBufferEnsure env buf size = .abort code) ∨
    ucbBufferEnsure env buf size = .undefined := by
  cases ucbBufferEnsure env buf size with
  | ok outcome =>
      obtain ⟨after, success⟩ := outcome
      cases success with
      | true => exact .inl ⟨after, rfl⟩
      | false => exact .inr (.inl ⟨after, rfl⟩)
  | abort code => exact .inr (.inr (.inl ⟨code, rfl⟩))
  | undefined => exact .inr (.inr (.inr rfl))

theorem right_ensure (stores : Stores buf content) (env : Surroundings) (size : UInt64) :
    Right (buf, content) ⟨.ensure size, env⟩ ↔ RoomFor env buf size.toNat := by
  rw [← ensure_right_iff stores, Right, EnsureRight, bufferStep]
  dsimp only
  rcases ensure_cases env buf size.toNat with
    ⟨after, ran⟩ | ⟨after, ran⟩ | ⟨code, ran⟩ | ran
  · rw [ran]
    exact Iff.rfl
  · rw [ran]
    constructor
    · exact fun right => right.2
    · rintro rfl
      exact ⟨stores, rfl⟩
  · rw [ran]
    exact Bool.not_eq_true _ |>.to_iff
  · rw [ran]
    exact Iff.rfl

/-- A push after a success without room writes behind the block. -/
theorem push_outside (stores : Stores buf content) {data : List UInt8}
    (none : ¬ data.length ≤ buf.alloc - buf.size) :
    buf.data.blit buf.size (data.map some) = .undefined := by
  have size := stores.size
  have nonempty : data.map some ≠ [] := by
    intro empty
    rw [List.map_eq_nil_iff] at empty
    exact none (by rw [empty]; exact Nat.zero_le _)
  rcases stores.block with ⟨null, -⟩ | ⟨-, spare, heap, length⟩
  · rw [null, Storage.blit, if_neg nonempty]
    rfl
  · rw [heap]
    apply blit_outside nonempty
    rw [List.length_append, List.length_map, List.length_map]
    omega

/-- A resize succeeds, is refused, or is not permitted. -/
theorem resize_cases (env : Surroundings) (stores : Stores buf content) {newCapacity : Nat}
    (small : newCapacity < 2 ^ 64) :
    (∃ after, ucbBufferResize env buf newCapacity = .ok (after, true) ∧
      Stores after (content.take newCapacity) ∧ after.alloc = newCapacity) ∨
    ucbBufferResize env buf newCapacity = .ok (buf, false) ∨
    (buf.resizable = false ∧ ucbBufferResize env buf newCapacity = .abort .buffer) := by
  cases resizable : buf.resizable with
  | false => exact .inr (.inr ⟨rfl, by simp [ucbBufferResize, resizable]⟩)
  | true =>
      by_cases granted : buf.alloc = newCapacity ∨ newCapacity = 0 ∨
          env.allocator.grants .realloc newCapacity = true
      · exact .inl (resize_stores env stores resizable small granted)
      · rw [not_or, not_or] at granted
        exact .inr (.inl (resize_refused stores resizable small granted.1 granted.2.1 granted.2.2))

/-- Growing succeeds, is refused, or is not permitted. -/
theorem grow_cases (env : Surroundings) (stores : Stores buf content) (incCapacity : Nat) :
    (∃ after, ucbBufferGrow env buf incCapacity = .ok (after, true) ∧ Stores after content ∧
      buf.alloc ≤ after.alloc) ∨
    ucbBufferGrow env buf incCapacity = .ok (buf, false) ∨
    (∃ code, ucbBufferGrow env buf incCapacity = .abort code ∧
      ¬ (buf.resizable = true ∧ incCapacity ≤ sizeMax - buf.alloc)) := by
  have inside := stores.inside
  have size := stores.size
  have upward : ∀ newCapacity, buf.alloc ≤ newCapacity → newCapacity < 2 ^ 64 →
      (∃ after, ucbBufferResize env buf newCapacity = .ok (after, true) ∧ Stores after content ∧
        buf.alloc ≤ after.alloc) ∨
      ucbBufferResize env buf newCapacity = .ok (buf, false) ∨
      (∃ code, ucbBufferResize env buf newCapacity = .abort code ∧
        ¬ (buf.resizable = true ∧ incCapacity ≤ sizeMax - buf.alloc)) := by
    intro newCapacity larger small
    rcases resize_cases env stores small with ⟨after, resized, stores', alloc⟩ | same | ⟨fixed, ran⟩
    · rw [List.take_of_length_le (by omega)] at stores'
      exact .inl ⟨after, resized, stores', by omega⟩
    · exact .inr (.inl same)
    · refine .inr (.inr ⟨_, ran, ?_⟩)
      rw [fixed]
      exact fun permitted => Bool.false_ne_true permitted.1
  have small := stores.small
  rw [ucbBufferGrow]
  cases env.growFunc with
  | some answer =>
      dsimp only
      have bound := answer.toNat_lt
      split
      next less => exact upward buf.alloc (Nat.le_refl _) small
      next more => exact upward answer.toNat (Nat.not_lt.mp more) bound
  | none =>
      by_cases overflow : incCapacity ≤ sizeMax - buf.alloc
      · simp only [overflow, decide_true, ucbVerify_true, Exec.ok_bind, and_true]
        have most : sizeMax = 2 ^ 64 - 1 := rfl
        simpa only [overflow, and_true] using
          upward (buf.alloc + incCapacity) (Nat.le_add_right _ _) (by omega)
      · refine .inr (.inr ⟨.invalidArg, ?_, fun permitted => overflow permitted.2⟩)
        simp only [overflow, decide_false, ucbVerify_false, Exec.abort_bind]

/-- Making room, or failing to, leaves a buffer that stores the same list. -/
theorem ensure_stores (stores : Stores buf content) (env : Surroundings) (size : Nat)
    {after : ByteBuffer} (ran : ucbBufferEnsure env buf size = .ok (after, true)) :
    Stores after content := by
  by_cases fits : size ≤ buf.alloc - buf.size
  · have enough : ucbBufferEnsure env buf size = .ok (buf, true) := if_pos fits
    obtain ⟨rfl, -⟩ := Prod.mk.inj (Exec.ok.inj (enough.symm.trans ran))
    exact stores
  · have grows : ucbBufferEnsure env buf size =
        ucbBufferGrow env buf (size - (buf.alloc - buf.size)) := if_neg fits
    rw [grows] at ran
    rcases grow_cases env stores (size - (buf.alloc - buf.size)) with
      ⟨grown, grew, stores', -⟩ | same | ⟨code, aborted, -⟩
    · obtain ⟨rfl, -⟩ := Prod.mk.inj (Exec.ok.inj (grew.symm.trans ran))
      exact stores'
    · cases same.symm.trans ran
    · cases aborted.symm.trans ran

theorem right_push (stores : Stores buf content) (env : Surroundings) (data : List UInt8) :
    Right (buf, content) ⟨.push data, env⟩ ↔ RoomFor env buf data.length := by
  by_cases some : data.length > 0
  · rw [← ensure_right_iff stores, Right, EnsureRight, bufferStep]
    dsimp only
    rw [ucbBufferPush, if_pos some]
    rcases ensure_cases env buf data.length with
      ⟨after, ran⟩ | ⟨after, ran⟩ | ⟨code, ran⟩ | ran
    · have stores' := ensure_stores stores env data.length ran
      rw [ran, Exec.ok_bind]
      dsimp only
      rw [if_pos rfl]
      by_cases room : data.length ≤ after.alloc - after.size
      · obtain ⟨written, wrote, stores''⟩ := blit_stores stores' room
        rw [wrote]
        exact iff_of_true ⟨stores'', fun failed => by cases failed⟩ ⟨stores', room⟩
      · rw [push_outside stores' room]
        exact iff_of_false (fun right => right) fun right => room right.2
    · rw [ran]
      constructor
      · exact fun right => right.2 rfl
      · rintro rfl
        exact ⟨stores, fun _ => rfl⟩
    · rw [ran]
      exact Bool.not_eq_true _ |>.to_iff
    · rw [ran]
      exact Iff.rfl
  · obtain rfl : data = [] := List.eq_nil_of_length_eq_zero (by omega)
    refine iff_of_true ?_ (roomFor_zero env buf)
    refine ⟨?_, fun failed => by cases failed⟩
    rw [listEffect, List.append_nil]
    exact stores

theorem right_pushNull (stores : Stores buf content) (env : Surroundings) :
    Right (buf, content) ⟨.pushNull, env⟩ ↔ RoomFor env buf 1 := by
  rw [← ensure_right_iff stores, Right, EnsureRight, bufferStep]
  dsimp only
  rw [ucbBufferPushNull]
  rcases ensure_cases env buf 1 with ⟨after, ran⟩ | ⟨after, ran⟩ | ⟨code, ran⟩ | ran
  · have stores' := ensure_stores stores env 1 ran
    rw [ran, Exec.ok_bind]
    dsimp only
    rw [if_pos rfl]
    by_cases room : 1 ≤ after.alloc - after.size
    · obtain ⟨written, wrote, stores''⟩ := store_stores stores' room 0
      rw [wrote]
      exact iff_of_true ⟨stores'', .inl rfl⟩ ⟨stores', room⟩
    · have outside : after.data.store after.size 0 = .undefined := by
        have size := stores'.size
        rcases stores'.block with ⟨null, -⟩ | ⟨-, spare, heap, length⟩
        · rw [null]
          rfl
        · rw [heap]
          apply store_outside
          rw [List.length_append, List.length_map]
          omega
      rw [outside]
      exact iff_of_false (fun right => right) fun right => room right.2
  · rw [ran]
    constructor
    · intro right
      rcases right.2 with zero | ⟨-, same⟩
      · cases zero
      · exact same
    · rintro rfl
      exact ⟨stores, .inr ⟨rfl, rfl⟩⟩
  · rw [ran]
    exact Bool.not_eq_true _ |>.to_iff
  · rw [ran]
    exact Iff.rfl

/-- A list of which the end is dropped. -/
theorem Stores.take (stores : Stores buf content) {newSize : Nat} (fewer : newSize ≤ buf.size) :
    Stores { buf with size := newSize } (content.take newSize) := by
  rw [stores.size] at fewer
  refine ⟨(List.length_take_of_le fewer).symm, ?_, stores.small⟩
  rcases stores.block with ⟨null, none, rfl⟩ | ⟨some, spare, heap, length⟩
  · exact .inl ⟨null, none, List.take_nil⟩
  · refine .inr ⟨some, (content.drop newSize).map Option.some ++ spare, ?_, ?_⟩
    · rw [← List.append_assoc, ← List.map_append, List.take_append_drop]
      exact heap
    · rw [List.length_take_of_le fewer, List.length_append, List.length_map, List.length_drop]
      dsimp only
      omega

/-- The operations that need no room are right. -/
theorem right_rest (stores : Stores buf content) (op : BufferOp)
    (rest : (∀ data, op.call ≠ .push data) ∧ op.call ≠ .pushNull ∧
      ∀ size, op.call ≠ .ensure size) : Right (buf, content) op := by
  have size := stores.size
  obtain ⟨call, env⟩ := op
  cases call with
  | push data => exact absurd rfl (rest.1 data)
  | pushNull => exact absurd rfl rest.2.1
  | ensure size => exact absurd rfl (rest.2.2 size)
  | pop count =>
      by_cases inside : count ≤ buf.size
      · have ran : ucbBufferPop buf count = .ok ({ buf with size := buf.size - count },
            content.drop (content.length - count)) := by
          rw [ucbBufferPop, decide_eq_true inside, ucbVerify_true, Exec.ok_bind]
          by_cases some : count > 0
          · rw [if_pos some, loadAll_stores stores (by omega) some, Exec.ok_bind,
              List.take_of_length_le (by rw [List.length_drop]; omega), size]
            rfl
          · obtain rfl : count = 0 := by omega
            rw [if_neg some, Nat.sub_zero, Nat.sub_zero, List.drop_length]
            rfl
        rw [Right, bufferStep]
        dsimp only
        rw [ran]
        refine ⟨?_, rfl⟩
        rw [listEffect, ← size]
        exact stores.take (Nat.sub_le _ _)
      · rw [Right, bufferStep]
        dsimp only
        rw [ucbBufferPop, decide_eq_false inside]
        exact inside
  | read count offset =>
      by_cases inside : offset ≤ buf.size ∧ count ≤ buf.size - offset
      · have ran : ucbBufferRead buf count offset = .ok ((content.drop offset).take count) := by
          rw [ucbBufferRead, decide_eq_true inside, ucbVerify_true, Exec.ok_bind]
          by_cases some : count > 0
          · rw [if_pos some, loadAll_stores stores (by omega) some]
          · obtain rfl : count = 0 := by omega
            rw [if_neg some, List.take_zero]
            rfl
        rw [Right, bufferStep]
        dsimp only
        rw [ran]
        exact ⟨stores, rfl, rfl⟩
      · rw [Right, bufferStep]
        dsimp only
        rw [ucbBufferRead, decide_eq_false inside]
        intro permitted
        have permitted : offset + count ≤ buf.size := permitted
        exact inside ⟨by omega, by omega⟩
  | grow incCapacity =>
      rw [Right, bufferStep]
      dsimp only
      rcases grow_cases env stores incCapacity.toNat with
        ⟨grown, grew, stores', more⟩ | same | ⟨code, aborted, forbidden⟩
      · rw [grew]
        exact ⟨stores', more⟩
      · rw [same]
        exact ⟨stores, rfl⟩
      · rw [aborted]
        exact forbidden
  | resize newCapacity =>
      rw [Right, bufferStep]
      dsimp only
      rcases resize_cases env stores newCapacity.toNat_lt with
        ⟨after, resized, stores', alloc⟩ | same | ⟨fixed, aborted⟩
      · rw [resized]
        exact ⟨stores', alloc⟩
      · rw [same]
        exact ⟨stores, rfl⟩
      · rw [aborted]
        intro permitted
        have permitted : buf.resizable = true := permitted
        rw [fixed] at permitted
        cases permitted
  | truncate newSize =>
      rw [Right, bufferStep]
      dsimp only
      by_cases inside : newSize ≤ buf.size
      · rw [ucbBufferTruncate, decide_eq_true inside]
        exact ⟨stores.take inside, rfl⟩
      · rw [ucbBufferTruncate, decide_eq_false inside]
        exact inside
  | clear => exact ⟨stores.take (Nat.zero_le _), rfl⟩
  | fit =>
      rw [Right, bufferStep]
      dsimp only
      by_cases full : buf.size = buf.alloc
      · rw [ucbBufferFit, if_pos full]
        exact ⟨stores, full.symm⟩
      · rw [ucbBufferFit, if_neg full]
        have small : buf.size < 2 ^ 64 := Nat.lt_of_le_of_lt stores.inside stores.small
        rcases resize_cases env stores small with
          ⟨after, resized, stores', alloc⟩ | same | ⟨fixed, aborted⟩
        · rw [List.take_of_length_le (by omega)] at stores'
          have exact : after.alloc = after.size := by rw [alloc, stores'.size, size]
          rw [resized]
          exact ⟨stores', exact⟩
        · rw [same]
          exact ⟨stores, rfl⟩
        · rw [aborted]
          intro permitted
          rcases permitted with same | resizable
          · exact full same
          · rw [fixed] at resizable
            cases resizable

/-- Exactly the operations for which growing suffices are right. -/
theorem right_iff (stores : Stores buf content) (op : BufferOp) :
    Right (buf, content) op ↔ GrowthSuffices (buf, content) op := by
  obtain ⟨call, env⟩ := op
  cases call with
  | push data => exact right_push stores env data
  | pushNull => exact right_pushNull stores env
  | ensure size => exact right_ensure stores env size
  | pop _ | read _ _ | grow _ | resize _ | truncate _ | clear | fit =>
      exact iff_of_true (right_rest stores _ (by simp)) (roomFor_zero env buf)

/-! ## Sequences of operations -/

/-- Perform an operation on a buffer and on the list that it is to store. -/
def bufferRun (state : ByteBuffer × List UInt8) (op : BufferOp) :
    Option ((ByteBuffer × List UInt8) × BufferResult) :=
  (bufferStep state.1 op).returned.map fun outcome =>
    ((outcome.1, listEffect state.2 op.call outcome.2), outcome.2)

/-- A right operation leaves a buffer that stores its list. -/
theorem right_keeps {state : ByteBuffer × List UInt8} {op : BufferOp}
    {after : (ByteBuffer × List UInt8) × BufferResult} (right : Right state op)
    (ran : bufferRun state op = some after) : Stores after.1.1 after.1.2 := by
  obtain ⟨outcome, returned, rfl⟩ := Option.map_eq_some_iff.mp ran
  rw [Exec.returned_eq_some] at returned
  rw [Right, returned] at right
  exact right.1

/-- In every sequence of operations on a new buffer all are right exactly when growing
suffices for all of them. -/
theorem bufferOps_right_iff (begun : Begun buf) (ops : List BufferOp) :
    Throughout bufferRun Right (buf, []) ops ↔
      Throughout bufferRun GrowthSuffices (buf, []) ops := by
  refine throughout_iff (fun state => Stores state.1 state.2) ?_ ?_ begun.stores
  · intro state op stores
    exact right_iff stores op
  · intro state op after _ right ran
    exact right_keeps right ran

/-- A buffer of one byte that doubles takes two. -/
theorem bufferOps_right_iff_double :
    Throughout bufferRun Right (⟨.heap [some 0], 0, 1, true⟩, [])
        [⟨.push [7, 8], ⟨some 2, ⟨fun _ _ => true, fun _ => 0⟩⟩⟩] ↔
      Throughout bufferRun GrowthSuffices (⟨.heap [some 0], 0, 1, true⟩, [])
        [⟨.push [7, 8], ⟨some 2, ⟨fun _ _ => true, fun _ => 0⟩⟩⟩] :=
  bufferOps_right_iff
    (.heap (by decide) (rfl : ucbBufferInitHeap ⟨fun _ _ => true, fun _ => 0⟩ 1 = _)) _

/-- A grow function that answers the present capacity: room for two bytes is reported in a
buffer of one, and a push of two writes behind the block. -/
theorem grow_answer_too_small :
    ucbBufferEnsure ⟨some 1, ⟨fun _ _ => true, fun _ => 0⟩⟩ ⟨.heap [some 0], 0, 1, true⟩ 2 =
        .ok (⟨.heap [some 0], 0, 1, true⟩, true) ∧
    ucbBufferPush ⟨some 1, ⟨fun _ _ => true, fun _ => 0⟩⟩ ⟨.heap [some 0], 0, 1, true⟩ [7, 8] =
        .undefined ∧
    ucbBufferInitHeap ⟨fun _ _ => true, fun _ => 0⟩ 1 =
        .ok (⟨.heap [some 0], 0, 1, true⟩, true) ∧
    ¬ Throughout bufferRun Right (⟨.heap [some 0], 0, 1, true⟩, [])
        [⟨.push [7, 8], ⟨some 1, ⟨fun _ _ => true, fun _ => 0⟩⟩⟩] :=
  ⟨rfl, rfl, rfl, fun all => all.1⟩

/-! ## Doubling -/

/-- The answer of `ucb_buffer_grow_double` always has the room. -/
theorem growDouble_roomFor (stores : Stores buf content) {size : Nat} {answer : UInt64}
    (set : env.growFunc = some answer)
    (doubles : answer.toNat =
      ucbBufferGrowDouble buf.alloc (size - (buf.alloc - buf.size))) : RoomFor env buf size := by
  intro more _ answer' given
  rw [set] at given
  obtain rfl := Option.some.inj given
  have inside := stores.inside
  have fits := growDouble_fits buf.alloc (size - (buf.alloc - buf.size))
  rw [← doubles] at fits
  refine .inl ?_
  omega

/-- With a grow function and an allocator that grants everything, making room succeeds. -/
theorem ensure_succeeds (generous : env.allocator.Generous) (stores : Stores buf content)
    (resizable : buf.resizable = true) {answer : UInt64} (set : env.growFunc = some answer)
    (size : Nat) : ∃ after, ucbBufferEnsure env buf size = .ok (after, true) := by
  by_cases fits : size ≤ buf.alloc - buf.size
  · exact ⟨buf, if_pos fits⟩
  · have small := stores.small
    have bound : (if answer.toNat < buf.alloc then buf.alloc else answer.toNat) < 2 ^ 64 := by
      split
      next less => exact small
      next more => exact answer.toNat_lt
    obtain ⟨after, resized, -⟩ :=
      resize_stores env stores resizable bound (.inr (.inr (generous _ _)))
    refine ⟨after, (if_neg fits).trans ?_⟩
    rw [ucbBufferGrow, set]
    exact resized

/-- With doubling and an allocator that grants everything, the buffer takes every push, as
the doubling buffer of the string functions does. -/
theorem push_agrees (generous : env.allocator.Generous) (stores : Stores buf content)
    (resizable : buf.resizable = true) {data : List UInt8} {answer : UInt64}
    (set : env.growFunc = some answer)
    (doubles : answer.toNat =
      ucbBufferGrowDouble buf.alloc (data.length - (buf.alloc - buf.size)))
    (spare : List UInt8) :
    (∃ after, ucbBufferPush env buf data = .ok (after, true) ∧ Stores after (content ++ data)) ∧
    ∃ spare', Ucb.ucbBufferPush env.allocator ⟨content ++ spare, content.length, .double⟩ data =
      .ok (⟨content ++ data ++ spare', (content ++ data).length, .double⟩, true) := by
  refine ⟨?_, bufferPush_double generous content spare data⟩
  have right := (right_push stores env data).mpr (growDouble_roomFor stores set doubles)
  rw [Right, bufferStep] at right
  dsimp only at right
  by_cases some : data.length > 0
  · obtain ⟨grown, made⟩ := ensure_succeeds generous stores resizable set data.length
    have push : ucbBufferPush env buf data =
        (grown.data.blit grown.size (data.map Option.some) >>= fun written =>
          pure ({ grown with data := written, size := grown.size + data.length }, true)) := by
      rw [ucbBufferPush, if_pos some, made]
      rfl
    have stores' := ensure_stores stores env data.length made
    by_cases room : data.length ≤ grown.alloc - grown.size
    · obtain ⟨written, wrote, stores''⟩ := blit_stores stores' room
      exact ⟨_, by rw [push, wrote]; rfl, stores''⟩
    · rw [push, push_outside stores' room] at right
      exact right.elim
  · obtain rfl : data = [] := List.eq_nil_of_length_eq_zero (by omega)
    exact ⟨buf, rfl, by rwa [List.append_nil]⟩

end Ucb.Container
