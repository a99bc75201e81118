import Ucb.Core.Exec

/-!
Contract: blocks of memory and the allocator.

Owns:
- checked copies out of and into a block;
- the allocation functions of `memory.c`, driven by an allocator that grants or
  refuses every request and decides what fresh memory contains.

An overriding error handler lets `UCB_FATAL` return, so a refused request gives
`UCB_NULL` (`none`). `ucb_realloc` then has freed the old block.
-/

namespace Ucb

/-! ## Copies -/

/-- The `len` bytes of a block from `pos` on, as read by `memcpy`. -/
def slice (mem : List UInt8) (pos len : Nat) : Exec (List UInt8) :=
  if pos + len ≤ mem.length then .ok ((mem.drop pos).take len) else .undefined

/-- `memcpy` of `bytes` into a block at `pos`. -/
def blit (block : List UInt8) (pos : Nat) (bytes : List UInt8) : Exec (List UInt8) :=
  if pos + bytes.length ≤ block.length then
    .ok (block.take pos ++ bytes ++ block.drop (pos + bytes.length))
  else .undefined

theorem slice_append (before bytes after : List UInt8) :
    slice (before ++ bytes ++ after) before.length bytes.length = .ok bytes := by
  have inside : before.length + bytes.length ≤ (before ++ bytes ++ after).length := by
    simp
  rw [slice, if_pos inside, List.append_assoc, List.drop_left, List.take_left]

theorem slice_left (bytes after : List UInt8) :
    slice (bytes ++ after) 0 bytes.length = .ok bytes :=
  slice_append [] bytes after

theorem blit_append (before old after : List UInt8) {bytes : List UInt8}
    (sameLength : old.length = bytes.length) :
    blit (before ++ old ++ after) before.length bytes = .ok (before ++ bytes ++ after) := by
  have inside : before.length + bytes.length ≤ (before ++ old ++ after).length := by
    simp [sameLength]
  have whole : before.length + bytes.length = (before ++ old).length := by
    simp [sameLength]
  rw [blit, if_pos inside, whole, List.drop_left, List.append_assoc before old, List.take_left]

/-- Writing behind the first part of a block that has room. -/
theorem blit_spare (used spare : List UInt8) {bytes : List UInt8}
    (room : bytes.length ≤ spare.length) :
    blit (used ++ spare) used.length bytes = .ok (used ++ bytes ++ spare.drop bytes.length) := by
  have split : used ++ spare = used ++ spare.take bytes.length ++ spare.drop bytes.length := by
    rw [List.append_assoc, List.take_append_drop]
  rw [split]
  exact blit_append used _ _ (by rw [List.length_take, Nat.min_eq_left room])

theorem blit_nil (block : List UInt8) {pos : Nat} (inside : pos ≤ block.length) :
    blit block pos [] = .ok block := by
  simp [blit, inside]

/-! ## Allocation -/

inductive AllocCall where
  | malloc
  | calloc
  | realloc
deriving DecidableEq, Repr

/-- The environment's answers to allocation requests. -/
structure Allocator where
  grants : AllocCall → Nat → Bool
  fresh : Nat → UInt8

def Allocator.Generous (allocator : Allocator) : Prop :=
  ∀ call size, allocator.grants call size = true

def Allocator.granting (allocator : Allocator) : Allocator :=
  ⟨fun _ _ => true, allocator.fresh⟩

theorem Allocator.granting_generous (allocator : Allocator) : allocator.granting.Generous :=
  fun _ _ => rfl

/-- Memory whose contents nobody has determined. -/
def Allocator.freshBlock (allocator : Allocator) (size : Nat) : List UInt8 :=
  (List.range size).map allocator.fresh

@[simp] theorem Allocator.freshBlock_length (allocator : Allocator) (size : Nat) :
    (allocator.freshBlock size).length = size := by
  simp [freshBlock]

def ucbMalloc (allocator : Allocator) (size : Nat) : Option (List UInt8) :=
  if 0 < size ∧ allocator.grants .malloc size = true then some (allocator.freshBlock size) else none

/-- `ucb_calloc` of bytes. -/
def ucbCalloc (allocator : Allocator) (size : Nat) : Option (List UInt8) :=
  if 0 < size ∧ allocator.grants .calloc size = true then some (List.replicate size 0) else none

/-- `ucb_realloc` and `ucb_realloc2`. -/
def ucbRealloc (allocator : Allocator) (block : List UInt8) (size : Nat) : Option (List UInt8) :=
  if 0 < size ∧ allocator.grants .realloc size = true then
    some (block.take size ++ allocator.freshBlock (size - block.length))
  else none

theorem realloc_granted {allocator : Allocator} {size : Nat} (block : List UInt8)
    (granted : allocator.grants .realloc size = true) (positive : 0 < size) :
    ucbRealloc allocator block size =
      some (block.take size ++ allocator.freshBlock (size - block.length)) := by
  rw [ucbRealloc, if_pos ⟨positive, granted⟩]

theorem realloc_refused {allocator : Allocator} {size : Nat} (block : List UInt8)
    (refused : ¬ allocator.grants .realloc size = true) :
    ucbRealloc allocator block size = none := by
  rw [ucbRealloc, if_neg (fun both => refused both.2)]

theorem malloc_granted {allocator : Allocator} {size : Nat}
    (granted : allocator.grants .malloc size = true) (positive : 0 < size) :
    ucbMalloc allocator size = some (allocator.freshBlock size) := by
  rw [ucbMalloc, if_pos ⟨positive, granted⟩]

theorem malloc_refused {allocator : Allocator} {size : Nat}
    (refused : ¬ allocator.grants .malloc size = true) : ucbMalloc allocator size = none := by
  rw [ucbMalloc, if_neg (fun both => refused both.2)]

end Ucb
