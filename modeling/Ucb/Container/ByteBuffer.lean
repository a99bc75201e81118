import Ucb.Container.Storage
import Ucb.Core.Buffer
import Ucb.Lib.Refinement

/-!
Contract: the generic part of `buffer.c`, with any grow function and allocator.

Owns:
- static and heap buffers, and `_impl_resize` of heap buffers;
- every operation that reads, writes, grows or shrinks a buffer;
- sequences of operations, each with what a grow function would return and what the
  allocator would grant.

`Ucb.Core.Buffer` has the pushes of the string functions, whose grow functions are
known; `Ucb.Container.ByteBufferRefinement` relates the two.
-/

namespace Ucb.Container

open Ucb.Lib

/-! ## Buffers -/

def sizeMax : Nat := 2 ^ 64 - 1

/-- A `ucb_buffer`. `resizable` tells whether `_impl_resize` is set, which then is
`ucb_buffer_resize_heap`. -/
structure ByteBuffer where
  data : Storage UInt8
  size : Nat
  alloc : Nat
  resizable : Bool
deriving DecidableEq, Repr

/-- `ucb_buffer_init_static` over the memory behind a non-null pointer. -/
def ucbBufferInitStatic (data : List (Option UInt8)) : Exec ByteBuffer := do
  ucbVerify (decide (data.length > 0)) .invalidArg
  pure ⟨.heap data, 0, data.length, false⟩

def ucbBufferInitHeap (allocator : Allocator) (initialCapacity : Nat) :
    Exec (ByteBuffer × Bool) := do
  ucbVerify (decide (initialCapacity > 0)) .invalidArg
  match ucbCalloc allocator initialCapacity with
  | none => pure (⟨.null, 0, 0, false⟩, false)
  | some block => pure (⟨.heap (block.map some), 0, initialCapacity, true⟩, true)

/-- What an operation meets when it grows the buffer: what `grow_func` returns, if it is
set, and what the allocator grants. -/
structure Surroundings where
  growFunc : Option UInt64
  allocator : Allocator

variable (env : Surroundings)

/-! ## Capacity -/

/-- `ucb_buffer_resize_heap`. A refused request leaves the old block. -/
def ucbBufferResizeHeap (buf : ByteBuffer) (newCapacity : Nat) : Exec (ByteBuffer × Bool) :=
  if newCapacity = 0 then do
    let _ ← buf.data.freed
    pure ({ buf with data := .null, alloc := 0 }, true)
  else do
    let (_, tmp) ← ucbReallocType env.allocator 1 buf.data newCapacity
    match tmp with
    | none => pure (buf, false)
    | some tmp => pure ({ buf with data := tmp, alloc := newCapacity }, true)

/-- The call of `_impl_resize` in `ucb_buffer_resize`. -/
def resizeUnlessSame (buf : ByteBuffer) (newCapacity : Nat) : Exec (ByteBuffer × Bool) :=
  if buf.alloc = newCapacity then pure (buf, true) else ucbBufferResizeHeap env buf newCapacity

def ucbBufferResize (buf : ByteBuffer) (newCapacity : Nat) : Exec (ByteBuffer × Bool) := do
  ucbVerify buf.resizable .buffer
  let (resized, success) ← resizeUnlessSame env buf newCapacity
  if success then
    pure (if resized.size > resized.alloc then { resized with size := resized.alloc } else resized,
      true)
  else pure (resized, false)

def ucbBufferGrow (buf : ByteBuffer) (incCapacity : Nat) : Exec (ByteBuffer × Bool) :=
  match env.growFunc with
  | some newCapacity =>
      ucbBufferResize env buf
        (if newCapacity.toNat < buf.alloc then buf.alloc else newCapacity.toNat)
  | none => do
      ucbVerify (decide (incCapacity ≤ sizeMax - buf.alloc)) .invalidArg
      ucbBufferResize env buf (buf.alloc + incCapacity)

def ucbBufferCanEnsure (buf : ByteBuffer) (size : Nat) : Bool :=
  if size ≤ buf.alloc - buf.size then true
  else if !buf.resizable then false
  else decide (size ≤ sizeMax - buf.size)

def ucbBufferEnsure (buf : ByteBuffer) (size : Nat) : Exec (ByteBuffer × Bool) :=
  let spare := buf.alloc - buf.size
  if size ≤ spare then pure (buf, true) else ucbBufferGrow env buf (size - spare)

def ucbBufferFit (buf : ByteBuffer) : Exec (ByteBuffer × Bool) :=
  if buf.size = buf.alloc then pure (buf, true) else ucbBufferResize env buf buf.size

/-! ## Content -/

/-- `ucb_buffer_push`. The room is made as by `ucb_buffer_ensure`. -/
def ucbBufferPush (buf : ByteBuffer) (data : List UInt8) : Exec (ByteBuffer × Bool) :=
  if data.length > 0 then do
    let (grown, success) ← ucbBufferEnsure env buf data.length
    if success then do
      let written ← grown.data.blit grown.size (data.map some)
      pure ({ grown with data := written, size := grown.size + data.length }, true)
    else pure (grown, false)
  else pure (buf, true)

/-- `ucb_buffer_push_null`: 0, or -1 when the buffer cannot grow. -/
def ucbBufferPushNull (buf : ByteBuffer) : Exec (ByteBuffer × Int) := do
  let (grown, success) ← ucbBufferEnsure env buf 1
  if success then do
    let written ← grown.data.store grown.size 0
    pure ({ grown with data := written, size := grown.size + 1 }, 0)
  else pure (grown, -1)

def ucbBufferRead (buf : ByteBuffer) (size offset : Nat) : Exec (List UInt8) := do
  ucbVerify (decide (offset ≤ buf.size ∧ size ≤ buf.size - offset)) .outOfBounds
  if size > 0 then buf.data.loadAll offset size else pure []

def ucbBufferPop (buf : ByteBuffer) (size : Nat) : Exec (ByteBuffer × List UInt8) := do
  ucbVerify (decide (size ≤ buf.size)) .outOfBounds
  if size > 0 then do
    let data ← buf.data.loadAll (buf.size - size) size
    pure ({ buf with size := buf.size - size }, data)
  else pure (buf, [])

def ucbBufferTruncate (buf : ByteBuffer) (newSize : Nat) : Exec ByteBuffer := do
  ucbVerify (decide (newSize ≤ buf.size)) .outOfBounds
  pure { buf with size := newSize }

def ucbBufferClear (buf : ByteBuffer) : ByteBuffer :=
  { buf with size := 0 }

/-! ## Sequences of operations -/

inductive BufferCall where
  | push (data : List UInt8)
  | pushNull
  | pop (size : Nat)
  | read (size offset : Nat)
  | ensure (size : UInt64)
  | grow (incCapacity : UInt64)
  | resize (newCapacity : UInt64)
  | truncate (newSize : Nat)
  | clear
  | fit
deriving DecidableEq, Repr

/-- What a call returns or writes to `out_data`. -/
inductive BufferResult where
  | nothing
  | flag (success : Bool)
  | status (code : Int)
  | bytes (data : List UInt8)
deriving DecidableEq, Repr

structure BufferOp where
  call : BufferCall
  env : Surroundings

def bufferStep (buf : ByteBuffer) (op : BufferOp) : Exec (ByteBuffer × BufferResult) :=
  match op.call with
  | .push data => do
      let (after, success) ← ucbBufferPush op.env buf data
      pure (after, .flag success)
  | .pushNull => do
      let (after, code) ← ucbBufferPushNull op.env buf
      pure (after, .status code)
  | .pop size => do
      let (after, data) ← ucbBufferPop buf size
      pure (after, .bytes data)
  | .read size offset => do
      let data ← ucbBufferRead buf size offset
      pure (buf, .bytes data)
  | .ensure size => do
      let (after, success) ← ucbBufferEnsure op.env buf size.toNat
      pure (after, .flag success)
  | .grow incCapacity => do
      let (after, success) ← ucbBufferGrow op.env buf incCapacity.toNat
      pure (after, .flag success)
  | .resize newCapacity => do
      let (after, success) ← ucbBufferResize op.env buf newCapacity.toNat
      pure (after, .flag success)
  | .truncate newSize => do
      let after ← ucbBufferTruncate buf newSize
      pure (after, .nothing)
  | .clear => pure (ucbBufferClear buf, .nothing)
  | .fit => do
      let (after, success) ← ucbBufferFit op.env buf
      pure (after, .flag success)

end Ucb.Container
