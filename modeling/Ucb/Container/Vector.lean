import Ucb.Container.Storage
import Ucb.Lib.Refinement
import Mathlib.Logic.Function.Basic

/-!
Contract: the typed vectors, as `vector_template.h` generates them.

Owns:
- the representation and every operation that changes it;
- sequences of operations on any number of vectors.

The instances `vector_str`, `vector_int`, `vector_ptr` and so on differ in the
element type and its width only. `clear_deep` and `free_full` free the elements,
which belong to their owner; the vector itself is cleared as by `clear`.
-/

namespace Ucb.Container

open Ucb.Lib

variable {α : Type}

/-! ## Representation -/

/-- An instance `ucb_vector_T` of the template. -/
structure UcbVectorT (α : Type) where
  data : Storage α
  size : Nat
  capacity : Nat
deriving DecidableEq, Repr

/-- `UCB_VECTOR_T_NEW`: the zeroed structure. -/
def ucbVectorTNew : UcbVectorT α :=
  ⟨.null, 0, 0⟩

def ucbVectorTDefaultCapacity : Nat := 8

variable (allocator : Allocator) (width : Nat)

/-! ## Capacity and size -/

def ucbVectorTReserve (vec : UcbVectorT α) (newCapacity : Nat) : Exec (UcbVectorT α × Bool) :=
  let newCapacity := if newCapacity = 0 then ucbVectorTDefaultCapacity else newCapacity
  if newCapacity ≤ vec.capacity then pure (vec, true)
  else do
    let (old, newData) ← ucbReallocType allocator width vec.data newCapacity
    match newData with
    | none => pure ({ vec with data := old }, false)
    | some newData => pure ({ vec with data := newData, capacity := newCapacity }, true)

def ucbVectorTClear (vec : UcbVectorT α) : UcbVectorT α :=
  { vec with size := 0 }

def ucbVectorTFit (vec : UcbVectorT α) : Exec (UcbVectorT α) :=
  if vec.capacity > vec.size then do
    let (old, newData) ← ucbReallocType allocator width vec.data vec.size
    match newData with
    | none => pure { vec with data := old }
    | some newData => pure { vec with data := newData, capacity := vec.size }
  else pure vec

/-! ## Lifecycle -/

/-- `UCB_VECTOR_T_COPY` between two vectors. -/
def ucbVectorTCopy (dst src : UcbVectorT α) : Exec (UcbVectorT α × Bool) := do
  let (dst, reserved) ← ucbVectorTReserve allocator width (ucbVectorTClear dst) src.capacity
  if reserved then do
    let values ← src.data.slice 0 src.size
    let data ← dst.data.blit 0 values
    pure ({ dst with data := data, size := src.size }, true)
  else pure (ucbVectorTClear dst, false)

/-- `UCB_VECTOR_T_CLONE` after the new structure is allocated. -/
def ucbVectorTClone (src : UcbVectorT α) : Exec (Option (UcbVectorT α)) := do
  let (dst, copied) ← ucbVectorTCopy allocator width ucbVectorTNew src
  pure (if copied then some dst else none)

/-- `UCB_VECTOR_T_MOVE` between two vectors: the new values of both. -/
def ucbVectorTMove (dst src : UcbVectorT α) : Exec (UcbVectorT α × UcbVectorT α) := do
  let _ ← dst.data.freed
  pure (src, ⟨.null, 0, 0⟩)

/-! ## Element access and modification -/

def ucbVectorTInsert (vec : UcbVectorT α) (index : Nat) (data : α) : Exec (UcbVectorT α) := do
  ucbVerify (decide (index ≤ vec.size)) .invalidArg
  let (vec, reserved) ←
    if vec.size = vec.capacity then
      ucbVectorTReserve allocator width vec (vec.capacity * 2 % 2 ^ 64)
    else pure (vec, true)
  if reserved then do
    let moved ←
      if index < vec.size then vec.data.move (index + 1) index (vec.size - index)
      else pure vec.data
    let stored ← moved.store index data
    pure { vec with data := stored, size := vec.size + 1 }
  else pure vec

def ucbVectorTRemove (vec : UcbVectorT α) (index : Nat) : Exec (UcbVectorT α × α) := do
  ucbVerify (decide (index < vec.size)) .invalidArg
  ucbVerify (decide (vec.size > 0)) .invalidArg
  let data ← vec.data.load index
  let moved ←
    if index < vec.size - 1 then vec.data.move index (index + 1) (vec.size - index - 1)
    else pure vec.data
  pure ({ vec with data := moved, size := vec.size - 1 }, data)

def ucbVectorTPushBack (vec : UcbVectorT α) (data : α) : Exec (UcbVectorT α) :=
  if vec.size < vec.capacity then do
    let stored ← vec.data.store vec.size data
    pure { vec with data := stored, size := vec.size + 1 }
  else ucbVectorTInsert allocator width vec vec.size data

def ucbVectorTPushFront (vec : UcbVectorT α) (data : α) : Exec (UcbVectorT α) :=
  if vec.size = 0 ∧ vec.capacity > 0 then do
    let stored ← vec.data.store 0 data
    pure { vec with data := stored, size := vec.size + 1 }
  else ucbVectorTInsert allocator width vec 0 data

def ucbVectorTPopBack (vec : UcbVectorT α) : Exec (UcbVectorT α × α) := do
  ucbVerify (decide (vec.size ≠ 0)) .invalidArg
  let data ← vec.data.load (vec.size - 1)
  pure ({ vec with size := vec.size - 1 }, data)

def ucbVectorTPopFront (vec : UcbVectorT α) : Exec (UcbVectorT α × α) := do
  ucbVerify (decide (vec.size ≠ 0)) .invalidArg
  let data ← vec.data.load 0
  let moved ←
    if vec.size - 1 > 0 then vec.data.move 0 1 (vec.size - 1) else pure vec.data
  pure ({ vec with data := moved, size := vec.size - 1 }, data)

def ucbVectorTGet (vec : UcbVectorT α) (index : Nat) : Exec α := do
  ucbVerify (decide (index < vec.size)) .invalidArg
  vec.data.load index

def ucbVectorTSet (vec : UcbVectorT α) (index : Nat) (data : α) : Exec (UcbVectorT α) := do
  ucbVerify (decide (index < vec.size)) .invalidArg
  let stored ← vec.data.store index data
  pure { vec with data := stored }

/-! ## Sequences of operations -/

/-- An operation on the vectors with the given numbers. -/
inductive VectorOp (α : Type) where
  | reserve (vec newCapacity : Nat)
  | fit (vec : Nat)
  | clear (vec : Nat)
  | insert (vec index : Nat) (data : α)
  | remove (vec index : Nat)
  | pushBack (vec : Nat) (data : α)
  | pushFront (vec : Nat) (data : α)
  | popBack (vec : Nat)
  | popFront (vec : Nat)
  | get (vec index : Nat)
  | set (vec index : Nat) (data : α)
  | copy (dst src : Nat)
  | clone (dst src : Nat)
  | move (dst src : Nat)
deriving DecidableEq, Repr

inductive VectorResult (α : Type) where
  | nothing
  | flag (value : Bool)
  | element (value : α)
deriving DecidableEq, Repr

def replaceVec (vecs : Nat → UcbVectorT α) (vec : Nat)
    (outcome : Exec (UcbVectorT α × VectorResult α)) :
    Exec ((Nat → UcbVectorT α) × VectorResult α) := do
  let (changed, result) ← outcome
  pure (Function.update vecs vec changed, result)

/-- Perform an operation. A clone takes the number it is given. -/
def vectorStep (vecs : Nat → UcbVectorT α) :
    VectorOp α → Exec ((Nat → UcbVectorT α) × VectorResult α)
  | .reserve vec newCapacity =>
      replaceVec vecs vec do
        let (changed, reserved) ← ucbVectorTReserve allocator width (vecs vec) newCapacity
        pure (changed, .flag reserved)
  | .fit vec =>
      replaceVec vecs vec do
        let changed ← ucbVectorTFit allocator width (vecs vec)
        pure (changed, .nothing)
  | .clear vec => replaceVec vecs vec (pure (ucbVectorTClear (vecs vec), .nothing))
  | .insert vec index data =>
      replaceVec vecs vec do
        let changed ← ucbVectorTInsert allocator width (vecs vec) index data
        pure (changed, .nothing)
  | .remove vec index =>
      replaceVec vecs vec do
        let (changed, data) ← ucbVectorTRemove (vecs vec) index
        pure (changed, .element data)
  | .pushBack vec data =>
      replaceVec vecs vec do
        let changed ← ucbVectorTPushBack allocator width (vecs vec) data
        pure (changed, .nothing)
  | .pushFront vec data =>
      replaceVec vecs vec do
        let changed ← ucbVectorTPushFront allocator width (vecs vec) data
        pure (changed, .nothing)
  | .popBack vec =>
      replaceVec vecs vec do
        let (changed, data) ← ucbVectorTPopBack (vecs vec)
        pure (changed, .element data)
  | .popFront vec =>
      replaceVec vecs vec do
        let (changed, data) ← ucbVectorTPopFront (vecs vec)
        pure (changed, .element data)
  | .get vec index => do
      let data ← ucbVectorTGet (vecs vec) index
      pure (vecs, .element data)
  | .set vec index data =>
      replaceVec vecs vec do
        let changed ← ucbVectorTSet (vecs vec) index data
        pure (changed, .nothing)
  | .copy dst src => do
      ucbVerify (decide (dst ≠ src)) .invalidArg
      replaceVec vecs dst do
        let (changed, copied) ← ucbVectorTCopy allocator width (vecs dst) (vecs src)
        pure (changed, .flag copied)
  | .clone dst src => do
      let cloned ← ucbVectorTClone allocator width (vecs src)
      match cloned with
      | none => pure (vecs, .flag false)
      | some vec => pure (Function.update vecs dst vec, .flag true)
  | .move dst src => do
      ucbVerify (decide (dst ≠ src)) .invalidArg
      let (changed, left) ← ucbVectorTMove (vecs dst) (vecs src)
      pure (Function.update (Function.update vecs dst changed) src left, .nothing)

/-! ## What the operations are for -/

def replaceList (lists : Nat → List α) (vec : Nat) (content : List α) (result : VectorResult α) :
    Option ((Nat → List α) × VectorResult α) :=
  some (Function.update lists vec content, result)

/-- The list effect of an operation, when its indices are in range and it does not
copy or move a vector onto itself. -/
def listStep (lists : Nat → List α) : VectorOp α → Option ((Nat → List α) × VectorResult α)
  | .reserve vec _ => replaceList lists vec (lists vec) (.flag true)
  | .fit vec => replaceList lists vec (lists vec) .nothing
  | .clear vec => replaceList lists vec [] .nothing
  | .insert vec index data =>
      if index ≤ (lists vec).length then
        replaceList lists vec ((lists vec).take index ++ data :: (lists vec).drop index) .nothing
      else none
  | .remove vec index =>
      match (lists vec)[index]? with
      | some data =>
          replaceList lists vec ((lists vec).take index ++ (lists vec).drop (index + 1))
            (.element data)
      | none => none
  | .pushBack vec data => replaceList lists vec (lists vec ++ [data]) .nothing
  | .pushFront vec data => replaceList lists vec (data :: lists vec) .nothing
  | .popBack vec =>
      match (lists vec).getLast? with
      | some data => replaceList lists vec (lists vec).dropLast (.element data)
      | none => none
  | .popFront vec =>
      match lists vec with
      | data :: rest => replaceList lists vec rest (.element data)
      | [] => none
  | .get vec index => (lists vec)[index]?.map fun data => (lists, .element data)
  | .set vec index data =>
      if index < (lists vec).length then replaceList lists vec ((lists vec).set index data) .nothing
      else none
  | .copy dst src => if dst ≠ src then replaceList lists dst (lists src) (.flag true) else none
  | .clone dst src => replaceList lists dst (lists src) (.flag true)
  | .move dst src =>
      if dst ≠ src then
        replaceList (Function.update lists dst (lists src)) src [] .nothing
      else none

end Ucb.Container
