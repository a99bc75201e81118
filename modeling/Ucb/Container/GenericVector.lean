import Ucb.Container.Storage
import Ucb.Lib.Refinement
import Mathlib.Logic.Function.Basic

/-!
Contract: the generic vector of `vector_generic.c`.

Owns:
- the representation, with elements of `esize` bytes or pointers;
- every operation that changes a vector, and `ucb_vector_get`;
- sequences of operations on any number of vectors, which may differ in element
  size and mode;
- the list effect of each operation.

A pointer is its eight bytes. `data_clone` is the environment's: its answer may depend
on the item and on the calls made before. Products of `size_t` wrap around where they
are allocation requests; others are of indices within the array.
-/

namespace Ucb.Container

open Ucb.Lib

/-! ## Representation -/

def pointerSize : Nat := 8

/-- What `data_clone` answers to its calls: a pointer or `UCB_NULL`. -/
structure CloneFunc where
  clone : Nat → List UInt8 → Option (List UInt8)
  pointer : ∀ call item copy, clone call item = some copy → copy.length = pointerSize

/-- A `ucb_vector`. Of the functions it counts whether they are set. -/
structure UcbVector where
  data : Storage UInt8
  esize : Nat
  size : Nat
  capacity : Nat
  dataClone : Bool
  dataFree : Bool
  isPointer : Bool
deriving DecidableEq, Repr

structure UcbVectorArgs where
  dataClone : Bool
  dataFree : Bool
  elementSize : Nat
  initialCapacity : Nat
deriving DecidableEq, Repr

variable (allocator : Allocator) (cloner : CloneFunc)

/-! ## Capacity and size -/

def ucbVectorReserve (vec : UcbVector) (newCapacity : Nat) : Exec (UcbVector × Bool) :=
  if newCapacity ≤ vec.capacity then pure (vec, true)
  else do
    let (old, newData) ← ucbReallocType allocator 1 vec.data (newCapacity * vec.esize % 2 ^ 64)
    match newData with
    | none => pure ({ vec with data := old }, false)
    | some newData => pure ({ vec with data := newData, capacity := newCapacity }, true)

def pointerAt (data : Storage UInt8) (index : Nat) : Exec (List UInt8) :=
  data.loadAll (index * pointerSize) pointerSize

/-- The pointers a loop over `count` elements from `index` on meets. -/
def pointersFrom (data : Storage UInt8) (index : Nat) : Nat → Exec (List (List UInt8))
  | 0 => pure []
  | count + 1 => do
      let item ← pointerAt data index
      let rest ← pointersFrom data (index + 1) count
      pure (item :: rest)

/-- `ucb_vector_clear`, with the items it passes to `data_free`. -/
def ucbVectorClear (vec : UcbVector) : Exec (UcbVector × List (List UInt8)) :=
  if vec.dataFree then do
    let freed ← pointersFrom vec.data 0 vec.size
    pure ({ vec with size := 0 }, freed)
  else pure ({ vec with size := 0 }, [])

def ucbVectorFit (vec : UcbVector) : Exec UcbVector :=
  if vec.capacity > vec.size then do
    let (old, newData) ← ucbReallocType allocator 1 vec.data (vec.size * vec.esize % 2 ^ 64)
    match newData with
    | none => pure { vec with data := old }
    | some newData => pure { vec with data := newData, capacity := vec.size }
  else pure vec

/-! ## Lifecycle -/

/-- `ucb_vector_new` after the structure is allocated. -/
def ucbVectorNew (args : UcbVectorArgs) : Exec (Option UcbVector) := do
  let isPointer := args.elementSize = 0
  let elementSize := if isPointer then pointerSize else args.elementSize
  let initialCapacity := if args.initialCapacity = 0 then 4 else args.initialCapacity
  ucbVerify (!(args.dataClone || args.dataFree) ||
    (decide isPointer && args.dataClone && args.dataFree)) .invalidArg
  let (vec, reserved) ← ucbVectorReserve allocator
    ⟨.null, elementSize, 0, 0, args.dataClone, args.dataFree, decide isPointer⟩ initialCapacity
  pure (if reserved then some vec else none)

/-- The cloning loop of `ucb_vector_copy` over `count` elements from `index` on. -/
def copyItems (dst : UcbVector) (src : Storage UInt8) (calls index : Nat) :
    Nat → Exec ((UcbVector × Bool) × Nat)
  | 0 => pure ((dst, true), calls)
  | count + 1 => do
      let pointer ← pointerAt src index
      match cloner.clone calls pointer with
      | none => pure ((dst, false), calls + 1)
      | some item =>
          let stored ← dst.data.blit (index * pointerSize) (item.map some)
          copyItems { dst with data := stored, size := dst.size + 1 } src (calls + 1) (index + 1)
            count

/-- `dst` of `ucb_vector_copy` when it has been cleared and asked for room. -/
def copyTarget (dst src : UcbVector) : Exec UcbVector := do
  let (dst, _) ← ucbVectorReserve allocator
    { dst with
      esize := src.esize
      isPointer := src.isPointer
      dataClone := src.dataClone
      dataFree := src.dataFree } src.capacity
  pure dst

/-- The last step of `ucb_vector_copy`, with the calls of `data_clone`. -/
def copyElements (calls : Nat) (dst src : UcbVector) : Exec ((UcbVector × Bool) × Nat) :=
  if dst.isPointer && dst.dataClone then copyItems cloner dst src.data calls 0 src.size
  else do
    let bytes ← src.data.slice 0 (src.size * dst.esize)
    let data ← dst.data.blit 0 bytes
    pure (({ dst with data := data, size := src.size }, true), calls)

/-- `ucb_vector_copy` between two vectors, with the freed items of `dst`. -/
def ucbVectorCopy (calls : Nat) (dst src : UcbVector) :
    Exec (((UcbVector × Bool) × List (List UInt8)) × Nat) := do
  let (cleared, freed) ← ucbVectorClear dst
  let target ← copyTarget allocator cleared src
  let (copied, calls) ← copyElements cloner calls target src
  pure ((copied, freed), calls)

/-- `ucb_vector_clone`. A clone that fails is freed, with the items it has so far. -/
def ucbVectorClone (calls : Nat) (vec : UcbVector) :
    Exec ((Option UcbVector × List (List UInt8)) × Nat) := do
  let newVec ← ucbVectorNew allocator
    ⟨vec.dataClone, vec.dataFree, if vec.isPointer then 0 else vec.esize, vec.capacity⟩
  match newVec with
  | none => pure ((none, []), calls)
  | some newVec => do
      let (((copied, success), _), calls) ← ucbVectorCopy allocator cloner calls newVec vec
      if success then pure ((some copied, []), calls)
      else do
        let (cleared, freed) ← ucbVectorClear copied
        let _ ← cleared.data.freed
        pure ((none, freed), calls)

/-- `ucb_vector_move` between two vectors: the new values of both, and the freed items
of `dst`. -/
def ucbVectorMove (dst src : UcbVector) : Exec ((UcbVector × UcbVector) × List (List UInt8)) := do
  let (dst, freed) ← ucbVectorClear dst
  let _ ← dst.data.freed
  pure ((src, { src with data := .null, size := 0, capacity := 0 }), freed)

/-! ## Element access and modification -/

/-- Put an item at an index: the pointer, a clone of it, or the bytes behind it. No data
means that `data_clone` gave `UCB_NULL`. -/
def placeItem (calls : Nat) (vec : UcbVector) (index : Nat) (data : List UInt8) :
    Exec (Option (Storage UInt8) × Nat) :=
  if vec.isPointer then
    if vec.dataClone then
      match cloner.clone calls data with
      | none => pure (none, calls + 1)
      | some item => do
          let stored ← vec.data.blit (index * pointerSize) (item.map some)
          pure (some stored, calls + 1)
    else do
      let stored ← vec.data.blit (index * pointerSize) (data.map some)
      pure (some stored, calls)
  else do
    let bytes ← slice data 0 vec.esize
    let stored ← vec.data.blit (index * vec.esize) (bytes.map some)
    pure (some stored, calls)

/-- The element at an index as it is handed out: a pointer or the bytes. -/
def itemAt (vec : UcbVector) (index : Nat) : Exec (List UInt8) :=
  if vec.isPointer then pointerAt vec.data index
  else vec.data.loadAll (index * vec.esize) vec.esize

/-- The first step of `ucb_vector_insert`. -/
def growFull (vec : UcbVector) : Exec (UcbVector × Bool) :=
  if vec.size = vec.capacity then ucbVectorReserve allocator vec (vec.capacity * 2 % 2 ^ 64)
  else pure (vec, true)

/-- The second step of `ucb_vector_insert`: move the elements from `index` on up. -/
def shiftUp (vec : UcbVector) (index : Nat) : Exec (Storage UInt8) :=
  if index < vec.size then
    vec.data.move ((index + 1) * vec.esize) (index * vec.esize) ((vec.size - index) * vec.esize)
  else pure vec.data

def ucbVectorInsert (calls : Nat) (vec : UcbVector) (index : Nat) (data : List UInt8) :
    Exec (UcbVector × Nat) := do
  ucbVerify (decide (index ≤ vec.size)) .invalidArg
  let (vec, reserved) ← growFull allocator vec
  if reserved then do
    let moved ← shiftUp vec index
    let (placed, calls) ← placeItem cloner calls { vec with data := moved } index data
    match placed with
    | none => pure ({ vec with data := moved }, calls)
    | some stored => pure ({ vec with data := stored, size := vec.size + 1 }, calls)
  else pure (vec, calls)

/-- The last step of `ucb_vector_remove`: move the elements behind `index` down. A size of
0 wraps around. -/
def shiftDown (vec : UcbVector) (index : Nat) : Exec (Storage UInt8) :=
  if index < (vec.size + 2 ^ 64 - 1) % 2 ^ 64 then
    vec.data.move (index * vec.esize) ((index + 1) * vec.esize)
      ((vec.size + 2 ^ 64 - index - 1) % 2 ^ 64 * vec.esize % 2 ^ 64)
  else pure vec.data

/-- What an operation returns, writes to `out_data` and passes to `data_free`. -/
structure VectorOutcome where
  returned : Bool
  out : Option (List UInt8)
  freed : List (List UInt8)
deriving DecidableEq, Repr

/-- What becomes of the element that `ucb_vector_remove` takes out: it goes to `out_data`
where that is wanted, and to `data_free` otherwise. -/
def takeOut (vec : UcbVector) (index : Nat) (wanted : Bool) : Exec VectorOutcome :=
  if wanted then do
    let item ← itemAt vec index
    pure ⟨true, some item, []⟩
  else if vec.dataFree then do
    let item ← pointerAt vec.data index
    pure ⟨true, none, [item]⟩
  else pure ⟨true, none, []⟩

def ucbVectorRemove (vec : UcbVector) (index : Nat) (wanted : Bool) :
    Exec (UcbVector × VectorOutcome) := do
  let taken ← takeOut vec index wanted
  let moved ← shiftDown vec index
  pure ({ vec with data := moved, size := (vec.size + 2 ^ 64 - 1) % 2 ^ 64 }, taken)

def ucbVectorPushBack (calls : Nat) (vec : UcbVector) (data : List UInt8) :
    Exec (UcbVector × Nat) :=
  if !vec.isPointer && decide (vec.size < vec.capacity) then do
    let bytes ← slice data 0 vec.esize
    let stored ← vec.data.blit (vec.size * vec.esize) (bytes.map some)
    pure ({ vec with data := stored, size := vec.size + 1 }, calls)
  else ucbVectorInsert allocator cloner calls vec vec.size data

def ucbVectorPushFront (calls : Nat) (vec : UcbVector) (data : List UInt8) :
    Exec (UcbVector × Nat) :=
  ucbVectorInsert allocator cloner calls vec 0 data

def ucbVectorPopBack (vec : UcbVector) (wanted : Bool) : Exec (UcbVector × VectorOutcome) :=
  if vec.size = 0 then pure (vec, ⟨false, none, []⟩)
  else ucbVectorRemove vec (vec.size - 1) wanted

def ucbVectorPopFront (vec : UcbVector) (wanted : Bool) : Exec (UcbVector × VectorOutcome) :=
  if vec.size = 0 then pure (vec, ⟨false, none, []⟩)
  else ucbVectorRemove vec 0 wanted

def ucbVectorGet (vec : UcbVector) (index : Nat) : Exec (List UInt8) := do
  ucbVerify (decide (index < vec.size)) .invalidArg
  itemAt vec index

/-- The old item that `ucb_vector_set` passes to `data_free`. -/
def oldItem (vec : UcbVector) (index : Nat) : Exec (List (List UInt8)) :=
  if vec.dataFree then do
    let item ← pointerAt vec.data index
    pure [item]
  else pure []

/-- `ucb_vector_set`, with the items it passes to `data_free`. The old item is freed also
when the new one cannot be cloned. -/
def ucbVectorSet (calls : Nat) (vec : UcbVector) (index : Nat) (data : List UInt8) :
    Exec ((UcbVector × List (List UInt8)) × Nat) := do
  ucbVerify (decide (index < vec.size)) .invalidArg
  let freed ← oldItem vec index
  let (placed, calls) ← placeItem cloner calls vec index data
  match placed with
  | none => pure ((vec, freed), calls)
  | some stored => pure (({ vec with data := stored }, freed), calls)

/-! ## Sequences of operations -/

/-- An operation on the vectors with the given numbers. `wanted` tells whether `out_data`
is given. -/
inductive GenericOp where
  | new (vec : Nat) (args : UcbVectorArgs)
  | clone (dst src : Nat)
  | copy (dst src : Nat)
  | move (dst src : Nat)
  | reserve (vec newCapacity : Nat)
  | clear (vec : Nat)
  | fit (vec : Nat)
  | insert (vec index : Nat) (data : List UInt8)
  | remove (vec index : Nat) (wanted : Bool)
  | pushBack (vec : Nat) (data : List UInt8)
  | pushFront (vec : Nat) (data : List UInt8)
  | popBack (vec : Nat) (wanted : Bool)
  | popFront (vec : Nat) (wanted : Bool)
  | get (vec index : Nat)
  | set (vec index : Nat) (data : List UInt8)
deriving DecidableEq, Repr

/-- The vectors there are, and the calls of `data_clone` so far. -/
structure Vectors where
  vecs : Nat → Option UcbVector
  calls : Nat

def noVectors : Vectors := ⟨fun _ => none, 0⟩

def Vectors.find (vectors : Vectors) (vec : Nat) : Exec UcbVector :=
  match vectors.vecs vec with
  | some vec => pure vec
  | none => .undefined

def Vectors.put (vectors : Vectors) (number : Nat) (vec : UcbVector) (calls : Nat) : Vectors :=
  ⟨Function.update vectors.vecs number (some vec), calls⟩

/-- An operation on one vector that has no outcome of its own. -/
def changeVector (vectors : Vectors) (number : Nat) (change : UcbVector → Exec (UcbVector × Nat)) :
    Exec (Vectors × VectorOutcome) := do
  let vec ← vectors.find number
  let (changed, calls) ← change vec
  pure (vectors.put number changed calls, ⟨true, none, []⟩)

def takeFromVector (vectors : Vectors) (number : Nat)
    (change : UcbVector → Exec (UcbVector × VectorOutcome)) : Exec (Vectors × VectorOutcome) := do
  let vec ← vectors.find number
  let (changed, outcome) ← change vec
  pure (vectors.put number changed vectors.calls, outcome)

/-- Perform an operation. A new vector and a clone take the number they are given. -/
def genericStep (vectors : Vectors) : GenericOp → Exec (Vectors × VectorOutcome)
  | .new number args => do
      let created ← ucbVectorNew allocator args
      match created with
      | none => pure (vectors, ⟨false, none, []⟩)
      | some vec => pure (vectors.put number vec vectors.calls, ⟨true, none, []⟩)
  | .clone dst src => do
      let vec ← vectors.find src
      let ((cloned, freed), calls) ← ucbVectorClone allocator cloner vectors.calls vec
      match cloned with
      | none => pure ({ vectors with calls := calls }, ⟨false, none, freed⟩)
      | some vec => pure (vectors.put dst vec calls, ⟨true, none, freed⟩)
  | .copy dst src => do
      ucbVerify (decide (dst ≠ src)) .invalidArg
      let target ← vectors.find dst
      let vec ← vectors.find src
      let (((copied, success), freed), calls) ←
        ucbVectorCopy allocator cloner vectors.calls target vec
      pure (vectors.put dst copied calls, ⟨success, none, freed⟩)
  | .move dst src => do
      ucbVerify (decide (dst ≠ src)) .invalidArg
      let target ← vectors.find dst
      let vec ← vectors.find src
      let ((changed, left), freed) ← ucbVectorMove target vec
      pure ((vectors.put dst changed vectors.calls).put src left vectors.calls,
        ⟨true, none, freed⟩)
  | .reserve number newCapacity =>
      takeFromVector vectors number fun vec => do
        let (changed, reserved) ← ucbVectorReserve allocator vec newCapacity
        pure (changed, ⟨reserved, none, []⟩)
  | .clear number =>
      takeFromVector vectors number fun vec => do
        let (changed, freed) ← ucbVectorClear vec
        pure (changed, ⟨true, none, freed⟩)
  | .fit number =>
      takeFromVector vectors number fun vec => do
        let changed ← ucbVectorFit allocator vec
        pure (changed, ⟨true, none, []⟩)
  | .insert number index data =>
      changeVector vectors number fun vec =>
        ucbVectorInsert allocator cloner vectors.calls vec index data
  | .remove number index wanted =>
      takeFromVector vectors number fun vec => ucbVectorRemove vec index wanted
  | .pushBack number data =>
      changeVector vectors number fun vec =>
        ucbVectorPushBack allocator cloner vectors.calls vec data
  | .pushFront number data =>
      changeVector vectors number fun vec =>
        ucbVectorPushFront allocator cloner vectors.calls vec data
  | .popBack number wanted =>
      takeFromVector vectors number fun vec => ucbVectorPopBack vec wanted
  | .popFront number wanted =>
      takeFromVector vectors number fun vec => ucbVectorPopFront vec wanted
  | .get number index =>
      takeFromVector vectors number fun vec => do
        let item ← ucbVectorGet vec index
        pure (vec, ⟨true, some item, []⟩)
  | .set number index data => do
      let vec ← vectors.find number
      let ((changed, freed), calls) ← ucbVectorSet cloner vectors.calls vec index data
      pure (vectors.put number changed calls, ⟨true, none, freed⟩)

/-! ## What the operations are for -/

/-- What the elements of a vector are: bytes, pointers of someone else, or pointers of
its own. -/
inductive VectorMode where
  | value (esize : Nat) (wide : 0 < esize)
  | borrowed
  | owned
deriving DecidableEq, Repr

def VectorMode.esize : VectorMode → Nat
  | value esize _ => esize
  | borrowed | owned => pointerSize

def VectorMode.isPointer : VectorMode → Bool
  | value _ _ => false
  | borrowed | owned => true

/-- The vector clones and frees its elements. -/
def VectorMode.owns : VectorMode → Bool
  | owned => true
  | value _ _ | borrowed => false

structure ItemList where
  mode : VectorMode
  items : List (List UInt8)
  sized : ∀ item ∈ items, item.length = mode.esize

/-- The lists there are, and the calls of `data_clone` so far. -/
structure Lists where
  lists : Nat → Option ItemList
  calls : Nat

def noLists : Lists := ⟨fun _ => none, 0⟩

def Lists.put (all : Lists) (number : Nat) (list : ItemList) (calls : Nat) : Lists :=
  ⟨Function.update all.lists number (some list), calls⟩

def UcbVectorArgs.mode (args : UcbVectorArgs) : Option VectorMode :=
  if wide : 0 < args.elementSize then
    if args.dataClone || args.dataFree then none else some (.value args.elementSize wide)
  else
    match args.dataClone, args.dataFree with
    | true, true => some .owned
    | false, false => some .borrowed
    | _, _ => none

/-- What is put into a list for an item, when cloning succeeds, and the calls made. -/
def VectorMode.put (mode : VectorMode) (calls : Nat) (data : List UInt8) :
    Option (List UInt8 × Nat) :=
  match mode with
  | .value _ _ | .borrowed => some (data, calls)
  | .owned => (cloner.clone calls data).map fun item => (item, calls + 1)

def VectorMode.putAll (mode : VectorMode) : Nat → List (List UInt8) →
    Option (List (List UInt8) × Nat)
  | calls, [] => some ([], calls)
  | calls, item :: rest => do
      let (first, calls) ← mode.put cloner calls item
      let (others, calls) ← putAll mode calls rest
      pure (first :: others, calls)

/-- The clones of items up to the first that fails, whether none does, and the calls made. -/
def cloneSome : Nat → List (List UInt8) → (List (List UInt8) × Bool) × Nat
  | calls, [] => (([], true), calls)
  | calls, item :: rest =>
      match cloner.clone calls item with
      | none => (([], false), calls + 1)
      | some copy =>
          let ((copies, whole), calls) := cloneSome (calls + 1) rest
          ((copy :: copies, whole), calls)

/-- What becomes of several items that are copied, up to the first clone that fails. -/
def VectorMode.copies (mode : VectorMode) (calls : Nat) (items : List (List UInt8)) :
    (List (List UInt8) × Bool) × Nat :=
  match mode with
  | .value _ _ | .borrowed => ((items, true), calls)
  | .owned => cloneSome cloner calls items

/-- The items that go to `data_free` when they are dropped. -/
def VectorMode.dropped : VectorMode → List (List UInt8) → List (List UInt8)
  | owned, items => items
  | value _ _, _ | borrowed, _ => []

def ItemList.replace (list : ItemList) (items : List (List UInt8)) : Option ItemList :=
  if sized : ∀ item ∈ items, item.length = list.mode.esize then some ⟨list.mode, items, sized⟩
  else none

/-- Put an item between the items before and behind an index. -/
def insertItem (all : Lists) (number index : Nat) (data : List UInt8) :
    Option (Lists × VectorOutcome) := do
  let list ← all.lists number
  if index ≤ list.items.length ∧ data.length = list.mode.esize then do
    let (item, calls) ← list.mode.put cloner all.calls data
    let after ← list.replace (list.items.take index ++ item :: list.items.drop index)
    pure (all.put number after calls, ⟨true, none, []⟩)
  else none

def removeItem (all : Lists) (number index : Nat) (wanted : Bool) :
    Option (Lists × VectorOutcome) := do
  let list ← all.lists number
  let item ← list.items[index]?
  let after ← list.replace (list.items.take index ++ list.items.drop (index + 1))
  pure (all.put number after all.calls,
    if wanted then ⟨true, some item, []⟩ else ⟨true, none, list.mode.dropped [item]⟩)

def popItem (all : Lists) (number : Nat) (index : Nat → Nat) (wanted : Bool) :
    Option (Lists × VectorOutcome) := do
  let list ← all.lists number
  if list.items = [] then pure (all, ⟨false, none, []⟩)
  else removeItem all number (index list.items.length) wanted

/-- The list effect of an operation, when the vectors exist and are different ones, the
indices are in range, the items have the size of the elements and cloning succeeds. -/
def itemStep (all : Lists) : GenericOp → Option (Lists × VectorOutcome)
  | .new number args => do
      let mode ← args.mode
      pure (all.put number ⟨mode, [], by simp⟩ all.calls, ⟨true, none, []⟩)
  | .clone dst src => do
      let list ← all.lists src
      let (items, calls) ← list.mode.putAll cloner all.calls list.items
      let after ← list.replace items
      pure (all.put dst after calls, ⟨true, none, []⟩)
  | .copy dst src => do
      let old ← all.lists dst
      let list ← all.lists src
      if dst = src then none
      else
        let (items, calls) ← list.mode.putAll cloner all.calls list.items
        let after ← list.replace items
        pure (all.put dst after calls, ⟨true, none, old.mode.dropped old.items⟩)
  | .move dst src => do
      let old ← all.lists dst
      let list ← all.lists src
      if dst = src then none
      else pure ((all.put dst list all.calls).put src ⟨list.mode, [], by simp⟩ all.calls,
        ⟨true, none, old.mode.dropped old.items⟩)
  | .reserve number _ => do
      let list ← all.lists number
      pure (all.put number list all.calls, ⟨true, none, []⟩)
  | .clear number => do
      let list ← all.lists number
      pure (all.put number ⟨list.mode, [], by simp⟩ all.calls,
        ⟨true, none, list.mode.dropped list.items⟩)
  | .fit number => do
      let list ← all.lists number
      pure (all.put number list all.calls, ⟨true, none, []⟩)
  | .insert number index data => insertItem cloner all number index data
  | .remove number index wanted => removeItem all number index wanted
  | .pushBack number data => do
      let list ← all.lists number
      insertItem cloner all number list.items.length data
  | .pushFront number data => insertItem cloner all number 0 data
  | .popBack number wanted => popItem all number (· - 1) wanted
  | .popFront number wanted => popItem all number (fun _ => 0) wanted
  | .get number index => do
      let list ← all.lists number
      let item ← list.items[index]?
      pure (all.put number list all.calls, ⟨true, some item, []⟩)
  | .set number index data => do
      let list ← all.lists number
      let old ← list.items[index]?
      if data.length = list.mode.esize then do
        let (item, calls) ← list.mode.put cloner all.calls data
        let after ← list.replace (list.items.set index item)
        pure (all.put number after calls, ⟨true, none, list.mode.dropped [old]⟩)
      else none

end Ucb.Container
