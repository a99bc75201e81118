import Ucb.Container.Storage
import Ucb.Lib.ForwardList
import Ucb.Lib.Refinement
import Ucb.Lib.StableQueue
import Mathlib.Data.Int.Order.Basic

/-!
Contract: the priority queue of `pqueue.c`, used by one thread.

Owns:
- buckets with their chains of nodes in memory;
- every operation on a queue;
- sequences of operations, and their effect on the entries of a queue.

Indices are of type `int` where the code has them so, and arithmetic on them that
leaves its range is undefined. A node is never allocated at an address that was used
before. The items of a queue are all in memory, so counting them cannot leave the range
of `size_t`, and `none` stands for `SIZE_MAX` as a position.
-/

namespace Ucb.Container

open Ucb.Lib

variable {α : Type}

/-! ## Representation -/

abbrev UcbFwdlistNode (α : Type) := Cell Nat α

structure UcbPqueueBucket where
  priority : Int
  first : Option Nat
  last : Option Nat
  numItems : Nat
deriving DecidableEq, Repr

def bucketSize : Nat := 32

def nodeSize : Nat := 16

/-- `ucb_pqueue_args`. Of the functions it counts whether they are set. -/
structure UcbPqueueArgs where
  dataClone : Bool
  dataFree : Bool
deriving DecidableEq, Repr

/-- A `ucb_pqueue` without its mutex. -/
structure UcbPqueue where
  buckets : Storage UcbPqueueBucket
  numBuckets : Nat
  allocBuckets : Nat
  dataClone : Bool
  dataFree : Bool
deriving DecidableEq, Repr

/-- A queue and the memory of its nodes. No node is at `unused` or behind it. -/
structure QueueState (α : Type) where
  pq : UcbPqueue
  nodes : Nat → Option (UcbFwdlistNode α)
  unused : Nat

/-- The result of arithmetic on `int`. -/
def intResult (value : Int) : Exec Int :=
  if -2 ^ 31 ≤ value ∧ value < 2 ^ 31 then pure value else .undefined

def nodeAt (nodes : Nat → Option (UcbFwdlistNode α)) (node : Option Nat) :
    Exec (Nat × UcbFwdlistNode α) :=
  match node with
  | none => .undefined
  | some address =>
      match nodes address with
      | none => .undefined
      | some content => pure (address, content)

def setNodeNext (nodes : Nat → Option (UcbFwdlistNode α)) (node : Option Nat) (next : Option Nat) :
    Exec (Nat → Option (UcbFwdlistNode α)) := do
  let (address, content) ← nodeAt nodes node
  pure (Function.update nodes address (some { content with next := next }))

variable (allocator : Allocator)

/-! ## Lifecycle -/

/-- `PQUEUE_INITIAL_NUM_BUCKETS_INITIAL`. -/
def pqueueInitialNumBuckets : Nat := 16

def pqueueBucketsGrowFactor : Nat := 2

def ucbPqueueInitCommon (args : UcbPqueueArgs) : Exec (Option UcbPqueue) := do
  ucbVerify (!(args.dataClone && !args.dataFree)) .invalidArg
  if allocator.grants .malloc (pqueueInitialNumBuckets * bucketSize) then
    pure (some ⟨.heap (List.replicate pqueueInitialNumBuckets none), 0, pqueueInitialNumBuckets,
      args.dataClone, args.dataFree⟩)
  else pure none

/-! ## Buckets -/

/-- The loop of `ucb_pqueue_search_bucket`, which passes at most `fuel` times. -/
def searchBuckets (buckets : Storage UcbPqueueBucket) (prio : Int) : Nat → Int → Int → Exec Int
  | 0, _, _ => .undefined
  | fuel + 1, low, high =>
      if low ≤ high then do
        let distance ← intResult (high - low)
        let mid ← intResult (low + distance.tdiv 2)
        let bucket ← buckets.load mid.toNat
        if bucket.priority = prio then pure mid
        else if bucket.priority ≥ prio then do
          let low ← intResult (mid + 1)
          searchBuckets buckets prio fuel low high
        else do
          let high ← intResult (mid - 1)
          searchBuckets buckets prio fuel low high
      else do
        let next ← intResult (low + 1)
        intResult (-next)

/-- `ucb_pqueue_search_bucket`. The conversion of `num_buckets` to `int` wraps around. -/
def ucbPqueueSearchBucket (pq : UcbPqueue) (prio : Int) : Exec Int := do
  let high ← intResult (Int.bmod pq.numBuckets (2 ^ 32) - 1)
  searchBuckets pq.buckets prio (pq.numBuckets + 1) 0 high

/-- The sum of `num_items` over the first buckets. -/
def itemsBefore (buckets : Storage UcbPqueueBucket) : Nat → Exec Nat
  | 0 => pure 0
  | count + 1 => do
      let bucket ← buckets.load count
      let rest ← itemsBefore buckets count
      pure (bucket.numItems + rest)

/-- The branch of `ucb_pqueue_push_node` for a priority that has a bucket. -/
def appendToBucket (state : QueueState α) (idx : Nat) (prio : Int) (node : Nat) :
    Exec (QueueState α) := do
  let bucket ← state.pq.buckets.load idx
  ucbVerify (decide (bucket.priority = prio)) .invalidState
  ucbVerify (decide (bucket.numItems > 0)) .invalidState
  let nodes ← setNodeNext state.nodes bucket.last (some node)
  let buckets ← state.pq.buckets.store idx
    { bucket with last := some node, numItems := bucket.numItems + 1 }
  pure { state with pq := { state.pq with buckets := buckets }, nodes := nodes }

/-- The resizing in `ucb_pqueue_push_node`. -/
def growBuckets (pq : UcbPqueue) : Exec (UcbPqueue × Bool) :=
  if pq.numBuckets = pq.allocBuckets then do
    let newSize := pq.allocBuckets * pqueueBucketsGrowFactor % 2 ^ 64
    let (old, newBuckets) ← ucbReallocType allocator bucketSize pq.buckets newSize
    match newBuckets with
    | none => pure ({ pq with buckets := old }, false)
    | some newBuckets => pure ({ pq with allocBuckets := newSize, buckets := newBuckets }, true)
  else pure (pq, true)

/-- The shift of the buckets from `idx` on. -/
def shiftBuckets (pq : UcbPqueue) (idx : Nat) : Exec (Storage UcbPqueueBucket) :=
  if idx = pq.numBuckets then pure pq.buckets
  else pq.buckets.move (idx + 1) idx (pq.numBuckets - idx)

/-- A new bucket in `ucb_pqueue_push_node`, when there is room for it. -/
def insertBucket (state : QueueState α) (idx : Nat) (prio : Int) (node : Nat) :
    Exec (QueueState α) := do
  let shifted ← shiftBuckets state.pq idx
  let buckets ← shifted.store idx ⟨prio, some node, some node, 1⟩
  let nodes ← setNodeNext state.nodes (some node) none
  pure { state with
    pq := { state.pq with buckets := buckets, numBuckets := state.pq.numBuckets + 1 }
    nodes := nodes }

def insertedPosition (buckets : Storage UcbPqueueBucket) (idx : Nat) : Exec Nat := do
  let bucket ← buckets.load idx
  let before ← itemsBefore buckets idx
  pure (bucket.numItems - 1 + before)

def ucbPqueuePushNode (state : QueueState α) (prio : Int) (node : Nat) :
    Exec (QueueState α × Option Nat) := do
  let idx ← ucbPqueueSearchBucket state.pq prio
  if idx ≥ 0 then do
    let after ← appendToBucket state idx.toNat prio node
    let insPos ← insertedPosition after.pq.buckets idx.toNat
    pure (after, some insPos)
  else do
    let negated ← intResult (-idx)
    let idx ← intResult (negated - 1)
    let (grown, success) ← growBuckets allocator state.pq
    if success then do
      let after ← insertBucket { state with pq := grown } idx.toNat prio node
      let insPos ← insertedPosition after.pq.buckets idx.toNat
      pure (after, some insPos)
    else pure ({ state with pq := grown }, none)

/-- The first bucket when an item has been taken out. -/
def dropFirstIfEmpty (pq : UcbPqueue) (bucket : UcbPqueueBucket) : Exec UcbPqueue :=
  if bucket.numItems = 0 then do
    let buckets ←
      if pq.numBuckets > 1 then pq.buckets.move 0 1 (pq.numBuckets - 1) else pure pq.buckets
    pure { pq with buckets := buckets, numBuckets := pq.numBuckets - 1 }
  else pure pq

def ucbPqueuePopNode (state : QueueState α) : Exec (QueueState α × Option Nat) :=
  if state.pq.numBuckets ≠ 0 then do
    let bucket ← state.pq.buckets.load 0
    let (node, content) ← nodeAt state.nodes bucket.first
    let bucket := { bucket with first := content.next, numItems := bucket.numItems - 1 }
    let nodes ← setNodeNext state.nodes (some node) none
    let buckets ← state.pq.buckets.store 0 bucket
    let pq ← dropFirstIfEmpty { state.pq with buckets := buckets } bucket
    pure ({ state with pq := pq, nodes := nodes }, some node)
  else pure (state, none)

/-! ## Operations -/

/-- `ucb_pqueue_push`. `copy` is what `data_clone` answers, if it is set. -/
def ucbPqueuePush (state : QueueState α) (data copy : Option α) (prio : Int) :
    Exec (QueueState α × Option Nat) := do
  ucbVerify data.isSome .invalidArg
  if allocator.grants .malloc nodeSize then
    match if state.pq.dataClone then copy else data with
    | none => pure (state, none)
    | some item => do
        let node := state.unused
        let (after, insPos) ← ucbPqueuePushNode allocator
          { state with
            nodes := Function.update state.nodes node (some ⟨none, item⟩)
            unused := node + 1 } prio node
        match insPos with
        | none => pure ({ after with nodes := Function.update after.nodes node none }, none)
        | some insPos => pure (after, some insPos)
  else pure (state, none)

def ucbPqueuePop (state : QueueState α) : Exec (QueueState α × Option α) := do
  let (after, node) ← ucbPqueuePopNode state
  match node with
  | none => pure (after, none)
  | some _ => do
      let (address, content) ← nodeAt after.nodes node
      pure ({ after with nodes := Function.update after.nodes address none }, some content.data)

def ucbPqueuePeek (state : QueueState α) : Exec (Option α) :=
  if state.pq.numBuckets ≠ 0 then do
    let bucket ← state.pq.buckets.load 0
    let (_, content) ← nodeAt state.nodes bucket.first
    pure (some content.data)
  else pure none

def ucbPqueueSize (state : QueueState α) : Exec Nat :=
  itemsBefore state.pq.buckets state.pq.numBuckets

def ucbPqueueEmpty (state : QueueState α) : Bool :=
  decide (state.pq.numBuckets = 0)

def ucbPqueueFit (state : QueueState α) : Exec (QueueState α) :=
  if state.pq.numBuckets > pqueueInitialNumBuckets ∧ state.pq.numBuckets < state.pq.allocBuckets
  then do
    let (_, buckets) ← ucbReallocType allocator bucketSize state.pq.buckets state.pq.numBuckets
    pure { state with
      pq := { state.pq with
        buckets := buckets.getD .null
        allocBuckets := state.pq.numBuckets } }
  else pure state

/-- Free the nodes of a chain, of at most `fuel` nodes, with their data. -/
def freeChain : Nat → (Nat → Option (UcbFwdlistNode α)) → Option Nat →
    Exec ((Nat → Option (UcbFwdlistNode α)) × List α)
  | _, nodes, none => pure (nodes, [])
  | 0, _, some _ => .undefined
  | fuel + 1, nodes, some first => do
      let (address, content) ← nodeAt nodes (some first)
      let (left, freed) ← freeChain fuel (Function.update nodes address none) content.next
      pure (left, content.data :: freed)

/-- The loop of `ucb_pqueue_clear` over `count` buckets from `index` on. -/
def freeBuckets (buckets : Storage UcbPqueueBucket) (fuel : Nat) :
    Nat → Nat → (Nat → Option (UcbFwdlistNode α)) →
      Exec ((Nat → Option (UcbFwdlistNode α)) × List α)
  | _, 0, nodes => pure (nodes, [])
  | index, count + 1, nodes => do
      let bucket ← buckets.load index
      let (nodes, freed) ← freeChain fuel nodes bucket.first
      let (nodes, others) ← freeBuckets buckets fuel (index + 1) count nodes
      pure (nodes, freed ++ others)

/-- `ucb_pqueue_clear`, with the data it passes to `data_free`. There are fewer than
`unused` nodes to free. -/
def ucbPqueueClear (state : QueueState α) : Exec (QueueState α × List α) := do
  let (nodes, items) ←
    freeBuckets state.pq.buckets state.unused 0 state.pq.numBuckets state.nodes
  pure ({ state with pq := { state.pq with numBuckets := 0 }, nodes := nodes },
    if state.pq.dataFree then items else [])

/-! ## Sequences of operations -/

/-- An operation on a queue. A push comes with what `data_clone` would answer. -/
inductive PqueueOp (α : Type) where
  | push (data copy : Option α) (prio : Int)
  | pop
  | peek
  | size
  | empty
  | fit
  | clear
deriving DecidableEq, Repr

/-- What an operation returns, or frees. -/
inductive PqueueResult (α : Type) where
  | nothing
  | position (insPos : Option Nat)
  | item (data : Option α)
  | count (items : Nat)
  | flag (value : Bool)
  | freed (items : List α)
deriving DecidableEq, Repr

def pqueueStep (state : QueueState α) : PqueueOp α → Exec (QueueState α × PqueueResult α)
  | .push data copy prio => do
      let (after, insPos) ← ucbPqueuePush allocator state data copy prio
      pure (after, .position insPos)
  | .pop => do
      let (after, data) ← ucbPqueuePop state
      pure (after, .item data)
  | .peek => do
      let data ← ucbPqueuePeek state
      pure (state, .item data)
  | .size => do
      let items ← ucbPqueueSize state
      pure (state, .count items)
  | .empty => pure (state, .flag (ucbPqueueEmpty state))
  | .fit => do
      let after ← ucbPqueueFit allocator state
      pure (after, .nothing)
  | .clear => do
      let (after, items) ← ucbPqueueClear state
      pure (after, .freed items)

/-! ## What the operations are for -/

/-- The effect of an operation on the entries of a queue, in the order in which they were
pushed, when the pushed data is there and can be cloned. -/
def entriesStep (args : UcbPqueueArgs) (entries : List (Int × α)) :
    PqueueOp α → Option (List (Int × α) × PqueueResult α)
  | .push data copy prio =>
      if data.isSome then
        (if args.dataClone then copy else data).map fun item =>
          (entries ++ [(prio, item)], .position (some (StableQueue.position entries prio)))
      else none
  | .pop =>
      some (StableQueue.others entries, .item ((StableQueue.first entries).map Prod.snd))
  | .peek => some (entries, .item ((StableQueue.first entries).map Prod.snd))
  | .size => some (entries, .count entries.length)
  | .empty => some (entries, .flag entries.isEmpty)
  | .fit => some (entries, .nothing)
  | .clear =>
      some ([], .freed (if args.dataFree then (StableQueue.popOrder entries).map Prod.snd else []))

end Ucb.Container
