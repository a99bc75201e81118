import Ucb.Container.PqueueRefinement

/-!
Contract: the priority queue of `pqueue.c` shared by threads.

Owns:
- the mutex of a queue, and the operations as a thread performs them;
- the entries of a queue with the room its array of buckets has, and what pushes that
  succeed and pushes that fail are to do with them;
- exactly when every operation lets go of the mutex and a failed push changes nothing.

What an operation does without the mutex concerns only a node that no other thread
knows, so the operations happen one after the other, in the order in which they take the
mutex. Every operation comes with the thread that performs it and with the answers of
the allocator to it. One that waits for a mutex that is never unlocked does not return.
-/

namespace Ucb.Container

open Ucb.Lib

variable {Thread : Type} {α β : Type}

/-! ## The mutex -/

/-- A queue with its mutex, and the thread that holds the mutex. -/
structure SharedQueue (Thread α : Type) where
  queue : QueueState α
  holder : Option Thread

/-- `LOCK_MUTEX`. A mutex that is held reports an error to its holder, and other threads wait
for it. -/
def lockMutex (thread : Thread) (shared : SharedQueue Thread α) : Option (SharedQueue Thread α) :=
  match shared.holder with
  | none => some { shared with holder := some thread }
  | some _ => none

def unlockMutex [DecidableEq Thread] (thread : Thread) (shared : SharedQueue Thread α) :
    Option (SharedQueue Thread α) :=
  if shared.holder = some thread then some { shared with holder := none } else none

variable [DecidableEq Thread]

/-! ## Operations -/

/-- `ucb_pqueue_push_node` behind `LOCK_MUTEX`. -/
def lockedPushNode (allocator : Allocator) (thread : Thread) (shared : SharedQueue Thread α)
    (prio : Int) (node : Nat) : Option (SharedQueue Thread α × Option Nat) := do
  let idx ← (ucbPqueueSearchBucket shared.queue.pq prio).returned
  if idx ≥ 0 then do
    let after ← (appendToBucket shared.queue idx.toNat prio node).returned
    let insPos ← (insertedPosition after.pq.buckets idx.toNat).returned
    let shared ← unlockMutex thread { shared with queue := after }
    pure (shared, some insPos)
  else do
    let negated ← (intResult (-idx)).returned
    let idx ← (intResult (negated - 1)).returned
    let (grown, success) ← (growBuckets allocator shared.queue.pq).returned
    if success then do
      let after ← (insertBucket { shared.queue with pq := grown } idx.toNat prio node).returned
      let insPos ← (insertedPosition after.pq.buckets idx.toNat).returned
      let shared ← unlockMutex thread { shared with queue := after }
      pure (shared, some insPos)
    -- The source returns here without unlocking.
    else pure ({ shared with queue := { shared.queue with pq := grown } }, none)

/-- `ucb_pqueue_push_node`. -/
def sharedPushNode (allocator : Allocator) (thread : Thread) (shared : SharedQueue Thread α)
    (prio : Int) (node : Nat) : Option (SharedQueue Thread α × Option Nat) := do
  let shared ← lockMutex thread shared
  lockedPushNode allocator thread shared prio node

/-- What an operation does between locking and unlocking. -/
def withMutex (thread : Thread) (body : QueueState α → Exec (QueueState α × β))
    (shared : SharedQueue Thread α) : Option (SharedQueue Thread α × β) := do
  let shared ← lockMutex thread shared
  let (queue, result) ← (body shared.queue).returned
  let shared ← unlockMutex thread { shared with queue := queue }
  pure (shared, result)

/-- `ucb_pqueue_push`. -/
def sharedPush (allocator : Allocator) (thread : Thread) (shared : SharedQueue Thread α)
    (data copy : Option α) (prio : Int) : Option (SharedQueue Thread α × Option Nat) :=
  if data.isSome then
    if allocator.grants .malloc nodeSize then
      match if shared.queue.pq.dataClone then copy else data with
      | none => pure (shared, none)
      | some item => do
          let node := shared.queue.unused
          let queue := { shared.queue with
            nodes := Function.update shared.queue.nodes node (some ⟨none, item⟩)
            unused := node + 1 }
          let (after, insPos) ←
            sharedPushNode allocator thread { shared with queue := queue } prio node
          match insPos with
          | none =>
              let nodes := Function.update after.queue.nodes node none
              pure ({ after with queue := { after.queue with nodes := nodes } }, none)
          | some insPos => pure (after, some insPos)
    else pure (shared, none)
  else none

/-- `ucb_pqueue_pop`. -/
def sharedPop (thread : Thread) (shared : SharedQueue Thread α) :
    Option (SharedQueue Thread α × Option α) := do
  let (after, node) ← withMutex thread ucbPqueuePopNode shared
  match node with
  | none => pure (after, none)
  | some _ => do
      let (address, content) ← (nodeAt after.queue.nodes node).returned
      let nodes := Function.update after.queue.nodes address none
      pure ({ after with queue := { after.queue with nodes := nodes } }, some content.data)

/-- An operation, the thread that performs it, and the allocator's answers to it. -/
structure SharedCall (Thread α : Type) where
  thread : Thread
  allocator : Allocator
  op : PqueueOp α

def sharedStep (shared : SharedQueue Thread α) (call : SharedCall Thread α) :
    Option (SharedQueue Thread α × PqueueResult α) :=
  match call.op with
  | .push data copy prio => do
      let (after, insPos) ← sharedPush call.allocator call.thread shared data copy prio
      pure (after, .position insPos)
  | .pop => do
      let (after, data) ← sharedPop call.thread shared
      pure (after, .item data)
  | .peek | .size | .empty | .fit | .clear =>
      withMutex call.thread (pqueueStep call.allocator · call.op) shared

/-! ## What the operations are for -/

/-- The entries of a queue, and how many priorities its array of buckets has room for. -/
structure RoomyEntries (α : Type) where
  entries : List (Int × α)
  capacity : Nat
deriving DecidableEq, Repr

def RoomyEntries.priorities (content : RoomyEntries α) : List Int :=
  (content.entries.map Prod.fst).dedup

def RoomyEntries.put (content : RoomyEntries α) (prio : Int) (item : α) (capacity : Nat) :
    RoomyEntries α × PqueueResult α :=
  (⟨content.entries ++ [(prio, item)], capacity⟩,
    .position (some (StableQueue.position content.entries prio)))

/-- The effect of an operation. A push that fails has none: when no node is allocated for it,
when its data cannot be cloned, or when the array has to grow and may not. Fitting is
specified only when the array may be cut. -/
def roomyStep (args : UcbPqueueArgs) (content : RoomyEntries α) (call : SharedCall Thread α) :
    Option (RoomyEntries α × PqueueResult α) :=
  match call.op with
  | .push data copy prio =>
      if data.isSome then
        if call.allocator.grants .malloc nodeSize then
          match if args.dataClone then copy else data with
          | none => some (content, .position none)
          | some item =>
              if prio ∈ content.priorities ∨ content.priorities.length ≠ content.capacity then
                some (content.put prio item content.capacity)
              else if call.allocator.grants .realloc
                  (content.capacity * pqueueBucketsGrowFactor * bucketSize) then
                some (content.put prio item (content.capacity * pqueueBucketsGrowFactor))
              else some (content, .position none)
        else some (content, .position none)
      else none
  | .fit =>
      let used := content.priorities.length
      if pqueueInitialNumBuckets < used ∧ used < content.capacity then
        if call.allocator.grants .realloc (used * bucketSize) then
          some (⟨content.entries, used⟩, .nothing)
        else none
      else some (content, .nothing)
  | .pop | .peek | .size | .empty | .clear =>
      (entriesStep args content.entries call.op).map fun after =>
        (⟨after.1, content.capacity⟩, after.2)

/-- The mutex is free, and the queue holds the entries and has the room for buckets. -/
structure LockBalanced (args : UcbPqueueArgs) (shared : SharedQueue Thread α)
    (content : RoomyEntries α) : Prop where
  free : shared.holder = none
  queued : Queued args shared.queue content.entries
  capacity : shared.queue.pq.allocBuckets = content.capacity

def HasBucket (pq : UcbPqueue) (prio : Int) : Prop :=
  ∃ idx bucket, idx < pq.numBuckets ∧ pq.buckets.load idx = .ok bucket ∧ bucket.priority = prio

/-- A push that gets a node and an item finds its place and is not refused the array it needs,
or it is another operation. -/
def GoesThrough (shared : SharedQueue Thread α) (call : SharedCall Thread α) : Prop :=
  match call.op with
  | .push data copy prio =>
      call.allocator.grants .malloc nodeSize = true →
      (if shared.queue.pq.dataClone then copy else data).isSome = true →
        SearchFits shared.queue.pq prio ∧
          (¬ HasBucket shared.queue.pq prio → GrowthGranted call.allocator shared.queue.pq)
  | .pop | .peek | .size | .empty | .fit | .clear => True

/-! ## Operations on a free mutex -/

section Free

variable {shared : SharedQueue Thread α} {thread : Thread} {allocator : Allocator}
  {data copy : Option α}

theorem returned_bind (run : Exec α) (next : α → Exec β) :
    (run >>= next).returned = run.returned.bind fun value => (next value).returned := by
  cases run <;> rfl

omit [DecidableEq Thread] in
theorem lock_free (free : shared.holder = none) (thread : Thread) :
    lockMutex thread shared = some { shared with holder := some thread } := by
  rw [lockMutex, free]

omit [DecidableEq Thread] in
/-- An operation that has to take a mutex that is held does not return. -/
theorem lock_held {holder : Thread} (held : shared.holder = some holder) (thread : Thread) :
    lockMutex thread shared = none := by
  rw [lockMutex, held]

theorem unlock_held (queue : QueueState α) (thread : Thread) :
    unlockMutex thread ⟨queue, some thread⟩ = some ⟨queue, none⟩ :=
  if_pos rfl

theorem withMutex_eq (free : shared.holder = none)
    (body : QueueState α → Exec (QueueState α × β)) :
    withMutex thread body shared =
      (body shared.queue).returned.map fun after => (⟨after.1, none⟩, after.2) := by
  rw [withMutex, lock_free free, Option.map_eq_bind]
  show (body shared.queue).returned.bind _ = _
  refine Option.bind_congr fun after _ => ?_
  simp only [unlock_held]
  rfl

/-- A push of a node unlocks the mutex exactly when it gives the node a place. -/
theorem lockedPushNode_eq (queue : QueueState α) (prio : Int) (node : Nat) :
    lockedPushNode allocator thread ⟨queue, some thread⟩ prio node =
      (ucbPqueuePushNode allocator queue prio node).returned.map fun pushed =>
        (⟨pushed.1, if pushed.2.isSome then none else some thread⟩, pushed.2) := by
  rw [lockedPushNode, ucbPqueuePushNode, returned_bind, Option.map_eq_bind, Option.bind_assoc]
  refine Option.bind_congr fun idx _ => ?_
  by_cases found : idx ≥ 0
  · simp only [if_pos found, returned_bind, Option.bind_assoc, unlock_held]
    rfl
  · simp only [if_neg found, returned_bind, Option.bind_assoc]
    refine Option.bind_congr fun negated _ => Option.bind_congr fun place _ =>
      Option.bind_congr fun grown _ => ?_
    by_cases success : grown.2 = true
    · simp only [if_pos success, returned_bind, Option.bind_assoc, unlock_held]
      rfl
    · simp only [if_neg success]
      rfl

theorem sharedPushNode_eq (free : shared.holder = none) (prio : Int) (node : Nat) :
    sharedPushNode allocator thread shared prio node =
      (ucbPqueuePushNode allocator shared.queue prio node).returned.map fun pushed =>
        (⟨pushed.1, if pushed.2.isSome then none else some thread⟩, pushed.2) := by
  have locked : sharedPushNode allocator thread shared prio node =
      lockedPushNode allocator thread ⟨shared.queue, some thread⟩ prio node := by
    rw [sharedPushNode, lock_free free]
    exact Option.bind_some ..
  rw [locked, lockedPushNode_eq]

theorem sharedPop_eq (free : shared.holder = none) :
    sharedPop thread shared =
      (ucbPqueuePop shared.queue).returned.map fun after => (⟨after.1, none⟩, after.2) := by
  rw [sharedPop, withMutex_eq free, ucbPqueuePop, returned_bind, Option.map_eq_bind,
    Option.map_eq_bind, Option.bind_assoc]
  show (Option.bind _ _).bind _ = _
  rw [Option.bind_assoc]
  refine Option.bind_congr fun popped _ => ?_
  cases node : popped.2 with
  | none => simp [node, Exec.returned]
  | some address =>
      simp only [node, Function.comp_apply, Option.bind_some, returned_bind, Option.bind_assoc]
      rfl

/-- Every operation but a push lets go of the mutex. -/
theorem sharedStep_other (free : shared.holder = none) {call : SharedCall Thread α}
    (other : ∀ data copy prio, call.op ≠ .push data copy prio) :
    sharedStep shared call =
      (pqueueStep call.allocator shared.queue call.op).returned.map fun after =>
        (⟨after.1, none⟩, after.2) := by
  obtain ⟨thread, allocator, op⟩ := call
  cases op with
  | push data copy prio => exact absurd rfl (other data copy prio)
  | pop =>
      rw [sharedStep, sharedPop_eq free, pqueueStep, returned_bind]
      cases ucbPqueuePop shared.queue <;> rfl
  | peek | size | empty | fit | clear =>
      rw [sharedStep]
      exact withMutex_eq free (pqueueStep allocator · _)

/-- A push whose node or item cannot be had takes no mutex. -/
theorem sharedPush_none (given : data.isSome = true)
    (failed : allocator.grants .malloc nodeSize = true →
      (if shared.queue.pq.dataClone then copy else data) = none) (prio : Int) :
    sharedPush allocator thread shared data copy prio = some (shared, none) := by
  rw [sharedPush, if_pos given]
  split
  next granted => rw [failed granted]; rfl
  next => rfl

/-- A push after its node has been given a place or not. -/
def finishPush (thread : Thread) (node : Nat) (pushed : QueueState α × Option Nat) :
    SharedQueue Thread α × Option Nat :=
  match pushed.2 with
  | none =>
      (⟨{ pushed.1 with nodes := Function.update pushed.1.nodes node none }, some thread⟩, none)
  | some insPos => (⟨pushed.1, none⟩, some insPos)

/-- A push that has its node and its item lets go of the mutex if it gives the node a place. -/
theorem sharedPush_eq (free : shared.holder = none) (given : data.isSome = true)
    (granted : allocator.grants .malloc nodeSize = true) {item : α}
    (cloned : (if shared.queue.pq.dataClone then copy else data) = some item) (prio : Int) :
    sharedPush allocator thread shared data copy prio =
      (ucbPqueuePushNode allocator (withNode shared.queue item) prio
        shared.queue.unused).returned.map (finishPush thread shared.queue.unused) := by
  have still : (⟨withNode shared.queue item, shared.holder⟩ : SharedQueue Thread α).holder = none :=
    free
  have pushed : sharedPushNode allocator thread ⟨withNode shared.queue item, shared.holder⟩ prio
      shared.queue.unused = _ := sharedPushNode_eq still prio shared.queue.unused
  rw [sharedPush, if_pos given, if_pos granted, cloned, Option.map_eq_bind]
  rw [Option.map_eq_bind] at pushed
  refine (congrArg (Option.bind · _) pushed).trans ?_
  rw [Option.bind_assoc]
  refine Option.bind_congr fun after _ => ?_
  obtain ⟨after, insPos⟩ := after
  cases insPos <;> rfl

end Free

/-! ## Balance -/

section Balance

variable {args : UcbPqueueArgs} {shared : SharedQueue Thread α} {content : RoomyEntries α}

omit [DecidableEq Thread] in
theorem balanced_new {allocator : Allocator} {pq : UcbPqueue}
    (made : ucbPqueueInitCommon allocator args = .ok (some pq)) :
    LockBalanced args (⟨newQueue pq, none⟩ : SharedQueue Thread α)
      ⟨[], pqueueInitialNumBuckets⟩ := by
  refine ⟨rfl, queued_new made, ?_⟩
  obtain ⟨_, -, made⟩ := Exec.bind_eq_ok.mp made
  split at made
  next granted =>
    obtain rfl := Option.some.inj (Exec.ok.inj made)
    rfl
  next refused => cases Exec.ok.inj made

/-- The priorities that have buckets are those of the entries. -/
theorem hasBucket_iff {state : QueueState α} {entries : List (Int × α)} {prio : Int}
    (queued : Queued args state entries) :
    HasBucket state.pq prio ↔ prio ∈ entries.map Prod.fst := by
  obtain ⟨levels, held, linked, sorted⟩ := queued.levels
  rw [← (sorted.perm.map Prod.fst).mem_iff, mem_priorities linked]
  constructor
  · rintro ⟨idx, bucket, inside, loaded, same⟩
    rw [held.count] at inside
    rw [held.load (List.getElem?_eq_getElem inside)] at loaded
    obtain rfl := Exec.ok.inj loaded
    exact List.mem_map.mpr ⟨levels[idx], List.getElem_mem inside, same⟩
  · intro member
    obtain ⟨level, among, same⟩ := List.mem_map.mp member
    obtain ⟨idx, inside, here⟩ := List.mem_iff_getElem.mp among
    refine ⟨idx, bucketOf level, held.count ▸ inside, held.load ?_, same⟩
    rw [List.getElem?_eq_getElem inside, here]

omit [DecidableEq Thread] in
/-- The array is full when there are as many priorities as it has room for. -/
theorem LockBalanced.full_iff (balanced : LockBalanced args shared content) :
    shared.queue.pq.numBuckets = shared.queue.pq.allocBuckets ↔
      content.priorities.length = content.capacity := by
  rw [count_queued balanced.queued, balanced.capacity]
  rfl

variable {thread : Thread} {allocator : Allocator} {data copy : Option α} {prio : Int} {item : α}

omit [DecidableEq Thread] in
/-- What a push that is not refused the array it needs is to do. -/
theorem LockBalanced.put_eq (balanced : LockBalanced args shared content)
    (grows : prio ∉ content.entries.map Prod.fst → GrowthGranted allocator shared.queue.pq) :
    (if prio ∈ content.priorities ∨ content.priorities.length ≠ content.capacity then
        some (content.put prio item content.capacity)
      else if allocator.grants .realloc
          (content.capacity * pqueueBucketsGrowFactor * bucketSize) then
        some (content.put prio item (content.capacity * pqueueBucketsGrowFactor))
      else some (content, .position none)) =
      some (content.put prio item (if prio ∈ content.entries.map Prod.fst then content.capacity
        else grownCapacity shared.queue.pq)) := by
  by_cases present : prio ∈ content.entries.map Prod.fst
  · rw [if_pos (.inl (List.mem_dedup.mpr present)), if_pos present]
  · have absent : prio ∉ content.priorities := fun member => present (List.mem_dedup.mp member)
    rw [if_neg present]
    by_cases full : shared.queue.pq.numBuckets = shared.queue.pq.allocBuckets
    · have granted := grows present full
      rw [balanced.capacity] at granted
      rw [if_neg (not_or.mpr ⟨absent, not_not.mpr (balanced.full_iff.mp full)⟩), if_pos granted,
        grownCapacity, if_pos full, balanced.capacity]
    · rw [if_pos (.inr fun same => full (balanced.full_iff.mpr same)), grownCapacity,
        if_neg full, balanced.capacity]

theorem sharedStep_push :
    sharedStep shared ⟨thread, allocator, .push data copy prio⟩ =
      (sharedPush allocator thread shared data copy prio).map fun after =>
        (after.1, .position after.2) := by
  rw [Option.map_eq_bind]
  rfl

section Item

variable (balanced : LockBalanced args shared content) (given : data.isSome = true)
  (granted : allocator.grants .malloc nodeSize = true)
  (cloned : (if shared.queue.pq.dataClone then copy else data) = some item)
include balanced given granted cloned

/-- A push that is not refused the array it needs puts its item in its place. -/
theorem push_balanced (fits : SearchFits shared.queue.pq prio)
    (grows : prio ∉ content.entries.map Prod.fst → GrowthGranted allocator shared.queue.pq) :
    ∃ next capacity, sharedStep shared ⟨thread, allocator, .push data copy prio⟩ =
        some (next, (content.put prio item capacity).2) ∧
      LockBalanced args next (content.put prio item capacity).1 ∧
      capacity = if prio ∈ content.entries.map Prod.fst then content.capacity
        else grownCapacity shared.queue.pq := by
  obtain ⟨after, pushed, queued, capacity⟩ := pushNode_queued balanced.queued item fits grows
  rw [balanced.capacity] at capacity
  refine ⟨⟨after, none⟩, _, ?_, ⟨rfl, queued, capacity⟩, rfl⟩
  rw [sharedStep_push, sharedPush_eq balanced.free given granted cloned, pushed]
  rfl

/-- A push that is refused the array it needs keeps the mutex and loses all buckets. -/
theorem push_refused (fits : SearchFits shared.queue.pq prio)
    (isNew : prio ∉ content.entries.map Prod.fst)
    (refused : ¬ GrowthGranted allocator shared.queue.pq) :
    ∃ next, sharedStep shared ⟨thread, allocator, .push data copy prio⟩ =
        some (next, .position none) ∧
      next.holder = some thread ∧ next.queue.pq.buckets = .dangling := by
  refine ⟨(finishPush thread shared.queue.unused ({ withNode shared.queue item with
    pq := { shared.queue.pq with buckets := .dangling } }, none)).1, ?_, rfl, rfl⟩
  rw [sharedStep_push, sharedPush_eq balanced.free given granted cloned,
    pushNode_refused balanced.queued item fits isNew refused]
  rfl

theorem shared_push_unfit (unfit : ¬ SearchFits shared.queue.pq prio) :
    sharedStep shared ⟨thread, allocator, .push data copy prio⟩ = none := by
  rw [sharedStep_push, sharedPush_eq balanced.free given granted cloned,
    pushNode_unfit balanced.queued item unfit]
  rfl

end Item

/-- A push is right if its node or its item cannot be had, and otherwise exactly when its search
fits and it is not refused the array it needs. -/
theorem shared_push_iff (balanced : LockBalanced args shared content)
    {after : RoomyEntries α × PqueueResult α}
    (effect : roomyStep args content ⟨thread, allocator, .push data copy prio⟩ = some after) :
    Performs sharedStep (LockBalanced args) shared ⟨thread, allocator, .push data copy prio⟩ after ↔
      GoesThrough shared ⟨thread, allocator, .push data copy prio⟩ := by
  have mem_buckets : HasBucket shared.queue.pq prio ↔ _ := hasBucket_iff balanced.queued
  simp only [roomyStep] at effect
  split at effect
  next given =>
    by_cases granted : allocator.grants .malloc nodeSize = true
    · rw [if_pos granted, ← balanced.queued.clone] at effect
      cases cloned : if shared.queue.pq.dataClone then copy else data with
      | none =>
          rw [cloned] at effect
          obtain rfl := Option.some.inj effect
          refine iff_of_true ⟨shared, ?_, balanced⟩ ?_
          · rw [sharedStep_push, sharedPush_none given fun _ => cloned]
            rfl
          · intro _ isItem
            rw [cloned] at isItem
            cases isItem
      | some item =>
          rw [cloned] at effect
          dsimp only at effect
          by_cases fits : SearchFits shared.queue.pq prio
          · by_cases grows :
              prio ∉ content.entries.map Prod.fst → GrowthGranted allocator shared.queue.pq
            · rw [balanced.put_eq grows] at effect
              obtain rfl := Option.some.inj effect
              obtain ⟨next, capacity, stepped, balanced', rfl⟩ :=
                push_balanced balanced given granted cloned fits grows
              exact iff_of_true ⟨next, stepped, balanced'⟩ fun _ _ =>
                ⟨fits, fun none => grows fun member => none (mem_buckets.mpr member)⟩
            · rw [Classical.not_imp] at grows
              obtain ⟨isNew, refused⟩ := grows
              obtain ⟨next, stepped, held, -⟩ :=
                push_refused balanced given granted cloned fits isNew refused
              refine iff_of_false ?_ ?_
              · rintro ⟨other, stepped', balanced'⟩
                rw [stepped] at stepped'
                obtain rfl := (Prod.mk.inj (Option.some.inj stepped')).1
                rw [balanced'.free] at held
                cases held
              · intro goes
                exact refused ((goes granted (by rw [cloned]; rfl)).2 fun has =>
                  isNew (mem_buckets.mp has))
          · refine iff_of_false ?_ ?_
            · rintro ⟨next, ran, -⟩
              rw [shared_push_unfit balanced given granted cloned fits] at ran
              cases ran
            · intro goes
              exact fits (goes granted (by rw [cloned]; rfl)).1
    · rw [if_neg granted] at effect
      obtain rfl := Option.some.inj effect
      refine iff_of_true ⟨shared, ?_, balanced⟩ fun got => absurd got granted
      rw [sharedStep_push, sharedPush_none given fun got => absurd got granted]
      rfl
  next => cases effect

omit [DecidableEq Thread] in
theorem roomyStep_other (balanced : LockBalanced args shared content) {call : SharedCall Thread α}
    (other : ∀ data copy prio, call.op ≠ .push data copy prio)
    {after : RoomyEntries α × PqueueResult α} (effect : roomyStep args content call = some after) :
    (call.op = .fit → FitGranted call.allocator shared.queue.pq) ∧
      entriesStep args content.entries call.op = some (after.1.entries, after.2) ∧
      capacityAfter shared.queue.pq call.op = after.1.capacity := by
  have used : content.priorities.length = shared.queue.pq.numBuckets :=
    (count_queued balanced.queued).symm
  have capacity := balanced.capacity
  obtain ⟨thread, allocator, op⟩ := call
  cases op with
  | push data copy prio => exact absurd rfl (other data copy prio)
  | pop | peek | size | empty | clear =>
      simp only [roomyStep] at effect
      obtain ⟨between, here, rfl⟩ := Option.map_eq_some_iff.mp effect
      exact ⟨fun isFit => (by cases isFit), here, capacity⟩
  | fit =>
      simp only [roomyStep, used, ← capacity] at effect
      split at effect
      next spacious =>
        split at effect
        next granted =>
          obtain rfl := Option.some.inj effect
          exact ⟨fun _ _ _ => granted, rfl, if_pos spacious⟩
        next => cases effect
      next tight =>
        obtain rfl := Option.some.inj effect
        exact ⟨fun _ more less => absurd ⟨more, less⟩ tight, rfl, (if_neg tight).trans capacity⟩

/-- An operation releases the mutex and does what it is to do exactly when it goes through. -/
theorem shared_performs_iff (balanced : LockBalanced args shared content)
    (call : SharedCall Thread α) {after : RoomyEntries α × PqueueResult α}
    (effect : roomyStep args content call = some after) :
    Performs sharedStep (LockBalanced args) shared call after ↔ GoesThrough shared call := by
  by_cases isPush : ∃ data copy prio, call.op = .push data copy prio
  · obtain ⟨thread, allocator, op⟩ := call
    obtain ⟨data, copy, prio, rfl⟩ := isPush
    exact shared_push_iff balanced effect
  · have other : ∀ data copy prio, call.op ≠ .push data copy prio :=
      fun data copy prio same => isPush ⟨data, copy, prio, same⟩
    obtain ⟨granted, effect', capacity⟩ := roomyStep_other balanced other effect
    obtain ⟨next, ran, queued, room⟩ := other_queued balanced.queued other granted effect'
    refine iff_of_true ⟨⟨next, none⟩, ?_, rfl, queued, room.trans capacity⟩ ?_
    · rw [sharedStep_other balanced.free other, ran]
      rfl
    · obtain ⟨thread, allocator, op⟩ := call
      cases op with
      | push data copy prio => exact absurd rfl (other data copy prio)
      | pop | peek | size | empty | fit | clear => trivial

/-- In a sequence of operations by any threads, every operation returns with the mutex free and
the result and the content as specified, whatever pushes have failed before it, exactly when
no push is refused an array that it needs, and their searches fit. -/
theorem shared_pqueue_balanced_iff {pq : UcbPqueue}
    (made : ucbPqueueInitCommon allocator args = .ok (some pq)) {calls : List (SharedCall Thread α)}
    (inContract : (performAll (roomyStep args) ⟨[], pqueueInitialNumBuckets⟩ calls).isSome) :
    RefinesOn sharedStep (roomyStep args) (LockBalanced args) ⟨newQueue pq, none⟩
        ⟨[], pqueueInitialNumBuckets⟩ calls ↔
      Throughout sharedStep GoesThrough ⟨newQueue pq, none⟩ calls :=
  refinesOn_iff (fun _ _ call _ balanced effect => shared_performs_iff balanced call effect)
    (balanced_new made) inContract

end Balance

/-- A push that succeeds, one for which no node is allocated, and one whose data cannot be
cloned, each by a thread of its own, and then an item taken out. -/
def failingPushes : List (SharedCall Nat Char) :=
  [⟨0, ⟨fun _ _ => true, fun _ => 0⟩, .push (some 'a') (some 'b') 3⟩,
    ⟨1, ⟨fun _ _ => false, fun _ => 0⟩, .push (some 'c') (some 'd') 5⟩,
    ⟨2, ⟨fun _ _ => true, fun _ => 0⟩, .push (some 'e') none 7⟩,
    ⟨1, ⟨fun _ _ => true, fun _ => 0⟩, .pop⟩]

/-- These operations on a new queue. -/
theorem shared_pqueue_balanced_iff_failures :
    RefinesOn sharedStep (roomyStep ⟨true, true⟩) (LockBalanced ⟨true, true⟩)
        ⟨newQueue ⟨.heap (List.replicate 16 none), 0, 16, true, true⟩, none⟩ ⟨[], 16⟩
        failingPushes ↔
      Throughout sharedStep GoesThrough
        ⟨newQueue ⟨.heap (List.replicate 16 none), 0, 16, true, true⟩, none⟩ failingPushes :=
  shared_pqueue_balanced_iff
    (rfl : ucbPqueueInitCommon ⟨fun _ _ => true, fun _ => 0⟩ ⟨true, true⟩ = .ok (some _)) rfl

/-! ## A refused array -/

/-- An operation that has to take the mutex does not return while somebody holds it. -/
theorem blocked {shared : SharedQueue Thread α} {holder : Thread}
    (held : shared.holder = some holder) (call : SharedCall Thread α)
    (other : ∀ data copy prio, call.op ≠ .push data copy prio) : sharedStep shared call = none := by
  obtain ⟨thread, allocator, op⟩ := call
  cases op with
  | push data copy prio => exact absurd rfl (other data copy prio)
  | pop =>
      rw [sharedStep, sharedPop, withMutex, lock_held held]
      rfl
  | peek | size | empty | fit | clear =>
      rw [sharedStep, withMutex, lock_held held]
      rfl

/-- Pushes of 16 priorities, and one more that is refused a larger array. -/
def pushesPastRoom : List (SharedCall Nat Char) :=
  ((List.range 16).map fun (index : Nat) =>
    ⟨0, ⟨fun _ _ => true, fun _ => 0⟩, .push (some 'a') none index⟩) ++
    [⟨0, ⟨fun call _ => call != .realloc, fun _ => 0⟩, .push (some 'a') none 16⟩]

/-- The last of these pushes returns `SIZE_MAX` with the mutex held and the array freed, and no
thread can ask for the size. -/
theorem push_keeps_mutex :
    ucbPqueueInitCommon ⟨fun _ _ => true, fun _ => 0⟩ ⟨false, false⟩ =
        .ok (some ⟨.heap (List.replicate 16 none), 0, 16, false, false⟩) ∧
      (performAll (roomyStep ⟨false, false⟩) ⟨[], 16⟩ pushesPastRoom).isSome ∧
      (∃ shared results, performAll sharedStep
          ⟨newQueue ⟨.heap (List.replicate 16 none), 0, 16, false, false⟩, none⟩ pushesPastRoom =
            some (shared, results) ∧
        results.getLast? = some (.position none) ∧ shared.holder = some 0 ∧
        shared.queue.pq.buckets = .dangling ∧
        ∀ thread allocator, sharedStep shared ⟨thread, allocator, .size⟩ = none) ∧
      ¬ RefinesOn sharedStep (roomyStep ⟨false, false⟩) (LockBalanced ⟨false, false⟩)
        ⟨newQueue ⟨.heap (List.replicate 16 none), 0, 16, false, false⟩, none⟩ ⟨[], 16⟩
        pushesPastRoom := by
  have ran : (performAll sharedStep
      ⟨newQueue ⟨.heap (List.replicate 16 none), 0, 16, false, false⟩, none⟩ pushesPastRoom).map
        (fun after => (after.2.getLast?, after.1.holder, after.1.queue.pq.buckets)) =
      some (some (.position none), some 0, .dangling) := by
    decide
  obtain ⟨⟨shared, results⟩, performed, seen⟩ := Option.map_eq_some_iff.mp ran
  obtain ⟨last, seen⟩ := Prod.mk.inj seen
  obtain ⟨held, array⟩ := Prod.mk.inj seen
  have inContract : (performAll (roomyStep ⟨false, false⟩) ⟨[], 16⟩ pushesPastRoom).isSome := by
    decide
  refine ⟨rfl, inContract, ⟨shared, results, performed, last, held, array, ?_⟩, ?_⟩
  · exact fun thread allocator => blocked held _ fun _ _ _ same => by cases same
  · intro refines
    obtain ⟨after, effect⟩ := Option.isSome_iff_exists.mp inContract
    obtain ⟨other, performed', balanced⟩ :=
      refines pushesPastRoom [] (List.append_nil _).symm after effect
    rw [performed] at performed'
    obtain rfl := (Prod.mk.inj (Option.some.inj performed')).1
    rw [balanced.free] at held
    cases held

end Ucb.Container
