import Ucb.Container.SharedPqueue
import Ucb.Lib.Refusal

/-!
Contract: the priority queue when the allocator refuses a request.

Owns:
- what a push and `ucb_pqueue_fit` do when the array of buckets they need is refused;
- exactly which sequences leave a queue as it was at each refusal, used by one thread or
  shared by several.

A push that gets no node has not touched the queue. One that is refused a larger array has
lost the array with all buckets, and in a shared queue keeps the mutex.
-/

namespace Ucb.Container

open Ucb.Lib

variable {Thread α : Type}

/-- The queues of one kind with their entries. -/
def pqueues (α : Type) (args : UcbPqueueArgs) :
    Component Allocator (QueueState α) (PqueueOp α) (PqueueResult α) (List (Int × α)) where
  step allocator := pqueueRun allocator
  granting := Allocator.granting
  holds := Queued args

/-- The shared queues of one kind with their entries. Every call comes with its thread. -/
def sharedPqueues (Thread α : Type) [DecidableEq Thread] (args : UcbPqueueArgs) :
    Component (Thread × Allocator) (SharedQueue Thread α) (PqueueOp α) (PqueueResult α)
      (List (Int × α)) where
  step env shared op := sharedStep shared ⟨env.1, env.2, op⟩
  granting env := (env.1, env.2.granting)
  holds shared entries := shared.holder = none ∧ Queued args shared.queue entries

/-- A push that has its node and its item is not refused a larger array of buckets, and
`ucb_pqueue_fit` is not refused a smaller one. -/
def BucketsGranted (state : QueueState α) (call : Allocator × PqueueOp α) : Prop :=
  match call.2 with
  | .push data copy prio =>
      call.1.grants .malloc nodeSize = true →
        (if state.pq.dataClone then copy else data).isSome = true →
          ¬ HasBucket state.pq prio → GrowthGranted call.1 state.pq
  | .fit => FitGranted call.1 state.pq
  | _ => True

def GivesData : PqueueOp α → Prop
  | .push data _ _ => data.isSome = true
  | _ => True

/-- A push has data, and its place fits when no refusal shows. -/
def ProperQueueCall (args : UcbPqueueArgs) (state : QueueState α) (call : Allocator × PqueueOp α) :
    Prop :=
  GivesData call.2 ∧ ((pqueues α args).Unhindered state call → PlaceFits state call.2)

/-! ## Requests for buckets -/

section Requests

variable {allocator : Allocator} {args : UcbPqueueArgs} {state : QueueState α}
  {entries : List (Int × α)} {prio : Int} {item : α} {pq : UcbPqueue} {levels : List (Level α)}

theorem growBuckets_granting (held : Held pq levels) (granted : GrowthGranted allocator pq) :
    growBuckets allocator pq = growBuckets allocator.granting pq := by
  by_cases full : pq.numBuckets = pq.allocBuckets
  · have small := held.small
    have answer := granted full
    have bytes : pq.allocBuckets * pqueueBucketsGrowFactor % 2 ^ 64 * bucketSize % 2 ^ 64 =
        pq.allocBuckets * pqueueBucketsGrowFactor * bucketSize := by
      rw [pqueueBucketsGrowFactor, bucketSize]
      omega
    rw [← bytes] at answer
    simp only [growBuckets, realloc_granting answer]
  · rw [growBuckets, growBuckets, if_neg full, if_neg full]

/-- A push of a node with the request it makes granted, or with none. -/
theorem pushNode_granting (queued : Queued args state entries) (fits : SearchFits state.pq prio)
    (granted : prio ∉ entries.map Prod.fst → GrowthGranted allocator state.pq) :
    ucbPqueuePushNode allocator (withNode state item) prio state.unused =
      ucbPqueuePushNode allocator.granting (withNode state item) prio state.unused := by
  obtain ⟨levels, held, linked, sorted⟩ := queued.levels
  have unlocked : (withNode state item).pq = state.pq := rfl
  by_cases present : prio ∈ entries.map Prod.fst
  · obtain ⟨front, here, back, rfl, only, single, before, behind⟩ :=
      levels_split prio linked.descending
    have nonempty := (mem_entries_iff linked sorted only before behind).mp present
    have search := search_fits held only single before behind fits
    rw [if_neg nonempty] at search
    rw [ucbPqueuePushNode, ucbPqueuePushNode, unlocked, search, Exec.ok_bind, Exec.ok_bind,
      if_pos (Int.natCast_nonneg _), if_pos (Int.natCast_nonneg _)]
  · rw [ucbPqueuePushNode, ucbPqueuePushNode, unlocked,
      growBuckets_granting held (granted present)]

theorem fitQueue_granting (queued : Queued args state entries)
    (granted : FitGranted allocator state.pq) :
    ucbPqueueFit allocator state = ucbPqueueFit allocator.granting state := by
  obtain ⟨levels, held, -, -⟩ := queued.levels
  by_cases spacious : state.pq.numBuckets > pqueueInitialNumBuckets ∧
      state.pq.numBuckets < state.pq.allocBuckets
  · have small := held.small
    have answer := granted spacious.1 spacious.2
    rw [← Nat.mod_eq_of_lt (show state.pq.numBuckets * bucketSize < 2 ^ 64 by
      rw [bucketSize]; omega)] at answer
    rw [ucbPqueueFit, ucbPqueueFit, realloc_granting answer]
  · rw [ucbPqueueFit, ucbPqueueFit, if_neg spacious, if_neg spacious]

/-- `ucb_pqueue_fit` stores the pointer it is not given. -/
theorem fitQueue_denied (queued : Queued args state entries)
    (refused : ¬ FitGranted allocator state.pq) :
    ucbPqueueFit allocator state = .ok { state with
      pq := { state.pq with buckets := .null, allocBuckets := state.pq.numBuckets } } := by
  obtain ⟨levels, held, -, -⟩ := queued.levels
  obtain ⟨spare, array, -⟩ := held.array
  rw [FitGranted, Classical.not_imp, Classical.not_imp] at refused
  obtain ⟨more, less, refused⟩ := refused
  have small := held.small
  rw [← Nat.mod_eq_of_lt (show state.pq.numBuckets * bucketSize < 2 ^ 64 by
    rw [bucketSize]; omega)] at refused
  have freed : state.pq.buckets.freed = .ok .dangling := by
    rw [array]
    rfl
  rw [ucbPqueueFit, if_pos ⟨more, less⟩, realloc_refused refused freed]
  rfl

/-- A queue without its array of buckets holds nothing. -/
theorem not_queued_lost (lost : ∀ cells, state.pq.buckets ≠ .heap cells) :
    ¬ Queued args state entries := by
  intro queued
  obtain ⟨levels, held, -, -⟩ := queued.levels
  obtain ⟨spare, array, -⟩ := held.array
  exact lost _ array

/-- A push without node or item leaves the queue alone. -/
theorem push_none {data copy : Option α} (given : data.isSome = true)
    (failed : allocator.grants .malloc nodeSize = true →
      (if state.pq.dataClone then copy else data) = none) :
    ucbPqueuePush allocator state data copy prio = .ok (state, none) := by
  rw [ucbPqueuePush, given, ucbVerify_true, Exec.ok_bind]
  split
  next granted => rw [failed granted]; rfl
  next => rfl

theorem push_node {data copy : Option α}
    (got : ¬ (allocator.grants .malloc nodeSize = true →
      (if state.pq.dataClone then copy else data) = none)) :
    ∃ item, (if state.pq.dataClone then copy else data) = some item ∧
      allocator.grants .malloc nodeSize = true := by
  obtain ⟨granted, some⟩ := Classical.not_imp.mp got
  obtain ⟨item, cloned⟩ := Option.ne_none_iff_exists'.mp some
  exact ⟨item, cloned, granted⟩

end Requests

/-! ## Queues of one thread -/

section Single

variable {allocator : Allocator} {args : UcbPqueueArgs} {state : QueueState α}
  {entries : List (Int × α)} {prio : Int} {item : α} {data copy : Option α} {op : PqueueOp α}

theorem pqueueRun_push (prio : Int) (queued : Queued args state entries)
    (given : data.isSome = true)
    (granted : allocator.grants .malloc nodeSize = true)
    (cloned : (if state.pq.dataClone then copy else data) = some item) :
    pqueueRun allocator state (.push data copy prio) =
      (ucbPqueuePushNode allocator (withNode state item) prio state.unused >>= fun pushed =>
        match pushed.2 with
        | none => pure ({ pushed.1 with
            nodes := Function.update pushed.1.nodes state.unused none }, .position none)
        | some insPos => pure (pushed.1, PqueueResult.position (some insPos))).returned := by
  rw [queued.clone] at cloned
  rw [pqueueRun, pqueueStep, push_eq granted queued given cloned prio, bind_assoc]
  congr 2
  funext pushed
  cases pushed.2 <;> rfl

/-- A push withstands refusals exactly when it is not refused a larger array of buckets. -/
theorem push_withstands_iff (queued : Queued args state entries)
    (proper : ProperQueueCall args state (allocator, .push data copy prio)) :
    (pqueues α args).Withstands state (allocator, .push data copy prio) ↔
      BucketsGranted state (allocator, .push data copy prio) := by
  obtain ⟨given, fits⟩ := proper
  have given : data.isSome = true := given
  have sound : (pqueues α args).Sound state := ⟨entries, queued⟩
  have isNew : HasBucket state.pq prio ↔ prio ∈ entries.map Prod.fst := hasBucket_iff queued
  by_cases failed : allocator.grants .malloc nodeSize = true →
      (if state.pq.dataClone then copy else data) = none
  · have ran : (pqueues α args).run state (allocator, .push data copy prio) =
        some (state, .position none) := by
      show pqueueRun allocator state _ = _
      rw [pqueueRun, pqueueStep, push_none given failed]
      rfl
    refine iff_of_true (Component.withstands_of_survives ran sound fun _ held => held) ?_
    intro granted isItem
    rw [failed granted] at isItem
    cases isItem
  · obtain ⟨item, cloned, granted⟩ := push_node failed
    have run := pqueueRun_push prio queued given granted cloned
    have runGranting : (pqueues α args).run state (allocator.granting, .push data copy prio) = _ :=
      pqueueRun_push prio queued given rfl cloned
    have fits : SearchFits state.pq prio := by
      by_contra unfit
      rw [pushNode_unfit queued item unfit] at run runGranting
      exact unfit (fits (run.trans runGranting.symm))
    by_cases met : prio ∉ entries.map Prod.fst → GrowthGranted allocator state.pq
    · rw [← pushNode_granting queued fits met] at runGranting
      have unhindered : (pqueues α args).Unhindered state (allocator, .push data copy prio) :=
        run.trans runGranting.symm
      refine iff_of_true (Component.withstands_of_unhindered unhindered ?_) ?_
      · intro after ran
        obtain ⟨next, pushed, queued', -⟩ := pushNode_queued queued item fits met
        rw [pushed] at run
        obtain rfl := Option.some.inj (run.symm.trans ran)
        exact ⟨_, queued'⟩
      · exact fun _ _ noBucket => met fun member => noBucket (isNew.mpr member)
    · obtain ⟨absent, refused⟩ := Classical.not_imp.mp met
      rw [pushNode_refused queued item fits absent refused] at run
      refine iff_of_false (Component.not_withstands run ?_) ?_
      · rintro ⟨other, queued'⟩
        exact not_queued_lost (fun _ lost => by cases lost) queued'
      · intro spared
        refine refused (spared granted ?_ fun has => absent (isNew.mp has))
        rw [cloned]
        rfl

theorem other_effect (args : UcbPqueueArgs) (entries : List (Int × α))
    (other : ∀ data copy prio, op ≠ .push data copy prio) :
    ∃ after, entriesStep args entries op = some after := by
  cases op with
  | push data copy prio => exact absurd rfl (other data copy prio)
  | pop | peek | size | empty | fit | clear => exact ⟨_, rfl⟩

/-- An operation other than a push either is not refused anything and leaves entries, or it is
`ucb_pqueue_fit` and loses the array. -/
theorem other_cases (queued : Queued args state entries)
    (other : ∀ data copy prio, op ≠ .push data copy prio) :
    (BucketsGranted state (allocator, op) ∧
      pqueueStep allocator state op = pqueueStep allocator.granting state op ∧
      ∃ next result entries', pqueueStep allocator state op = .ok (next, result) ∧
        Queued args next entries') ∨
    (¬ BucketsGranted state (allocator, op) ∧
      ∃ next result, pqueueStep allocator state op = .ok (next, result) ∧
        next.pq.buckets = .null) := by
  obtain ⟨after, effect⟩ := other_effect args entries other
  by_cases granted : BucketsGranted state (allocator, op)
  · have fit : op = .fit → FitGranted allocator state.pq := by
      rintro rfl
      exact granted
    obtain ⟨next, ran, queued', -⟩ := other_queued queued other fit effect
    refine .inl ⟨granted, ?_, next, _, _, ran, queued'⟩
    cases op with
    | push data copy prio => exact absurd rfl (other data copy prio)
    | fit => rw [pqueueStep, pqueueStep, fitQueue_granting queued (fit rfl)]
    | pop | peek | size | empty | clear => rfl
  · cases op with
    | push data copy prio => exact absurd rfl (other data copy prio)
    | fit =>
        refine .inr ⟨granted, { state with
          pq := { state.pq with buckets := .null, allocBuckets := state.pq.numBuckets } },
          .nothing, ?_, rfl⟩
        rw [pqueueStep, fitQueue_denied queued granted]
        rfl
    | pop | peek | size | empty | clear => exact absurd trivial granted

/-- A queue withstands the refusals of an operation exactly when the array of buckets it needs
is not refused. -/
theorem pqueues_sparedBy (α : Type) (args : UcbPqueueArgs) :
    (pqueues α args).SparedBy (ProperQueueCall args) BucketsGranted := by
  rintro state ⟨allocator, op⟩ ⟨entries, queued⟩ proper
  by_cases isPush : ∃ data copy prio, op = .push data copy prio
  · obtain ⟨data, copy, prio, rfl⟩ := isPush
    exact push_withstands_iff queued proper
  · have other : ∀ data copy prio, op ≠ .push data copy prio :=
      fun data copy prio same => isPush ⟨data, copy, prio, same⟩
    rcases other_cases queued other with
      ⟨granted, same, next, result, entries', ran, queued'⟩ | ⟨refused, next, result, ran, lost⟩
    · have unhindered : (pqueues α args).Unhindered state (allocator, op) :=
        congrArg Exec.returned same
      refine iff_of_true (Component.withstands_of_unhindered unhindered ?_) granted
      intro after ran'
      obtain rfl := Option.some.inj ((congrArg Exec.returned ran).symm.trans ran')
      exact ⟨entries', queued'⟩
    · refine iff_of_false (Component.not_withstands (congrArg Exec.returned ran) ?_) refused
      rintro ⟨other, queued'⟩
      exact not_queued_lost (fun cells here => by cases lost.symm.trans here) queued'

end Single

/-! ## Shared queues -/

section Shared

variable [DecidableEq Thread] {thread : Thread} {allocator : Allocator} {args : UcbPqueueArgs}
  {shared : SharedQueue Thread α} {entries : List (Int × α)} {prio : Int} {data copy : Option α}

/-- A push has data, and its place fits when no refusal shows. -/
def ProperSharedCall (args : UcbPqueueArgs) (shared : SharedQueue Thread α)
    (call : (Thread × Allocator) × PqueueOp α) : Prop :=
  GivesData call.2 ∧
    ((sharedPqueues Thread α args).Unhindered shared call → PlaceFits shared.queue call.2)

def SharedBucketsGranted (shared : SharedQueue Thread α)
    (call : (Thread × Allocator) × PqueueOp α) : Prop :=
  BucketsGranted shared.queue (call.1.2, call.2)

/-- A push to a shared queue withstands refusals exactly when it is not refused a larger array
of buckets. -/
theorem shared_push_withstands_iff (free : shared.holder = none)
    (queued : Queued args shared.queue entries)
    (proper : ProperSharedCall args shared ((thread, allocator), .push data copy prio)) :
    (sharedPqueues Thread α args).Withstands shared ((thread, allocator), .push data copy prio) ↔
      SharedBucketsGranted shared ((thread, allocator), .push data copy prio) := by
  obtain ⟨given, fits⟩ := proper
  have given : data.isSome = true := given
  have sound : (sharedPqueues Thread α args).Sound shared := ⟨entries, free, queued⟩
  have isNew : HasBucket shared.queue.pq prio ↔ prio ∈ entries.map Prod.fst :=
    hasBucket_iff queued
  by_cases failed : allocator.grants .malloc nodeSize = true →
      (if shared.queue.pq.dataClone then copy else data) = none
  · have ran : (sharedPqueues Thread α args).run shared
        ((thread, allocator), .push data copy prio) = some (shared, .position none) := by
      have step : (sharedPqueues Thread α args).run shared
        ((thread, allocator), .push data copy prio) = _ := sharedStep_push
      rw [step, sharedPush_none given failed]
      rfl
    refine iff_of_true (Component.withstands_of_survives ran sound fun _ held => held) ?_
    intro granted isItem
    rw [failed granted] at isItem
    cases isItem
  · obtain ⟨item, cloned, granted⟩ := push_node failed
    have run : (sharedPqueues Thread α args).run shared
        ((thread, allocator), .push data copy prio) = _ := sharedStep_push
    have runGranting : (sharedPqueues Thread α args).run shared
        ((thread, allocator.granting), .push data copy prio) = _ := sharedStep_push
    rw [sharedPush_eq free given granted cloned] at run
    rw [sharedPush_eq free given rfl cloned] at runGranting
    have fits : SearchFits shared.queue.pq prio := by
      by_contra unfit
      rw [pushNode_unfit queued item unfit] at run runGranting
      exact unfit (fits (run.trans runGranting.symm))
    by_cases met : prio ∉ entries.map Prod.fst → GrowthGranted allocator shared.queue.pq
    · rw [← pushNode_granting queued fits met] at runGranting
      have unhindered : (sharedPqueues Thread α args).Unhindered shared
          ((thread, allocator), .push data copy prio) := run.trans runGranting.symm
      refine iff_of_true (Component.withstands_of_unhindered unhindered ?_) ?_
      · intro after ran
        obtain ⟨next, pushed, queued', -⟩ := pushNode_queued queued item fits met
        rw [pushed] at run
        obtain rfl := Option.some.inj (run.symm.trans ran)
        exact ⟨_, rfl, queued'⟩
      · exact fun _ _ noBucket => met fun member => noBucket (isNew.mpr member)
    · obtain ⟨absent, refused⟩ := Classical.not_imp.mp met
      rw [pushNode_refused queued item fits absent refused] at run
      refine iff_of_false (Component.not_withstands run ?_) ?_
      · rintro ⟨other, held, -⟩
        cases held
      · intro spared
        refine refused (spared granted ?_ fun has => absent (isNew.mp has))
        rw [cloned]
        rfl

/-- A shared queue withstands the refusals of an operation exactly when the array of buckets it
needs is not refused. -/
theorem sharedPqueues_sparedBy (Thread α : Type) [DecidableEq Thread] (args : UcbPqueueArgs) :
    (sharedPqueues Thread α args).SparedBy (ProperSharedCall args) SharedBucketsGranted := by
  rintro shared ⟨⟨thread, allocator⟩, op⟩ ⟨entries, free, queued⟩ proper
  by_cases isPush : ∃ data copy prio, op = .push data copy prio
  · obtain ⟨data, copy, prio, rfl⟩ := isPush
    exact shared_push_withstands_iff free queued proper
  · have other : ∀ data copy prio, op ≠ .push data copy prio :=
      fun data copy prio same => isPush ⟨data, copy, prio, same⟩
    have run (allocator : Allocator) :
        (sharedPqueues Thread α args).run shared ((thread, allocator), op) =
          (pqueueStep allocator shared.queue op).returned.map fun after =>
            (⟨after.1, none⟩, after.2) := sharedStep_other free other
    rcases other_cases queued other with
      ⟨granted, same, next, result, entries', ran, queued'⟩ | ⟨refused, next, result, ran, lost⟩
    · have unhindered : (sharedPqueues Thread α args).Unhindered shared ((thread, allocator), op) :=
        (run allocator).trans ((congrArg _ (congrArg Exec.returned same)).trans
          (run allocator.granting).symm)
      refine iff_of_true (Component.withstands_of_unhindered unhindered ?_) granted
      intro after ran'
      rw [run, ran] at ran'
      obtain rfl := Option.some.inj ran'
      exact ⟨entries', rfl, queued'⟩
    · have ran' := run allocator
      rw [ran] at ran'
      refine iff_of_false (Component.not_withstands ran' ?_) refused
      rintro ⟨other, -, queued'⟩
      exact not_queued_lost (fun cells here => by cases lost.symm.trans here) queued'

end Shared

end Ucb.Container
