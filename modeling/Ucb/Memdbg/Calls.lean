import Mathlib.Algebra.GroupWithZero.Nat
import Ucb.Lib.System
import Ucb.Memdbg.Tracker

/-!
Contract: threads that call the tracker, as a system of critical sections.

Owns:
- the calls of the entry points of `memdbg.c`, and where each thread is in one;
- the system allocator, which may hand out any address that is not taken;
- one step for each critical section and for each call of the allocator.

The environment decides what the allocator returns. A program gives back only
blocks it has and blocks whose free is still in the log.
-/

namespace Ucb.Memdbg

inductive Point where
  | idle
  /-- Before `register_alloc`, with the header written. -/
  | registering (entry : Ptr)
  /-- In `ucb_realloc2_debug` before `ucb_realloc2`, called at the free site of
  `old`. -/
  | reallocating (old : FreeEvent) (size : UInt64) (freeOnFailure : Bool)
  /-- Before `record_free`, for a block `ucb_realloc2` has freed. -/
  | recordingFailed (old : FreeEvent)
  /-- Before `record_free`, for a size of zero. -/
  | recordingFree (old : FreeEvent) (freeOnFailure : Bool)
  /-- Before `ucb_free`. -/
  | freeing (entry : Ptr) (freeOnFailure : Bool)
  /-- Before `register_alloc(old_entry)`, on a block that is `freed` or not. -/
  | reregistering (entry : Ptr) (freed : Bool)
  /-- In `ucb_mem_tracking_pop` without the mutex, with the tracepoint and the
  first entry of its list. -/
  | reporting (address : TracepointPtr) (entry : Ptr)
deriving DecidableEq, Repr

/-- The tracker, the threads, and the blocks the program has been given and has
not given back. -/
structure World where
  tracker : Tracker
  threads : Nat → Point
  live : List Ptr

/-- A process that has just enabled tracking. -/
def World.start (freePool : Bool) : World where
  tracker := ucbMemTrackingEnable freePool
  threads := fun _ => .idle
  live := []

/-- What a thread does next, and what the environment answers. -/
inductive Op where
  | malloc (size : UInt64) (file : String) (line : Int) (address : Ptr)
  | calloc (num size : UInt64) (file : String) (line : Int) (address : Ptr)
  | register
  | realloc2 (ptr : Ptr) (size : UInt64) (freeOnFailure : Bool) (file : String) (line : Int)
  | reallocated (address : Option Ptr)
  | record
  | free (ptr : Ptr) (file : String) (line : Int)
  | release
  | reregister
  | push (address : TracepointPtr)
  | pop
  | popEnd
  | reset
deriving DecidableEq, Repr

structure Action where
  thread : Nat
  op : Op
deriving DecidableEq, Repr

def World.move (w : World) (thread : Nat) (tracker : Tracker) (point : Point) : World :=
  { w with tracker := tracker, threads := Function.update w.threads thread point }

/-- The size of the block a thread asks for. -/
def World.asked (w : World) (action : Action) : Option UInt64 :=
  match action.op, w.threads action.thread with
  | .malloc size _ _ _, _ => some size
  | .calloc num size _ _ _, _ => some (num * size)
  | .reallocated _, .reallocating _ size _ => some size
  | _, _ => none

/-! ## The allocator -/

def blockSize (info : Ptr → Option AllocInfo) (entry : Ptr) : UInt64 :=
  (info entry).elim 0 AllocInfo.size

/-- What is asked of the system for a block of this size and its header; the sum is one of
`size_t`. -/
def requested (size : UInt64) : Nat :=
  (metaSize + size.toNat) % 2 ^ 64

/-- The memory the system has handed out for the live blocks. -/
def World.bytes (w : World) : Nat :=
  (w.live.map fun entry => requested (blockSize w.tracker.entries.info entry)).sum

/-- Another block of this size can be there beside the live ones, which are all
disjoint. A size that wraps around with the header in front of it gets a block that is
shorter than the tracker believes; one too short for the header itself is undefined. -/
def World.hasRoom (w : World) (size : UInt64) : Prop :=
  headerEnd ≤ requested size ∧ w.bytes + requested size < 2 ^ 64

instance (w : World) (size : UInt64) : Decidable (w.hasRoom size) := by
  unfold World.hasRoom
  infer_instance

/-- `ucb_malloc` or `ucb_calloc` and `init_alloc`. A program that goes on without
memory fails the assertion of `init_alloc`. -/
def allocate (w : World) (thread : Nat) (size : UInt64) (file : String) (line : Int)
    (address : Ptr) : Option World :=
  if w.tracker.entries.lookup address = none ∧ w.hasRoom size then
    let entries : Entries := w.tracker.entries.insert address (initAlloc .fresh size file line)
    some (w.move thread { w.tracker with entries := entries } (.registering address))
  else none

/-! ## Calls -/

def ucbMallocDebug (w : World) (thread : Nat) (size : UInt64) (file : String) (line : Int)
    (address : Ptr) : Option World :=
  if 0 < size then allocate w thread size file line address else some w

/-- The product is the one of `size_t`. -/
def ucbCallocDebug (w : World) (thread : Nat) (num size : UInt64) (file : String) (line : Int)
    (address : Ptr) : Option World :=
  if 0 < num ∧ 0 < size then allocate w thread (num * size) file line address else some w

def register (w : World) (thread : Nat) : Option World :=
  match w.threads thread with
  | .registering entry =>
      (registerAlloc w.tracker entry).map fun t =>
        { w.move thread t .idle with live := entry :: w.live }
  | _ => none

/-- `ucb_realloc2_debug` of a block up to `unregister_alloc`; without a block it is
`ucb_malloc_debug`. A header that is not one is a fatal error, after which the
pointer behind the header would be given to `ucb_realloc2` or `ucb_free`. -/
def ucbRealloc2Debug (w : World) (thread : Nat) (ptr : Ptr) (size : UInt64)
    (freeOnFailure : Bool) (file : String) (line : Int) : Option World :=
  if ptr ∈ w.live then
    match w.tracker.entries.lookup ptr with
    | some found =>
        if found.magic = allocMagic then
          let old := FreeEvent.mk ptr found.size found.file found.line file line
          (unregisterAllocLocked w.tracker ptr).map fun t =>
            { w.move thread t (if 0 < size then .reallocating old size freeOnFailure
              else .recordingFree old freeOnFailure) with live := w.live.erase ptr }
        else none
    | none => none
  else none

/-- `ucb_realloc2` and what comes before the next critical section. -/
def reallocated (w : World) (thread : Nat) (address : Option Ptr) : Option World :=
  match w.threads thread with
  | .reallocating old size freeOnFailure =>
      match w.tracker.entries.lookup old.ptr, address with
      | none, _ => none
      | some found, some address =>
          let rest : Entries := w.tracker.entries.erase old.ptr
          if rest.lookup address = none ∧ w.hasRoom size then
            let entries : Entries :=
              rest.insert address (initAlloc found size old.freeFile old.freeLine)
            some (w.move thread { w.tracker with entries := entries } (.registering address))
          else none
      | some _, none =>
          if freeOnFailure then
            let entries : Entries := w.tracker.entries.erase old.ptr
            some (w.move thread { w.tracker with entries := entries } (.recordingFailed old))
          else some (w.move thread w.tracker (.reregistering old.ptr false))
  | _ => none

/-- `record_free`. -/
def record (config : Config) (w : World) (thread : Nat) : Option World :=
  match w.threads thread with
  | .recordingFailed old => some (w.move thread (recordFree config w.tracker old) .idle)
  | .recordingFree old freeOnFailure =>
      some (w.move thread (recordFree config w.tracker old) (.freeing old.ptr freeOnFailure))
  | _ => none

/-- `ucb_free_debug` up to the end of its critical section. -/
def ucbFreeDebug (config : Config) (w : World) (thread : Nat) (ptr : Ptr) (file : String)
    (line : Int) : Option World :=
  if ptr ∈ w.live ∨ (freeTableFindLocked w.tracker ptr).isSome then
    (freeLocked config w.tracker ptr file line).map fun result =>
      match result with
      | (t, .free) => { w.move thread t (.freeing ptr true) with live := w.live.erase ptr }
      | (t, .doubleFree _ _) => w.move thread t .idle
      | (t, .invalid) => w.move thread t .idle
  else none

/-- `ucb_free`; `ucb_realloc2_debug` goes on to register the old block when it
was not to free it. -/
def release (w : World) (thread : Nat) : Option World :=
  match w.threads thread with
  | .freeing entry freeOnFailure =>
      if (w.tracker.entries.lookup entry).isSome then
        let entries : Entries := w.tracker.entries.erase entry
        some (w.move thread { w.tracker with entries := entries }
          (if freeOnFailure then .idle else .reregistering entry true))
      else none
  | _ => none

/-- `register_alloc(old_entry)`. -/
def reregister (w : World) (thread : Nat) : Option World :=
  match w.threads thread with
  | .reregistering entry freed =>
      (registerAlloc w.tracker entry).map fun t =>
        { w.move thread t .idle with live := if freed then w.live else entry :: w.live }
  | _ => none

/-- `ucb_mem_tracking_push_name`. -/
def push (config : Config) (w : World) (address : TracepointPtr) : Option World :=
  if w.tracker.tracepoints address = none then
    some { w with tracker := ucbMemTrackingPushName config w.tracker address }
  else none

/-- `ucb_mem_tracking_pop`, up to the report when there are leaks. -/
def ucbMemTrackingPop (w : World) (thread : Nat) : Option World :=
  if w.tracker.traceLevel = 0 then some w
  else
    (w.tracker.tracePoints w.tracker.traceLevel).bind fun address =>
      (w.tracker.tracepoints address).bind fun tp =>
        match tp.alloc with
        | some entry => some (w.move thread w.tracker (.reporting address entry))
        | none =>
            (popLocked w.tracker address none).map fun t => { w with tracker := t }

/-- `ucb_mem_tracking_pop` after the report. -/
def popEnd (w : World) (thread : Nat) : Option World :=
  match w.threads thread with
  | .reporting address entry =>
      (popLocked w.tracker address (some entry)).map fun t => w.move thread t .idle
  | _ => none

/-- A call of an entry point, by a thread that is not in one. -/
def call (config : Config) (w : World) (thread : Nat) : Op → Option World
  | .malloc size file line address => ucbMallocDebug w thread size file line address
  | .calloc num size file line address => ucbCallocDebug w thread num size file line address
  | .realloc2 ptr size freeOnFailure file line =>
      ucbRealloc2Debug w thread ptr size freeOnFailure file line
  | .free ptr file line => ucbFreeDebug config w thread ptr file line
  | .push address => push config w address
  | .pop => ucbMemTrackingPop w thread
  | .reset => (ucbMemTrackingReset w.tracker).map fun t => { w with tracker := t }
  | _ => none

def step (config : Config) (w : World) (action : Action) : Option World :=
  match action.op with
  | .register => register w action.thread
  | .reallocated address => reallocated w action.thread address
  | .record => record config w action.thread
  | .release => release w action.thread
  | .reregister => reregister w action.thread
  | .popEnd => popEnd w action.thread
  | op => if w.threads action.thread = .idle then call config w action.thread op else none

end Ucb.Memdbg
