import Ucb.Lib.System

/-!
Contract: the thread pool of `threadpool.c` as a system of critical sections.

Owns:
- the state of a pool: its flags, counter and queue, where each worker thread
  is, and where each call on the pool is;
- one step for each critical section, for a task that ends, and for each
  `pthread_join` that a call enters or leaves.

A step is everything done between taking the pool mutex and giving it up, in
`ucb_cond_wait` or by unlocking. The environment decides which sleeper a signal
wakes and how many threads can be started; tasks always return. Two calls in
`pthread_join` for one thread are undefined, and no run has them.

For statements about runs a pool also remembers how often it was started and
what became of its tasks. Nothing reads these fields.
-/

namespace Ucb.Threads

/-- A queued `ucb_task`; `id` tells the accepted tasks apart. -/
structure Task where
  id : Nat
  priority : Int
deriving DecidableEq, Repr

inductive WorkerPc where
  /-- Not started, or joined. -/
  | idle
  /-- About to take the mutex at the top of the loop. -/
  | ready
  /-- In `ucb_cond_wait` on `task_notify`. -/
  | asleep
  | executing (task : Task)
  /-- Returned from `ucb_threadpool_worker`, not joined yet. -/
  | exited
deriving DecidableEq, Repr

/-- A slot of `threads`; `start` numbers the start its thread belongs to. -/
structure Worker where
  start : Nat
  pc : WorkerPc
deriving DecidableEq, Repr

inductive CallResult where
  | addTask (accepted : Option Task)
  | start (running : Bool)
  | waitAll (started : Bool)
  /-- A join that began after the pool was started `start` times. -/
  | join (start : Nat)
deriving DecidableEq, Repr

/-- Where a call on the pool is. Sleepers on `finished_notify` are `woken` once
they have been signalled. -/
inductive CallPc where
  | waiting (woken : Bool)
  | stopping (start : Nat) (woken : Bool)
  /-- In the loop of `ucb_threadpool_join` over the threads, at `next`. -/
  | joining (start next : Nat)
  /-- In the loop of `ucb_threadpool_reap_partial`, for `ucb_threadpool_wait_all`
  or for `ucb_threadpool_start`. -/
  | reaping (forWaitAll : Bool) (started next : Nat)
  | returned (result : CallResult)
deriving DecidableEq, Repr

/-- `ucb_threadpool`, its threads and the calls on it. -/
structure Pool where
  running : Bool
  stop : Bool
  numRunning : Nat
  tasks : List Task
  workers : List Worker
  calls : List CallPc
  /-- The slots whose threads a `pthread_join` waits for, each with the call that is in it. -/
  joiners : List (Nat × Nat)
  starts : Nat
  executed : List Task
  discarded : List Task
deriving DecidableEq, Repr

def ucbThreadpoolNew (numThreads : Nat) : Pool where
  running := false
  stop := false
  numRunning := 0
  tasks := []
  workers := List.replicate numThreads ⟨0, .idle⟩
  calls := []
  joiners := []
  starts := 0
  executed := []
  discarded := []

/-! ## Conditions and the queue -/

/-- `ucb_cond_broadcast` on `task_notify`. -/
def wakeWorker (worker : Worker) : Worker :=
  if worker.pc = .asleep then { worker with pc := .ready } else worker

/-- `ucb_cond_signal` on `task_notify`: it wakes the sleeper `wake`, and nobody
only when nobody sleeps. -/
def signalTask (workers : List Worker) : Option Nat → Option (List Worker)
  | some slot =>
      match workers[slot]? with
      | some ⟨start, .asleep⟩ => some (workers.set slot ⟨start, .ready⟩)
      | _ => none
  | none => if workers.any fun worker => worker.pc = .asleep then none else some workers

/-- A call asleep in `ucb_cond_wait` on `finished_notify` without a wake-up. -/
def CallPc.asleep : CallPc → Bool
  | .waiting false => true
  | .stopping _ false => true
  | _ => false

def CallPc.wake : CallPc → CallPc
  | .waiting _ => .waiting true
  | .stopping start _ => .stopping start true
  | call => call

/-- `ucb_cond_signal` on `finished_notify`. -/
def signalFinished (calls : List CallPc) : Option Nat → Option (List CallPc)
  | some index =>
      match calls[index]? with
      | some call => if call.asleep then some (calls.set index call.wake) else none
      | none => none
  | none => if calls.any CallPc.asleep then none else some calls

/-- `ucb_pqueue_push`: behind the tasks of the same or a higher priority. -/
def pqueuePush (task : Task) : List Task → List Task
  | [] => [task]
  | first :: rest =>
      if first.priority ≥ task.priority then first :: pqueuePush task rest
      else task :: first :: rest

/-! ## Critical sections -/

/-- A slot on which `ucb_thread_start` may be called: it aborts the process
when the thread of the slot is still running. -/
def Worker.startable (worker : Worker) : Bool :=
  worker.pc = .idle ∨ worker.pc = .exited

/-- The threads after `started` of them could be started. -/
def startThreads (starts started : Nat) (workers : List Worker) : List Worker :=
  List.replicate started ⟨starts, .ready⟩ ++ workers.drop started

/-- `ucb_threadpool_start_impl` when the pool is not running. Undefined when it
would abort. -/
def startImpl (pool : Pool) (started : Nat) : Option Pool :=
  if started ≤ pool.workers.length ∧
      (pool.workers.take (started + 1)).all Worker.startable then
    let workers := startThreads (pool.starts + 1) started pool.workers
    if started = pool.workers.length then
      some { pool with
        stop := false, running := true, starts := pool.starts + 1, workers := workers }
    else
      some { pool with
        stop := true, running := true, starts := pool.starts + 1,
        workers := workers.map wakeWorker }
  else none

/-- A call begins and has come to `call`. -/
def Pool.begin (pool : Pool) (call : CallPc) : Pool :=
  { pool with calls := pool.calls ++ [call] }

/-- The call `index` has come to `call`. -/
def Pool.move (pool : Pool) (index : Nat) (call : CallPc) : Pool :=
  { pool with calls := pool.calls.set index call }

def Pool.clear (pool : Pool) : Pool :=
  { pool with tasks := [], discarded := pool.discarded ++ pool.tasks }

/-- A worker from taking the mutex at the top of the loop on. -/
def workerSection (pool : Pool) (slot : Nat) : Option Pool :=
  match pool.workers[slot]? with
  | some ⟨start, .ready⟩ =>
      match pool.stop, pool.tasks with
      | true, _ => some { pool with workers := pool.workers.set slot ⟨start, .exited⟩ }
      | false, [] => some { pool with workers := pool.workers.set slot ⟨start, .asleep⟩ }
      | false, task :: rest =>
          some { pool with
            tasks := rest, numRunning := pool.numRunning + 1,
            workers := pool.workers.set slot ⟨start, .executing task⟩ }
  | _ => none

/-- A worker whose task has returned. -/
def finishSection (pool : Pool) (slot : Nat) (wake : Option Nat) : Option Pool :=
  match pool.workers[slot]? with
  | some ⟨start, .executing task⟩ =>
      (signalFinished pool.calls wake).map fun calls =>
        { pool with
          numRunning := pool.numRunning - 1, calls := calls, executed := pool.executed ++ [task],
          workers := pool.workers.set slot ⟨start, .ready⟩ }
  | _ => none

/-- `ucb_threadpool_add_task`; `granted` when the task and its node can be
allocated. The call's position identifies the task. -/
def ucbThreadpoolAddTask (pool : Pool) (priority : Int) (granted : Bool) (wake : Option Nat) :
    Option Pool :=
  if granted then
    let task : Task := ⟨pool.calls.length, priority⟩
    let queued := { pool with tasks := pqueuePush task pool.tasks }.begin
      (.returned (.addTask (some task)))
    if pool.running then
      (signalTask pool.workers wake).map fun workers => { queued with workers := workers }
    else some queued
  else some (pool.begin (.returned (.addTask none)))

/-- The critical section of `ucb_threadpool_start`. -/
def ucbThreadpoolStart (pool : Pool) (started : Nat) : Option Pool :=
  if pool.running then some (pool.begin (.returned (.start true)))
  else
    (startImpl pool started).map fun pool' =>
      if started = pool.workers.length then pool'.begin (.returned (.start true))
      else pool'.begin (.reaping false started 0)

/-- The loop condition of `ucb_threadpool_wait_all`. -/
def Pool.unfinished (pool : Pool) : Bool :=
  pool.numRunning > 0 ∨ pool.tasks ≠ []

/-- `ucb_threadpool_wait_all` at its loop condition: it waits or returns. -/
def Pool.waitCheck (pool : Pool) : CallPc :=
  if pool.unfinished then .waiting false else .returned (.waitAll true)

/-- The first critical section of `ucb_threadpool_wait_all`. -/
def ucbThreadpoolWaitAll (pool : Pool) (started : Nat) : Option Pool :=
  if pool.running = false ∧ pool.tasks ≠ [] then
    (startImpl pool started).map fun pool' =>
      if started = pool.workers.length then pool'.begin pool'.waitCheck
      else pool'.begin (.reaping true started 0)
  else some (pool.begin pool.waitCheck)

/-- `ucb_threadpool_join` at its loop condition: it waits or goes on to join
the threads. -/
def Pool.stopCheck (pool : Pool) (start : Nat) : CallPc :=
  if pool.numRunning > 0 then .stopping start false else .joining start 0

/-- The first critical section of `ucb_threadpool_join`. -/
def ucbThreadpoolJoin (pool : Pool) : Pool :=
  if pool.running then
    { pool with stop := true, workers := pool.workers.map wakeWorker }.begin
      (pool.stopCheck pool.starts)
  else pool.clear.begin (.returned (.join pool.starts))

/-- A signalled call takes the mutex again and checks its loop condition. -/
def resumeSection (pool : Pool) (index : Nat) : Option Pool :=
  match pool.calls[index]? with
  | some (.waiting true) => some (pool.move index pool.waitCheck)
  | some (.stopping start true) => some (pool.move index (pool.stopCheck start))
  | _ => none

/-- The slot whose thread a call is to join next. -/
def CallPc.slot : CallPc → Option Nat
  | .joining _ next => some next
  | .reaping _ started next => if next < started then some next else none
  | _ => none

/-- A call enters `pthread_join` for a thread that nobody else is joining. A handle that has been
reset is not joined. -/
def enterJoin (pool : Pool) (index : Nat) : Option Pool :=
  match (pool.calls[index]?).bind CallPc.slot with
  | some slot =>
      match pool.workers[slot]? with
      | some worker =>
          if worker.pc ≠ .idle ∧ ∀ joiner ∈ pool.joiners, joiner.1 ≠ slot then
            some { pool with joiners := (slot, index) :: pool.joiners }
          else none
      | none => none
  | none => none

/-- `ucb_thread_join` of one slot by a call that is in `pthread_join` for it, or finds its handle
reset. It waits for the thread to return. -/
def joinThread (workers : List Worker) (slot : Nat) (entered : Bool) : Option (List Worker) :=
  match workers[slot]? with
  | some ⟨_, .idle⟩ => some workers
  | some ⟨start, .exited⟩ => if entered then some (workers.set slot ⟨start, .idle⟩) else none
  | _ => none

/-- A call is through `ucb_thread_join` of a slot, and has come to `call`. -/
def Pool.leaveJoin (pool : Pool) (index slot : Nat) (workers : List Worker) (call : CallPc) :
    Pool :=
  { pool with workers := workers, joiners := pool.joiners.erase (slot, index) }.move index call

/-- One round of the loop over the threads in a join or a reap. -/
def joinStep (pool : Pool) (index : Nat) : Option Pool :=
  match pool.calls[index]? with
  | some (.joining start next) =>
      if next < pool.workers.length then
        (joinThread pool.workers next (pool.joiners.contains (next, index))).map fun workers =>
          pool.leaveJoin index next workers (.joining start (next + 1))
      else none
  | some (.reaping forWaitAll started next) =>
      if next < started then
        (joinThread pool.workers next (pool.joiners.contains (next, index))).map fun workers =>
          pool.leaveJoin index next workers (.reaping forWaitAll started (next + 1))
      else none
  | _ => none

/-- The last critical section of a join or of `ucb_threadpool_reap_partial`. -/
def lastSection (pool : Pool) (index : Nat) : Option Pool :=
  match pool.calls[index]? with
  | some (.joining start next) =>
      if next = pool.workers.length then
        some ({ pool with running := false, stop := false }.clear.move index
          (.returned (.join start)))
      else none
  | some (.reaping forWaitAll started next) =>
      if next = started then
        some ({ pool with running := false, stop := false }.move index
          (.returned (if forWaitAll then .waitAll false else .start false)))
      else none
  | _ => none

/-! ## Steps -/

inductive Action where
  | worker (slot : Nat)
  | finish (slot : Nat) (wake : Option Nat)
  | addTask (priority : Int) (granted : Bool) (wake : Option Nat)
  | start (started : Nat)
  | waitAll (started : Nat)
  | join
  | resume (index : Nat)
  | enterJoin (index : Nat)
  | joinThread (index : Nat)
  | last (index : Nat)
deriving DecidableEq, Repr

def step (pool : Pool) : Action → Option Pool
  | .worker slot => workerSection pool slot
  | .finish slot wake => finishSection pool slot wake
  | .addTask priority granted wake => ucbThreadpoolAddTask pool priority granted wake
  | .start started => ucbThreadpoolStart pool started
  | .waitAll started => ucbThreadpoolWaitAll pool started
  | .join => some (ucbThreadpoolJoin pool)
  | .resume index => resumeSection pool index
  | .enterJoin index => enterJoin pool index
  | .joinThread index => joinStep pool index
  | .last index => lastSection pool index

end Ucb.Threads
