import Ucb.Lib.System

/-!
Contract: one `ucb_thread`, the threads that are started on it and the caller
that owns it, `thread.c` over pthreads.

Owns:
- the object, with reads and writes that fail once it has been freed;
- the steps of `posix_thread_wrapper` and `ucb_task_run`;
- the steps of `ucb_thread_start`, `ucb_thread_join`, `ucb_thread_free` and of
  two queries, called one after the other by the owner.

A step reads or writes the object once or more, between two steps everything
else can happen. An owner of a detached thread makes no further call once a
start has succeeded. Reads and writes are in the order of the program.

For statements about runs the world also counts how often the object has been
freed and remembers the answers that the owner got, and a thread what its task
returned. Nothing reads these fields but the count, which says that it is gone.
-/

namespace Ucb.Threads.Thread

/-- `ucb_task`: what it runs, and whether it has a callback. -/
structure UcbTask where
  func : Nat
  callback : Bool
deriving DecidableEq, Repr

/-- `ucb_thread`; `handle` is the thread of the last start, none for 0, and
`hasStatus` and `status` are the two cells of its `status`. -/
structure UcbThread where
  detached : Bool
  running : Bool
  hasStatus : Bool
  status : Int
  id : Option Nat
  handle : Option Nat
  task : UcbTask
deriving DecidableEq, Repr

/-- Where a thread is in `posix_thread_wrapper`. -/
inductive WorkerPc where
  | created
  | calling
  /-- In the function of the task. -/
  | executing (func : Nat)
  | returned (status : Int)
  | inCallback (status : Int)
  | storing (status : Int)
  | flagging
  | stopping
  /-- Before it looks at `flags`. -/
  | leaving
  | freeing
  | gone
deriving DecidableEq, Repr

structure Worker where
  pc : WorkerPc
  result : Option Int
deriving DecidableEq, Repr

inductive Call where
  | start (task : UcbTask)
  | join
  | free
  | isRunning
  | getTaskStatus
deriving DecidableEq, Repr

inductive OwnerPc where
  | idle
  /-- Before `pthread_create`. -/
  | creating
  /-- Before the handle is stored. -/
  | storing (handle : Nat)
  | failing
  | joining (thenFree : Bool)
  | joined (thenFree : Bool)
  | freeing
deriving DecidableEq, Repr

/-- What a query answered, with the number of threads started until then. -/
structure Answer where
  started : Nat
  status : Option Int
deriving DecidableEq, Repr

structure World where
  object : UcbThread
  freed : Nat
  workers : List Worker
  owner : OwnerPc
  calls : List Call
  aborted : Bool
  /-- Freed memory was read, written or freed. -/
  fault : Bool
  answers : List Answer
deriving DecidableEq, Repr

/-- `ucb_thread_new` and `ucb_thread_new_detached`, and the calls that the owner will make. -/
def ucbThreadNewFlags (detached : Bool) (calls : List Call) : World where
  object :=
    { detached, running := false, hasStatus := false, status := 0, id := none, handle := none
      task := ⟨0, false⟩ }
  freed := 0
  workers := []
  owner := .idle
  calls := calls
  aborted := false
  fault := false
  answers := []

/-- A read or write of the object, with what it makes of the world. -/
def World.touch (world : World) (does : World → World) : World :=
  if world.freed = 0 then does world else { world with fault := true }

/-- `ucb_thread_free_impl`. -/
def World.free (world : World) : World :=
  world.touch fun world => { world with freed := world.freed + 1 }

def World.setWorker (world : World) (index : Nat) (worker : Worker) : World :=
  { world with workers := world.workers.set index worker }

/-- One step of `posix_thread_wrapper`; `result` is what the function of the task returns. -/
def posixThreadWrapper (world : World) (index : Nat) (worker : Worker) (result : Int) :
    WorkerPc → Option World
  | .created => some (world.touch fun world =>
      ({ world with object := { world.object with id := some index } }).setWorker index
        { worker with pc := .calling })
  | .calling => some (world.touch fun world =>
      world.setWorker index { worker with pc := .executing world.object.task.func })
  | .executing _ => some (world.setWorker index ⟨.returned result, some result⟩)
  | .returned status => some (world.touch fun world =>
      world.setWorker index { worker with
        pc := if world.object.task.callback then .inCallback status else .storing status })
  | .inCallback status => some (world.setWorker index { worker with pc := .storing status })
  | .storing status => some (world.touch fun world =>
      ({ world with object := { world.object with status := status } }).setWorker index
        { worker with pc := .flagging })
  | .flagging => some (world.touch fun world =>
      ({ world with object := { world.object with hasStatus := true } }).setWorker index
        { worker with pc := .stopping })
  | .stopping => some (world.touch fun world =>
      ({ world with object := { world.object with running := false } }).setWorker index
        { worker with pc := .leaving })
  | .leaving => some (world.touch fun world =>
      world.setWorker index
        { worker with pc := if world.object.detached then .freeing else .gone })
  | .freeing => some ((world.setWorker index { worker with pc := .gone }).free)
  | .gone => none

/-- The first step of a call: its checks, which abort, and what it does before it creates or waits
for a thread. -/
def callBegins (world : World) : Call → World
  | .start task => world.touch fun world =>
      if world.object.running then { world with aborted := true }
      else { world with
        object := { world.object with
          task := task, running := true, hasStatus := false, id := none }
        owner := .creating }
  | .join => world.touch fun world =>
      if world.object.detached then { world with aborted := true }
      else { world with owner := .joining false }
  | .free => world.touch fun world =>
      if world.object.detached then
        if world.object.running then { world with aborted := true }
        else { world with owner := .freeing }
      else { world with owner := .joining true }
  | .isRunning => world.touch id
  | .getTaskStatus => world.touch fun world =>
      if world.object.detached then { world with aborted := true }
      else { world with answers := ⟨world.workers.length,
        if world.object.hasStatus then some world.object.status else none⟩ :: world.answers }

/-- `pthread_create`; a detached thread must not be touched from here on. -/
def pthreadCreate (world : World) (created : Bool) : World :=
  if created then
    { world with
      workers := world.workers ++ [⟨.created, none⟩]
      owner := if world.object.detached then .idle else .storing world.workers.length
      calls := if world.object.detached then [] else world.calls }
  else { world with owner := .failing }

/-- The thread that `pthread_join` waits for has returned. -/
def World.returned (world : World) (handle : Option Nat) : Bool :=
  match handle with
  | none => true
  | some index =>
      match world.workers[index]? with
      | some worker => worker.pc = .gone
      | none => true

/-- One step of the owner; `created` says whether `pthread_create` succeeds. -/
def ownerStep (world : World) (created : Bool) : OwnerPc → Option World
  | .idle =>
      match world.calls with
      | [] => none
      | call :: rest => some (callBegins { world with calls := rest } call)
  | .creating => some (pthreadCreate world created)
  | .storing handle => some (world.touch fun world =>
      { world with object := { world.object with handle := some handle }, owner := .idle })
  | .failing => some (world.touch fun world =>
      { world with object := { world.object with running := false }, owner := .idle })
  | .joining thenFree =>
      if world.freed = 0 ∧ world.returned world.object.handle = false then none
      else some (world.touch fun world => { world with owner := .joined thenFree })
  | .joined thenFree => some (world.touch fun world =>
      { world with
        object := { world.object with handle := none, running := false }
        owner := if thenFree then .freeing else .idle })
  | .freeing => some ({ world with owner := .idle }.free)

inductive Action where
  | owner (created : Bool)
  | worker (index : Nat) (result : Int)
deriving DecidableEq, Repr

/-- Nothing happens any more in a process that has aborted or has used freed memory. -/
def step (world : World) (action : Action) : Option World :=
  if world.aborted || world.fault then none
  else
    match action with
    | .owner created => ownerStep world created world.owner
    | .worker index result =>
        match world.workers[index]? with
        | some worker => posixThreadWrapper world index worker result worker.pc
        | none => none

end Ucb.Threads.Thread
