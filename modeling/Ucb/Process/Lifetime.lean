import Mathlib.Logic.Function.Basic
import Ucb.Lib.System

/-!
Contract: child processes and the handles on them, `process.c` over `process_unix.c`.

Owns:
- the process table with the children, and what `kill` and `waitpid` do to it;
- the parent's part of `ucb_process_plat_spawn` from the fork on, with the status pipe;
- `ucb_process_wait`, `ucb_process_terminate`, `ucb_process_kill` and
  `ucb_process_free`, one step for each system call in them.

The calls on different handles are interleaved, with each other, with the
children and with the processes of others. One handle has one call at a time.
Nothing else reaps the children (SIGCHLD is not ignored), and a stopped child does not
wake `waitpid`.
The clock runs in nanoseconds and is read in whole milliseconds.

For statements about runs a child also remembers whether it became its program
and whether it was killed, and the world remembers when a call began and what
the calls returned. Nothing reads these fields.
-/

namespace Ucb.Process.Lifetime

def sigkill : Nat := 9

def sigterm : Nat := 15

/-- The wait status of a process that has ended: `WIFEXITED` or `WIFSIGNALED`. -/
inductive Ending where
  | exited (status : UInt8)
  | signaled (signal : Nat)
deriving DecidableEq, Repr

/-- What `ucb_process_plat_wait` makes of a wait status. -/
def Ending.exitCode : Ending → Int
  | .exited status => status.toNat
  | .signaled signal => 128 + signal

inductive Life where
  /-- Between `fork` and `execve`. -/
  | starting
  | running
  /-- On its way out, where signals change nothing any more. -/
  | dying (ending : Ending)
  /-- Ended; until somebody has waited for it the pid stays taken. -/
  | ended (ending : Ending)
deriving DecidableEq, Repr

structure Child where
  life : Life
  /-- The errno that the child has written to the status pipe. -/
  report : Option Nat
  /-- A redirection has taken the place of the status pipe's write end. -/
  lostPipe : Bool
  execed : Bool
  killed : Bool
deriving DecidableEq, Repr

inductive SpawnError where
  | execFailed (errno : Nat)
  | readFailed (errno : Nat)
  | outOfMemory
deriving DecidableEq, Repr

/-- Where the parent is in `ucb_process_plat_spawn` after the fork. -/
inductive SpawnPc where
  /-- In the loop of `read` on the status pipe. -/
  | reading
  | allocating
  | killing (error : SpawnError)
  /-- In `process_unix_reap_quiet`. -/
  | reaping (error : SpawnError)
deriving DecidableEq, Repr

structure UcbProcess where
  pid : Nat
  reaped : Bool
  exitCode : Int
deriving DecidableEq, Repr

inductive CallPc where
  | idle
  /-- `waitpid` without a timeout. -/
  | blocking
  /-- About to compute the deadline. -/
  | stamping (timeout : Nat)
  /-- `waitpid` with `WNOHANG`. -/
  | polling (timeout deadline : Nat)
  /-- Still running: is the time up? -/
  | checking (timeout deadline : Nat)
  | sleeping (timeout deadline : Nat)
  | signalling (force : Bool)
  /-- The `waitpid` of `ucb_process_plat_free`. -/
  | freeing
deriving DecidableEq, Repr

/-- A call of `ucb_process_spawn` that has forked, and the handle that it returned. -/
inductive Session where
  | spawning (pid : Nat) (pc : SpawnPc)
  | failed (error : SpawnError)
  | opened (proc : UcbProcess) (call : CallPc)
  /-- Freed; a child that was still running is left to itself. -/
  | freed (left : Option Nat)
deriving DecidableEq, Repr

structure Spawned where
  child : Child
  session : Session
  began : Nat
deriving DecidableEq, Repr

inductive Occupant where
  | child (index : Nat)
  /-- A process of somebody else. -/
  | other (signalled : Bool)
deriving DecidableEq, Repr

inductive Return where
  | exited (code : Int)
  | timedOut (began timeout now : Nat)
  | waitFailed
  | signalled (force ok : Bool)
deriving DecidableEq, Repr

structure World where
  procs : Nat → Option Occupant
  spawned : Nat → Option Spawned
  now : Nat
  returns : List (Nat × Return)

def World.initial (procs : Nat → Option Occupant) : World where
  procs := procs
  spawned := fun _ => none
  now := 0
  returns := []

def processUnixNowMs (nanos : Nat) : Nat :=
  nanos / 1000000

/-! ## The kernel -/

inductive Waited where
  /-- `ECHILD`. -/
  | notChild
  | alive
  | ended (ending : Ending)
deriving DecidableEq, Repr

/-- What `waitpid` finds. -/
def World.waitpid (world : World) (pid : Nat) : Waited :=
  match world.procs pid with
  | some (.child index) =>
      match world.spawned index with
      | some spawned =>
          match spawned.child.life with
          | .ended ending => .ended ending
          | _ => .alive
      | none => .notChild
  | _ => .notChild

def World.occupy (world : World) (pid : Nat) (occupant : Option Occupant) : World :=
  { world with procs := Function.update world.procs pid occupant }

def World.put (world : World) (index : Nat) (spawned : Spawned) : World :=
  { world with spawned := Function.update world.spawned index (some spawned) }

def World.setChild (world : World) (index : Nat) (spawned : Spawned) (child : Child) : World :=
  world.put index { spawned with child := child }

def World.move (world : World) (index : Nat) (spawned : Spawned) (session : Session) : World :=
  world.put index { spawned with session := session }

/-- The pid of a child that has been waited for is free again. -/
def World.release (world : World) (pid : Nat) : World :=
  world.occupy pid none

def World.log (world : World) (index : Nat) (result : Return) : World :=
  { world with returns := (index, result) :: world.returns }

section Parts

variable (world : World) (index : Nat) (spawned : Spawned) (pid : Nat)
  (occupant : Option Occupant) (result : Return)

@[simp] theorem put_procs : (world.put index spawned).procs = world.procs := rfl

@[simp] theorem put_same : (world.put index spawned).spawned index = some spawned :=
  Function.update_self _ _ _

@[simp] theorem occupy_spawned : (world.occupy pid occupant).spawned = world.spawned := rfl

@[simp] theorem occupy_same : (world.occupy pid occupant).procs pid = occupant :=
  Function.update_self _ _ _

variable {world index pid} {other : Nat}

theorem put_of_ne (apart : other ≠ index) :
    (world.put index spawned).spawned other = world.spawned other :=
  Function.update_of_ne apart _ _

theorem occupy_of_ne (apart : other ≠ pid) :
    (world.occupy pid occupant).procs other = world.procs other :=
  Function.update_of_ne apart _ _

end Parts

/-- A signal reaches a child that is not on its way out. -/
def Child.signal (child : Child) (signal : Nat) : Child :=
  if child.life = .starting ∨ child.life = .running then
    { child with killed := child.killed || signal = sigkill }
  else child

/-- `kill`; nothing has the pid for `ESRCH`. -/
def World.kill (world : World) (pid signal : Nat) : World :=
  match world.procs pid with
  | none => world
  | some (.other _) => world.occupy pid (some (.other true))
  | some (.child index) =>
      match world.spawned index with
      | some spawned => world.setChild index spawned (spawned.child.signal signal)
      | none => world

/-- How a system call comes back. -/
inductive Answer where
  | done
  /-- `EINTR`. -/
  | interrupted
  | refused (errno : Nat)
deriving DecidableEq, Repr

/-! ## The calls -/

/-- `fork` in `ucb_process_plat_spawn`. -/
def ucbProcessPlatSpawn (world : World) (index pid : Nat) : Option World :=
  if 0 < pid ∧ world.procs pid = none ∧ world.spawned index = none then
    some ((world.occupy pid (some (.child index))).put index
      ⟨⟨.starting, none, false, false, false⟩, .spawning pid .reading, world.now⟩)
  else none

/-- `process_unix_reap_quiet`, and the error that the spawn then throws. -/
def processUnixReapQuiet (world : World) (index : Nat) (spawned : Spawned) (pid : Nat)
    (error : SpawnError) : Option World :=
  match world.waitpid pid with
  | .notChild => some (world.move index spawned (.failed error))
  | .alive => none
  | .ended _ => some ((world.release pid).move index spawned (.failed error))

/-- `ucb_process_plat_spawn` in the parent, from the status pipe to the handle. -/
def spawnStep (world : World) (index : Nat) (spawned : Spawned) (pid : Nat) :
    SpawnPc → Answer → Option World
  | .reading, .interrupted => some world
  | .reading, .refused errno =>
      some (world.move index spawned (.spawning pid (.killing (.readFailed errno))))
  | .reading, .done =>
      match spawned.child.report, spawned.child.life with
      | some errno, _ =>
          some (world.move index spawned (.spawning pid (.reaping (.execFailed errno))))
      -- the child has the pipe open until `execve` or its end, unless it has lost it
      | none, .starting =>
          if spawned.child.lostPipe then
            some (world.move index spawned (.spawning pid .allocating))
          else none
      | none, _ => some (world.move index spawned (.spawning pid .allocating))
  | .allocating, .done => some (world.move index spawned (.opened ⟨pid, false, 0⟩ .idle))
  | .allocating, _ => some (world.move index spawned (.spawning pid (.killing .outOfMemory)))
  | .killing error, _ =>
      some ((world.move index spawned (.spawning pid (.reaping error))).kill pid sigkill)
  | .reaping _, .interrupted => some world
  | .reaping error, _ => processUnixReapQuiet world index spawned pid error

/-- `ucb_process_wait` up to its first system call. -/
def ucbProcessWait (world : World) (index : Nat) (spawned : Spawned) (proc : UcbProcess)
    (timeoutMs : Int) : World :=
  let spawned := { spawned with began := world.now }
  if proc.reaped then
    (world.move index spawned (.opened proc .idle)).log index (.exited proc.exitCode)
  else if timeoutMs < 0 then world.move index spawned (.opened proc .blocking)
  else if timeoutMs > 0 then
    world.move index spawned (.opened proc (.stamping timeoutMs.toNat))
  else world.move index spawned (.opened proc (.polling 0 0))

/-- `process_terminate_common` up to `kill`. -/
def processTerminateCommon (world : World) (index : Nat) (spawned : Spawned) (proc : UcbProcess)
    (force : Bool) : World :=
  if proc.reaped then world.log index (.signalled force true)
  else world.move index spawned (.opened proc (.signalling force))

/-- `ucb_process_free` up to `waitpid`. -/
def ucbProcessFree (world : World) (index : Nat) (spawned : Spawned) (proc : UcbProcess) : World :=
  if proc.reaped then world.move index spawned (.freed none)
  else world.move index spawned (.opened proc .freeing)

/-- The end of `ucb_process_plat_wait` and of `ucb_process_wait`. -/
def waitReaped (world : World) (index : Nat) (spawned : Spawned) (proc : UcbProcess)
    (ending : Ending) : World :=
  let proc := { proc with reaped := true, exitCode := ending.exitCode }
  ((world.release proc.pid).move index spawned (.opened proc .idle)).log index
    (.exited proc.exitCode)

/-- What `ucb_process_plat_wait` does with the answer of `waitpid`. -/
def waitAnswered (world : World) (index : Nat) (spawned : Spawned) (proc : UcbProcess)
    (alive : Option World) : Option World :=
  match world.waitpid proc.pid with
  | .notChild => some ((world.move index spawned (.opened proc .idle)).log index .waitFailed)
  | .alive => alive
  | .ended ending => some (waitReaped world index spawned proc ending)

/-- What `ucb_process_plat_free` does with the answer of `waitpid`: it clears an already exited child
and leaves a running one alone. -/
def freeAnswered (world : World) (index : Nat) (spawned : Spawned) (proc : UcbProcess) : World :=
  match world.waitpid proc.pid with
  | .notChild => world.move index spawned (.freed none)
  | .alive => world.move index spawned (.freed (some proc.pid))
  | .ended _ => (world.release proc.pid).move index spawned (.freed none)

/-- One system call of `ucb_process_plat_wait`, `ucb_process_plat_terminate` or
`ucb_process_plat_free`. -/
def callStep (world : World) (index : Nat) (spawned : Spawned) (proc : UcbProcess) :
    CallPc → Answer → Option World
  | .idle, _ => none
  | .blocking, .interrupted => some world
  | .blocking, _ => waitAnswered world index spawned proc none
  | .stamping timeout, _ =>
      some (world.move index spawned
        (.opened proc (.polling timeout (processUnixNowMs world.now + timeout))))
  | .polling _ _, .interrupted => some world
  | .polling timeout deadline, _ =>
      waitAnswered world index spawned proc
        (some (world.move index spawned (.opened proc (.checking timeout deadline))))
  | .checking timeout deadline, _ =>
      if timeout = 0 ∨ deadline ≤ processUnixNowMs world.now then
        some ((world.move index spawned (.opened proc .idle)).log index
          (.timedOut spawned.began timeout world.now))
      else some (world.move index spawned (.opened proc (.sleeping timeout deadline)))
  | .sleeping _ _, .interrupted => some world
  | .sleeping timeout deadline, _ =>
      some (world.move index spawned (.opened proc (.polling timeout deadline)))
  | .signalling force, .refused _ =>
      some ((world.move index spawned (.opened proc .idle)).log index (.signalled force false))
  | .signalling force, _ =>
      some (((world.move index spawned (.opened proc .idle)).kill proc.pid
        (if force then sigkill else sigterm)).log index (.signalled force true))
  | .freeing, .interrupted => some world
  | .freeing, _ => some (freeAnswered world index spawned proc)

/-! ## The children -/

/-- A `dup2` of a redirection replaces the write end of the status pipe. -/
def Child.losesPipe (child : Child) : Option Child :=
  if child.life = .starting ∧ child.report = none then some { child with lostPipe := true }
  else none

/-- The child writes `failure` to the status pipe. -/
def Child.reports (child : Child) (errno : Nat) : Option Child :=
  if child.life = .starting ∧ child.report = none ∧ child.lostPipe = false then
    some { child with report := some errno }
  else none

/-- `execve` succeeds. -/
def Child.execs (child : Child) : Option Child :=
  if child.life = .starting ∧ child.report = none then
    some { child with life := .running, execed := true }
  else none

/-- The endings that a child can come to: its program exits by itself, one that has reported, or
has tried to without the pipe, by `_exit(127)`, and a signal can end every child. Behind `SIGKILL`
there is no other ending. -/
def Child.canEnd (child : Child) : Ending → Bool
  | .exited status =>
      !child.killed && (child.life = .running ||
        (child.life = .starting && (child.report.isSome || child.lostPipe) && status = 127))
  | .signaled signal =>
      (!child.killed || signal = sigkill) && (child.life = .starting || child.life = .running)

def Child.dies (child : Child) (ending : Ending) : Option Child :=
  if child.canEnd ending then some { child with life := .dying ending } else none

def Child.ends (child : Child) : Option Child :=
  match child.life with
  | .dying ending => some { child with life := .ended ending }
  | _ => none

inductive Call where
  | wait (timeoutMs : Int)
  | terminate
  | kill
  | free
deriving DecidableEq, Repr

inductive Action where
  | tick
  | otherStarts (pid : Nat)
  | otherEnds (pid : Nat)
  | childLosesPipe (index : Nat)
  | childReports (index errno : Nat)
  | childExecs (index : Nat)
  | childDies (index : Nat) (ending : Ending)
  | childEnds (index : Nat)
  | fork (index pid : Nat)
  | call (index : Nat) (call : Call)
  | proceed (index : Nat) (answer : Answer)
deriving DecidableEq, Repr

def childStep (world : World) (index : Nat) (event : Child → Option Child) : Option World :=
  match world.spawned index with
  | some spawned => (event spawned.child).map (world.setChild index spawned)
  | none => none

def callBegins (world : World) (index : Nat) (call : Call) : Option World :=
  match world.spawned index with
  | some spawned =>
      match spawned.session, call with
      | .opened proc .idle, .wait timeoutMs => some (ucbProcessWait world index spawned proc timeoutMs)
      | .opened proc .idle, .terminate =>
          some (processTerminateCommon world index spawned proc false)
      | .opened proc .idle, .kill => some (processTerminateCommon world index spawned proc true)
      | .opened proc .idle, .free => some (ucbProcessFree world index spawned proc)
      | _, _ => none
  | none => none

/-- The thread that spawns or uses a handle makes its next system call. -/
def proceed (world : World) (index : Nat) (answer : Answer) : Option World :=
  match world.spawned index with
  | some spawned =>
      match spawned.session with
      | .spawning pid pc => spawnStep world index spawned pid pc answer
      | .opened proc call => callStep world index spawned proc call answer
      | _ => none
  | none => none

def step (world : World) : Action → Option World
  | .tick => some { world with now := world.now + 1 }
  | .otherStarts pid =>
      if world.procs pid = none then some (world.occupy pid (some (.other false))) else none
  | .otherEnds pid =>
      match world.procs pid with
      | some (.other _) => some (world.occupy pid none)
      | _ => none
  | .childLosesPipe index => childStep world index (·.losesPipe)
  | .childReports index errno => childStep world index (·.reports errno)
  | .childExecs index => childStep world index (·.execs)
  | .childDies index ending => childStep world index (·.dies ending)
  | .childEnds index => childStep world index (·.ends)
  | .fork index pid => ucbProcessPlatSpawn world index pid
  | .call index call => callBegins world index call
  | .proceed index answer => proceed world index answer

end Ucb.Process.Lifetime
