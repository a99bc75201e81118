import Ucb.Threads.Runs

/-!
Contract: nobody sleeps in the pool for ever.

Owns:
- what it means that a call of `ucb_threadpool_wait_all` or of
  `ucb_threadpool_join` is stuck;
- the orders of calls in which no call gets stuck.

A finished task wakes one sleeper only, and the sleepers wait for different
things: the one that is woken may be the wrong one. A pool that is stopped with
tasks queued leaves the waits for these tasks without anybody to signal them.
-/

namespace Ucb.Threads

open Ucb.Lib

/-- The condition that a sleeper waits for. -/
def Pool.Awaited (pool : Pool) : CallPc → Prop
  | .waiting _ => pool.numRunning = 0 ∧ pool.tasks = []
  | .stopping _ _ => pool.numRunning = 0
  | _ => False

/-- Steps of the threads and of calls that have begun. -/
def Underway (_ : Pool) : Action → Prop
  | .addTask _ _ _ => False
  | .start _ => False
  | .waitAll _ => False
  | .join => False
  | _ => True

theorem underway_worker (pool : Pool) (slot : Nat) : Underway pool (.worker slot) :=
  trivial

/-- No worker runs a task again, unless another call is made on the pool. -/
def Pool.Abandoned (pool : Pool) : Prop :=
  ∀ later, Reaches step Underway pool later →
    ∀ worker ∈ later.workers, worker.executes = false

/-- A call is asleep without a wake-up although what it waits for has come, or
although nobody is left to signal it. -/
def Stuck (pool : Pool) : Prop :=
  ∃ call ∈ pool.calls, call.asleep = true ∧ (pool.Awaited call ∨ pool.Abandoned)

/-- What the calls have to heed: the pool is not stopped while somebody sleeps
with nothing running, nobody waits for queued tasks that no worker will take, and
the last task to finish has at most one sleeper to wake unless tasks follow it. -/
def Attending (pool : Pool) : Action → Prop
  | .join => pool.running = true →
      pool.stop = false ∧ (pool.numRunning = 0 → ∀ call ∈ pool.calls, call.asleep = false)
  | .finish _ _ => pool.numRunning = 1 → (pool.tasks = [] ∨ pool.stop = true) →
      pool.calls.countP CallPc.asleep ≤ 1
  | .waitAll _ => pool.running = true → pool.stop = true → pool.numRunning = 0 → pool.tasks = []
  | .resume index => pool.calls[index]? = some (.waiting true) → pool.numRunning = 0 →
      pool.tasks ≠ [] → pool.running = true ∧ pool.stop = false
  | _ => True

instance (pool : Pool) (action : Action) : Decidable (Attending pool action) := by
  unfold Attending
  split <;> infer_instance

theorem Attending.joins {pool : Pool} {action : Action} (attending : Attending pool action) :
    JoinsInOrder pool action := by
  cases action with
  | join =>
      rintro ⟨running, stopping⟩
      have serving := (attending running).1
      rw [stopping] at serving
      cases serving
  | _ => trivial

/-! ## Sleepers -/

def Sleeps (calls : List CallPc) : Prop :=
  ∃ call ∈ calls, call.asleep = true

/-- The sleepers will be signalled: a task is running, or is going to be taken. -/
def Pool.Moves (pool : Pool) : Prop :=
  0 < pool.numRunning ∨ (pool.running = true ∧ pool.stop = false ∧ pool.tasks ≠ [])

def Attended (pool : Pool) : Prop :=
  Sleeps pool.calls → pool.Moves

theorem sleeps_append {calls : List CallPc} {call : CallPc} (sleeps : Sleeps (calls ++ [call])) :
    Sleeps calls ∨ call.asleep = true := by
  obtain ⟨sleeper, member, asleep⟩ := sleeps
  rcases List.mem_append.mp member with inside | same
  · exact .inl ⟨sleeper, inside, asleep⟩
  · obtain rfl := List.mem_singleton.mp same
    exact .inr asleep

theorem sleeps_set {calls : List CallPc} {index : Nat} {call : CallPc}
    (sleeps : Sleeps (calls.set index call)) : Sleeps calls ∨ call.asleep = true := by
  obtain ⟨sleeper, member, asleep⟩ := sleeps
  rcases List.mem_or_eq_of_mem_set member with inside | rfl
  · exact .inl ⟨sleeper, inside, asleep⟩
  · exact .inr asleep

theorem not_sleeps {calls : List CallPc} (nobody : ∀ call ∈ calls, call.asleep = false) :
    ¬ Sleeps calls := by
  rintro ⟨call, member, asleep⟩
  rw [nobody call member] at asleep
  cases asleep

/-- A signal leaves nobody asleep when at most one call was. -/
theorem signalFinished_last {calls calls' : List CallPc} {wake : Option Nat}
    (signalled : signalFinished calls wake = some calls')
    (few : calls.countP CallPc.asleep ≤ 1) : ¬ Sleeps calls' := by
  rcases signalFinished_cases signalled with ⟨rfl, nobody⟩ | ⟨index, call, here, asleep, rfl⟩
  · exact not_sleeps nobody
  · have counts := countP_set_add here CallPc.asleep call.wake
    have awake : call.wake.asleep = false := by cases call <;> rfl
    rw [awake, asleep] at counts
    have none : (calls.set index call.wake).countP CallPc.asleep = 0 := by
      simp only [if_true, Bool.false_eq_true, if_false] at counts
      omega
    apply not_sleeps
    intro other member
    simpa using List.countP_eq_zero.mp none other member

theorem waitCheck_asleep {pool : Pool} (asleep : pool.waitCheck.asleep = true) :
    0 < pool.numRunning ∨ pool.tasks ≠ [] := by
  unfold Pool.waitCheck at asleep
  split at asleep
  next unfinished => simpa [Pool.unfinished] using unfinished
  next => cases asleep

theorem stopCheck_asleep {pool : Pool} {start : Nat}
    (asleep : (pool.stopCheck start).asleep = true) : 0 < pool.numRunning := by
  unfold Pool.stopCheck at asleep
  split at asleep
  next executing => exact executing
  next => cases asleep

/-- With all threads gone nothing is counted as running. -/
theorem Accounted.numRunning_zero {pool : Pool} (books : Accounted pool)
    (gone : ∀ worker ∈ pool.workers, worker.pc = .idle) : pool.numRunning = 0 := by
  rw [books.counted, List.countP_eq_zero]
  intro worker member executes
  simp [Worker.executes, Worker.busy, gone worker member] at executes

/-- Nobody sleeps when the threads are gone and the pool does not run. -/
theorem Attended.nobody {pool : Pool} (attended : Attended pool) (books : Accounted pool)
    (gone : ∀ worker ∈ pool.workers, worker.pc = .idle)
    (notServing : pool.running = true → pool.stop = true) : ¬ Sleeps pool.calls := by
  intro sleeps
  rcases attended sleeps with executing | ⟨running, serving, -⟩
  · have none := books.numRunning_zero gone
    omega
  · rw [notServing running] at serving
    cases serving

/-! ## Every step -/

/-- A call that begins, or moves on, leaves the sleepers attended. -/
theorem Attended.calls {pool : Pool} (attended : Attended pool) {calls : List CallPc}
    {call : CallPc} (new : Sleeps calls → Sleeps pool.calls ∨ call.asleep = true)
    (moves : call.asleep = true → pool.Moves) : Attended { pool with calls := calls } := by
  intro sleeps
  rcases new sleeps with old | asleep
  · exact attended old
  · exact moves asleep

/-- A pool that has just been started, or stopped, has only one sleeper. -/
theorem Attended.of_nobody {pool pool' : Pool} {call : CallPc} (nobody : ¬ Sleeps pool.calls)
    (new : Sleeps pool'.calls → Sleeps pool.calls ∨ call.asleep = true)
    (moves : call.asleep = true → pool'.Moves) : Attended pool' := by
  intro sleeps
  rcases new sleeps with old | asleep
  · exact absurd old nobody
  · exact moves asleep

/-- The last task to finish leaves nobody asleep, or a task that follows it. -/
theorem Attended.finishes {pool : Pool} {slot start : Nat} {task : Task} {wake : Option Nat}
    {calls : List CallPc} (order : Orderly pool) (books : Accounted pool)
    (here : pool.workers[slot]? = some ⟨start, .executing task⟩)
    (few : pool.numRunning = 1 → (pool.tasks = [] ∨ pool.stop = true) →
      pool.calls.countP CallPc.asleep ≤ 1)
    (signalled : signalFinished pool.calls wake = some calls) :
    Attended { pool with
      numRunning := pool.numRunning - 1, calls := calls, executed := pool.executed ++ [task]
      workers := pool.workers.set slot ⟨start, .ready⟩ } := by
  have member := List.mem_of_getElem? here
  have executing : 0 < pool.numRunning := by
    rw [books.counted]
    exact List.countP_pos_iff.mpr ⟨_, member, rfl⟩
  have running : pool.running = true := by
    by_contra stopped
    exact absurd (order.idle (by simpa using stopped) _ member) nofun
  intro sleeps
  by_cases last : pool.numRunning = 1
  · by_cases following : pool.tasks = [] ∨ pool.stop = true
    · exact absurd sleeps (signalFinished_last signalled (few last following))
    · apply Or.inr
      refine ⟨running, ?_, fun empty => following (.inl empty)⟩
      simpa using fun stopping => following (.inr stopping)
  · apply Or.inl
    show 0 < pool.numRunning - 1
    omega

/-- Every step that heeds the sleepers keeps them attended. -/
theorem attended_step {pool pool' : Pool} {action : Action} (order : Orderly pool)
    (books : Accounted pool) (attended : Attended pool) (attending : Attending pool action)
    (effect : Effect pool action pool') : Attended pool' := by
  have nobody : pool.running = false → ¬ Sleeps pool.calls := by
    intro stopped
    apply attended.nobody books (order.idle stopped)
    intro running
    rw [stopped] at running
    cases running
  cases effect with
  | exits here stopping => exact attended
  | sleeps here serving empty => exact attended
  | takes here serving queue => exact fun _ => .inl (Nat.succ_pos _)
  | finishes here signalled => exact Attended.finishes order books here attending signalled
  | accepts signalled =>
      intro sleeps
      rcases sleeps_append sleeps with old | asleep
      · rcases attended old with executing | ⟨running, serving, -⟩
        · exact .inl executing
        · exact .inr ⟨running, serving, pqueuePush_ne_nil _ _⟩
      · cases asleep
  | refuses => exact attended.calls sleeps_append nofun
  | alreadyRunning running => exact attended.calls sleeps_append nofun
  | starts stopped startable => exact .of_nobody (nobody stopped) sleeps_append nofun
  | startFails stopped startable short => exact .of_nobody (nobody stopped) sleeps_append nofun
  | waitStarts stopped queued startable =>
      exact .of_nobody (nobody stopped) sleeps_append fun _ => .inr ⟨rfl, rfl, queued⟩
  | waitStartFails stopped queued startable short =>
      exact .of_nobody (nobody stopped) sleeps_append nofun
  | waits noStart =>
      apply attended.calls sleeps_append
      intro asleep
      by_cases executing : 0 < pool.numRunning
      · exact .inl executing
      · have queued := (waitCheck_asleep asleep).resolve_left executing
        have running := noStart.resolve_right queued
        refine .inr ⟨running, ?_, queued⟩
        by_contra stopping
        exact queued (attending running (by simpa using stopping) (by omega))
  | joins running =>
      intro sleeps
      by_cases executing : 0 < pool.numRunning
      · exact .inl executing
      · have none := (attending running).2 (by omega)
        rcases sleeps_append sleeps with old | asleep
        · exact absurd old (not_sleeps none)
        · exact absurd (stopCheck_asleep asleep) executing
  | joinsStopped stopped => exact .of_nobody (nobody stopped) sleeps_append nofun
  | waitResumes here =>
      apply attended.calls sleeps_set
      intro asleep
      by_cases executing : 0 < pool.numRunning
      · exact .inl executing
      · have queued := (waitCheck_asleep asleep).resolve_left executing
        obtain ⟨running, serving⟩ := attending here (by omega) queued
        exact .inr ⟨running, serving, queued⟩
  | joinResumes here =>
      apply attended.calls sleeps_set
      exact fun asleep => .inl (stopCheck_asleep asleep)
  | entersJoin alone => exact attended
  | joinsThread here joined =>
      intro sleeps
      rcases sleeps_set sleeps with old | asleep
      · exact attended old
      · cases asleep
  | reapsThread here more joined =>
      intro sleeps
      rcases sleeps_set sleeps with old | asleep
      · exact attended old
      · cases asleep
  | joinEnds here =>
      have gone := order.gone_of_joined here
      have stopping := order.stopping_of_closes here rfl
      exact .of_nobody (attended.nobody books gone fun _ => stopping) sleeps_set nofun
  | reapEnds here =>
      have gone := order.gone_of_reaped here
      have stopping := order.stopping_of_closes here rfl
      exact .of_nobody (attended.nobody books gone fun _ => stopping) sleeps_set nofun

/-! ## Nobody is stuck -/

/-- A worker that is awake on a serving pool with tasks queued executes one,
now or after one step. -/
theorem executes_soon {pool : Pool} (notStopping : pool.stop = false) (queued : pool.tasks ≠ [])
    {worker : Worker} (member : worker ∈ pool.workers) (awake : worker.Awake) :
    ∃ later, Reaches step Underway pool later ∧
      ∃ worker ∈ later.workers, worker.executes = true := by
  rcases awake with ready | executing
  · obtain ⟨slot, here⟩ := List.getElem?_of_mem member
    obtain ⟨task, rest, queue⟩ := List.exists_cons_of_ne_nil queued
    obtain ⟨start, pc⟩ := worker
    obtain rfl : pc = .ready := ready
    have stepped : step pool (.worker slot) = some { pool with
        tasks := rest, numRunning := pool.numRunning + 1
        workers := pool.workers.set slot ⟨start, .executing task⟩ } := by
      simp only [step, workerSection, here, notStopping, queue]
    exact ⟨_, (Reaches.refl _).next (underway_worker pool slot) stepped, _,
      mem_set_same here _, rfl⟩
  · exact ⟨pool, .refl _, worker, member, executing⟩

theorem not_stuck {pool : Pool} (order : Orderly pool) (books : Accounted pool)
    (attended : Attended pool) : ¬ Stuck pool := by
  rintro ⟨call, member, asleep, released⟩
  rcases attended ⟨call, member, asleep⟩ with executing | ⟨running, serving, queued⟩
  · rcases released with awaited | abandoned
    · have none : pool.numRunning = 0 := by
        cases call with
        | waiting woken => exact awaited.1
        | stopping start woken => exact awaited
        | _ => cases asleep
      omega
    · rw [books.counted] at executing
      obtain ⟨worker, inside, executes⟩ := List.countP_pos_iff.mp executing
      rw [abandoned pool (.refl _) worker inside] at executes
      cases executes
  · rcases released with awaited | abandoned
    · cases call with
      | waiting woken => exact queued awaited.2
      | stopping start woken =>
          have closes := order.noCloser serving _ member
          cases closes
      | _ => cases asleep
    · obtain ⟨worker, inside, awake⟩ := order.served running serving queued
      obtain ⟨later, run, busy, found, executes⟩ := executes_soon serving queued inside awake
      rw [abandoned later run busy found] at executes
      cases executes

/-- The thread pool has no stuck state: in every run in which the calls heed the
sleepers, nobody is asleep in `ucb_threadpool_wait_all` or `ucb_threadpool_join`
for something that has come already, or with nobody left to signal it. -/
theorem no_stuck_state {numThreads : Nat} {pool : Pool} (positive : 0 < numThreads)
    (run : Reaches step Attending (ucbThreadpoolNew numThreads) pool) : ¬ Stuck pool := by
  have holds : Orderly pool ∧ Accounted pool ∧ Attended pool := by
    apply run.invariant
    · exact ⟨orderly_new positive, accounted_new numThreads, fun sleeps => absurd sleeps nofun⟩
    · rintro before action after ⟨order, books, attended⟩ attending stepped
      have effect := effect_of_step stepped
      exact ⟨orderly_step order attending.joins effect, accounted_step books effect,
        attended_step order books attended attending effect⟩
  exact not_stuck holds.1 holds.2.1 holds.2.2

/-- A wait that starts the pool, and its end. -/
def waitOnce : List Action :=
  [.addTask 0 true none, .waitAll 2, .worker 1, .worker 0, .finish 1 (some 1), .resume 1]

theorem no_stuck_state_waitOnce :
    ∃ pool, replay step (ucbThreadpoolNew 2) waitOnce = some pool ∧ ¬ Stuck pool := by
  obtain ⟨pool, replayed⟩ : ∃ pool, replay step (ucbThreadpoolNew 2) waitOnce = some pool :=
    ⟨_, rfl⟩
  have attending : MeetsAll step Attending (ucbThreadpoolNew 2) waitOnce := by decide
  exact ⟨pool, replayed, no_stuck_state (by decide) (Reaches.of_replay replayed attending)⟩

/-- Two calls wait for the same task. -/
def waitTwice : List Action :=
  [.addTask 0 true none, .waitAll 1, .worker 0, .waitAll 1, .finish 0 (some 1), .resume 1]

/-- The one signal of the last task reaches one of two waiting calls. -/
theorem second_waiter_stuck :
    ¬ ∀ pool, Reaches step Always (ucbThreadpoolNew 1) pool → ¬ Stuck pool := by
  intro unstuck
  obtain ⟨pool, replayed⟩ : ∃ pool, replay step (ucbThreadpoolNew 1) waitTwice = some pool :=
    ⟨_, rfl⟩
  have run := Reaches.of_replay replayed (meetsAll_always waitTwice _)
  obtain rfl := Option.some.inj replayed
  exact unstuck _ run ⟨.waiting false, by decide, rfl, .inl ⟨rfl, rfl⟩⟩

end Ucb.Threads
