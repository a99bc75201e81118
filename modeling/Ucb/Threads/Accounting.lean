import Ucb.Lib.Slots
import Ucb.Threads.Effects

/-!
Contract: where the tasks of a thread pool are, in every run.

Owns:
- the count of a task over the queue, the workers and what became of it;
- `Accounted`: a task is in one place once it has been accepted, and the running
  counter counts the workers that execute a task;
- that every step keeps this, for any order of the calls.
-/

namespace Ucb.Threads

open Ucb.Lib

def Worker.busy (kind : Task → Bool) (worker : Worker) : Bool :=
  match worker.pc with
  | .executing task => kind task
  | _ => false

/-- The worker is between taking a task and reporting it finished. -/
def Worker.executes (worker : Worker) : Bool :=
  worker.busy fun _ => true

/-- `ucb_threadpool_add_task` has returned true for the task. -/
def Pool.Accepted (pool : Pool) (task : Task) : Prop :=
  .returned (.addTask (some task)) ∈ pool.calls

/-- How often a task is queued, being executed, executed or discarded. -/
def Pool.places (pool : Pool) (task : Task) : Nat :=
  pool.tasks.count task + pool.workers.countP (Worker.busy (· == task)) +
    pool.executed.count task + pool.discarded.count task

structure Accounted (pool : Pool) : Prop where
  counted : pool.numRunning = pool.workers.countP Worker.executes
  placed : ∀ task, pool.Accepted task → pool.places task = 1
  unknown : ∀ task, ¬ pool.Accepted task → pool.places task = 0
  earlier : ∀ task, pool.Accepted task → task.id < pool.calls.length

/-! ## The queue and the signals -/

theorem pqueuePush_perm (task : Task) (tasks : List Task) :
    (pqueuePush task tasks).Perm (task :: tasks) := by
  induction tasks with
  | nil => exact List.Perm.refl _
  | cons first rest inductionHypothesis =>
      rw [pqueuePush]
      split
      · exact (inductionHypothesis.cons first).trans (List.Perm.swap task first rest)
      · exact List.Perm.refl _

theorem pqueuePush_ne_nil (task : Task) (tasks : List Task) : pqueuePush task tasks ≠ [] := by
  intro empty
  have same := (pqueuePush_perm task tasks).length_eq
  rw [empty] at same
  simp at same

theorem signalTask_cases {workers workers' : List Worker} {wake : Option Nat}
    (signalled : signalTask workers wake = some workers') :
    (workers' = workers ∧ ∀ worker ∈ workers, worker.pc ≠ .asleep) ∨
      ∃ slot start, workers[slot]? = some ⟨start, .asleep⟩ ∧
        workers' = workers.set slot ⟨start, .ready⟩ := by
  cases wake with
  | none =>
      unfold signalTask at signalled
      simp only at signalled
      split at signalled
      · cases signalled
      · rename_i nobody
        obtain rfl := Option.some.inj signalled
        refine .inl ⟨rfl, fun worker member sleeping => nobody ?_⟩
        exact List.any_eq_true.mpr ⟨worker, member, by simpa using sleeping⟩
  | some slot =>
      unfold signalTask at signalled
      simp only at signalled
      split at signalled
      · rename_i start here
        obtain rfl := Option.some.inj signalled
        exact .inr ⟨slot, start, here, rfl⟩
      · cases signalled

theorem signalFinished_cases {calls calls' : List CallPc} {wake : Option Nat}
    (signalled : signalFinished calls wake = some calls') :
    (calls' = calls ∧ ∀ call ∈ calls, call.asleep = false) ∨
      ∃ index call, calls[index]? = some call ∧ call.asleep = true ∧
        calls' = calls.set index call.wake := by
  cases wake with
  | none =>
      unfold signalFinished at signalled
      simp only at signalled
      split at signalled
      · cases signalled
      · rename_i nobody
        obtain rfl := Option.some.inj signalled
        refine .inl ⟨rfl, fun call member => ?_⟩
        by_contra sleeping
        exact nobody (List.any_eq_true.mpr ⟨call, member, by simpa using sleeping⟩)
  | some index =>
      unfold signalFinished at signalled
      simp only at signalled
      split at signalled
      · rename_i call here
        split at signalled
        · rename_i sleeping
          obtain rfl := Option.some.inj signalled
          exact .inr ⟨index, call, here, sleeping, rfl⟩
        · cases signalled
      · cases signalled

theorem joinThread_cases {workers workers' : List Worker} {slot : Nat} {entered : Bool}
    (joined : joinThread workers slot entered = some workers') :
    (workers' = workers ∧ ∃ start, workers[slot]? = some ⟨start, .idle⟩) ∨
      ∃ start, workers[slot]? = some ⟨start, .exited⟩ ∧
        workers' = workers.set slot ⟨start, .idle⟩ := by
  unfold joinThread at joined
  split at joined
  · rename_i start here
    obtain rfl := Option.some.inj joined
    exact .inl ⟨rfl, start, here⟩
  · rename_i start here
    split at joined
    · obtain rfl := Option.some.inj joined
      exact .inr ⟨start, here, rfl⟩
    · cases joined
  · cases joined

/-! ## Workers that execute nothing -/

theorem busy_wakeWorker (kind : Task → Bool) (worker : Worker) :
    (wakeWorker worker).busy kind = worker.busy kind := by
  unfold wakeWorker
  split
  · rename_i sleeping
    simp [Worker.busy, sleeping]
  · rfl

theorem countP_busy_wake (kind : Task → Bool) (workers : List Worker) :
    (workers.map wakeWorker).countP (Worker.busy kind) = workers.countP (Worker.busy kind) := by
  rw [List.countP_map]
  congr 1
  funext worker
  exact busy_wakeWorker kind worker

/-- Replacing a worker that executes nothing by another one. -/
theorem countP_busy_set {kind : Task → Bool} {workers : List Worker} {slot : Nat}
    {old new : Worker} (here : workers[slot]? = some old) (oldRests : old.busy kind = false)
    (newRests : new.busy kind = false) :
    (workers.set slot new).countP (Worker.busy kind) = workers.countP (Worker.busy kind) := by
  have counts := countP_set_add here (Worker.busy kind) new
  rw [oldRests, newRests] at counts
  simpa using counts

theorem countP_busy_signalTask {kind : Task → Bool} {workers workers' : List Worker}
    {wake : Option Nat} (signalled : signalTask workers wake = some workers') :
    workers'.countP (Worker.busy kind) = workers.countP (Worker.busy kind) := by
  rcases signalTask_cases signalled with ⟨rfl, -⟩ | ⟨slot, start, here, rfl⟩
  · rfl
  · exact countP_busy_set here rfl rfl

theorem countP_busy_joinThread {kind : Task → Bool} {workers workers' : List Worker}
    {slot : Nat} {entered : Bool} (joined : joinThread workers slot entered = some workers') :
    workers'.countP (Worker.busy kind) = workers.countP (Worker.busy kind) := by
  rcases joinThread_cases joined with ⟨rfl, -⟩ | ⟨start, here, rfl⟩
  · rfl
  · exact countP_busy_set here rfl rfl

theorem busy_of_startable {worker : Worker} (startable : worker.startable = true)
    (kind : Task → Bool) : worker.busy kind = false := by
  unfold Worker.startable at startable
  rcases (by simpa using startable : worker.pc = .idle ∨ worker.pc = .exited) with idle | exited
  · simp [Worker.busy, idle]
  · simp [Worker.busy, exited]

theorem countP_busy_startThreads {kind : Task → Bool} {pool : Pool} {started : Nat}
    (startable : pool.Startable started) :
    (startThreads (pool.starts + 1) started pool.workers).countP (Worker.busy kind) =
      pool.workers.countP (Worker.busy kind) := by
  have free : (pool.workers.take started).countP (Worker.busy kind) = 0 := by
    rw [List.countP_eq_zero]
    intro worker member
    have inside : worker ∈ pool.workers.take (started + 1) :=
      List.take_subset_take_left _ (Nat.le_succ started) member
    rw [busy_of_startable (startable worker inside)]
    simp
  have fresh : (List.replicate started (⟨pool.starts + 1, .ready⟩ : Worker)).countP
      (Worker.busy kind) = 0 := by
    simp [List.countP_replicate, Worker.busy]
  have split : pool.workers.countP (Worker.busy kind) =
      (pool.workers.take started).countP (Worker.busy kind) +
        (pool.workers.drop started).countP (Worker.busy kind) := by
    rw [← List.countP_append, List.take_append_drop]
  rw [startThreads, List.countP_append, fresh, split, free]

theorem allStarted_workers (pool : Pool) :
    pool.allStarted.workers = startThreads (pool.starts + 1) pool.workers.length pool.workers := by
  simp [Pool.allStarted, startThreads]

/-! ## Accepted tasks -/

/-- A call that has not just returned from a successful `ucb_threadpool_add_task`. -/
def CallPc.Silent (call : CallPc) : Prop :=
  ∀ task, call ≠ .returned (.addTask (some task))

theorem accepted_append {calls : List CallPc} {call : CallPc} (silent : call.Silent) (task : Task) :
    .returned (.addTask (some task)) ∈ calls ++ [call] ↔
      .returned (.addTask (some task)) ∈ calls := by
  rw [List.mem_append, List.mem_singleton]
  exact ⟨fun member => member.resolve_right fun same => silent task same.symm, .inl⟩

theorem accepted_set {calls : List CallPc} {index : Nat} {old new : CallPc}
    (here : calls[index]? = some old) (oldSilent : old.Silent) (newSilent : new.Silent)
    (task : Task) :
    .returned (.addTask (some task)) ∈ calls.set index new ↔
      .returned (.addTask (some task)) ∈ calls :=
  mem_set_iff_of_ne here (oldSilent task).symm (newSilent task).symm

theorem silent_of_asleep {call : CallPc} (sleeping : call.asleep = true) :
    call.Silent ∧ call.wake.Silent := by
  cases call with
  | waiting woken => exact ⟨fun task => nofun, fun task => nofun⟩
  | stopping start woken => exact ⟨fun task => nofun, fun task => nofun⟩
  | joining start next => cases sleeping
  | reaping forWaitAll started next => cases sleeping
  | returned result => cases sleeping

theorem accepted_signalFinished {calls calls' : List CallPc} {wake : Option Nat}
    (signalled : signalFinished calls wake = some calls') (task : Task) :
    .returned (.addTask (some task)) ∈ calls' ↔ .returned (.addTask (some task)) ∈ calls := by
  rcases signalFinished_cases signalled with ⟨rfl, -⟩ | ⟨index, call, here, sleeping, rfl⟩
  · rfl
  · exact accepted_set here (silent_of_asleep sleeping).1 (silent_of_asleep sleeping).2 task

theorem signalFinished_length {calls calls' : List CallPc} {wake : Option Nat}
    (signalled : signalFinished calls wake = some calls') : calls'.length = calls.length := by
  rcases signalFinished_cases signalled with ⟨rfl, -⟩ | ⟨index, call, here, sleeping, rfl⟩
  · rfl
  · exact List.length_set

theorem silent_waitCheck (pool : Pool) : pool.waitCheck.Silent := by
  unfold Pool.waitCheck
  split <;> exact fun task => nofun

theorem silent_stopCheck (pool : Pool) (start : Nat) : (pool.stopCheck start).Silent := by
  unfold Pool.stopCheck
  split <;> exact fun task => nofun

/-! ## Every step keeps the books right -/

/-- A step that moves tasks from place to place, and accepts nothing. -/
theorem Accounted.carry {pool pool' : Pool} (books : Accounted pool)
    (counted : pool'.numRunning = pool'.workers.countP Worker.executes)
    (places : ∀ task, pool'.places task = pool.places task)
    (accepted : ∀ task, pool'.Accepted task ↔ pool.Accepted task)
    (longer : pool.calls.length ≤ pool'.calls.length) : Accounted pool' where
  counted := counted
  placed := by
    intro task taken
    rw [places, books.placed task ((accepted task).mp taken)]
  unknown := by
    intro task untaken
    rw [places, books.unknown task (mt (accepted task).mpr untaken)]
  earlier := by
    intro task taken
    exact Nat.lt_of_lt_of_le (books.earlier task ((accepted task).mp taken)) longer

theorem Accounted.takes {pool : Pool} (books : Accounted pool) {slot start : Nat} {task : Task}
    {rest : List Task} (here : pool.workers[slot]? = some ⟨start, .ready⟩)
    (queue : pool.tasks = task :: rest) :
    Accounted { pool with
      tasks := rest, numRunning := pool.numRunning + 1
      workers := pool.workers.set slot ⟨start, .executing task⟩ } := by
  refine books.carry ?_ ?_ (fun other => Iff.rfl) (Nat.le_refl _)
  · have counts : (pool.workers.set slot ⟨start, .executing task⟩).countP Worker.executes + 0 =
        pool.workers.countP Worker.executes + 1 := countP_set_add here Worker.executes _
    have before := books.counted
    show pool.numRunning + 1 = (pool.workers.set slot ⟨start, .executing task⟩).countP _
    omega
  · intro other
    have counts : (pool.workers.set slot ⟨start, .executing task⟩).countP
          (Worker.busy (· == other)) + 0 =
        pool.workers.countP (Worker.busy (· == other)) + if task == other then 1 else 0 :=
      countP_set_add here (Worker.busy (· == other)) _
    have queued : pool.tasks.count other = rest.count other + if task == other then 1 else 0 := by
      rw [queue, List.count_cons]
    simp only [Pool.places]
    omega

theorem Accounted.finishes {pool : Pool} (books : Accounted pool) {slot start : Nat} {task : Task}
    {wake : Option Nat} {calls : List CallPc}
    (here : pool.workers[slot]? = some ⟨start, .executing task⟩)
    (signalled : signalFinished pool.calls wake = some calls) :
    Accounted { pool with
      numRunning := pool.numRunning - 1, calls := calls, executed := pool.executed ++ [task]
      workers := pool.workers.set slot ⟨start, .ready⟩ } := by
  refine books.carry ?_ ?_ (accepted_signalFinished signalled)
    (Nat.le_of_eq (signalFinished_length signalled).symm)
  · have counts : (pool.workers.set slot ⟨start, .ready⟩).countP Worker.executes + 1 =
        pool.workers.countP Worker.executes + 0 := countP_set_add here Worker.executes _
    have before := books.counted
    show pool.numRunning - 1 = (pool.workers.set slot ⟨start, .ready⟩).countP _
    omega
  · intro other
    have counts : (pool.workers.set slot ⟨start, .ready⟩).countP (Worker.busy (· == other)) +
          (if task == other then 1 else 0) =
        pool.workers.countP (Worker.busy (· == other)) + 0 :=
      countP_set_add here (Worker.busy (· == other)) _
    have done : (pool.executed ++ [task]).count other =
        pool.executed.count other + if task == other then 1 else 0 := by
      rw [List.count_append, List.count_singleton]
    simp only [Pool.places]
    omega

/-- A task is accepted. No earlier task has its identity. -/
theorem Accounted.accepts {pool : Pool} (books : Accounted pool) (priority : Int)
    {workers : List Worker}
    (work : ∀ kind, workers.countP (Worker.busy kind) = pool.workers.countP (Worker.busy kind)) :
    Accounted { pool with
      tasks := pqueuePush ⟨pool.calls.length, priority⟩ pool.tasks, workers := workers
      calls := pool.calls ++
        [.returned (.addTask (some ⟨pool.calls.length, priority⟩))] } := by
  have places : ∀ other, Pool.places { pool with
      tasks := pqueuePush ⟨pool.calls.length, priority⟩ pool.tasks, workers := workers
      calls := pool.calls ++ [.returned (.addTask (some ⟨pool.calls.length, priority⟩))] } other =
      pool.places other + if (⟨pool.calls.length, priority⟩ : Task) == other then 1 else 0 := by
    intro other
    have queued := (pqueuePush_perm ⟨pool.calls.length, priority⟩ pool.tasks).count_eq other
    rw [List.count_cons] at queued
    simp only [Pool.places]
    rw [work, queued]
    omega
  have accepted : ∀ other : Task, .returned (.addTask (some other)) ∈ pool.calls ++
        [.returned (.addTask (some ⟨pool.calls.length, priority⟩))] ↔
      pool.Accepted other ∨ other = ⟨pool.calls.length, priority⟩ := by
    intro other
    simp [Pool.Accepted]
  have new : ¬ pool.Accepted ⟨pool.calls.length, priority⟩ := fun taken =>
    Nat.lt_irrefl _ (books.earlier _ taken)
  constructor
  · exact books.counted.trans (work _).symm
  · intro other taken
    rw [places]
    rcases (accepted other).mp taken with before | rfl
    · have different : ((⟨pool.calls.length, priority⟩ : Task) == other) = false := by
        by_contra same
        have equal : (⟨pool.calls.length, priority⟩ : Task) = other := by simpa using same
        exact new (equal ▸ before)
      rw [different, books.placed other before]
      rfl
    · rw [books.unknown _ new]
      simp
  · intro other untaken
    have before : ¬ pool.Accepted other := fun taken => untaken ((accepted other).mpr (.inl taken))
    have different : ((⟨pool.calls.length, priority⟩ : Task) == other) = false := by
      by_contra same
      have equal : (⟨pool.calls.length, priority⟩ : Task) = other := by simpa using same
      exact untaken ((accepted other).mpr (.inr equal.symm))
    rw [places, different, books.unknown other before]
    rfl
  · intro other taken
    simp only [List.length_append, List.length_singleton]
    rcases (accepted other).mp taken with before | rfl
    · exact Nat.lt_succ_of_lt (books.earlier other before)
    · exact Nat.lt_succ_self _

theorem Accounted.clear {pool : Pool} (books : Accounted pool) : Accounted pool.clear := by
  refine books.carry books.counted ?_ (fun _ => Iff.rfl) (Nat.le_refl _)
  intro task
  simp only [Pool.places, Pool.clear, List.count_nil, List.count_append]
  omega

theorem Accounted.begin {pool : Pool} (books : Accounted pool) {call : CallPc}
    (silent : call.Silent) : Accounted (pool.begin call) :=
  books.carry books.counted (fun _ => rfl) (accepted_append silent) (by simp [Pool.begin])

theorem Accounted.move {pool : Pool} (books : Accounted pool) {index : Nat} {old new : CallPc}
    (here : pool.calls[index]? = some old) (oldSilent : old.Silent) (newSilent : new.Silent) :
    Accounted (pool.move index new) :=
  books.carry books.counted (fun _ => rfl) (accepted_set here oldSilent newSilent)
    (by simp [Pool.move])

/-- A step that only changes flags and workers that execute nothing. -/
theorem Accounted.rest {pool pool' : Pool} (books : Accounted pool)
    (tasks : pool'.tasks = pool.tasks) (executed : pool'.executed = pool.executed)
    (discarded : pool'.discarded = pool.discarded) (calls : pool'.calls = pool.calls)
    (numRunning : pool'.numRunning = pool.numRunning)
    (work : ∀ kind, pool'.workers.countP (Worker.busy kind) =
      pool.workers.countP (Worker.busy kind)) : Accounted pool' := by
  refine books.carry ?_ ?_ (fun task => by unfold Pool.Accepted; rw [calls])
    (Nat.le_of_eq (congrArg List.length calls.symm))
  · rw [numRunning, books.counted]
    exact (work _).symm
  · intro task
    simp only [Pool.places, tasks, executed, discarded, work]

theorem accounted_allStarted {pool : Pool} (books : Accounted pool)
    (startable : pool.Startable pool.workers.length) : Accounted pool.allStarted :=
  books.rest rfl rfl rfl rfl rfl fun kind => by
    rw [allStarted_workers, countP_busy_startThreads startable]

theorem accounted_partlyStarted {pool : Pool} {started : Nat} (books : Accounted pool)
    (startable : pool.Startable started) : Accounted (pool.partlyStarted started) :=
  books.rest rfl rfl rfl rfl rfl fun kind => by
    show ((startThreads _ _ _).map wakeWorker).countP _ = _
    rw [countP_busy_wake, countP_busy_startThreads startable]

theorem Accounted.leaveJoin {pool : Pool} (books : Accounted pool) {index slot : Nat}
    {entered : Bool} {workers : List Worker} {old new : CallPc}
    (here : pool.calls[index]? = some old)
    (joined : joinThread pool.workers slot entered = some workers) (oldSilent : old.Silent)
    (newSilent : new.Silent) : Accounted (pool.leaveJoin index slot workers new) := by
  have work : Accounted
      { pool with workers := workers, joiners := pool.joiners.erase (slot, index) } :=
    books.rest rfl rfl rfl rfl rfl fun kind => countP_busy_joinThread joined
  exact work.move here oldSilent newSilent

/-- Every step keeps the books right. -/
theorem accounted_step {pool pool' : Pool} {action : Action} (books : Accounted pool)
    (effect : Effect pool action pool') : Accounted pool' := by
  cases effect with
  | exits here stopping =>
      exact books.rest rfl rfl rfl rfl rfl fun kind => countP_busy_set here rfl rfl
  | sleeps here serving empty =>
      exact books.rest rfl rfl rfl rfl rfl fun kind => countP_busy_set here rfl rfl
  | takes here serving queue => exact books.takes here queue
  | finishes here signalled => exact books.finishes here signalled
  | accepts signalled =>
      apply books.accepts
      rcases signalled with ⟨-, woken⟩ | ⟨-, rfl⟩
      · exact fun kind => countP_busy_signalTask woken
      · exact fun kind => rfl
  | refuses => exact books.begin fun task => nofun
  | alreadyRunning running => exact books.begin fun task => nofun
  | starts stopped startable =>
      exact (accounted_allStarted books startable).begin fun task => nofun
  | startFails stopped startable short =>
      exact (accounted_partlyStarted books startable).begin fun task => nofun
  | waitStarts stopped queued startable =>
      exact (accounted_allStarted books startable).begin fun task => nofun
  | waitStartFails stopped queued startable short =>
      exact (accounted_partlyStarted books startable).begin fun task => nofun
  | waits noStart => exact books.begin (silent_waitCheck pool)
  | joins running =>
      have woken : Accounted { pool with stop := true, workers := pool.workers.map wakeWorker } :=
        books.rest rfl rfl rfl rfl rfl fun kind => countP_busy_wake kind pool.workers
      exact woken.begin (silent_stopCheck pool pool.starts)
  | joinsStopped stopped => exact books.clear.begin fun task => nofun
  | waitResumes here => exact books.move here (fun task => nofun) (silent_waitCheck pool)
  | joinResumes here => exact books.move here (fun task => nofun) (silent_stopCheck pool _)
  | entersJoin alone => exact books.rest rfl rfl rfl rfl rfl fun kind => rfl
  | joinsThread here joined =>
      exact books.leaveJoin here joined (fun task => nofun) fun task => nofun
  | reapsThread here more joined =>
      exact books.leaveJoin here joined (fun task => nofun) fun task => nofun
  | joinEnds here =>
      have stopped : Accounted { pool with running := false, stop := false } :=
        books.rest rfl rfl rfl rfl rfl fun kind => rfl
      exact stopped.clear.move here (fun task => nofun) fun task => nofun
  | @reapEnds index started forWaitAll here =>
      have stopped : Accounted { pool with running := false, stop := false } :=
        books.rest rfl rfl rfl rfl rfl fun kind => rfl
      refine stopped.move here (fun task => nofun) ?_
      cases forWaitAll <;> exact fun task => nofun

theorem accounted_new (numThreads : Nat) : Accounted (ucbThreadpoolNew numThreads) where
  counted := by simp [ucbThreadpoolNew, List.countP_replicate, Worker.executes, Worker.busy]
  placed := by simp [Pool.Accepted, ucbThreadpoolNew]
  unknown := by
    intro task _
    simp [Pool.places, ucbThreadpoolNew, List.countP_replicate, Worker.busy]
  earlier := by simp [Pool.Accepted, ucbThreadpoolNew]

end Ucb.Threads
