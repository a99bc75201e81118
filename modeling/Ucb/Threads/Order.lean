import Ucb.Threads.Accounting

/-!
Contract: a thread pool on which joins do not overlap with other stops.

Owns:
- `Orderly`: how the flags, the worker threads and the calls fit together while
  at most one call at a time is stopping the pool;
- that every step keeps this except a join that begins while the pool is
  already being stopped, by another join or by a failed start.

A failed start and a join both give up the mutex while they join threads, and
both clear the flags afterwards; two of them at a time clear the flags of a pool
that has been started again in between.
-/

namespace Ucb.Threads

open Ucb.Lib

/-- The thread of the slot runs and has not left its loop. -/
def Worker.Live (worker : Worker) : Prop :=
  worker.pc ≠ .idle ∧ worker.pc ≠ .exited

/-- The worker is not waiting to be signalled: it is about to look at the queue,
now or when its task returns. -/
def Worker.Awake (worker : Worker) : Prop :=
  worker.pc = .ready ∨ worker.executes = true

/-- The call is stopping the pool: a join, or a start that failed. -/
def CallPc.closes : CallPc → Bool
  | .stopping _ _ => true
  | .joining _ _ => true
  | .reaping _ _ _ => true
  | _ => false

/-- What a call has achieved so far. A join that has returned leaves no thread of
the starts before it. -/
def CallPc.Sound (workers : List Worker) (starts : Nat) : CallPc → Prop
  | .waiting _ => True
  | .stopping start _ => start ≤ starts
  | .joining start next =>
      start ≤ starts ∧
        ∀ slot worker, slot < next → workers[slot]? = some worker → worker.pc = .idle
  | .reaping _ started next =>
      ∀ slot worker, slot < next ∨ started ≤ slot → workers[slot]? = some worker →
        worker.pc = .idle
  | .returned (.join start) =>
      start ≤ starts ∧ ∀ worker ∈ workers, worker.pc ≠ .idle → start < worker.start
  | .returned _ => True

/-- The flags, the threads and the calls fit together. -/
structure Orderly (pool : Pool) : Prop where
  someWorker : pool.workers ≠ []
  stopRuns : pool.stop = true → pool.running = true
  idle : pool.running = false → ∀ worker ∈ pool.workers, worker.pc = .idle
  live : pool.running = true → pool.stop = false → ∀ worker ∈ pool.workers, worker.Live
  stopping : pool.stop = true → ∀ worker ∈ pool.workers, worker.pc ≠ .asleep
  served : pool.running = true → pool.stop = false → pool.tasks ≠ [] →
    ∃ worker ∈ pool.workers, worker.Awake
  closers : pool.calls.countP CallPc.closes = if pool.stop then 1 else 0
  sound : ∀ call ∈ pool.calls, call.Sound pool.workers pool.starts

/-- Joins begin only when nobody else is stopping the pool. -/
def JoinsInOrder (pool : Pool) : Action → Prop
  | .join => ¬ (pool.running = true ∧ pool.stop = true)
  | _ => True

instance (pool : Pool) (action : Action) : Decidable (JoinsInOrder pool action) := by
  unfold JoinsInOrder
  split <;> infer_instance

/-! ## Workers that make progress -/

/-- Threads move on, and no thread is started. -/
def Progresses (workers workers' : List Worker) : Prop :=
  ∀ (slot : Nat) (worker' : Worker), workers'[slot]? = some worker' →
    ∃ worker : Worker, workers[slot]? = some worker ∧ worker'.start = worker.start ∧
      (worker.pc = .idle → worker'.pc = .idle)

theorem Progresses.refl (workers : List Worker) : Progresses workers workers :=
  fun _ worker here => ⟨worker, here, rfl, id⟩

theorem progresses_set {workers : List Worker} {slot start : Nat} {old new : WorkerPc}
    (here : workers[slot]? = some ⟨start, old⟩) (notIdle : old ≠ .idle) :
    Progresses workers (workers.set slot ⟨start, new⟩) := by
  intro position worker' found
  rcases getElem?_set_cases found with ⟨rfl, rfl⟩ | ⟨-, before⟩
  · exact ⟨_, here, rfl, fun idle => absurd idle notIdle⟩
  · exact ⟨worker', before, rfl, id⟩

theorem progresses_wake (workers : List Worker) : Progresses workers (workers.map wakeWorker) := by
  intro slot worker' found
  rw [List.getElem?_map] at found
  obtain ⟨worker, here, rfl⟩ := Option.map_eq_some_iff.mp found
  refine ⟨worker, here, ?_, ?_⟩
  · unfold wakeWorker
    split <;> rfl
  · intro idle
    simp [wakeWorker, idle]

theorem progresses_signalTask {workers workers' : List Worker} {wake : Option Nat}
    (signalled : signalTask workers wake = some workers') : Progresses workers workers' := by
  rcases signalTask_cases signalled with ⟨rfl, -⟩ | ⟨slot, start, here, rfl⟩
  · exact .refl _
  · exact progresses_set here nofun

theorem progresses_joinThread {workers workers' : List Worker} {slot : Nat} {entered : Bool}
    (joined : joinThread workers slot entered = some workers') : Progresses workers workers' := by
  rcases joinThread_cases joined with ⟨rfl, -⟩ | ⟨start, here, rfl⟩
  · exact .refl _
  · exact progresses_set here nofun

theorem joinThread_idle {workers workers' : List Worker} {slot : Nat} {entered : Bool}
    (joined : joinThread workers slot entered = some workers') {worker : Worker}
    (here : workers'[slot]? = some worker) : worker.pc = .idle := by
  rcases joinThread_cases joined with ⟨rfl, start, idle⟩ | ⟨start, exited, rfl⟩
  · rw [idle] at here
    obtain rfl := Option.some.inj here
    rfl
  · rw [getElem?_set_same exited] at here
    obtain rfl := Option.some.inj here
    rfl

theorem CallPc.Sound.progress {workers workers' : List Worker} {starts : Nat} {call : CallPc}
    (sound : call.Sound workers starts) (progress : Progresses workers workers') :
    call.Sound workers' starts := by
  cases call with
  | waiting woken => trivial
  | stopping start woken => exact sound
  | joining start next =>
      refine ⟨sound.1, fun slot worker' below found => ?_⟩
      obtain ⟨worker, here, -, stays⟩ := progress slot worker' found
      exact stays (sound.2 slot worker below here)
  | reaping forWaitAll started next =>
      intro slot worker' outside found
      obtain ⟨worker, here, -, stays⟩ := progress slot worker' found
      exact stays (sound slot worker outside here)
  | returned result =>
      cases result with
      | join start =>
          refine ⟨sound.1, fun worker' member notIdle => ?_⟩
          obtain ⟨slot, found⟩ := List.getElem?_of_mem member
          obtain ⟨worker, here, same, stays⟩ := progress slot worker' found
          rw [same]
          exact sound.2 worker (List.mem_of_getElem? here) (mt stays notIdle)
      | addTask accepted => trivial
      | start running => trivial
      | waitAll started => trivial

/-! ## Calls that move on -/

theorem sound_append {workers : List Worker} {starts : Nat} {calls : List CallPc} {last : CallPc}
    (before : ∀ call ∈ calls, call.Sound workers starts) (new : last.Sound workers starts) :
    ∀ call ∈ calls ++ [last], call.Sound workers starts := by
  intro call member
  rcases List.mem_append.mp member with inside | same
  · exact before call inside
  · obtain rfl := List.mem_singleton.mp same
    exact new

theorem sound_set {workers : List Worker} {starts index : Nat} {calls : List CallPc}
    {moved : CallPc} (before : ∀ call ∈ calls, call.Sound workers starts)
    (new : moved.Sound workers starts) :
    ∀ call ∈ calls.set index moved, call.Sound workers starts := by
  intro call member
  rcases List.mem_or_eq_of_mem_set member with inside | rfl
  · exact before call inside
  · exact new

theorem sound_wake {workers : List Worker} {starts : Nat} {call : CallPc}
    (sound : call.Sound workers starts) (sleeping : call.asleep = true) :
    call.wake.Sound workers starts := by
  cases call with
  | waiting woken => trivial
  | stopping start woken => exact sound
  | joining start next => cases sleeping
  | reaping forWaitAll started next => cases sleeping
  | returned result => cases sleeping

theorem closes_wake {call : CallPc} (sleeping : call.asleep = true) :
    call.wake.closes = call.closes := by
  cases call with
  | waiting woken => rfl
  | stopping start woken => rfl
  | joining start next => cases sleeping
  | reaping forWaitAll started next => cases sleeping
  | returned result => cases sleeping

theorem countP_closes_set {calls : List CallPc} {index : Nat} {old new : CallPc}
    (here : calls[index]? = some old) (same : new.closes = old.closes) :
    (calls.set index new).countP CallPc.closes = calls.countP CallPc.closes := by
  have counts := countP_set_add here CallPc.closes new
  rw [same] at counts
  omega

theorem signalFinished_sound {workers : List Worker} {starts : Nat} {calls calls' : List CallPc}
    {wake : Option Nat} (signalled : signalFinished calls wake = some calls')
    (before : ∀ call ∈ calls, call.Sound workers starts) :
    ∀ call ∈ calls', call.Sound workers starts := by
  rcases signalFinished_cases signalled with ⟨rfl, -⟩ | ⟨index, call, here, sleeping, rfl⟩
  · exact before
  · exact sound_set before (sound_wake (before call (List.mem_of_getElem? here)) sleeping)

theorem signalFinished_closers {calls calls' : List CallPc} {wake : Option Nat}
    (signalled : signalFinished calls wake = some calls') :
    calls'.countP CallPc.closes = calls.countP CallPc.closes := by
  rcases signalFinished_cases signalled with ⟨rfl, -⟩ | ⟨index, call, here, sleeping, rfl⟩
  · rfl
  · exact countP_closes_set here (closes_wake sleeping)

theorem countP_closes_append {calls : List CallPc} {last : CallPc} (open' : last.closes = false) :
    (calls ++ [last]).countP CallPc.closes = calls.countP CallPc.closes := by
  simp [open']

theorem waitCheck_open (pool : Pool) : pool.waitCheck.closes = false := by
  unfold Pool.waitCheck
  split <;> rfl

theorem stopCheck_closes (pool : Pool) (start : Nat) : (pool.stopCheck start).closes = true := by
  unfold Pool.stopCheck
  split <;> rfl

theorem waitCheck_sound (pool : Pool) (workers : List Worker) (starts : Nat) :
    pool.waitCheck.Sound workers starts := by
  unfold Pool.waitCheck
  split <;> trivial

theorem stopCheck_sound (pool : Pool) {start starts : Nat} (workers : List Worker)
    (past : start ≤ starts) : (pool.stopCheck start).Sound workers starts := by
  unfold Pool.stopCheck
  split
  · exact past
  · exact ⟨past, fun slot worker below => absurd below (by omega)⟩

/-! ## Every step in order -/

/-- What an action does to a pool that is neither started nor stopped by it. -/
theorem Orderly.carry {pool pool' : Pool} (order : Orderly pool)
    (running : pool'.running = pool.running) (stop : pool'.stop = pool.stop)
    (starts : pool'.starts = pool.starts) (length : pool'.workers.length = pool.workers.length)
    (progress : Progresses pool.workers pool'.workers)
    (live : pool.stop = false → (∀ worker ∈ pool.workers, worker.Live) →
      ∀ worker ∈ pool'.workers, worker.Live)
    (stopping : pool.stop = true → (∀ worker ∈ pool.workers, worker.pc ≠ .asleep) →
      ∀ worker ∈ pool'.workers, worker.pc ≠ .asleep)
    (served : pool.running = true → pool.stop = false → pool'.tasks ≠ [] →
      ∃ worker ∈ pool'.workers, worker.Awake)
    (closers : pool'.calls.countP CallPc.closes = pool.calls.countP CallPc.closes)
    (sound : (∀ call ∈ pool.calls, call.Sound pool'.workers pool.starts) →
      ∀ call ∈ pool'.calls, call.Sound pool'.workers pool.starts) : Orderly pool' where
  someWorker := by
    intro empty
    rw [empty] at length
    exact order.someWorker (List.eq_nil_of_length_eq_zero length.symm)
  stopRuns := by rw [running, stop]; exact order.stopRuns
  idle := by
    intro stopped worker' member
    obtain ⟨slot, found⟩ := List.getElem?_of_mem member
    obtain ⟨worker, here, -, stays⟩ := progress slot worker' found
    exact stays (order.idle (running ▸ stopped) worker (List.mem_of_getElem? here))
  live := by
    intro isRunning serving
    exact live (stop ▸ serving) (order.live (running ▸ isRunning) (stop ▸ serving))
  stopping := by
    intro isStopping
    exact stopping (stop ▸ isStopping) (order.stopping (stop ▸ isStopping))
  served := by
    intro isRunning serving
    exact served (running ▸ isRunning) (stop ▸ serving)
  closers := by rw [closers, stop, order.closers]
  sound := by
    rw [starts]
    exact sound fun call member => (order.sound call member).progress progress

theorem Orderly.workerMoves {pool : Pool} (order : Orderly pool) {slot start : Nat}
    {old new : WorkerPc} {tasks : List Task} {numRunning : Nat} {calls : List CallPc}
    {executed : List Task} (here : pool.workers[slot]? = some ⟨start, old⟩)
    (notIdle : old ≠ .idle) (live : pool.stop = false → Worker.Live ⟨start, new⟩)
    (stopping : pool.stop = true → new ≠ .asleep)
    (served : pool.stop = false → tasks ≠ [] →
      ∃ worker ∈ pool.workers.set slot ⟨start, new⟩, worker.Awake)
    (closers : calls.countP CallPc.closes = pool.calls.countP CallPc.closes)
    (sound : ∀ workers starts, (∀ call ∈ pool.calls, call.Sound workers starts) →
      ∀ call ∈ calls, call.Sound workers starts) :
    Orderly { pool with
      tasks := tasks, numRunning := numRunning, calls := calls, executed := executed
      workers := pool.workers.set slot ⟨start, new⟩ } := by
  refine order.carry rfl rfl rfl List.length_set (progresses_set here notIdle) ?_ ?_
    (fun _ => served) closers (sound _ _)
  · intro serving all worker member
    rcases List.mem_or_eq_of_mem_set member with inside | rfl
    · exact all worker inside
    · exact live serving
  · intro isStopping all worker member
    rcases List.mem_or_eq_of_mem_set member with inside | rfl
    · exact all worker inside
    · exact stopping isStopping

/-- A call begins, or moves on, while the pool stays as it is. -/
theorem Orderly.callMoves {pool : Pool} (order : Orderly pool) {calls : List CallPc}
    (closers : calls.countP CallPc.closes = pool.calls.countP CallPc.closes)
    (sound : ∀ call ∈ calls, call.Sound pool.workers pool.starts) :
    Orderly { pool with calls := calls } :=
  order.carry rfl rfl rfl rfl (.refl _) (fun _ all => all) (fun _ all => all) order.served
    closers fun _ => sound

theorem Orderly.begin {pool : Pool} (order : Orderly pool) {call : CallPc}
    (open' : call.closes = false) (sound : call.Sound pool.workers pool.starts) :
    Orderly (pool.begin call) :=
  order.callMoves (countP_closes_append open') (sound_append order.sound sound)

theorem Orderly.move {pool : Pool} (order : Orderly pool) {index : Nat} {old new : CallPc}
    (here : pool.calls[index]? = some old) (same : new.closes = old.closes)
    (sound : new.Sound pool.workers pool.starts) : Orderly (pool.move index new) :=
  order.callMoves (countP_closes_set here same) (sound_set order.sound sound)

/-- A task is queued, and one of the sleeping workers is woken. -/
theorem Orderly.accepts {pool : Pool} (order : Orderly pool) {task : Task} {wake : Option Nat}
    {workers : List Worker}
    (signalled : (pool.running = true ∧ signalTask pool.workers wake = some workers) ∨
      (pool.running = false ∧ workers = pool.workers)) :
    Orderly { pool with
      tasks := pqueuePush task pool.tasks, workers := workers
      calls := pool.calls ++ [.returned (.addTask (some task))] } := by
  rcases signalled with ⟨running, woken⟩ | ⟨stopped, rfl⟩
  · have length : workers.length = pool.workers.length := by
      rcases signalTask_cases woken with ⟨rfl, -⟩ | ⟨slot, start, here, rfl⟩
      · rfl
      · exact List.length_set
    refine order.carry rfl rfl rfl length (progresses_signalTask woken) ?_ ?_ ?_
      (countP_closes_append rfl) (fun before => sound_append before trivial)
    · intro _ all
      rcases signalTask_cases woken with ⟨rfl, -⟩ | ⟨slot, start, here, rfl⟩
      · exact all
      · intro worker member
        rcases List.mem_or_eq_of_mem_set member with inside | rfl
        · exact all worker inside
        · exact ⟨nofun, nofun⟩
    · intro _ all
      rcases signalTask_cases woken with ⟨rfl, -⟩ | ⟨slot, start, here, rfl⟩
      · exact all
      · intro worker member
        rcases List.mem_or_eq_of_mem_set member with inside | rfl
        · exact all worker inside
        · exact nofun
    · intro _ serving _
      rcases signalTask_cases woken with ⟨rfl, nobody⟩ | ⟨slot, start, here, rfl⟩
      · -- nobody slept, so any worker is awake
        obtain ⟨worker, member⟩ := List.exists_mem_of_ne_nil _ order.someWorker
        have live := order.live running serving worker member
        refine ⟨worker, member, ?_⟩
        obtain ⟨start, pc⟩ := worker
        cases pc with
        | idle => exact absurd rfl live.1
        | ready => exact .inl rfl
        | asleep => exact absurd rfl (nobody ⟨start, .asleep⟩ member)
        | executing task => exact .inr rfl
        | exited => exact absurd rfl live.2
      · exact ⟨_, mem_set_same here _, .inl rfl⟩
  · refine order.carry rfl rfl rfl rfl (.refl _) (fun _ all => all) (fun _ all => all) ?_
      (countP_closes_append rfl) (fun before => sound_append before trivial)
    intro running
    rw [stopped] at running
    cases running

/-- While the pool does not run, no call is stopping it. -/
theorem Orderly.noCloser {pool : Pool} (order : Orderly pool) (serving : pool.stop = false) :
    ∀ call ∈ pool.calls, call.closes = false := by
  have none := order.closers
  rw [serving, if_neg nofun, List.countP_eq_zero] at none
  intro call member
  simpa using none call member

/-- A call that is stopping the pool has set the flag. -/
theorem Orderly.stopping_of_closes {pool : Pool} (order : Orderly pool) {index : Nat}
    {call : CallPc} (here : pool.calls[index]? = some call) (closes : call.closes = true) :
    pool.stop = true := by
  by_contra serving
  have open' := order.noCloser (by simpa using serving) call (List.mem_of_getElem? here)
  rw [closes] at open'
  cases open'

/-- A join that has been through all slots has left no thread. -/
theorem Orderly.gone_of_joined {pool : Pool} (order : Orderly pool) {index start : Nat}
    (here : pool.calls[index]? = some (.joining start pool.workers.length)) :
    ∀ worker ∈ pool.workers, worker.pc = .idle := by
  intro worker member
  obtain ⟨slot, found⟩ := List.getElem?_of_mem member
  have achieved := order.sound _ (List.mem_of_getElem? here)
  exact achieved.2 slot worker (lt_of_getElem? found) found

/-- A reaper that has been through the threads of its start has left none. -/
theorem Orderly.gone_of_reaped {pool : Pool} (order : Orderly pool) {index started : Nat}
    {forWaitAll : Bool} (here : pool.calls[index]? = some (.reaping forWaitAll started started)) :
    ∀ worker ∈ pool.workers, worker.pc = .idle := by
  intro worker member
  obtain ⟨slot, found⟩ := List.getElem?_of_mem member
  have achieved := order.sound _ (List.mem_of_getElem? here)
  exact achieved slot worker (by omega) found

theorem Orderly.stop_of_stopped {pool : Pool} (order : Orderly pool)
    (stopped : pool.running = false) : pool.stop = false := by
  by_contra stopping
  have running := order.stopRuns (by simpa using stopping)
  rw [stopped] at running
  cases running

/-- A new start leaves the calls that have returned in their right. -/
theorem sound_newStart {pool : Pool} (order : Orderly pool) (stopped : pool.running = false)
    {workers : List Worker}
    (new : ∀ worker ∈ workers, worker.pc ≠ .idle → worker.start = pool.starts + 1) :
    ∀ call ∈ pool.calls, call.Sound workers (pool.starts + 1) := by
  intro call member
  have open' := order.noCloser (order.stop_of_stopped stopped) call member
  have before := order.sound call member
  cases call with
  | waiting woken => trivial
  | stopping start woken => cases open'
  | joining start next => cases open'
  | reaping forWaitAll started next => cases open'
  | returned result =>
      cases result with
      | join start =>
          have past : start ≤ pool.starts := before.1
          refine ⟨by omega, fun worker inside notIdle => ?_⟩
          rw [new worker inside notIdle]
          omega
      | addTask accepted => trivial
      | start running => trivial
      | waitAll started => trivial

theorem Orderly.allStarted {pool : Pool} (order : Orderly pool) (stopped : pool.running = false)
    {call : CallPc} (open' : call.closes = false)
    (sound : call.Sound pool.allStarted.workers (pool.starts + 1)) :
    Orderly (pool.allStarted.begin call) := by
  have serving := order.stop_of_stopped stopped
  have each : ∀ worker ∈ pool.allStarted.workers, worker = ⟨pool.starts + 1, .ready⟩ :=
    fun worker member => List.eq_of_mem_replicate member
  have nonempty : pool.allStarted.workers ≠ [] := by
    have some := order.someWorker
    simpa [Pool.allStarted] using some
  constructor
  · exact nonempty
  · exact fun _ => rfl
  · intro stopped'
    cases stopped'
  · intro _ _ worker member
    rw [each worker member]
    constructor <;> intro same <;> cases same
  · intro stopping
    cases stopping
  · intro _ _ _
    obtain ⟨worker, member⟩ := List.exists_mem_of_ne_nil _ nonempty
    exact ⟨worker, member, .inl (by rw [each worker member])⟩
  · have none := order.closers
    rw [serving] at none
    exact (countP_closes_append open').trans none
  · apply sound_append _ sound
    exact sound_newStart order stopped fun worker member _ => by rw [each worker member]

theorem Orderly.partlyStarted {pool : Pool} {started : Nat} (order : Orderly pool)
    (stopped : pool.running = false) (short : started < pool.workers.length)
    (forWaitAll : Bool) :
    Orderly ((pool.partlyStarted started).begin (.reaping forWaitAll started 0)) := by
  have serving := order.stop_of_stopped stopped
  have split : ∀ slot worker, (pool.partlyStarted started).workers[slot]? = some worker →
      worker = ⟨pool.starts + 1, .ready⟩ ∧ slot < started ∨ worker.pc = .idle := by
    intro slot worker found
    have found : ((List.replicate started (⟨pool.starts + 1, .ready⟩ : Worker) ++
        pool.workers.drop started).map wakeWorker)[slot]? = some worker := found
    rw [List.getElem?_map] at found
    obtain ⟨before, here, rfl⟩ := Option.map_eq_some_iff.mp found
    by_cases inside : slot < started
    · rw [List.getElem?_append_left (by rwa [List.length_replicate])] at here
      have same := List.eq_of_mem_replicate (List.mem_of_getElem? here)
      exact .inl ⟨by rw [same]; rfl, inside⟩
    · rw [List.getElem?_append_right (by rw [List.length_replicate]; omega)] at here
      have member := List.mem_of_mem_drop (List.mem_of_getElem? here)
      have idle := order.idle stopped before member
      have awake : before.pc ≠ .asleep := by
        intro asleep
        rw [idle] at asleep
        cases asleep
      exact .inr (by rw [wakeWorker, if_neg awake, idle])
  have nonempty : (pool.partlyStarted started).workers ≠ [] := by
    intro empty
    have length := congrArg List.length empty
    simp [Pool.partlyStarted, startThreads] at length
    omega
  constructor
  · exact nonempty
  · exact fun _ => rfl
  · intro stopped'
    cases stopped'
  · intro _ serving'
    cases serving'
  · intro _ worker member
    obtain ⟨slot, found⟩ := List.getElem?_of_mem member
    rcases split slot worker found with ⟨same, -⟩ | idle
    · rw [same]
      intro asleep
      cases asleep
    · rw [idle]
      intro asleep
      cases asleep
  · intro _ serving'
    cases serving'
  · have none := order.closers
    rw [serving] at none
    show (pool.calls ++ [_]).countP CallPc.closes = 1
    rw [List.countP_append, none]
    rfl
  · apply sound_append
    · apply sound_newStart order stopped
      intro worker member notIdle
      obtain ⟨slot, found⟩ := List.getElem?_of_mem member
      rcases split slot worker found with ⟨same, -⟩ | idle
      · rw [same]
      · exact absurd idle notIdle
    · intro slot worker outside found
      rcases split slot worker found with ⟨-, inside⟩ | idle
      · omega
      · exact idle

theorem Orderly.joins {pool : Pool} (order : Orderly pool) (running : pool.running = true)
    (serving : pool.stop = false) :
    Orderly ({ pool with stop := true, workers := pool.workers.map wakeWorker }.begin
      (pool.stopCheck pool.starts)) := by
  constructor
  · simpa [Pool.begin] using order.someWorker
  · exact fun _ => running
  · intro stopped
    rw [show pool.running = false from stopped] at running
    cases running
  · intro _ serving'
    cases serving'
  · intro _ worker' member
    obtain ⟨worker, inside, rfl⟩ := List.mem_map.mp member
    unfold wakeWorker
    split
    · intro asleep
      cases asleep
    · assumption
  · intro _ serving'
    cases serving'
  · have none := order.closers
    rw [serving] at none
    show (pool.calls ++ [pool.stopCheck pool.starts]).countP CallPc.closes = 1
    rw [List.countP_append, none]
    simp [stopCheck_closes]
  · apply sound_append
    · exact fun call member => (order.sound call member).progress (progresses_wake _)
    · exact stopCheck_sound pool _ (Nat.le_refl _)

theorem Orderly.threadJoined {pool : Pool} (order : Orderly pool) {index slot : Nat}
    {workers : List Worker} {entered : Bool} {old new : CallPc}
    (here : pool.calls[index]? = some old)
    (joined : joinThread pool.workers slot entered = some workers) (oldCloses : old.closes = true)
    (newCloses : new.closes = true)
    (sound : old.Sound workers pool.starts → new.Sound workers pool.starts) :
    Orderly (pool.leaveJoin index slot workers new) := by
  have stopping := order.stopping_of_closes here oldCloses
  have length : workers.length = pool.workers.length := by
    rcases joinThread_cases joined with ⟨rfl, -⟩ | ⟨start, exited, rfl⟩
    · rfl
    · exact List.length_set
  refine order.carry rfl rfl rfl length (progresses_joinThread joined) ?_ ?_ ?_
    (countP_closes_set here (newCloses.trans oldCloses.symm)) ?_
  · intro serving
    rw [stopping] at serving
    cases serving
  · intro _ all worker member
    rcases joinThread_cases joined with ⟨rfl, -⟩ | ⟨start, exited, rfl⟩
    · exact all worker member
    · rcases List.mem_or_eq_of_mem_set member with inside | rfl
      · exact all worker inside
      · nofun
  · intro _ serving
    rw [stopping] at serving
    cases serving
  · exact fun before => sound_set before (sound (before old (List.mem_of_getElem? here)))

theorem Orderly.stopEnds {pool : Pool} (order : Orderly pool) {index : Nat} {old : CallPc}
    {result : CallResult} {tasks discarded : List Task} (here : pool.calls[index]? = some old)
    (closes : old.closes = true) (gone : ∀ worker ∈ pool.workers, worker.pc = .idle)
    (sound : (CallPc.returned result).Sound pool.workers pool.starts) :
    Orderly { pool with
      running := false, stop := false, tasks := tasks, discarded := discarded
      calls := pool.calls.set index (.returned result) } := by
  have stopping := order.stopping_of_closes here closes
  have counts := countP_set_add here CallPc.closes (.returned result)
  have one := order.closers
  rw [stopping, if_pos rfl] at one
  rw [one, closes] at counts
  constructor
  · exact order.someWorker
  · nofun
  · exact fun _ => gone
  · nofun
  · nofun
  · nofun
  · show (pool.calls.set index (.returned result)).countP CallPc.closes = 0
    simpa [CallPc.closes] using counts
  · exact sound_set order.sound sound

/-- Every step keeps the pool in order when joins begin in order. -/
theorem orderly_step {pool pool' : Pool} {action : Action} (order : Orderly pool)
    (inOrder : JoinsInOrder pool action) (effect : Effect pool action pool') :
    Orderly pool' := by
  cases effect with
  | exits here stopping =>
      refine order.workerMoves here nofun ?_ nofun ?_ rfl fun _ _ before => before
      · exact fun serving => absurd (stopping.symm.trans serving) nofun
      · exact fun serving => absurd (stopping.symm.trans serving) nofun
  | sleeps here serving empty =>
      refine order.workerMoves here nofun ?_ ?_ ?_ rfl fun _ _ before => before
      · exact fun _ => ⟨nofun, nofun⟩
      · exact fun stopping => absurd (serving.symm.trans stopping) nofun
      · exact fun _ queued => absurd empty queued
  | takes here serving queue =>
      refine order.workerMoves here nofun ?_ nofun ?_ rfl fun _ _ before => before
      · exact fun _ => ⟨nofun, nofun⟩
      · exact fun _ _ => ⟨_, mem_set_same here _, .inr rfl⟩
  | finishes here signalled =>
      refine order.workerMoves here nofun ?_ nofun ?_ (signalFinished_closers signalled)
        fun _ _ before => signalFinished_sound signalled before
      · exact fun _ => ⟨nofun, nofun⟩
      · exact fun _ _ => ⟨_, mem_set_same here _, .inl rfl⟩
  | accepts signalled => exact order.accepts signalled
  | refuses => exact order.begin rfl trivial
  | alreadyRunning running => exact order.begin rfl trivial
  | starts stopped startable => exact order.allStarted stopped rfl trivial
  | startFails stopped startable short => exact order.partlyStarted stopped short false
  | waitStarts stopped queued startable => exact order.allStarted stopped rfl trivial
  | waitStartFails stopped queued startable short =>
      exact order.partlyStarted stopped short true
  | waits noStart => exact order.begin (waitCheck_open pool) (waitCheck_sound pool _ _)
  | joins running =>
      have serving : pool.stop = false := by
        by_contra stopping
        exact inOrder ⟨running, by simpa using stopping⟩
      exact order.joins running serving
  | joinsStopped stopped =>
      have empty : Orderly pool.clear :=
        order.carry rfl rfl rfl rfl (.refl _) (fun _ all => all) (fun _ all => all)
          (fun _ _ queued => absurd rfl queued) rfl fun before => before
      refine empty.begin rfl ⟨Nat.le_refl _, fun worker member notIdle => ?_⟩
      exact absurd (order.idle stopped worker member) notIdle
  | waitResumes here => exact order.move here (waitCheck_open pool) (waitCheck_sound pool _ _)
  | joinResumes here =>
      have past := order.sound _ (List.mem_of_getElem? here)
      exact order.move here (stopCheck_closes pool _) (stopCheck_sound pool _ past)
  | entersJoin alone =>
      exact order.carry rfl rfl rfl rfl (.refl _) (fun _ all => all) (fun _ all => all)
        order.served rfl fun before => before
  | joinsThread here joined =>
      refine order.threadJoined here joined rfl rfl fun before => ⟨before.1, ?_⟩
      intro slot worker below found
      rcases Nat.lt_succ_iff_lt_or_eq.mp below with earlier | rfl
      · exact before.2 slot worker earlier found
      · exact joinThread_idle joined found
  | @reapsThread index started next forWaitAll entered workers here more joined =>
      refine order.threadJoined here joined rfl rfl fun before => ?_
      intro slot worker outside found
      by_cases same : slot = next
      · subst same
        exact joinThread_idle joined found
      · exact before slot worker (by omega) found
  | joinEnds here =>
      have achieved := order.sound _ (List.mem_of_getElem? here)
      have gone := order.gone_of_joined here
      exact order.stopEnds here rfl gone
        ⟨achieved.1, fun worker member notIdle => absurd (gone worker member) notIdle⟩
  | @reapEnds index started forWaitAll here =>
      apply order.stopEnds here rfl (order.gone_of_reaped here)
      cases forWaitAll <;> trivial

theorem orderly_new {numThreads : Nat} (positive : 0 < numThreads) :
    Orderly (ucbThreadpoolNew numThreads) where
  someWorker := by simp [ucbThreadpoolNew]; omega
  stopRuns := nofun
  idle := by
    intro _ worker member
    rw [List.eq_of_mem_replicate member]
  live := nofun
  stopping := nofun
  served := nofun
  closers := rfl
  sound := nofun

end Ucb.Threads
