import Ucb.Threads.Threadpool
import Mathlib.Data.List.Basic

/-!
Contract: what one step of the thread pool can do.

Owns:
- `Effect`, one constructor for each way through a critical section, with the
  guards the code has checked on that way;
- that every step is one of them.

Proofs about runs go by the cases of `Effect` and do not unfold the sections.
-/

namespace Ucb.Threads

/-- The pool after `ucb_threadpool_start_impl` has started all threads. -/
def Pool.allStarted (pool : Pool) : Pool :=
  { pool with
    stop := false, running := true, starts := pool.starts + 1
    workers := List.replicate pool.workers.length ⟨pool.starts + 1, .ready⟩ }

/-- The pool after `ucb_threadpool_start_impl` has started some threads only. -/
def Pool.partlyStarted (pool : Pool) (started : Nat) : Pool :=
  { pool with
    stop := true, running := true, starts := pool.starts + 1
    workers := (startThreads (pool.starts + 1) started pool.workers).map wakeWorker }

/-- The slots that `ucb_thread_start` is called on have no running thread. -/
def Pool.Startable (pool : Pool) (started : Nat) : Prop :=
  ∀ worker ∈ pool.workers.take (started + 1), worker.startable = true

/-- The ways through the critical sections. -/
inductive Effect (pool : Pool) : Action → Pool → Prop
  | exits {slot start : Nat} (here : pool.workers[slot]? = some ⟨start, .ready⟩)
      (stopping : pool.stop = true) :
      Effect pool (.worker slot) { pool with workers := pool.workers.set slot ⟨start, .exited⟩ }
  | sleeps {slot start : Nat} (here : pool.workers[slot]? = some ⟨start, .ready⟩)
      (serving : pool.stop = false) (empty : pool.tasks = []) :
      Effect pool (.worker slot) { pool with workers := pool.workers.set slot ⟨start, .asleep⟩ }
  | takes {slot start : Nat} {task : Task} {rest : List Task}
      (here : pool.workers[slot]? = some ⟨start, .ready⟩) (serving : pool.stop = false)
      (queue : pool.tasks = task :: rest) :
      Effect pool (.worker slot) { pool with
        tasks := rest, numRunning := pool.numRunning + 1
        workers := pool.workers.set slot ⟨start, .executing task⟩ }
  | finishes {slot start : Nat} {task : Task} {wake : Option Nat} {calls : List CallPc}
      (here : pool.workers[slot]? = some ⟨start, .executing task⟩)
      (signalled : signalFinished pool.calls wake = some calls) :
      Effect pool (.finish slot wake) { pool with
        numRunning := pool.numRunning - 1, calls := calls, executed := pool.executed ++ [task]
        workers := pool.workers.set slot ⟨start, .ready⟩ }
  | accepts {priority : Int} {wake : Option Nat} {workers : List Worker}
      (signalled : (pool.running = true ∧ signalTask pool.workers wake = some workers) ∨
        (pool.running = false ∧ workers = pool.workers)) :
      Effect pool (.addTask priority true wake) { pool with
        tasks := pqueuePush ⟨pool.calls.length, priority⟩ pool.tasks, workers := workers
        calls := pool.calls ++ [.returned (.addTask (some ⟨pool.calls.length, priority⟩))] }
  | refuses {priority : Int} {wake : Option Nat} :
      Effect pool (.addTask priority false wake) (pool.begin (.returned (.addTask none)))
  | alreadyRunning {started : Nat} (running : pool.running = true) :
      Effect pool (.start started) (pool.begin (.returned (.start true)))
  | starts (stopped : pool.running = false) (startable : pool.Startable pool.workers.length) :
      Effect pool (.start pool.workers.length)
        (pool.allStarted.begin (.returned (.start true)))
  | startFails {started : Nat} (stopped : pool.running = false)
      (startable : pool.Startable started) (short : started < pool.workers.length) :
      Effect pool (.start started) ((pool.partlyStarted started).begin (.reaping false started 0))
  | waitStarts (stopped : pool.running = false) (queued : pool.tasks ≠ [])
      (startable : pool.Startable pool.workers.length) :
      Effect pool (.waitAll pool.workers.length) (pool.allStarted.begin (.waiting false))
  | waitStartFails {started : Nat} (stopped : pool.running = false) (queued : pool.tasks ≠ [])
      (startable : pool.Startable started) (short : started < pool.workers.length) :
      Effect pool (.waitAll started) ((pool.partlyStarted started).begin (.reaping true started 0))
  | waits {started : Nat} (noStart : pool.running = true ∨ pool.tasks = []) :
      Effect pool (.waitAll started) (pool.begin pool.waitCheck)
  | joins (running : pool.running = true) :
      Effect pool .join ({ pool with
        stop := true, workers := pool.workers.map wakeWorker }.begin (pool.stopCheck pool.starts))
  | joinsStopped (stopped : pool.running = false) :
      Effect pool .join (pool.clear.begin (.returned (.join pool.starts)))
  | waitResumes {index : Nat} (here : pool.calls[index]? = some (.waiting true)) :
      Effect pool (.resume index) (pool.move index pool.waitCheck)
  | joinResumes {index start : Nat} (here : pool.calls[index]? = some (.stopping start true)) :
      Effect pool (.resume index) (pool.move index (pool.stopCheck start))
  | entersJoin {index slot : Nat} (alone : ∀ joiner ∈ pool.joiners, joiner.1 ≠ slot) :
      Effect pool (.enterJoin index) { pool with joiners := (slot, index) :: pool.joiners }
  | joinsThread {index start next : Nat} {entered : Bool} {workers : List Worker}
      (here : pool.calls[index]? = some (.joining start next))
      (joined : joinThread pool.workers next entered = some workers) :
      Effect pool (.joinThread index)
        (pool.leaveJoin index next workers (.joining start (next + 1)))
  | reapsThread {index started next : Nat} {forWaitAll entered : Bool} {workers : List Worker}
      (here : pool.calls[index]? = some (.reaping forWaitAll started next))
      (more : next < started) (joined : joinThread pool.workers next entered = some workers) :
      Effect pool (.joinThread index)
        (pool.leaveJoin index next workers (.reaping forWaitAll started (next + 1)))
  | joinEnds {index start : Nat}
      (here : pool.calls[index]? = some (.joining start pool.workers.length)) :
      Effect pool (.last index)
        ({ pool with running := false, stop := false }.clear.move index (.returned (.join start)))
  | reapEnds {index started : Nat} {forWaitAll : Bool}
      (here : pool.calls[index]? = some (.reaping forWaitAll started started)) :
      Effect pool (.last index) ({ pool with running := false, stop := false }.move index
        (.returned (if forWaitAll then .waitAll false else .start false)))

theorem startImpl_eq_some {pool pool' : Pool} {started : Nat}
    (ran : startImpl pool started = some pool') :
    pool.Startable started ∧ started ≤ pool.workers.length ∧
      pool' = if started = pool.workers.length then pool.allStarted
        else pool.partlyStarted started := by
  unfold startImpl at ran
  split at ran
  · rename_i possible
    obtain ⟨inside, startable⟩ := possible
    refine ⟨List.all_eq_true.mp startable, inside, ?_⟩
    split at ran
    · rename_i whole
      obtain rfl := Option.some.inj ran
      rw [if_pos whole, Pool.allStarted, startThreads, whole, List.drop_length, List.append_nil]
    · rename_i short
      obtain rfl := Option.some.inj ran
      rw [if_neg short]
      rfl
  · cases ran

theorem effect_worker {pool pool' : Pool} {slot : Nat}
    (ran : workerSection pool slot = some pool') : Effect pool (.worker slot) pool' := by
  unfold workerSection at ran
  split at ran
  · rename_i start here
    split at ran
    · rename_i stopping
      obtain rfl := Option.some.inj ran
      exact .exits here stopping
    · rename_i serving empty
      obtain rfl := Option.some.inj ran
      exact .sleeps here serving empty
    · rename_i task rest serving queue
      obtain rfl := Option.some.inj ran
      exact .takes here serving queue
  · cases ran

theorem effect_finish {pool pool' : Pool} {slot : Nat} {wake : Option Nat}
    (ran : finishSection pool slot wake = some pool') : Effect pool (.finish slot wake) pool' := by
  unfold finishSection at ran
  split at ran
  · rename_i start task here
    obtain ⟨calls, signalled, rfl⟩ := Option.map_eq_some_iff.mp ran
    exact .finishes here signalled
  · cases ran

theorem effect_addTask {pool pool' : Pool} {priority : Int} {granted : Bool} {wake : Option Nat}
    (ran : ucbThreadpoolAddTask pool priority granted wake = some pool') :
    Effect pool (.addTask priority granted wake) pool' := by
  unfold ucbThreadpoolAddTask at ran
  cases granted with
  | false =>
      obtain rfl := Option.some.inj ran
      exact .refuses
  | true =>
      simp only [if_true] at ran
      split at ran
      · rename_i running
        obtain ⟨workers, signalled, rfl⟩ := Option.map_eq_some_iff.mp ran
        exact .accepts (.inl ⟨running, signalled⟩)
      · rename_i stopped
        obtain rfl := Option.some.inj ran
        exact .accepts (.inr ⟨by simpa using stopped, rfl⟩)

theorem effect_start {pool pool' : Pool} {started : Nat}
    (ran : ucbThreadpoolStart pool started = some pool') :
    Effect pool (.start started) pool' := by
  unfold ucbThreadpoolStart at ran
  split at ran
  · rename_i running
    obtain rfl := Option.some.inj ran
    exact .alreadyRunning running
  · rename_i stopped
    have stopped : pool.running = false := by simpa using stopped
    obtain ⟨middle, did, rfl⟩ := Option.map_eq_some_iff.mp ran
    obtain ⟨startable, inside, rfl⟩ := startImpl_eq_some did
    by_cases whole : started = pool.workers.length
    · subst whole
      simp only [if_true]
      exact .starts stopped startable
    · simp only [if_neg whole]
      exact .startFails stopped startable (by omega)

theorem effect_waitAll {pool pool' : Pool} {started : Nat}
    (ran : ucbThreadpoolWaitAll pool started = some pool') :
    Effect pool (.waitAll started) pool' := by
  unfold ucbThreadpoolWaitAll at ran
  split at ran
  · rename_i needed
    obtain ⟨stopped, queued⟩ := needed
    obtain ⟨middle, did, rfl⟩ := Option.map_eq_some_iff.mp ran
    obtain ⟨startable, inside, rfl⟩ := startImpl_eq_some did
    by_cases whole : started = pool.workers.length
    · subst whole
      have unfinished : pool.allStarted.waitCheck = .waiting false := by
        simp [Pool.waitCheck, Pool.unfinished, Pool.allStarted, queued]
      simp only [if_true, unfinished]
      exact .waitStarts stopped queued startable
    · simp only [if_neg whole]
      exact .waitStartFails stopped queued startable (by omega)
  · rename_i noStart
    obtain rfl := Option.some.inj ran
    refine .waits ?_
    by_cases queued : pool.tasks = []
    · exact .inr queued
    · exact .inl (by simpa [queued] using noStart)

theorem effect_join (pool : Pool) : Effect pool .join (ucbThreadpoolJoin pool) := by
  unfold ucbThreadpoolJoin
  split
  · rename_i running
    exact .joins running
  · rename_i stopped
    exact .joinsStopped (by simpa using stopped)

theorem effect_resume {pool pool' : Pool} {index : Nat}
    (ran : resumeSection pool index = some pool') : Effect pool (.resume index) pool' := by
  unfold resumeSection at ran
  split at ran
  · rename_i here
    obtain rfl := Option.some.inj ran
    exact .waitResumes here
  · rename_i start here
    obtain rfl := Option.some.inj ran
    exact .joinResumes here
  · cases ran

theorem effect_enterJoin {pool pool' : Pool} {index : Nat}
    (ran : enterJoin pool index = some pool') : Effect pool (.enterJoin index) pool' := by
  unfold enterJoin at ran
  split at ran
  · split at ran
    · split at ran
      · rename_i possible
        obtain rfl := Option.some.inj ran
        exact .entersJoin possible.2
      · cases ran
    · cases ran
  · cases ran

theorem effect_joinThread {pool pool' : Pool} {index : Nat}
    (ran : joinStep pool index = some pool') : Effect pool (.joinThread index) pool' := by
  unfold joinStep at ran
  split at ran
  · rename_i start next here
    split at ran
    · obtain ⟨workers, joined, rfl⟩ := Option.map_eq_some_iff.mp ran
      exact .joinsThread here joined
    · cases ran
  · rename_i forWaitAll started next here
    split at ran
    · rename_i more
      obtain ⟨workers, joined, rfl⟩ := Option.map_eq_some_iff.mp ran
      exact .reapsThread here more joined
    · cases ran
  · cases ran

theorem effect_last {pool pool' : Pool} {index : Nat}
    (ran : lastSection pool index = some pool') : Effect pool (.last index) pool' := by
  unfold lastSection at ran
  split at ran
  · rename_i start next here
    split at ran
    · rename_i atEnd
      subst atEnd
      obtain rfl := Option.some.inj ran
      exact .joinEnds here
    · cases ran
  · rename_i forWaitAll started next here
    split at ran
    · rename_i atEnd
      subst atEnd
      obtain rfl := Option.some.inj ran
      exact .reapEnds here
    · cases ran
  · cases ran

/-- Every step is one of the ways through a critical section. -/
theorem effect_of_step {pool pool' : Pool} {action : Action}
    (stepped : step pool action = some pool') : Effect pool action pool' := by
  cases action with
  | worker slot => exact effect_worker stepped
  | finish slot wake => exact effect_finish stepped
  | addTask priority granted wake => exact effect_addTask stepped
  | start started => exact effect_start stepped
  | waitAll started => exact effect_waitAll stepped
  | join =>
      obtain rfl := Option.some.inj stepped
      exact effect_join pool
  | resume index => exact effect_resume stepped
  | enterJoin index => exact effect_enterJoin stepped
  | joinThread index => exact effect_joinThread stepped
  | last index => exact effect_last stepped

end Ucb.Threads
