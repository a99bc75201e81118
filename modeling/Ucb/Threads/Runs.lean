import Ucb.Threads.Order

/-!
Contract: what the results of the pool's calls say, in every run.

Owns:
- task accounting: where an accepted task is, what `ucb_threadpool_wait_all` has
  waited for, and what is left of a start that has been joined;
- what a successful `ucb_threadpool_start` leaves behind, and for how long;
- that no thread is joined by two calls at a time.

A join that begins while a failed start is being reaped breaks both, and so does
a start that finds the pool being stopped.
-/

namespace Ucb.Threads

open Ucb.Lib

/-! ## Task accounting -/

/-- A call inside `ucb_threadpool_join`. -/
def CallPc.joins : CallPc → Bool
  | .stopping _ _ => true
  | .joining _ _ => true
  | _ => false

/-- A join begins only after the joins before it have returned. -/
def OneJoiner (pool : Pool) : Action → Prop
  | .join => ∀ call ∈ pool.calls, call.joins = false
  | _ => True

instance (pool : Pool) (action : Action) : Decidable (OneJoiner pool action) := by
  unfold OneJoiner
  split <;> infer_instance

/-- No worker executes that belongs to a start which a finished join has joined. -/
def JoinsSettled (pool : Pool) : Prop :=
  ∀ start, .returned (.join start) ∈ pool.calls →
    ∀ worker ∈ pool.workers, worker.executes = true → start < worker.start

/-- The calls of `ucb_threadpool_wait_all` that return in this step, with the
workers started, leave nothing queued and nothing running. -/
def WaitsSettled (pool pool' : Pool) : Prop :=
  ∀ index : Nat, pool'.calls[index]? = some (.returned (.waitAll true)) →
    pool.calls[index]? ≠ some (.returned (.waitAll true)) →
    pool'.tasks = [] ∧ pool'.numRunning = 0

/-- A pool whose calls begin to return that a wait is over. -/
theorem waitCheck_returned {pool : Pool} {result : CallResult}
    (returned : pool.waitCheck = .returned result) : pool.tasks = [] ∧ pool.numRunning = 0 := by
  unfold Pool.waitCheck at returned
  split at returned
  next => cases returned
  next finished =>
    have finished : ¬ (0 < pool.numRunning ∨ pool.tasks ≠ []) := by
      simpa [Pool.unfinished] using finished
    constructor
    · by_contra queued
      exact finished (.inr queued)
    · omega

/-- A call that begins and is not a finished wait leaves the finished waits. -/
theorem waitsSettled_append {pool pool' : Pool} {call : CallPc}
    (calls : pool'.calls = pool.calls ++ [call])
    (new : call = .returned (.waitAll true) → pool'.tasks = [] ∧ pool'.numRunning = 0) :
    WaitsSettled pool pool' := by
  intro index here before
  rw [calls] at here
  rcases getElem?_append_cases here with ⟨-, same⟩ | old
  · exact new same.symm
  · exact absurd old before

theorem waitsSettled_set {pool pool' : Pool} {index : Nat} {call : CallPc}
    (calls : pool'.calls = pool.calls.set index call)
    (new : call = .returned (.waitAll true) → pool'.tasks = [] ∧ pool'.numRunning = 0) :
    WaitsSettled pool pool' := by
  intro position here before
  rw [calls] at here
  rcases getElem?_set_cases here with ⟨-, same⟩ | ⟨-, old⟩
  · exact new same.symm
  · exact absurd old before

theorem waitsSettled_same {pool pool' : Pool} (calls : pool'.calls = pool.calls) :
    WaitsSettled pool pool' := by
  intro index here before
  rw [calls] at here
  exact absurd here before

theorem waitsSettled_finish {pool pool' : Pool} {wake : Option Nat}
    (signalled : signalFinished pool.calls wake = some pool'.calls) : WaitsSettled pool pool' := by
  rcases signalFinished_cases signalled with ⟨same, -⟩ | ⟨index, call, -, sleeping, same⟩
  · exact waitsSettled_same same
  · apply waitsSettled_set same
    intro returned
    cases call with
    | waiting woken => cases returned
    | stopping start woken => cases returned
    | joining start next => cases sleeping
    | reaping forWaitAll started next => cases sleeping
    | returned result => cases sleeping

/-- Every step keeps the word of `ucb_threadpool_wait_all`. -/
theorem waitsSettled_step {pool pool' : Pool} {action : Action}
    (effect : Effect pool action pool') : WaitsSettled pool pool' := by
  cases effect with
  | exits here stopping => exact waitsSettled_same rfl
  | sleeps here serving empty => exact waitsSettled_same rfl
  | takes here serving queue => exact waitsSettled_same rfl
  | finishes here signalled => exact waitsSettled_finish signalled
  | accepts signalled => exact waitsSettled_append rfl nofun
  | refuses => exact waitsSettled_append rfl nofun
  | alreadyRunning running => exact waitsSettled_append rfl nofun
  | starts stopped startable => exact waitsSettled_append rfl nofun
  | startFails stopped startable short => exact waitsSettled_append rfl nofun
  | waitStarts stopped queued startable => exact waitsSettled_append rfl nofun
  | waitStartFails stopped queued startable short => exact waitsSettled_append rfl nofun
  | waits noStart => exact waitsSettled_append rfl waitCheck_returned
  | joins running =>
      apply waitsSettled_append rfl
      intro returned
      have closes := stopCheck_closes pool pool.starts
      rw [returned] at closes
      cases closes
  | joinsStopped stopped => exact waitsSettled_append rfl nofun
  | waitResumes here => exact waitsSettled_set rfl waitCheck_returned
  | @joinResumes index start here =>
      apply waitsSettled_set rfl
      intro returned
      have closes := stopCheck_closes pool start
      rw [returned] at closes
      cases closes
  | entersJoin alone => exact waitsSettled_same rfl
  | joinsThread here joined => exact waitsSettled_set rfl nofun
  | reapsThread here more joined => exact waitsSettled_set rfl nofun
  | joinEnds here => exact waitsSettled_set rfl nofun
  | @reapEnds index started forWaitAll here =>
      apply waitsSettled_set rfl
      intro returned
      cases forWaitAll <;> cases returned

theorem accounted_of_run {numThreads : Nat} {pool : Pool}
    (run : Reaches step Always (ucbThreadpoolNew numThreads) pool) : Accounted pool :=
  run.invariant (accounted_new numThreads) fun _ _ _ before _ stepped =>
    accounted_step before (effect_of_step stepped)

/-- No thread is joined by two calls at a time. -/
def Pool.JoinersApart (pool : Pool) : Prop :=
  (pool.joiners.map Prod.fst).Nodup

theorem joinersApart_step {pool pool' : Pool} {action : Action} (apart : pool.JoinersApart)
    (effect : Effect pool action pool') : pool'.JoinersApart := by
  have left (joiner : Nat × Nat) : ((pool.joiners.erase joiner).map Prod.fst).Nodup :=
    List.Nodup.sublist (List.Sublist.map Prod.fst List.erase_sublist) apart
  cases effect with
  | entersJoin alone =>
      refine List.nodup_cons.mpr ⟨fun member => ?_, apart⟩
      obtain ⟨joiner, inside, same⟩ := List.mem_map.mp member
      exact alone joiner inside same
  | joinsThread here joined => exact left _
  | reapsThread here more joined => exact left _
  | _ => exact apart

/-- `pthread_join` is defined in every run. -/
theorem joinersApart_of_run {numThreads : Nat} {pool : Pool}
    (run : Reaches step Always (ucbThreadpoolNew numThreads) pool) : pool.JoinersApart := by
  apply run.invariant List.nodup_nil
  exact fun _ _ _ apart _ stepped => joinersApart_step apart (effect_of_step stepped)

theorem orderly_of_run {numThreads : Nat} {pool : Pool} (positive : 0 < numThreads)
    (run : Reaches step JoinsInOrder (ucbThreadpoolNew numThreads) pool) : Orderly pool :=
  run.invariant (orderly_new positive) fun _ _ _ before inOrder stepped =>
    orderly_step before inOrder (effect_of_step stepped)

theorem joinsSettled_of_orderly {pool : Pool} (order : Orderly pool) : JoinsSettled pool := by
  intro start returned worker member executes
  apply (order.sound _ returned).2 worker member
  intro idle
  simp [Worker.executes, Worker.busy, idle] at executes

/-- Task accounting. In every run each accepted task is in exactly one place,
`num_running` counts the workers between taking a task and reporting it, and a
wait that returns with the workers started has waited for everything. When no
join begins while the pool is being stopped, no worker of a joined start
executes either. -/
theorem task_accounting {numThreads : Nat} (positive : 0 < numThreads) :
    (∀ pool, Reaches step Always (ucbThreadpoolNew numThreads) pool →
      (∀ task, pool.Accepted task → pool.places task = 1 ∧ pool.executed.count task ≤ 1) ∧
      pool.numRunning = pool.workers.countP Worker.executes ∧
      ∀ action pool', step pool action = some pool' → WaitsSettled pool pool') ∧
    ∀ pool, Reaches step JoinsInOrder (ucbThreadpoolNew numThreads) pool → JoinsSettled pool := by
  constructor
  · intro pool run
    have books := accounted_of_run run
    refine ⟨?_, books.counted, fun _ _ stepped => waitsSettled_step (effect_of_step stepped)⟩
    intro task accepted
    have once := books.placed task accepted
    refine ⟨once, ?_⟩
    unfold Pool.places at once
    omega
  · intro pool run
    exact joinsSettled_of_orderly (orderly_of_run positive run)

/-- One task is accepted and executed, then the pool is joined. -/
def executeThenJoin : List Action :=
  [.start 2, .addTask 0 true none, .worker 0, .finish 0 none, .worker 0, .join, .worker 0,
    .enterJoin 2, .worker 1, .joinThread 2, .enterJoin 2, .joinThread 2, .last 2]

theorem task_accounting_two_workers :
    ∃ pool, replay step (ucbThreadpoolNew 2) executeThenJoin = some pool ∧
      .returned (.join 1) ∈ pool.calls ∧ JoinsSettled pool := by
  obtain ⟨pool, replayed⟩ :
      ∃ pool, replay step (ucbThreadpoolNew 2) executeThenJoin = some pool := ⟨_, rfl⟩
  have inOrder : MeetsAll step JoinsInOrder (ucbThreadpoolNew 2) executeThenJoin := by decide
  have settled := (task_accounting (by decide)).2 pool (Reaches.of_replay replayed inOrder)
  obtain rfl := Option.some.inj replayed
  exact ⟨_, rfl, by decide, settled⟩

/-- A join overtakes the reaping of a failed start, the pool is started again, and
the reaper clears the flags of the new start: the last join finds the pool not
running. -/
def joinDuringReap : List Action :=
  [.start 0, .join, .joinThread 1, .last 1, .start 1, .addTask 0 true none, .worker 0,
    .last 0, .join]

/-- With one joiner at a time, a join can return while a worker of the start it
should have joined executes a task. -/
theorem join_returns_while_executing :
    ¬ ∀ pool, Reaches step OneJoiner (ucbThreadpoolNew 1) pool → JoinsSettled pool := by
  intro settled
  obtain ⟨pool, replayed⟩ : ∃ pool, replay step (ucbThreadpoolNew 1) joinDuringReap = some pool :=
    ⟨_, rfl⟩
  have run := Reaches.of_replay replayed (by decide : MeetsAll step OneJoiner _ joinDuringReap)
  obtain rfl := Option.some.inj replayed
  exact absurd (settled _ run 2 (by decide) ⟨2, .executing ⟨3, 0⟩⟩ (by decide) rfl) (by decide)

/-! ## Successful starts -/

/-- Calls of `ucb_threadpool_start` and `ucb_threadpool_join` that find the pool
running do not find it stopping. -/
def StartsInOrder (pool : Pool) : Action → Prop
  | .start _ => ¬ (pool.running = true ∧ pool.stop = true)
  | .join => ¬ (pool.running = true ∧ pool.stop = true)
  | _ => True

instance (pool : Pool) (action : Action) : Decidable (StartsInOrder pool action) := by
  unfold StartsInOrder
  split <;> infer_instance

def NoJoin (_ : Pool) (action : Action) : Prop :=
  action ≠ .join

/-- The pool runs and is not stopping, all of its workers are live, and queued
tasks are going to be taken. -/
structure Serving (pool : Pool) : Prop where
  running : pool.running = true
  notStopping : pool.stop = false
  live : ∀ worker ∈ pool.workers, worker.Live
  served : pool.tasks ≠ [] → ∃ worker ∈ pool.workers, worker.Awake

theorem StartsInOrder.joins {pool : Pool} {action : Action} (inOrder : StartsInOrder pool action) :
    JoinsInOrder pool action := by
  cases action with
  | join => exact inOrder
  | _ => trivial

theorem noJoin_addTask (pool : Pool) (priority : Int) (granted : Bool) (wake : Option Nat) :
    NoJoin pool (.addTask priority granted wake) :=
  nofun

theorem NoJoin.joins {pool : Pool} {action : Action} (noJoin : NoJoin pool action) :
    JoinsInOrder pool action := by
  cases action with
  | join => exact absurd rfl noJoin
  | _ => trivial

theorem Orderly.serving {pool : Pool} (order : Orderly pool) (running : pool.running = true)
    (notStopping : pool.stop = false) : Serving pool where
  running := running
  notStopping := notStopping
  live := order.live running notStopping
  served := order.served running notStopping

theorem flags_step {pool pool' : Pool} {action : Action} (order : Orderly pool)
    (noJoin : NoJoin pool action) (effect : Effect pool action pool')
    (running : pool.running = true) (notStopping : pool.stop = false) :
    pool'.running = true ∧ pool'.stop = false := by
  have noCloser := order.noCloser notStopping
  cases effect with
  | starts stopped startable => exact ⟨rfl, rfl⟩
  | startFails stopped startable short => exact absurd (running.symm.trans stopped) nofun
  | waitStarts stopped queued startable => exact ⟨rfl, rfl⟩
  | waitStartFails stopped queued startable short =>
      exact absurd (running.symm.trans stopped) nofun
  | joins running => exact absurd rfl noJoin
  | joinsStopped stopped => exact absurd rfl noJoin
  | joinEnds here => exact absurd (noCloser _ (List.mem_of_getElem? here)) nofun
  | reapEnds here => exact absurd (noCloser _ (List.mem_of_getElem? here)) nofun
  | _ => exact ⟨running, notStopping⟩

theorem serving_of_run {pool later : Pool} (order : Orderly pool) (serving : Serving pool)
    (run : Reaches step NoJoin pool later) : Serving later := by
  have both : Orderly later ∧ later.running = true ∧ later.stop = false := by
    apply run.invariant
    · exact ⟨order, serving.running, serving.notStopping⟩
    · intro before action after holds meets stepped
      have effect := effect_of_step stepped
      refine ⟨orderly_step holds.1 meets.joins effect, ?_⟩
      exact flags_step holds.1 meets effect holds.2.1 holds.2.2
  exact both.1.serving both.2.1 both.2.2

/-- A successful start means a running pool. When starts and joins do not find
the pool being stopped, the step in which `ucb_threadpool_start` comes to return
true leaves the pool serving, and it serves until a join begins. -/
theorem start_serves {numThreads : Nat} {pool pool' later : Pool} {started : Nat}
    (positive : 0 < numThreads)
    (run : Reaches step StartsInOrder (ucbThreadpoolNew numThreads) pool)
    (inOrder : StartsInOrder pool (.start started))
    (stepped : step pool (.start started) = some pool')
    (returned : pool'.calls[pool.calls.length]? = some (.returned (.start true)))
    (continued : Reaches step NoJoin pool' later) : Serving pool' ∧ Serving later := by
  have order : Orderly pool :=
    orderly_of_run positive (run.weaken fun _ _ => StartsInOrder.joins)
  have effect := effect_of_step stepped
  have order' := orderly_step order inOrder.joins effect
  have serving : Serving pool' := by
    cases effect with
    | alreadyRunning running =>
        apply order'.serving running
        by_contra stopping
        exact inOrder ⟨running, by simpa [Pool.begin] using stopping⟩
    | starts stopped startable => exact order'.serving rfl rfl
    | startFails stopped startable short =>
        simp [Pool.begin, Pool.partlyStarted] at returned
  exact ⟨serving, serving_of_run order' serving continued⟩

theorem start_serves_two_workers :
    ∃ pool later, step (ucbThreadpoolNew 2) (.start 2) = some pool ∧
      step pool (.addTask 0 true none) = some later ∧ Serving pool ∧ Serving later := by
  refine ⟨_, _, rfl, rfl, ?_⟩
  have inOrder : StartsInOrder (ucbThreadpoolNew 2) (.start 2) := by decide
  apply start_serves (by decide : 0 < 2) (Reaches.refl _) inOrder rfl rfl
  exact (Reaches.refl _).next (noJoin_addTask _ 0 true none) rfl

/-- A start that failed is stopping the pool; the next start finds the pool
running and returns true. -/
theorem start_returns_while_stopping :
    ¬ ∀ pool pool' : Pool, Reaches step Always (ucbThreadpoolNew 1) pool →
      step pool (.start 1) = some pool' →
      pool'.calls[pool.calls.length]? = some (.returned (.start true)) → Serving pool' := by
  intro serves
  have failed : step (ucbThreadpoolNew 1) (.start 0) = some
      ((ucbThreadpoolNew 1).partlyStarted 0 |>.begin (.reaping false 0 0)) := by decide
  have serving := serves _ _ ((Reaches.refl _).next trivial failed) rfl rfl
  exact absurd serving.notStopping (by decide)

end Ucb.Threads
