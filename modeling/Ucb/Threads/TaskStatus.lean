import Ucb.Threads.ThreadSafety

/-!
Contract: what a joinable thread tells about its tasks, and who frees a detached one.

Owns:
- that at most one task is executing on an object, that a join waits for it, and
  that a status is the one that the task of the last start has returned;
- that the object has an id then, unless a later start has failed;
- that a detached thread is freed once, behind its task, and touched by nobody
  afterwards.
-/

namespace Ucb.Threads.Thread

open Ucb.Lib

/-! ## Threads on one object -/

/-- Before `running` is reset. -/
def WorkerPc.Active (pc : WorkerPc) : Prop :=
  pc ≠ .leaving ∧ pc ≠ .freeing ∧ pc ≠ .gone

/-- What a thread knows of its result. -/
def Worker.Coherent (worker : Worker) : Prop :=
  match worker.pc with
  | .created | .calling | .executing _ => worker.result = none
  | .returned status | .inCallback status | .storing status => worker.result = some status
  | .flagging | .stopping | .leaving | .freeing | .gone => ∃ status, worker.result = some status

variable {world after : World} {index : Nat} {worker worker' : Worker}
variable {object object' : UcbThread}

theorem Turn.coherent (turn : Turn index object worker object' worker')
    (coherent : worker.Coherent) : worker'.Coherent := by
  cases turn with
  | returns here => rfl
  | passes here =>
      rcases here with here | here <;> rw [Worker.Coherent, here] at coherent <;> exact coherent
  | stores here =>
      rw [Worker.Coherent, here] at coherent
      exact ⟨_, coherent⟩
  | names here | calls here | notifies here | flags here | stops here | leaves here | owns here =>
      rw [Worker.Coherent, here] at coherent
      exact coherent

/-- What a task has returned stays. -/
theorem Turn.keeps_result (turn : Turn index object worker object' worker')
    (coherent : worker.Coherent) {status : Int} (known : worker.result = some status) :
    worker'.result = some status := by
  cases turn with
  | returns here =>
      rw [Worker.Coherent, here] at coherent
      exact absurd (coherent.symm.trans known) (by simp)
  | _ => exact known

/-- A thread that stays in its task leaves `running` alone. -/
theorem Turn.active (turn : Turn index object worker object' worker') (active : worker'.pc.Active) :
    worker.pc.Active ∧ object'.running = object.running := by
  cases turn with
  | stops here => exact absurd rfl active.1
  | leaves here => exact absurd rfl active.2.2
  | owns here => exact absurd rfl active.2.1
  | passes here => rcases here with here | here <;> simp [WorkerPc.Active, here]
  | _ here => simp [WorkerPc.Active, here]

/-- Behind its task a thread changes nothing. -/
theorem Turn.object_eq (turn : Turn index object worker object' worker')
    (ended : ¬ worker.pc.Active) : object' = object := by
  cases turn with
  | names here => exact absurd ⟨by simp [here], by simp [here], by simp [here]⟩ ended
  | stores here => exact absurd ⟨by simp [here], by simp [here], by simp [here]⟩ ended
  | flags here => exact absurd ⟨by simp [here], by simp [here], by simp [here]⟩ ended
  | stops here => exact absurd ⟨by simp [here], by simp [here], by simp [here]⟩ ended
  | _ => rfl

theorem Turn.hasStatus (turn : Turn index object worker object' worker')
    (known : object.hasStatus = true) : object'.hasStatus = true := by
  cases turn with
  | flags => rfl
  | _ => exact known

theorem Worker.Coherent.returned (coherent : worker.Coherent) (ended : ¬ worker.pc.Active) :
    ∃ status, worker.result = some status := by
  cases here : worker.pc <;> rw [Worker.Coherent, here] at coherent
  case leaving | freeing | gone => exact coherent
  all_goals exact absurd ⟨by simp [here], by simp [here], by simp [here]⟩ ended

/-- With the object gone a step is a fault, or is none of the object's. -/
theorem wrapper_cases {result : Int}
    (ran : posixThreadWrapper world index worker result worker.pc = some after) :
    (∃ object worker', Turn index world.object worker object worker' ∧
      after = { world with object := object, workers := world.workers.set index worker' }) ∨
    after = { world with fault := true } ∨ worker.pc = .freeing := by
  by_cases alive : world.freed = 0
  · rcases turn_of_wrapper alive ran with turn | ⟨freeing, -⟩
    · exact .inl turn
    · exact .inr (.inr freeing)
  · have faults {does : World → World} (ran : some (world.touch does) = some after) :
        after = { world with fault := true } :=
      (Option.some.inj ran).symm.trans (if_neg alive)
    cases here : worker.pc <;> rw [here] at ran
    case executing func =>
      exact .inl ⟨_, _, .returns here result, (Option.some.inj ran).symm⟩
    case inCallback status =>
      exact .inl ⟨_, _, .passes (.inr here), (Option.some.inj ran).symm⟩
    case freeing => exact .inr (.inr rfl)
    case gone => cases ran
    all_goals exact .inr (.inl (faults ran))

/-! ## The status of a joinable thread -/

/-- The object speaks of the thread of the last start, and no other one is in its task. -/
structure Telling (world : World) : Prop where
  joinable : world.object.detached = false
  coherent : ∀ (index : Nat) (worker : Worker), world.workers[index]? = some worker →
    worker.Coherent ∧ worker.pc ≠ .freeing
  active : ∀ (index : Nat) (worker : Worker), world.workers[index]? = some worker →
    worker.pc.Active → index + 1 = world.workers.length ∧ world.object.running = true ∧
      (world.owner = .storing index ∨ (world.object.handle = some index ∧
        (world.owner = .idle ∨ ∃ thenFree, world.owner = .joining thenFree)))
  storing : ∀ handle, world.owner = .storing handle → handle + 1 = world.workers.length
  starting : world.owner = .creating ∨ world.owner = .failing → world.object.hasStatus = false ∧
    world.object.id = none
  running : world.owner = .creating → world.object.running = true
  flagging : ∀ (index : Nat) (worker : Worker), world.workers[index]? = some worker →
    (worker.pc = .flagging → worker.result = some world.object.status) ∧
      (worker.pc = .stopping → world.object.hasStatus = true)
  status : world.object.hasStatus = true → ∃ worker : Worker,
    world.workers[world.workers.length - 1]? = some worker ∧
      worker.result = some world.object.status ∧ (worker.pc.Active → worker.pc = .stopping)
  id : ∀ index, world.object.id = some index → index + 1 = world.workers.length ∧
    ∀ worker : Worker, world.workers[index]? = some worker → ¬ worker.pc.Active →
      world.object.hasStatus = true
  answers : ∀ answer ∈ world.answers, ∀ status, answer.status = some status →
    0 < answer.started ∧ ∃ worker : Worker, world.workers[answer.started - 1]? = some worker ∧
      worker.result = some status

theorem Telling.fault (telling : Telling world) : Telling { world with fault := true } :=
  ⟨telling.joinable, telling.coherent, telling.active, telling.storing, telling.starting,
    telling.running, telling.flagging, telling.status, telling.id, telling.answers⟩

/-- A thread that is in its task is the last one, and the owner is not about to start another. -/
theorem Telling.last (telling : Telling world) (here : world.workers[index]? = some worker)
    (active : worker.pc.Active) : index = world.workers.length - 1 ∧ world.owner ≠ .creating ∧
      world.owner ≠ .failing := by
  obtain ⟨last, -, at_⟩ := telling.active index worker here active
  refine ⟨by omega, ?_, ?_⟩ <;> intro same <;> rw [same] at at_ <;> simp at at_

/-- A status that is known after a turn is that of the last thread. -/
theorem Telling.turn_status (telling : Telling world) (here : world.workers[index]? = some worker)
    (turn : Turn index world.object worker object' worker') (known : object'.hasStatus = true) :
    ∃ moved : Worker, (world.workers.set index worker')[world.workers.length - 1]? = some moved ∧
      moved.result = some object'.status ∧ (moved.pc.Active → moved.pc = .stopping) := by
  by_cases active : worker.pc.Active
  · have last := (telling.last here active).1
    have before (known : world.object.hasStatus = true) :
        worker.result = some world.object.status ∧ worker.pc = .stopping := by
      obtain ⟨moved, found, result, stopping⟩ := telling.status known
      rw [← last, here] at found
      obtain rfl := Option.some.inj found
      exact ⟨result, stopping active⟩
    refine ⟨worker', by rw [← last]; exact getElem?_set_same here worker', ?_⟩
    cases turn with
    | flags here' => exact ⟨(telling.flagging index worker here).1 here', fun _ => rfl⟩
    | stops here' =>
        exact ⟨(before ((telling.flagging index worker here).2 here')).1,
          fun active => absurd rfl active.1⟩
    | passes here' =>
        have stopping := (before known).2
        rcases here' with here' | here' <;> exact absurd (here'.symm.trans stopping) (by simp)
    | _ here' => exact absurd (here'.symm.trans (before known).2) (by simp)
  · rw [turn.object_eq active] at known ⊢
    obtain ⟨moved, found, result, stopping⟩ := telling.status known
    by_cases same : index = world.workers.length - 1
    · rw [← same] at found ⊢
      obtain rfl := Option.some.inj (here.symm.trans found)
      exact ⟨worker', getElem?_set_same here worker',
        turn.keeps_result (telling.coherent index worker here).1 result,
        fun active' => absurd (turn.active active').1 active⟩
    · exact ⟨moved, by rw [List.getElem?_set_ne same]; exact found, result, stopping⟩

theorem Telling.turn_id (telling : Telling world) (here : world.workers[index]? = some worker)
    (turn : Turn index world.object worker object' worker') {position : Nat}
    (same : object'.id = some position) : position + 1 = world.workers.length ∧
      ∀ moved : Worker, (world.workers.set index worker')[position]? = some moved →
        ¬ moved.pc.Active → object'.hasStatus = true := by
  by_cases named : world.object.id = some position
  · obtain ⟨last, known⟩ := telling.id position named
    refine ⟨last, fun moved found ended => ?_⟩
    rcases getElem?_set_cases found with ⟨rfl, rfl⟩ | ⟨-, found'⟩
    · by_cases active : worker.pc.Active
      · have stops : worker.pc = .stopping := by
          cases turn with
          | stops here' => exact here'
          | leaves here' => exact absurd here' active.1
          | owns here' => exact absurd here' active.1
          | _ => exact absurd ⟨by simp, by simp, by simp⟩ ended
        exact turn.hasStatus ((telling.flagging _ worker here).2 stops)
      · exact turn.hasStatus (known worker here active)
    · exact turn.hasStatus (known moved found' ended)
  · cases turn with
    | names here' =>
        obtain rfl := Option.some.inj same
        refine ⟨(telling.active _ worker here ⟨by simp [here'], by simp [here'], by simp [here']⟩).1,
          fun moved found ended => ?_⟩
        rw [getElem?_set_same here] at found
        obtain rfl := Option.some.inj found
        exact absurd ⟨by simp, by simp, by simp⟩ ended
    | _ => exact absurd same named

theorem Telling.turn (telling : Telling world) (here : world.workers[index]? = some worker)
    (turn : Turn index world.object worker object' worker') :
    Telling { world with object := object', workers := world.workers.set index worker' } := by
  obtain ⟨coherent, notFreeing⟩ := telling.coherent index worker here
  have there := getElem?_set_same here worker'
  have length : (world.workers.set index worker').length = world.workers.length :=
    List.length_set
  have others {position : Nat} {moved : Worker} (apart : position ≠ index) :
      (world.workers.set index worker')[position]? = some moved ↔
        world.workers[position]? = some moved := by
    rw [List.getElem?_set_ne (Ne.symm apart)]
  -- what another thread sees of the object is as before, when it is in its task
  have unseen {position : Nat} {moved : Worker} (apart : position ≠ index)
      (found : world.workers[position]? = some moved) (active : moved.pc.Active) :
      object' = world.object := by
    refine turn.object_eq fun active' => apart ?_
    rw [(telling.last found active).1, (telling.last here active').1]
  have unstarted (owner : world.owner = .creating ∨ world.owner = .failing) :
      object' = world.object := by
    refine turn.object_eq fun active => ?_
    rcases owner with same | same
    · exact (telling.last here active).2.1 same
    · exact (telling.last here active).2.2 same
  constructor
  · exact turn.detached.trans telling.joinable
  · intro position moved found
    rcases getElem?_set_cases found with ⟨-, rfl⟩ | ⟨-, found'⟩
    · exact ⟨turn.coherent coherent, fun freeing =>
        absurd (turn.freeing freeing) (by simp [telling.joinable])⟩
    · exact telling.coherent position moved found'
  · intro position moved found active
    simp only [length, turn.handle]
    rcases getElem?_set_cases found with ⟨rfl, rfl⟩ | ⟨apart, found'⟩
    · obtain ⟨active', same⟩ := turn.active active
      rw [same]
      exact telling.active _ worker here active'
    · rw [unseen apart found' active]
      exact telling.active position moved found' active
  · intro handle storing
    simp only [length]
    exact telling.storing handle storing
  · intro owner
    rw [unstarted owner]
    exact telling.starting owner
  · intro creating
    rw [unstarted (.inl creating)]
    exact telling.running creating
  · intro position moved found
    rcases getElem?_set_cases found with ⟨rfl, rfl⟩ | ⟨apart, found'⟩
    · refine ⟨fun flagging => ?_, fun stopping => ?_⟩
      · cases turn with
        | stores here' =>
            rw [Worker.Coherent, here'] at coherent
            exact coherent
        | _ => cases flagging
      · cases turn with
        | flags => rfl
        | _ => cases stopping
    · obtain ⟨flags, stops⟩ := telling.flagging position moved found'
      refine ⟨fun flagging => ?_, fun stopping => turn.hasStatus (stops stopping)⟩
      rw [unseen apart found' (by simp [WorkerPc.Active, flagging])]
      exact flags flagging
  · intro known
    obtain ⟨moved, found, result, stopping⟩ : ∃ moved : Worker,
        (world.workers.set index worker')[world.workers.length - 1]? = some moved ∧
          moved.result = some object'.status ∧ (moved.pc.Active → moved.pc = .stopping) :=
      telling.turn_status here turn known
    exact ⟨moved, by rw [length]; exact found, result, stopping⟩
  · intro position same
    obtain ⟨last, known⟩ := telling.turn_id here turn same
    exact ⟨by rw [length]; exact last, known⟩
  · intro answer member status same
    obtain ⟨started, moved, found, known⟩ := telling.answers answer member status same
    refine ⟨started, ?_⟩
    by_cases apart : answer.started - 1 = index
    · rw [apart] at found ⊢
      obtain rfl := Option.some.inj (here.symm.trans found)
      exact ⟨worker', there, turn.keeps_result coherent known⟩
    · exact ⟨moved, (others apart).mpr found, known⟩

theorem Telling.touch {does : World → World} (telling : Telling world)
    (keeps : world.freed = 0 → Telling (does world)) : Telling (world.touch does) := by
  rw [World.touch]
  split
  next alive => exact keeps alive
  next => exact telling.fault

theorem Telling.calls (telling : Telling world) (calls : List Call) :
    Telling { world with calls := calls } :=
  ⟨telling.joinable, telling.coherent, telling.active, telling.storing, telling.starting,
    telling.running, telling.flagging, telling.status, telling.id, telling.answers⟩

theorem Telling.aborted (telling : Telling world) : Telling { world with aborted := true } :=
  ⟨telling.joinable, telling.coherent, telling.active, telling.storing, telling.starting,
    telling.running, telling.flagging, telling.status, telling.id, telling.answers⟩

/-- Where no task is executing, the owner may go on to anything but a step of a start. -/
theorem Telling.rests (telling : Telling world)
    (ended : ∀ (index : Nat) (worker : Worker), world.workers[index]? = some worker →
      ¬ worker.pc.Active) (handle : Option Nat) (running : Bool) (owner : OwnerPc)
    (elsewhere : owner ≠ .creating ∧ owner ≠ .failing ∧ ∀ handle, owner ≠ .storing handle) :
    Telling { world with
      object := { world.object with handle := handle, running := running }, owner := owner } :=
  ⟨telling.joinable, telling.coherent,
    fun index worker here active => absurd active (ended index worker here),
    fun handle storing => absurd storing (elsewhere.2.2 handle),
    fun same => absurd same (by simp [elsewhere]),
    fun same => absurd same elsewhere.1, telling.flagging, telling.status, telling.id,
    telling.answers⟩

theorem Telling.freed (telling : Telling world) (freed : Nat) :
    Telling { world with freed := freed } :=
  ⟨telling.joinable, telling.coherent, telling.active, telling.storing, telling.starting,
    telling.running, telling.flagging, telling.status, telling.id, telling.answers⟩

theorem Telling.ended (telling : Telling world)
    (behind : world.owner = .freeing ∨ ∃ thenFree, world.owner = .joined thenFree) (index : Nat)
    (worker : Worker) (here : world.workers[index]? = some worker) : ¬ worker.pc.Active := by
  intro active
  obtain ⟨-, -, at_⟩ := telling.active index worker here active
  rcases behind with same | ⟨thenFree, same⟩ <;> rw [same] at at_ <;> simp at at_

theorem Telling.joins (telling : Telling world) (idle : world.owner = .idle) (thenFree : Bool) :
    Telling { world with owner := .joining thenFree } := by
  refine ⟨telling.joinable, telling.coherent, fun index worker here active => ?_,
    fun handle storing => absurd storing (by simp), fun same => absurd same (by simp),
    fun same => absurd same (by simp), telling.flagging, telling.status, telling.id,
    telling.answers⟩
  obtain ⟨last, running, at_⟩ := telling.active index worker here active
  rw [idle] at at_
  rcases at_ with absent | ⟨handle, -⟩
  · cases absent
  · exact ⟨last, running, .inr ⟨handle, .inr ⟨thenFree, rfl⟩⟩⟩

theorem Telling.starts (telling : Telling world) (stopped : ¬ world.object.running = true)
    (task : UcbTask) : Telling { world with
      object := { world.object with task := task, running := true, hasStatus := false, id := none }
      owner := .creating } := by
  have ended (index : Nat) (worker : Worker) (here : world.workers[index]? = some worker) :
      ¬ worker.pc.Active :=
    fun active => stopped (telling.active index worker here active).2.1
  refine ⟨telling.joinable, telling.coherent, fun index worker here active => ?_,
    fun handle storing => absurd storing (by simp), fun _ => ⟨rfl, rfl⟩, fun _ => rfl,
    fun index worker here => ⟨fun flagging => ?_, fun stopping => ?_⟩,
    fun absent => absurd absent (by simp), fun index absent => absurd absent (by simp),
    telling.answers⟩
  · exact absurd active (ended index worker here)
  · exact absurd ⟨by simp [flagging], by simp [flagging], by simp [flagging]⟩
      (ended index worker here)
  · exact absurd ⟨by simp [stopping], by simp [stopping], by simp [stopping]⟩
      (ended index worker here)

theorem Telling.asked (telling : Telling world) : Telling { world with
    answers := ⟨world.workers.length,
      if world.object.hasStatus then some world.object.status else none⟩ :: world.answers } := by
  refine ⟨telling.joinable, telling.coherent, telling.active, telling.storing, telling.starting,
    telling.running, telling.flagging, telling.status, telling.id,
    fun answer member status same => ?_⟩
  rcases List.mem_cons.mp member with rfl | member'
  · cases known : world.object.hasStatus with
    | false => simp [known] at same
    | true =>
        simp only [known, if_true, Option.some.injEq] at same
        obtain ⟨worker, found, result, -⟩ := telling.status known
        have inside := lt_of_getElem? found
        exact ⟨Nat.zero_lt_of_lt inside, worker, found, same ▸ result⟩
  · exact telling.answers answer member' status same

theorem Telling.begins {call : Call} (telling : Telling world) (idle : world.owner = .idle) :
    Telling (callBegins world call) := by
  cases call with
  | start task =>
      rw [callBegins]
      refine telling.touch fun _ => ?_
      split
      · exact telling.aborted
      next stopped => exact telling.starts stopped task
  | join =>
      rw [callBegins]
      refine telling.touch fun _ => ?_
      rw [if_neg (by simp [telling.joinable])]
      exact telling.joins idle false
  | free =>
      rw [callBegins]
      refine telling.touch fun _ => ?_
      rw [if_neg (by simp [telling.joinable])]
      exact telling.joins idle true
  | isRunning => exact telling.touch fun _ => telling
  | getTaskStatus =>
      rw [callBegins]
      refine telling.touch fun _ => ?_
      rw [if_neg (by simp [telling.joinable])]
      exact telling.asked

theorem Telling.creates (telling : Telling world) (creating : world.owner = .creating) :
    Telling { world with
      workers := world.workers ++ [⟨.created, none⟩], owner := .storing world.workers.length } := by
  obtain ⟨unknown, unnamed⟩ := telling.starting (.inl creating)
  have length : (world.workers ++ [(⟨.created, none⟩ : Worker)]).length = world.workers.length + 1 :=
    List.length_append
  refine ⟨telling.joinable, fun index worker here => ?_, fun index worker here active => ?_,
    fun handle storing => ?_, fun same => absurd same (by simp), fun same => absurd same (by simp),
    fun index worker here => ?_, fun known => ?_, fun index named => ?_,
    fun answer member status same => ?_⟩
  · rcases getElem?_append_cases here with ⟨-, rfl⟩ | here'
    · exact ⟨rfl, by simp⟩
    · exact telling.coherent index worker here'
  · rcases getElem?_append_cases here with ⟨rfl, rfl⟩ | here'
    · exact ⟨length.symm, telling.running creating, .inl rfl⟩
    · exact absurd creating (telling.last here' active).2.1
  · obtain rfl := OwnerPc.storing.inj storing
    exact length.symm
  · rcases getElem?_append_cases here with ⟨-, rfl⟩ | here'
    · exact ⟨fun absent => absurd absent (by simp), fun absent => absurd absent (by simp)⟩
    · exact telling.flagging index worker here'
  · exact absurd (unknown.symm.trans known) (by simp)
  · exact absurd (unnamed.symm.trans named) (by simp)
  · obtain ⟨started, worker, found, known⟩ := telling.answers answer member status same
    exact ⟨started, worker, by rw [List.getElem?_append_left (lt_of_getElem? found), found], known⟩

theorem Telling.fails (telling : Telling world) (creating : world.owner = .creating) :
    Telling { world with owner := .failing } :=
  ⟨telling.joinable, telling.coherent, fun _ _ here active =>
      absurd creating (telling.last here active).2.1,
    fun handle storing => absurd storing (by simp), fun _ => telling.starting (.inl creating),
    fun same => absurd same (by simp), telling.flagging, telling.status, telling.id,
    telling.answers⟩

theorem Telling.stores (telling : Telling world) {handle : Nat}
    (storing : world.owner = .storing handle) : Telling { world with
      object := { world.object with handle := some handle }, owner := .idle } := by
  refine ⟨telling.joinable, telling.coherent, fun index worker here active => ?_,
    fun handle storing => absurd storing (by simp), fun same => absurd same (by simp),
    fun same => absurd same (by simp), telling.flagging, telling.status, telling.id,
    telling.answers⟩
  obtain ⟨last, running, at_⟩ := telling.active index worker here active
  rw [storing] at at_
  rcases at_ with same | ⟨-, absent | ⟨thenFree, absent⟩⟩
  · exact ⟨last, running, .inr ⟨congrArg some (OwnerPc.storing.inj same), .inl rfl⟩⟩
  · cases absent
  · cases absent

theorem Telling.owner {created : Bool} (telling : Telling world)
    (ran : ownerStep world created world.owner = some after) : Telling after := by
  cases here : world.owner with
  | idle =>
      rw [here] at ran
      simp only [ownerStep] at ran
      split at ran
      next => cases ran
      next call rest calls =>
        obtain rfl := Option.some.inj ran
        exact (telling.calls rest).begins here
  | creating =>
      rw [here] at ran
      obtain rfl := Option.some.inj ran
      cases created with
      | true =>
          rw [pthreadCreate, if_pos rfl, if_neg (by simp [telling.joinable]),
            if_neg (by simp [telling.joinable])]
          exact telling.creates here
      | false => exact telling.fails here
  | storing handle =>
      rw [here] at ran
      obtain rfl := Option.some.inj ran
      exact telling.touch fun _ => telling.stores here
  | failing =>
      rw [here] at ran
      obtain rfl := Option.some.inj ran
      exact telling.touch fun _ => telling.rests
        (fun _ _ there active => (telling.last there active).2.2 here) _ false .idle (by simp)
  | joining thenFree =>
      rw [here] at ran
      simp only [ownerStep] at ran
      split at ran
      next => cases ran
      next waited =>
        obtain rfl := Option.some.inj ran
        refine telling.touch fun alive => telling.rests (fun index worker there active => ?_)
          world.object.handle world.object.running _ (by simp)
        obtain ⟨-, -, at_⟩ := telling.active index worker there active
        rw [here] at at_
        rcases at_ with absent | ⟨handle, -⟩
        · cases absent
        · simp [alive, World.returned, handle, there, active.2.2] at waited
  | joined thenFree =>
      rw [here] at ran
      obtain rfl := Option.some.inj ran
      have ended := telling.ended (by simp [here])
      exact telling.touch fun _ => telling.rests ended none false _ (by cases thenFree <;> simp)
  | freeing =>
      rw [here] at ran
      obtain rfl := Option.some.inj ran
      have ended := telling.ended (by simp [here])
      have idle := telling.rests ended world.object.handle world.object.running .idle (by simp)
      exact idle.touch fun _ => idle.freed _

theorem telling_new (calls : List Call) : Telling (ucbThreadNewFlags false calls) :=
  ⟨rfl, fun _ _ absent => absurd absent (by simp [ucbThreadNewFlags]),
    fun _ _ absent => absurd absent (by simp [ucbThreadNewFlags]),
    fun _ absent => absurd absent (by simp [ucbThreadNewFlags]),
    fun absent => absurd absent (by simp [ucbThreadNewFlags]),
    fun absent => absurd absent (by simp [ucbThreadNewFlags]),
    fun _ _ absent => absurd absent (by simp [ucbThreadNewFlags]),
    fun absent => absurd absent (by simp [ucbThreadNewFlags]),
    fun _ absent => absurd absent (by simp [ucbThreadNewFlags]),
    fun _ absent => absurd absent (by simp [ucbThreadNewFlags])⟩

theorem Telling.step {action : Action} (telling : Telling world)
    (ran : step world action = some after) : Telling after := by
  obtain ⟨-, ⟨created, ran⟩ | ⟨index, worker, result, here, ran⟩⟩ := step_cases ran
  · exact telling.owner ran
  · rcases wrapper_cases ran with ⟨object, worker', turn, rfl⟩ | rfl | freeing
    · exact telling.turn here turn
    · exact telling.fault
    · exact absurd freeing (telling.coherent index worker here).2

/-! ## Starts that succeed -/

/-- `pthread_create` does not fail. -/
def StartsSucceed (world : World) (action : Action) : Prop :=
  world.owner = .creating → action ≠ .owner false

/-- The thread of the last start has entered its id, or is about to. -/
structure Named (world : World) : Prop where
  notFailing : world.owner ≠ .failing
  entered : world.owner ≠ .creating → (∃ index, world.object.id = some index) ∨
    ∃ worker : Worker, world.workers[world.workers.length - 1]? = some worker ∧
      worker.pc = .created

/-- Away from a start only the threads change the id. -/
theorem Named.keeps (named : Named world) (elsewhere : world.owner ≠ .creating)
    (id : after.object.id = world.object.id) (workers : after.workers = world.workers)
    (notFailing : after.owner ≠ .failing) : Named after := by
  refine ⟨notFailing, fun _ => ?_⟩
  rw [id, workers]
  exact named.entered elsewhere

theorem Named.fault (named : Named world) : Named { world with fault := true } :=
  ⟨named.notFailing, named.entered⟩

theorem Named.touch {does : World → World} (named : Named world)
    (goesOn : Named (does world)) : Named (world.touch does) := by
  rw [World.touch]
  split
  · exact goesOn
  · exact named.fault

theorem Turn.names_or_keeps (turn : Turn index object worker object' worker') :
    object'.id = some index ∨ (object'.id = object.id ∧ worker.pc ≠ .created) := by
  cases turn with
  | names => exact .inl rfl
  | passes here => exact .inr ⟨rfl, by rcases here with here | here <;> simp [here]⟩
  | _ here => exact .inr ⟨rfl, by simp [here]⟩

theorem Named.turn (named : Named world) (here : world.workers[index]? = some worker)
    (turn : Turn index world.object worker object' worker') :
    Named { world with object := object', workers := world.workers.set index worker' } := by
  refine ⟨named.notFailing, fun elsewhere => ?_⟩
  rcases turn.names_or_keeps with entered | ⟨kept, notCreated⟩
  · exact .inl ⟨index, entered⟩
  · rcases named.entered elsewhere with ⟨old, same⟩ | ⟨last, found, created⟩
    · exact .inl ⟨old, kept.trans same⟩
    · have apart : index ≠ world.workers.length - 1 := by
        rintro rfl
        obtain rfl := Option.some.inj (here.symm.trans found)
        exact notCreated created
      refine .inr ⟨last, ?_, created⟩
      rw [List.length_set, List.getElem?_set_ne apart]
      exact found

theorem Named.begins {call : Call} (named : Named world) (idle : world.owner = .idle) :
    Named (callBegins world call) := by
  have stays {last : World} (id : last.object.id = world.object.id)
      (workers : last.workers = world.workers) (notFailing : last.owner ≠ .failing) : Named last :=
    named.keeps (by simp [idle]) id workers notFailing
  rw [callBegins.eq_def]
  cases call with
  | start task =>
      refine named.touch ?_
      split
      · exact stays rfl rfl named.notFailing
      · exact ⟨by simp, fun absent => absurd rfl absent⟩
  | join =>
      refine named.touch ?_
      split
      · exact stays rfl rfl named.notFailing
      · exact stays rfl rfl (by simp)
  | free =>
      refine named.touch ?_
      split
      · split
        · exact stays rfl rfl named.notFailing
        · exact stays rfl rfl (by simp)
      · exact stays rfl rfl (by simp)
  | isRunning => exact named.touch named
  | getTaskStatus =>
      refine named.touch ?_
      split
      · exact stays rfl rfl named.notFailing
      · exact stays rfl rfl named.notFailing

theorem Named.owner {created : Bool} (named : Named world)
    (joinable : world.object.detached = false) (succeeds : world.owner = .creating → created = true)
    (ran : ownerStep world created world.owner = some after) : Named after := by
  cases here : world.owner with
  | idle =>
      rw [here] at ran
      simp only [ownerStep] at ran
      split at ran
      next => cases ran
      next call rest calls =>
        obtain rfl := Option.some.inj ran
        have idle : Named { world with calls := rest } :=
          named.keeps (by simp [here]) rfl rfl named.notFailing
        exact idle.begins here
  | creating =>
      rw [here, succeeds here] at ran
      obtain rfl := Option.some.inj ran
      refine ⟨?_, fun _ => .inr ⟨⟨.created, none⟩, ?_, rfl⟩⟩
      · simp [pthreadCreate, joinable]
      · simp [pthreadCreate]
  | failing => exact absurd here named.notFailing
  | joining thenFree =>
      rw [here] at ran
      simp only [ownerStep] at ran
      split at ran
      next => cases ran
      next =>
        obtain rfl := Option.some.inj ran
        exact named.touch (named.keeps (by simp [here]) rfl rfl (by simp))
  | joined thenFree =>
      rw [here] at ran
      obtain rfl := Option.some.inj ran
      exact named.touch
        (named.keeps (by simp [here]) rfl rfl (by cases thenFree <;> simp))
  | storing handle =>
      rw [here] at ran
      obtain rfl := Option.some.inj ran
      exact named.touch (named.keeps (by simp [here]) rfl rfl (by simp))
  | freeing =>
      rw [here] at ran
      obtain rfl := Option.some.inj ran
      have idle : Named { world with owner := .idle } :=
        named.keeps (by simp [here]) rfl rfl (by simp)
      exact idle.touch (idle.keeps (by simp) rfl rfl (by simp))

theorem Named.step {action : Action} (named : Named world) (telling : Telling world)
    (succeeds : StartsSucceed world action) (ran : step world action = some after) :
    Named after := by
  unfold Thread.step at ran
  split at ran
  next => cases ran
  next =>
    cases action with
    | owner created =>
        refine named.owner telling.joinable (fun creating => ?_) ran
        cases created with
        | true => rfl
        | false => exact absurd rfl (succeeds creating)
    | worker index result =>
        simp only at ran
        split at ran
        next worker here =>
          rcases wrapper_cases ran with ⟨object, worker', turn, rfl⟩ | rfl | freeing
          · exact named.turn here turn
          · exact named.fault
          · exact absurd freeing (telling.coherent index worker here).2
        next => cases ran

/-- With no thread to join no task is executing. -/
theorem Telling.unjoined (telling : Telling world) (idle : world.owner = .idle)
    (unjoined : world.object.handle = none) (here : world.workers[index]? = some worker) :
    ¬ worker.pc.Active := by
  intro active
  obtain ⟨-, -, same | ⟨handle, -⟩⟩ := telling.active index worker here active
  · exact absurd (idle.symm.trans same) (by simp)
  · exact absurd (unjoined.symm.trans handle) (by simp)

theorem Telling.known (telling : Telling world) (idle : world.owner = .idle)
    (unjoined : world.object.handle = none) (named : world.object.id = some index) :
    world.object.hasStatus = true ∧ ∃ worker : Worker,
      world.workers[world.workers.length - 1]? = some worker ∧
        worker.result = some world.object.status := by
  obtain ⟨last, known⟩ := telling.id index named
  have inside : index < world.workers.length := by omega
  have here := List.getElem?_eq_getElem inside
  have hasStatus := known _ here (telling.unjoined idle unjoined here)
  obtain ⟨worker, found, result, -⟩ := telling.status hasStatus
  exact ⟨hasStatus, worker, found, result⟩

theorem telling_of_reaches {calls : List Call}
    (run : Reaches step Always (ucbThreadNewFlags false calls) world) : Telling world :=
  run.invariant (telling_new calls) fun _ _ _ telling _ ran => telling.step ran

/-- From a start on behind which no `pthread_create` fails: an owner with no thread to join finds
the id and the status of the last thread. -/
theorem status_known_of_starts_succeed {calls : List Call}
    (run : Reaches step Always (ucbThreadNewFlags false calls) world)
    (starting : world.owner = .creating) (later : Reaches step StartsSucceed world after)
    (idle : after.owner = .idle) (unjoined : after.object.handle = none) :
    (∃ index, after.object.id = some index) ∧ after.object.hasStatus = true ∧
      ∃ worker : Worker, after.workers[after.workers.length - 1]? = some worker ∧
        worker.result = some after.object.status := by
  have begun : Named world := ⟨by simp [starting], fun absent => absurd starting absent⟩
  have both : Telling after ∧ Named after := by
    apply later.invariant (⟨telling_of_reaches run, begun⟩ : Telling world ∧ Named world)
    intro before action next both succeeds ran
    exact ⟨both.1.step ran, both.2.step both.1 succeeds ran⟩
  obtain ⟨telling, named⟩ := both
  rcases named.entered (by simp [idle]) with ⟨index, same⟩ | ⟨last, found, created⟩
  · exact ⟨⟨index, same⟩, telling.known idle unjoined same⟩
  · exact absurd ⟨by simp [created], by simp [created], by simp [created]⟩
      (telling.unjoined idle unjoined found)

/-- Whatever the owner of a joinable thread calls and in whatever order everything happens: at most
one task is executing on it, every answer of `ucb_thread_get_task_status` is what the task of the
last start until then has returned, and once the owner has no thread to join every task that was
started has returned. The status of the last one is known where the object has an id, which is so
unless a later start has failed. -/
theorem task_status_truth {calls : List Call}
    (run : Reaches step Always (ucbThreadNewFlags false calls) world) :
    (∀ (first second : Nat) (one two : Worker), world.workers[first]? = some one →
      world.workers[second]? = some two → one.pc.Active → two.pc.Active → first = second) ∧
    (∀ answer ∈ world.answers, ∀ status, answer.status = some status → 0 < answer.started ∧
      ∃ worker : Worker, world.workers[answer.started - 1]? = some worker ∧
        worker.result = some status) ∧
    (world.owner = .idle → world.object.handle = none →
      (∀ (index : Nat) (worker : Worker), world.workers[index]? = some worker →
        ∃ status, worker.result = some status) ∧
      ∀ index, world.object.id = some index → world.object.hasStatus = true ∧
        ∃ worker : Worker, world.workers[world.workers.length - 1]? = some worker ∧
          worker.result = some world.object.status) := by
  have telling := telling_of_reaches run
  refine ⟨fun first second one two here there active active' => ?_, telling.answers,
    fun idle unjoined => ?_⟩
  · rw [(telling.last here active).1, (telling.last there active').1]
  · refine ⟨fun index worker here => ?_, fun index same => telling.known idle unjoined same⟩
    exact (telling.coherent index worker here).1.returned (telling.unjoined idle unjoined here)

/-- A task that returns 5, joined and asked for. -/
def askedCalls : List Call :=
  [.start ⟨1, false⟩, .join, .getTaskStatus]

def askedActions : List Action :=
  List.replicate 3 (.owner true) ++ List.replicate 8 (.worker 0 5) ++ List.replicate 4 (.owner true)

theorem task_status_truth_asked : ∃ world,
    Reaches step Always (ucbThreadNewFlags false askedCalls) world ∧
      world.answers = [⟨1, some 5⟩] ∧ ∃ worker : Worker,
        world.workers[0]? = some worker ∧ worker.result = some 5 := by
  cases replayed : replay step (ucbThreadNewFlags false askedCalls) askedActions with
  | none => cases replayed
  | some last =>
      have run := Reaches.of_replay replayed (meetsAll_always _ _)
      have answers : last.answers = [⟨1, some 5⟩] := by
        obtain rfl := Option.some.inj replayed
        rfl
      refine ⟨last, run, answers, ?_⟩
      exact ((task_status_truth run).2.1 ⟨1, some 5⟩ (by simp [answers]) 5 rfl).2

/-! ## A detached thread -/

/-- The object belongs to its owner until a start succeeds, and to the thread from then on. -/
structure Owned (world : World) : Prop where
  detached : world.object.detached = true
  whole : world.fault = false
  last : FreesLast world.calls
  owner : world.owner = .idle ∨ world.owner = .creating ∨ world.owner = .failing ∨
    (world.owner = .freeing ∧ world.calls = [])
  before : world.workers = [] → world.freed = 0 ∨
    (world.freed = 1 ∧ world.owner = .idle ∧ world.calls = [])
  behind : ∀ worker ∈ world.workers, world.workers = [worker] ∧ world.owner = .idle ∧
    world.calls = [] ∧ worker.Coherent ∧
      ((worker.pc ≠ .gone ∧ world.freed = 0) ∨ (worker.pc = .gone ∧ world.freed = 1))

theorem Owned.turn (owned : Owned world) (here : world.workers[index]? = some worker)
    {result : Int} (ran : posixThreadWrapper world index worker result worker.pc = some after) :
    Owned after := by
  have member := List.mem_of_getElem? here
  obtain ⟨alone, idle, calls, coherent, stage⟩ := owned.behind worker member
  have first : index = 0 := by
    have inside := lt_of_getElem? here
    rw [alone, List.length_singleton] at inside
    omega
  have set (new : Worker) : world.workers.set index new = [new] := by rw [alone, first]; rfl
  rcases stage with ⟨-, alive⟩ | ⟨gone, -⟩
  · rcases turn_of_wrapper alive ran with ⟨object, worker', turn, rfl⟩ | ⟨freeing, rfl⟩
    · refine ⟨turn.detached.trans owned.detached, owned.whole, owned.last, .inl idle,
        fun absent => absurd absent (by simp [set]), fun moved found => ?_⟩
      simp only [set, List.mem_singleton] at found ⊢
      subst found
      refine ⟨rfl, idle, calls, turn.coherent coherent, .inl ⟨fun gone => ?_, alive⟩⟩
      cases turn with
      | leaves _ joinable => exact absurd owned.detached (by simp [joinable])
      | _ => cases gone
    · refine ⟨owned.detached, owned.whole, owned.last, .inl idle,
        fun absent => absurd absent (by simp [set]), fun moved found => ?_⟩
      simp only [set, List.mem_singleton] at found ⊢
      subst found
      refine ⟨rfl, idle, calls, ?_, .inr ⟨rfl, by rw [alive]⟩⟩
      rw [Worker.Coherent, freeing] at coherent
      exact coherent
  · rw [gone] at ran
    cases ran

theorem Owned.unstarted (owned : Owned world)
    (acts : world.owner ≠ .idle ∨ world.calls ≠ []) : world.workers = [] ∧ world.freed = 0 := by
  have none : world.workers = [] := by
    cases workers : world.workers with
    | nil => rfl
    | cons worker rest =>
        obtain ⟨-, idle, calls, -⟩ := owned.behind worker (by simp [workers])
        rcases acts with busy | more
        · exact absurd idle busy
        · exact absurd calls more
  refine ⟨none, ?_⟩
  rcases owned.before none with alive | ⟨-, idle, calls⟩
  · exact alive
  · rcases acts with busy | more
    · exact absurd idle busy
    · exact absurd calls more

theorem owned_of_unstarted (detached : world.object.detached = true) (whole : world.fault = false)
    (last : FreesLast world.calls) (none : world.workers = []) (alive : world.freed = 0)
    (owner : world.owner = .idle ∨ world.owner = .creating ∨ world.owner = .failing ∨
      (world.owner = .freeing ∧ world.calls = [])) : Owned world :=
  ⟨detached, whole, last, owner, fun _ => .inl alive, fun worker found => by
    rw [none] at found
    cases found⟩

theorem Owned.begins {call : Call} {rest : List Call} (owned : Owned world)
    (idle : world.owner = .idle) (calls : world.calls = call :: rest) :
    Owned (callBegins { world with calls := rest } call) := by
  obtain ⟨none, alive⟩ := owned.unstarted (.inr (by simp [calls]))
  have alive' : ({ world with calls := rest }).freed = 0 := alive
  have last : FreesLast (call :: rest) := calls ▸ owned.last
  have aborts : Owned { world with calls := rest, aborted := true } :=
    owned_of_unstarted owned.detached owned.whole last.tail none alive (.inl idle)
  cases call with
  | start task =>
      rw [callBegins, touch_alive alive']
      split
      · exact aborts
      · exact owned_of_unstarted owned.detached owned.whole last.tail none alive (.inr (.inl rfl))
  | join =>
      rw [callBegins, touch_alive alive', if_pos owned.detached]
      exact aborts
  | free =>
      obtain rfl := last.end_
      rw [callBegins, touch_alive alive', if_pos owned.detached]
      split
      · exact aborts
      · exact owned_of_unstarted owned.detached owned.whole last.tail none alive
          (.inr (.inr (.inr ⟨rfl, rfl⟩)))
  | isRunning =>
      rw [callBegins, touch_alive alive']
      exact owned_of_unstarted owned.detached owned.whole last.tail none alive (.inl idle)
  | getTaskStatus =>
      rw [callBegins, touch_alive alive', if_pos owned.detached]
      exact aborts

theorem Owned.ownerStep {created : Bool} (owned : Owned world)
    (ran : ownerStep world created world.owner = some after) : Owned after := by
  rcases owned.owner with here | here | here | ⟨here, calls⟩
  · rw [here] at ran
    simp only [Thread.ownerStep] at ran
    split at ran
    next => cases ran
    next call rest calls =>
      obtain rfl := Option.some.inj ran
      exact owned.begins here calls
  · obtain ⟨none, alive⟩ := owned.unstarted (.inl (by simp [here]))
    rw [here] at ran
    obtain rfl := Option.some.inj ran
    cases created with
    | true =>
        rw [pthreadCreate, if_pos rfl, if_pos owned.detached, if_pos owned.detached, none]
        refine ⟨owned.detached, owned.whole, List.not_mem_nil, .inl rfl,
          fun absent => absurd absent (by simp), fun worker found => ?_⟩
        obtain rfl := List.mem_singleton.mp found
        exact ⟨rfl, rfl, rfl, rfl, .inl ⟨by simp, alive⟩⟩
    | false =>
        exact owned_of_unstarted owned.detached owned.whole owned.last none alive
          (.inr (.inr (.inl rfl)))
  · obtain ⟨none, alive⟩ := owned.unstarted (.inl (by simp [here]))
    rw [here] at ran
    obtain rfl := (Option.some.inj ran).symm.trans (touch_alive alive _)
    exact owned_of_unstarted owned.detached owned.whole owned.last none alive (.inl rfl)
  · obtain ⟨none, alive⟩ := owned.unstarted (.inl (by simp [here]))
    rw [here] at ran
    have alive' : ({ world with owner := .idle }).freed = 0 := alive
    obtain rfl := (Option.some.inj ran).symm.trans (touch_alive alive' _)
    refine ⟨owned.detached, owned.whole, owned.last, .inl rfl,
      fun _ => .inr ⟨by rw [alive], rfl, calls⟩, fun worker found => ?_⟩
    have found' : worker ∈ world.workers := found
    rw [none] at found'
    cases found'

theorem owned_new {calls : List Call} (last : FreesLast calls) :
    Owned (ucbThreadNewFlags true calls) :=
  owned_of_unstarted rfl rfl last rfl rfl (.inl rfl)

theorem Owned.step {action : Action} (owned : Owned world)
    (ran : step world action = some after) : Owned after := by
  obtain ⟨-, ⟨created, ran⟩ | ⟨index, worker, result, here, ran⟩⟩ := step_cases ran
  · exact owned.ownerStep ran
  · exact owned.turn here ran

/-- Whatever the owner of a detached thread does before a start succeeds, and in whatever order the
starter and the thread go on: freed memory is not used, only one thread is ever started, and it
frees the object once, behind its task, as its last step. -/
theorem detached_freed_once {calls : List Call} (last : FreesLast calls)
    (run : Reaches step Always (ucbThreadNewFlags true calls) world) :
    world.fault = false ∧ world.freed ≤ 1 ∧ ∀ worker ∈ world.workers, world.workers = [worker] ∧
      (world.freed = 1 ↔ worker.pc = .gone) ∧
      (worker.pc = .gone → ∃ status, worker.result = some status) := by
  have owned : Owned world :=
    run.invariant (owned_new last) fun _ _ _ owned _ ran => owned.step ran
  refine ⟨owned.whole, ?_, fun worker found => ?_⟩
  · cases workers : world.workers with
    | nil => rcases owned.before workers with alive | ⟨freed, -⟩ <;> omega
    | cons worker rest =>
        obtain ⟨-, -, -, -, ⟨-, alive⟩ | ⟨-, freed⟩⟩ := owned.behind worker (by simp [workers]) <;>
          omega
  · obtain ⟨alone, -, -, coherent, stage⟩ := owned.behind worker found
    refine ⟨alone, ?_, fun gone => coherent.returned fun active => active.2.2 gone⟩
    rcases stage with ⟨notGone, alive⟩ | ⟨gone, freed⟩
    · exact iff_of_false (by omega) notGone
    · exact iff_of_true freed gone

theorem detached_freed_once_sample : ∃ world,
    Reaches step Always (ucbThreadNewFlags true [.start ⟨1, true⟩]) world ∧
      world.freed = 1 ∧ world.fault = false := by
  cases replayed : replay step (ucbThreadNewFlags true [.start ⟨1, true⟩])
      (List.replicate 2 (.owner true) ++ List.replicate 10 (.worker 0 5)) with
  | none => cases replayed
  | some last =>
      have run := Reaches.of_replay replayed (meetsAll_always _ _)
      have freed : last.freed = 1 := by
        obtain rfl := Option.some.inj replayed
        rfl
      exact ⟨last, run, freed, (detached_freed_once (by simp [FreesLast]) run).1⟩

end Ucb.Threads.Thread
