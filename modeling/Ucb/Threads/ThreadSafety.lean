import Mathlib.Data.List.Basic
import Ucb.Lib.Slots
import Ucb.Threads.ThreadObject

/-!
Contract: which owners of a joinable thread never lead to a use of freed memory.

Owns:
- `Careful`, the owners that do not start a thread again before they have joined
  it, where they free it later;
- that with such an owner no interleaving touches the object after it is freed;
- that with every other owner some interleaving does.
-/

namespace Ucb.Threads.Thread

open Ucb.Lib

/-! ## Steps -/

variable {world after : World} {index : Nat} {worker : Worker}

theorem touch_alive (alive : world.freed = 0) (does : World → World) :
    world.touch does = does world :=
  if_pos alive

/-- Neither aborted nor broken. -/
def World.Going (world : World) : Prop :=
  world.aborted = false ∧ world.fault = false

theorem World.Going.step (going : world.Going) :
    step world (.owner true) = ownerStep world true world.owner ∧
    step world (.owner false) = ownerStep world false world.owner ∧
    ∀ index worker result, world.workers[index]? = some worker →
      step world (.worker index result) =
        posixThreadWrapper world index worker result worker.pc := by
  obtain ⟨running, whole⟩ := going
  have both : (world.aborted || world.fault) = false := by rw [running, whole]; rfl
  refine ⟨?_, ?_, fun index worker result here => ?_⟩
  · simp only [Thread.step, both, Bool.false_eq_true, if_false]
  · simp only [Thread.step, both, Bool.false_eq_true, if_false]
  · simp only [Thread.step, both, Bool.false_eq_true, if_false, here]

/-- A step is one of the owner or of a thread that has not returned yet. -/
theorem step_cases {action : Action} (ran : step world action = some after) :
    world.Going ∧ ((∃ created, ownerStep world created world.owner = some after) ∨
      ∃ index worker result, world.workers[index]? = some worker ∧
        posixThreadWrapper world index worker result worker.pc = some after) := by
  unfold Thread.step at ran
  split at ran
  next => cases ran
  next going =>
    rw [Bool.not_eq_true, Bool.or_eq_false_iff] at going
    refine ⟨going, ?_⟩
    cases action with
    | owner created => exact .inl ⟨created, ran⟩
    | worker index result =>
        simp only at ran
        split at ran
        next worker here => exact .inr ⟨index, worker, result, here, ran⟩
        next => cases ran

/-- What a step of a thread does to the object and to the thread, while the object is there. -/
inductive Turn (index : Nat) (object : UcbThread) (worker : Worker) : UcbThread → Worker → Prop
  | names (here : worker.pc = .created) :
      Turn index object worker { object with id := some index } { worker with pc := .calling }
  | calls (here : worker.pc = .calling) :
      Turn index object worker object { worker with pc := .executing object.task.func }
  | returns {func : Nat} (here : worker.pc = .executing func) (result : Int) :
      Turn index object worker object ⟨.returned result, some result⟩
  | notifies {status : Int} (here : worker.pc = .returned status) :
      Turn index object worker object { worker with pc := .inCallback status }
  | passes {status : Int} (here : worker.pc = .returned status ∨ worker.pc = .inCallback status) :
      Turn index object worker object { worker with pc := .storing status }
  | stores {status : Int} (here : worker.pc = .storing status) :
      Turn index object worker { object with status := status } { worker with pc := .flagging }
  | flags (here : worker.pc = .flagging) :
      Turn index object worker { object with hasStatus := true } { worker with pc := .stopping }
  | stops (here : worker.pc = .stopping) :
      Turn index object worker { object with running := false } { worker with pc := .leaving }
  | leaves (here : worker.pc = .leaving) (joinable : object.detached = false) :
      Turn index object worker object { worker with pc := .gone }
  | owns (here : worker.pc = .leaving) (detached : object.detached = true) :
      Turn index object worker object { worker with pc := .freeing }

theorem turn_of_wrapper {result : Int} (alive : world.freed = 0)
    (ran : posixThreadWrapper world index worker result worker.pc = some after) :
    (∃ object worker', Turn index world.object worker object worker' ∧
      after = { world with object := object, workers := world.workers.set index worker' }) ∨
    (worker.pc = .freeing ∧ after = { world with
      workers := world.workers.set index { worker with pc := .gone }
      freed := world.freed + 1 }) := by
  have touches {does : World → World} (ran : some (world.touch does) = some after) :
      after = does world :=
    (Option.some.inj ran).symm.trans (touch_alive alive does)
  cases here : worker.pc <;> rw [here] at ran
  case created => exact .inl ⟨_, _, .names here, touches ran⟩
  case calling => exact .inl ⟨_, _, .calls here, touches ran⟩
  case executing func => exact .inl ⟨_, _, .returns here result, (Option.some.inj ran).symm⟩
  case returned status =>
    have same := touches ran
    cases callback : world.object.task.callback <;> rw [callback] at same
    case false => exact .inl ⟨_, _, .passes (.inl here), same⟩
    case true => exact .inl ⟨_, _, .notifies here, same⟩
  case inCallback status => exact .inl ⟨_, _, .passes (.inr here), (Option.some.inj ran).symm⟩
  case storing status => exact .inl ⟨_, _, .stores here, touches ran⟩
  case flagging => exact .inl ⟨_, _, .flags here, touches ran⟩
  case stopping => exact .inl ⟨_, _, .stops here, touches ran⟩
  case leaving =>
    have same := touches ran
    cases detached : world.object.detached <;> rw [detached] at same
    case false => exact .inl ⟨_, _, .leaves here detached, same⟩
    case true => exact .inl ⟨_, _, .owns here detached, same⟩
  case freeing =>
    have alive' : (world.setWorker index { worker with pc := .gone }).freed = 0 := alive
    exact .inr ⟨rfl, (Option.some.inj ran).symm.trans (touch_alive alive' _)⟩
  case gone => cases ran

variable {object object' : UcbThread} {worker' : Worker}

theorem Turn.detached (turn : Turn index object worker object' worker') :
    object'.detached = object.detached := by
  cases turn <;> rfl

theorem Turn.handle (turn : Turn index object worker object' worker') :
    object'.handle = object.handle := by
  cases turn <;> rfl

theorem Turn.not_gone (turn : Turn index object worker object' worker') : worker.pc ≠ .gone := by
  intro gone
  cases turn with
  | passes here => rcases here with here | here <;> exact absurd (gone.symm.trans here) (by simp)
  | _ here => exact absurd (gone.symm.trans here) (by simp)

theorem Turn.freeing (turn : Turn index object worker object' worker')
    (freeing : worker'.pc = .freeing) : object.detached = true := by
  cases turn with
  | owns _ detached => exact detached
  | _ => cases freeing

/-! ## Careful owners -/

/-- No thread is started again before it has been joined, where it is freed later. -/
def Careful (unjoined : Bool) : List Call → Bool
  | [] => true
  | .start _ :: rest => (!unjoined || !rest.contains .free) && Careful true rest
  | .join :: rest => Careful false rest
  | _ :: rest => Careful unjoined rest

theorem Careful.weaken {unjoined : Bool} {calls : List Call}
    (careful : Careful true calls = true) : Careful unjoined calls = true := by
  induction calls with
  | nil => rfl
  | cons call rest inductionHypothesis =>
      cases call with
      | start task =>
          simp only [Careful, Bool.not_true, Bool.false_or, Bool.and_eq_true] at careful ⊢
          rw [careful.1, careful.2, Bool.or_true]
          exact ⟨rfl, rfl⟩
      | join => exact careful
      | free => exact inductionHypothesis careful
      | isRunning => exact inductionHypothesis careful
      | getTaskStatus => exact inductionHypothesis careful

/-- Nothing is called on a thread after it has been freed. -/
def FreesLast (calls : List Call) : Prop :=
  Call.free ∉ calls.dropLast

theorem FreesLast.tail {call : Call} {rest : List Call} (last : FreesLast (call :: rest)) :
    FreesLast rest := by
  cases rest with
  | nil => exact List.not_mem_nil
  | cons next rest =>
      intro member
      exact last (List.mem_cons_of_mem call member)

theorem FreesLast.end_ {rest : List Call} (last : FreesLast (.free :: rest)) : rest = [] := by
  cases rest with
  | nil => rfl
  | cons next rest => exact absurd List.mem_cons_self last

/-! ## No use of freed memory -/

def World.WillFree (world : World) : Prop :=
  .free ∈ world.calls ∨ world.owner = .joining true ∨ world.owner = .joined true ∨
    world.owner = .freeing

def World.Covers (world : World) (index : Nat) : Prop :=
  match world.owner with
  | .storing handle => handle = index
  | .idle | .joining _ => world.object.handle = some index
  | _ => False

/-- A thread may be left behind by the next start. -/
def World.unjoined (world : World) : Bool :=
  match world.owner with
  | .creating | .storing _ | .failing => true
  | .idle => world.object.handle.isSome
  | _ => false

structure Guarded (world : World) : Prop where
  joinable : world.object.detached = false
  whole : world.fault = false
  last : FreesLast world.calls
  ends : world.owner = .joining true ∨ world.owner = .joined true ∨ world.owner = .freeing →
    world.calls = []
  alive : world.freed = 0 ∨ (world.calls = [] ∧ world.owner = .idle ∧
    ∀ (index : Nat) (worker : Worker), world.workers[index]? = some worker → worker.pc = .gone)
  keeps : ∀ (index : Nat) (worker : Worker), world.workers[index]? = some worker → worker.pc ≠ .freeing
  covered : world.WillFree → ∀ (index : Nat) (worker : Worker), world.workers[index]? = some worker →
    worker.pc ≠ .gone → world.Covers index
  careful : world.WillFree → Careful world.unjoined world.calls = true

theorem Guarded.wrapper {result : Int} (guarded : Guarded world)
    (here : world.workers[index]? = some worker)
    (ran : posixThreadWrapper world index worker result worker.pc = some after) :
    Guarded after := by
  have alive : world.freed = 0 := by
    rcases guarded.alive with alive | ⟨-, -, gone⟩
    · exact alive
    · rw [gone index worker here] at ran
      cases ran
  rcases turn_of_wrapper alive ran with ⟨object, worker', turn, rfl⟩ | ⟨freeing, -⟩
  · refine ⟨turn.detached.trans guarded.joinable, guarded.whole, guarded.last, guarded.ends,
      .inl alive, fun position moved found => ?_, fun willFree position moved found notGone => ?_,
      fun willFree => ?_⟩
    · rcases getElem?_set_cases found with ⟨-, rfl⟩ | ⟨-, found'⟩
      · intro freeing
        exact absurd (turn.freeing freeing) (by simp [guarded.joinable])
      · exact guarded.keeps position moved found'
    · have covers : world.Covers position := by
        rcases getElem?_set_cases found with ⟨rfl, -⟩ | ⟨-, found'⟩
        · exact guarded.covered willFree _ worker here turn.not_gone
        · exact guarded.covered willFree position moved found' notGone
      simp only [World.Covers, turn.handle] at covers ⊢
      exact covers
    · have careful := guarded.careful willFree
      simp only [World.unjoined, turn.handle] at careful ⊢
      exact careful
  · exact absurd freeing (guarded.keeps index worker here)

/-- The owner is not in a call of `ucb_thread_free`. -/
def OwnerPc.Elsewhere (owner : OwnerPc) : Prop :=
  owner ≠ .joining true ∧ owner ≠ .joined true ∧ owner ≠ .freeing

/-- Outside of a free only one that is still to come counts. -/
theorem guarded_of_elsewhere (joinable : world.object.detached = false)
    (whole : world.fault = false) (last : FreesLast world.calls) (alive : world.freed = 0)
    (keeps : ∀ (index : Nat) (worker : Worker), world.workers[index]? = some worker →
      worker.pc ≠ .freeing)
    (elsewhere : world.owner.Elsewhere)
    (covered : .free ∈ world.calls → ∀ (index : Nat) (worker : Worker),
      world.workers[index]? = some worker → worker.pc ≠ .gone → world.Covers index)
    (careful : .free ∈ world.calls → Careful world.unjoined world.calls = true) :
    Guarded world := by
  obtain ⟨notJoining, notJoined, notFreeing⟩ := elsewhere
  have later (willFree : world.WillFree) : .free ∈ world.calls := by
    rcases willFree with later | same | same | same
    · exact later
    · exact absurd same notJoining
    · exact absurd same notJoined
    · exact absurd same notFreeing
  refine ⟨joinable, whole, last, fun ends => ?_, .inl alive, keeps, fun willFree =>
    covered (later willFree), fun willFree => careful (later willFree)⟩
  rcases ends with same | same | same
  · exact absurd same notJoining
  · exact absurd same notJoined
  · exact absurd same notFreeing

theorem Guarded.begins {call : Call} {rest : List Call} (guarded : Guarded world)
    (idle : world.owner = .idle) (calls : world.calls = call :: rest) :
    Guarded (callBegins { world with calls := rest } call) := by
  have alive : world.freed = 0 := by
    rcases guarded.alive with alive | ⟨none, -⟩
    · exact alive
    · rw [none] at calls
      cases calls
  have alive' : ({ world with calls := rest }).freed = 0 := alive
  have last : FreesLast (call :: rest) := calls ▸ guarded.last
  have elsewhere : world.owner.Elsewhere := by simp [OwnerPc.Elsewhere, idle]
  have covered (willFree : world.WillFree) (position : Nat) (moved : Worker)
      (found : world.workers[position]? = some moved) (notGone : moved.pc ≠ .gone) :
      world.object.handle = some position := by
    have covers := guarded.covered willFree position moved found notGone
    rw [World.Covers, idle] at covers
    exact covers
  have willFree (later : .free ∈ rest) : world.WillFree :=
    .inl (calls ▸ List.mem_cons_of_mem call later)
  have careful (later : .free ∈ rest) :
      Careful world.object.handle.isSome (call :: rest) = true := by
    have careful := guarded.careful (willFree later)
    rw [World.unjoined, idle, calls] at careful
    exact careful
  -- a call that is over at once, or that aborts
  have stays (aborted : Bool) (answers : List Answer)
      (goesOn : .free ∈ rest → Careful world.object.handle.isSome rest = true) :
      Guarded { world with calls := rest, aborted := aborted, answers := answers } := by
    refine guarded_of_elsewhere guarded.joinable guarded.whole last.tail alive guarded.keeps
      elsewhere (fun later position moved found notGone => ?_) fun later => ?_
    · rw [World.Covers, idle]
      exact covered (willFree later) position moved found notGone
    · rw [World.unjoined, idle]
      exact goesOn later
  cases call with
  | start task =>
      have parts (later : .free ∈ rest) :
          world.object.handle.isSome = false ∧ Careful true rest = true := by
        have careful := careful later
        rw [Careful, Bool.and_eq_true, Bool.or_eq_true] at careful
        simp [later] at careful
        simpa using careful
      rw [callBegins, touch_alive alive']
      split
      · exact stays true world.answers fun later => Careful.weaken (parts later).2
      · refine guarded_of_elsewhere guarded.joinable guarded.whole last.tail alive guarded.keeps
          (by simp [OwnerPc.Elsewhere]) (fun later position moved found notGone => ?_)
          fun later => (parts later).2
        have none := (parts later).1
        rw [covered (willFree later) position moved found notGone] at none
        cases none
  | join =>
      rw [callBegins, touch_alive alive', if_neg (by simp [guarded.joinable])]
      exact guarded_of_elsewhere guarded.joinable guarded.whole last.tail alive guarded.keeps
        (by simp [OwnerPc.Elsewhere]) (fun later => covered (willFree later)) careful
  | free =>
      rw [callBegins, touch_alive alive', if_neg (by simp [guarded.joinable])]
      obtain rfl := last.end_
      have member : .free ∈ world.calls := calls ▸ List.mem_cons_self
      exact ⟨guarded.joinable, guarded.whole, last.tail, fun _ => rfl, .inl alive, guarded.keeps,
        fun _ => covered (.inl member), fun _ => rfl⟩
  | isRunning =>
      rw [callBegins, touch_alive alive']
      exact stays world.aborted world.answers careful
  | getTaskStatus =>
      rw [callBegins, touch_alive alive', if_neg (by simp [guarded.joinable])]
      exact stays world.aborted _ careful

theorem Guarded.owner {created : Bool} (guarded : Guarded world)
    (ran : ownerStep world created world.owner = some after) : Guarded after := by
  have busy (notIdle : world.owner ≠ .idle) : world.freed = 0 := by
    rcases guarded.alive with alive | ⟨-, idle, -⟩
    · exact alive
    · exact absurd idle notIdle
  -- nothing but what the owner knows of is left, where a free is coming
  have gone (forgets : ∀ position, ¬ world.Covers position) (willFree : world.WillFree)
      (position : Nat) (moved : Worker) (found : world.workers[position]? = some moved) :
      moved.pc = .gone := by
    by_contra notGone
    exact forgets position (guarded.covered willFree position moved found notGone)
  cases here : world.owner with
  | idle =>
      rw [here] at ran
      simp only [ownerStep] at ran
      split at ran
      next => cases ran
      next call rest calls =>
        obtain rfl := Option.some.inj ran
        exact guarded.begins here calls
  | creating =>
      have alive := busy (by simp [here])
      have gone := gone (by simp [World.Covers, here])
      have careful (later : .free ∈ world.calls) : Careful true world.calls = true := by
        have careful := guarded.careful (.inl later)
        rw [World.unjoined, here] at careful
        exact careful
      rw [here] at ran
      obtain rfl := Option.some.inj ran
      cases created with
      | true =>
          simp only [pthreadCreate, if_true, guarded.joinable, Bool.false_eq_true, if_false]
          refine guarded_of_elsewhere guarded.joinable guarded.whole guarded.last alive
            (fun position moved found => ?_) (by simp [OwnerPc.Elsewhere])
            (fun later position moved found notGone => ?_) careful
          · rcases getElem?_append_cases found with ⟨-, rfl⟩ | found'
            · simp
            · exact guarded.keeps position moved found'
          · rcases getElem?_append_cases found with ⟨same, -⟩ | found'
            · exact same.symm
            · exact absurd (gone (.inl later) position moved found') notGone
      | false =>
          exact guarded_of_elsewhere guarded.joinable guarded.whole guarded.last alive
            guarded.keeps (by simp [OwnerPc.Elsewhere, pthreadCreate])
            (fun later position moved found notGone =>
              absurd (gone (.inl later) position moved found) notGone) careful
  | storing handle =>
      have alive := busy (by simp [here])
      have covered (later : .free ∈ world.calls) (position : Nat) (moved : Worker)
          (found : world.workers[position]? = some moved) (notGone : moved.pc ≠ .gone) :
          handle = position := by
        have covers := guarded.covered (.inl later) position moved found notGone
        rw [World.Covers, here] at covers
        exact covers
      have careful (later : .free ∈ world.calls) : Careful true world.calls = true := by
        have careful := guarded.careful (.inl later)
        rw [World.unjoined, here] at careful
        exact careful
      rw [here] at ran
      obtain rfl := (Option.some.inj ran).symm.trans (touch_alive alive _)
      exact guarded_of_elsewhere guarded.joinable guarded.whole guarded.last alive guarded.keeps
        (by simp [OwnerPc.Elsewhere]) (fun later position moved found notGone =>
          congrArg some (covered later position moved found notGone)) careful
  | failing =>
      have alive := busy (by simp [here])
      have gone := gone (by simp [World.Covers, here])
      have careful (later : .free ∈ world.calls) : Careful true world.calls = true := by
        have careful := guarded.careful (.inl later)
        rw [World.unjoined, here] at careful
        exact careful
      rw [here] at ran
      obtain rfl := (Option.some.inj ran).symm.trans (touch_alive alive _)
      exact guarded_of_elsewhere guarded.joinable guarded.whole guarded.last alive guarded.keeps
        (by simp [OwnerPc.Elsewhere]) (fun later position moved found notGone =>
          absurd (gone (.inl later) position moved found) notGone)
        fun later => Careful.weaken (careful later)
  | joining thenFree =>
      have alive := busy (by simp [here])
      have willFree (later : World.WillFree { world with owner := .joined thenFree }) :
          world.WillFree := by
        rcases later with later | same | same | same
        · exact .inl later
        · cases same
        · cases same
          exact .inr (.inl here)
        · cases same
      rw [here] at ran
      simp only [ownerStep] at ran
      split at ran
      next => cases ran
      next returned =>
        obtain rfl := (Option.some.inj ran).symm.trans (touch_alive alive _)
        refine ⟨guarded.joinable, guarded.whole, guarded.last, fun ends => ?_, .inl alive,
          guarded.keeps, fun later position moved found notGone => ?_, fun later => ?_⟩
        · rcases ends with same | same | same <;> cases same
          exact guarded.ends (.inl here)
        · have covers := guarded.covered (willFree later) position moved found notGone
          rw [World.Covers, here] at covers
          simp [World.returned, covers, alive, found, notGone] at returned
        · have careful := guarded.careful (willFree later)
          rw [World.unjoined, here] at careful
          exact careful
  | joined thenFree =>
      have alive := busy (by simp [here])
      have gone := gone (by simp [World.Covers, here])
      rw [here] at ran
      obtain rfl := (Option.some.inj ran).symm.trans (touch_alive alive _)
      cases thenFree with
      | true =>
          have none := guarded.ends (.inr (.inl here))
          exact ⟨guarded.joinable, guarded.whole, guarded.last, fun _ => none, .inl alive,
            guarded.keeps, fun _ position moved found notGone =>
              absurd (gone (.inr (.inr (.inl here))) position moved found) notGone,
            fun _ => by rw [none]; rfl⟩
      | false =>
          refine guarded_of_elsewhere guarded.joinable guarded.whole guarded.last alive
            guarded.keeps (by simp [OwnerPc.Elsewhere])
            (fun later position moved found notGone =>
              absurd (gone (.inl later) position moved found) notGone) fun later => ?_
          have careful := guarded.careful (.inl later)
          rw [World.unjoined, here] at careful
          exact careful
  | freeing =>
      have alive := busy (by simp [here])
      have gone := gone (by simp [World.Covers, here]) (.inr (.inr (.inr here)))
      have none := guarded.ends (.inr (.inr here))
      rw [here] at ran
      have alive' : ({ world with owner := .idle }).freed = 0 := alive
      obtain rfl := (Option.some.inj ran).symm.trans (touch_alive alive' _)
      have notFree : ¬ World.WillFree { world with owner := .idle, freed := world.freed + 1 } := by
        rintro (later | same | same | same)
        · rw [none] at later
          cases later
        all_goals cases same
      refine ⟨guarded.joinable, guarded.whole, guarded.last, fun ends => ?_,
        .inr ⟨none, rfl, gone⟩, guarded.keeps, fun later => absurd later notFree,
        fun later => absurd later notFree⟩
      rcases ends with same | same | same <;> cases same

theorem guarded_new {calls : List Call} (last : FreesLast calls)
    (careful : Careful false calls = true) : Guarded (ucbThreadNewFlags false calls) :=
  guarded_of_elsewhere rfl rfl last rfl (fun _ _ absent => by cases absent)
    (by simp [OwnerPc.Elsewhere, ucbThreadNewFlags]) (fun _ _ _ absent => by cases absent)
    fun _ => careful

theorem Guarded.step {action : Action} (guarded : Guarded world)
    (ran : step world action = some after) : Guarded after := by
  obtain ⟨-, ⟨created, ran⟩ | ⟨index, worker, result, here, ran⟩⟩ := step_cases ran
  · exact guarded.owner ran
  · exact guarded.wrapper here ran

/-! ## Every other owner -/

/-- How many steps a thread has before it looks at `flags`. -/
def WorkerPc.left : WorkerPc → Nat
  | .created => 8
  | .calling => 7
  | .executing _ => 6
  | .returned _ => 5
  | .inCallback _ => 4
  | .storing _ => 3
  | .flagging => 2
  | .stopping => 1
  | .leaving | .freeing | .gone => 0

/-- Between two calls: every thread has returned or is about to look at `flags`. -/
structure Ready (world : World) : Prop where
  going : world.Going
  joinable : world.object.detached = false
  alive : world.freed = 0
  idle : world.owner = .idle
  stopped : world.object.running = false
  paused : ∀ (index : Nat) (worker : Worker), world.workers[index]? = some worker →
    worker.pc = .leaving ∨ worker.pc = .gone
  handle : ∀ index, world.object.handle = some index → ∃ worker : Worker,
    world.workers[index]? = some worker ∧ worker.pc = .leaving

/-- A thread that the owner has forgotten will still look at `flags`. -/
def Stray (world : World) : Prop :=
  ∃ (index : Nat) (worker : Worker), world.workers[index]? = some worker ∧ worker.pc = .leaving ∧
    world.object.handle ≠ some index

/-- In the wrapper, not yet at its end. -/
def WorkerPc.Inside (pc : WorkerPc) : Prop :=
  pc ≠ .freeing ∧ pc ≠ .gone

theorem Turn.advances (turn : Turn index object worker object' worker')
    (notLeaving : worker.pc ≠ .leaving) : worker'.pc.left < worker.pc.left ∧
      worker'.pc.Inside ∧ (worker'.pc = .leaving → object'.running = false) := by
  cases turn with
  | leaves here => exact absurd here notLeaving
  | owns here => exact absurd here notLeaving
  | stops here =>
      rw [here]
      exact ⟨Nat.one_pos, by simp [WorkerPc.Inside], fun _ => rfl⟩
  | passes here =>
      refine ⟨?_, by simp [WorkerPc.Inside], fun absent => by cases absent⟩
      rcases here with here | here <;> rw [here] <;> simp [WorkerPc.left]
  | _ here =>
      rw [here]
      exact ⟨by simp [WorkerPc.left], by simp [WorkerPc.Inside], fun absent => by cases absent⟩

theorem exists_wrapper (result : Int) (notGone : worker.pc ≠ .gone) :
    ∃ after, posixThreadWrapper world index worker result worker.pc = some after := by
  cases here : worker.pc with
  | gone => exact absurd here notGone
  | _ => exact ⟨_, rfl⟩

/-- Only the thread `index` has moved since `base`, and it is in `worker`. -/
structure MovedOn (base : World) (index : Nat) (worker : Worker) (world : World) : Prop where
  same : world = { base with
    object := world.object, workers := base.workers.set index worker }
  detached : world.object.detached = base.object.detached
  handle : world.object.handle = base.object.handle

theorem MovedOn.turn {base : World} (moved : MovedOn base index worker world)
    (turn : Turn index world.object worker object' worker') : MovedOn base index worker'
      { world with object := object', workers := world.workers.set index worker' } := by
  refine ⟨?_, turn.detached.trans moved.detached, turn.handle.trans moved.handle⟩
  rw [moved.same]
  simp only [List.set_set]

def UnderWay (base : World) (index : Nat) (world : World) : Prop :=
  ∃ worker : Worker, worker.pc.Inside ∧ (worker.pc = .leaving → world.object.running = false) ∧
    MovedOn base index worker world

def AtFlags (base : World) (index : Nat) (world : World) : Prop :=
  world.object.running = false ∧
    ∃ worker : Worker, worker.pc = .leaving ∧ MovedOn base index worker world

def World.stepsLeft (index : Nat) (world : World) : Nat :=
  world.workers[index]?.elim 0 (·.pc.left)

/-- Run to the end of the task and up to the look at `flags`. -/
theorem runs_task {base : World} (going : base.Going) (alive : base.freed = 0)
    (here : base.workers[index]? = some ⟨.created, none⟩) :
    ∃ last, Reaches step Always base last ∧ AtFlags base index last := by
  have progress (world : World) (underWay : UnderWay base index world)
      (notYet : ¬ AtFlags base index world) : ∃ action after, Always world action ∧
        step world action = some after ∧ UnderWay base index after ∧
          after.stepsLeft index < world.stepsLeft index := by
    obtain ⟨worker, inside, stops, moved⟩ := underWay
    have notLeaving : worker.pc ≠ .leaving :=
      fun leaving => notYet ⟨stops leaving, worker, leaving, moved⟩
    have alive' : world.freed = 0 := by rw [moved.same]; exact alive
    have going' : world.Going := by rw [moved.same]; exact going
    have set (new : Worker) : (base.workers.set index new)[index]? = some new :=
      getElem?_set_same here new
    have here' : world.workers[index]? = some worker := by rw [moved.same]; exact set worker
    obtain ⟨after, ran⟩ : ∃ after, posixThreadWrapper world index worker 0 worker.pc = some after :=
      exists_wrapper 0 inside.2
    refine ⟨.worker index 0, after, trivial, (going'.step.2.2 index worker 0 here').trans ran, ?_⟩
    rcases turn_of_wrapper alive' ran with ⟨object, worker', turn, rfl⟩ | ⟨freeing, -⟩
    · obtain ⟨less, inside', stops'⟩ := turn.advances notLeaving
      refine ⟨⟨worker', inside', stops', moved.turn turn⟩, ?_⟩
      have there : (world.workers.set index worker')[index]? = some worker' :=
        getElem?_set_same here' worker'
      rw [World.stepsLeft, World.stepsLeft, here', there]
      exact less
    · exact absurd freeing inside.1
  obtain ⟨inside, same⟩ := List.getElem?_eq_some_iff.mp here
  have unmoved : base.workers.set index ⟨.created, none⟩ = base.workers := by
    rw [← same, List.set_getElem_self]
  refine exists_run_to progress base ⟨⟨.created, none⟩, by simp [WorkerPc.Inside],
    fun absent => absurd absent (by simp), ?_, rfl, rfl⟩
  rw [unmoved]

variable {calls rest : List Call}

theorem owner_next (created : Bool) {owner : OwnerPc} (going : world.Going)
    (here : world.owner = owner) (ran : ownerStep world created owner = some after) :
    Reaches step Always world after := by
  have stepped : step world (.owner created) = some after := by
    cases created with
    | true => exact going.step.1.trans (here ▸ ran)
    | false => exact going.step.2.1.trans (here ▸ ran)
  exact (Reaches.refl world).next trivial stepped

theorem worker_next (result : Int) (going : world.Going)
    (here : world.workers[index]? = some worker)
    (ran : posixThreadWrapper world index worker result worker.pc = some after) :
    Reaches step Always world after :=
  (Reaches.refl world).next trivial ((going.step.2.2 index worker result here).trans ran)

theorem create_next (going : world.Going) (here : world.owner = .creating)
    (joinable : world.object.detached = false) :
    Reaches step Always world { world with
      workers := world.workers ++ [⟨.created, none⟩], owner := .storing world.workers.length } := by
  refine owner_next true going here (congrArg some ?_)
  rw [pthreadCreate, if_pos rfl, joinable]
  rfl

theorem store_next (going : world.Going) (alive : world.freed = 0) {handle : Nat}
    (here : world.owner = .storing handle) : Reaches step Always world { world with
      object := { world.object with handle := some handle }, owner := .idle } :=
  owner_next false going here (congrArg some (touch_alive alive _))

theorem join_next (going : world.Going) (alive : world.freed = 0) {thenFree : Bool}
    (here : world.owner = .joining thenFree)
    (returned : world.returned world.object.handle = true) :
    Reaches step Always world { world with
      object := { world.object with handle := none, running := false }
      owner := if thenFree then .freeing else .idle } := by
  have waits : Reaches step Always world { world with owner := .joined thenFree } := by
    refine owner_next false going here ?_
    rw [ownerStep, if_neg (by simp [returned])]
    exact congrArg some (touch_alive alive _)
  have alive' : ({ world with owner := .joined thenFree }).freed = 0 := alive
  exact waits.trans (owner_next false going rfl (congrArg some (touch_alive alive' _)))

theorem leave_next (going : world.Going) (alive : world.freed = 0)
    (joinable : world.object.detached = false) (here : world.workers[index]? = some worker)
    (leaving : worker.pc = .leaving) : Reaches step Always world { world with
      workers := world.workers.set index { worker with pc := .gone } } := by
  refine worker_next 0 going here ?_
  rw [leaving, posixThreadWrapper, touch_alive alive, joinable]
  rfl

theorem Ready.begins (ready : Ready world) {call : Call} (calls : world.calls = call :: rest) :
    Reaches step Always world (callBegins { world with calls := rest } call) := by
  have ran : ownerStep world false .idle = some (callBegins { world with calls := rest } call) := by
    simp only [ownerStep, calls]
  exact owner_next false ready.going ready.idle ran

theorem Ready.queries (ready : Ready world) {call : Call} (calls : world.calls = call :: rest)
    (query : call = .isRunning ∨ call = .getTaskStatus) :
    ∃ last, Reaches step Always world last ∧ Ready last ∧ last.calls = rest ∧
      last.workers = world.workers ∧ last.object = world.object := by
  have alive' : ({ world with calls := rest }).freed = 0 := ready.alive
  refine ⟨_, ready.begins calls, ?_⟩
  rcases query with rfl | rfl
  · rw [callBegins, touch_alive alive']
    exact ⟨⟨ready.going, ready.joinable, ready.alive, ready.idle, ready.stopped, ready.paused,
      ready.handle⟩, rfl, rfl, rfl⟩
  · rw [callBegins, touch_alive alive', if_neg (by simp [ready.joinable])]
    exact ⟨⟨ready.going, ready.joinable, ready.alive, ready.idle, ready.stopped, ready.paused,
      ready.handle⟩, rfl, rfl, rfl⟩

/-- Up to the handle of a thread that has been created. -/
theorem Ready.creates (ready : Ready world) {task : UcbTask}
    (calls : world.calls = .start task :: rest) : ∃ base, Reaches step Always world base ∧
      base.Going ∧ base.freed = 0 ∧ base.owner = .idle ∧ base.calls = rest ∧
      base.object.detached = false ∧ base.object.handle = some world.workers.length ∧
      base.workers = world.workers ++ [⟨.created, none⟩] := by
  have alive' : ({ world with calls := rest }).freed = 0 := ready.alive
  have begins := ready.begins calls
  rw [callBegins, touch_alive alive', if_neg (by simp [ready.stopped])] at begins
  obtain ⟨begun, run, going, alive, creating, sameCalls, joinable, workers⟩ :
      ∃ begun, Reaches step Always world begun ∧ begun.Going ∧ begun.freed = 0 ∧
        begun.owner = .creating ∧ begun.calls = rest ∧ begun.object.detached = false ∧
        begun.workers = world.workers :=
    ⟨_, begins, ready.going, ready.alive, rfl, rfl, ready.joinable, rfl⟩
  have creates := run.trans (create_next going creating joinable)
  obtain ⟨made, run', going', alive', storing, sameCalls', joinable', workers'⟩ :
      ∃ made, Reaches step Always world made ∧ made.Going ∧ made.freed = 0 ∧
        made.owner = .storing world.workers.length ∧ made.calls = rest ∧
        made.object.detached = false ∧ made.workers = world.workers ++ [⟨.created, none⟩] :=
    ⟨_, creates, going, alive, by rw [workers], sameCalls, joinable, by rw [workers]⟩
  exact ⟨_, run'.trans (store_next going' alive' storing), going', alive', rfl, sameCalls',
    joinable', rfl, workers'⟩

/-- A start that succeeds, and its thread up to the look at `flags`. -/
theorem Ready.starts (ready : Ready world) {task : UcbTask}
    (calls : world.calls = .start task :: rest) :
    ∃ last, Reaches step Always world last ∧ Ready last ∧ last.calls = rest ∧
      last.object.handle = some world.workers.length ∧
      ∀ (index : Nat) (worker : Worker), world.workers[index]? = some worker →
        last.workers[index]? = some worker := by
  obtain ⟨base, run, going, alive, idle, sameCalls, joinable, handle, workers⟩ :=
    ready.creates calls
  have created : base.workers[world.workers.length]? = some ⟨.created, none⟩ := by simp [workers]
  obtain ⟨last, run', stopped, worker, leaving, moved⟩ := runs_task going alive created
  have here : last.workers[world.workers.length]? = some worker := by
    rw [moved.same]
    exact getElem?_set_same created worker
  have handle' : last.object.handle = some world.workers.length := moved.handle.trans handle
  have old (index : Nat) (there : index ≠ world.workers.length) :
      last.workers[index]? = (world.workers ++ [⟨.created, none⟩])[index]? := by
    rw [moved.same]
    simp only [workers, List.getElem?_set_ne (Ne.symm there)]
  refine ⟨last, run.trans run', ⟨?_, moved.detached.trans joinable, ?_, ?_, stopped,
    fun index moved' found => ?_, fun index same => ?_⟩, ?_, handle', fun index old' found => ?_⟩
  · rw [moved.same]
    exact going
  · rw [moved.same]
    exact alive
  · rw [moved.same]
    exact idle
  · by_cases there : index = world.workers.length
    · rw [there, here] at found
      obtain rfl := Option.some.inj found
      exact .inl leaving
    · rw [old index there] at found
      rcases getElem?_append_cases found with ⟨same, -⟩ | found'
      · exact absurd same there
      · exact ready.paused index moved' found'
  · rw [handle'] at same
    obtain rfl := Option.some.inj same
    exact ⟨worker, here, leaving⟩
  · rw [moved.same]
    exact sameCalls
  · have inside := lt_of_getElem? found
    rw [old index (Nat.ne_of_lt inside), List.getElem?_append_left inside]
    exact found

/-- The thread of the last start has returned, and the owner is behind its join. -/
theorem Ready.joins (ready : Ready world) (rest : List Call) (thenFree : Bool) {begun : World}
    (same : begun = { world with calls := rest, owner := .joining thenFree }) :
    ∃ last, Reaches step Always begun last ∧ last.Going ∧ last.freed = 0 ∧
      last.object.detached = false ∧ last.object.running = false ∧ last.object.handle = none ∧
      last.owner = (if thenFree then .freeing else .idle) ∧ last.calls = rest ∧
      (∀ (index : Nat) (worker : Worker), last.workers[index]? = some worker →
        worker.pc = .leaving ∨ worker.pc = .gone) ∧
      ∀ (index : Nat) (worker : Worker), world.object.handle ≠ some index →
        world.workers[index]? = some worker → last.workers[index]? = some worker := by
  have going : begun.Going := by rw [same]; exact ready.going
  have alive : begun.freed = 0 := by rw [same]; exact ready.alive
  have joinable : begun.object.detached = false := by rw [same]; exact ready.joinable
  have joining : begun.owner = .joining thenFree := by rw [same]
  have workers : begun.workers = world.workers := by rw [same]
  have object : begun.object = world.object := by rw [same]
  have calls : begun.calls = rest := by rw [same]
  cases handle : world.object.handle with
  | none =>
      have returned : begun.returned begun.object.handle = true := by rw [object, handle]; rfl
      refine ⟨_, join_next going alive joining returned, going, alive, joinable, rfl, rfl, rfl,
        calls, fun index worker found => ?_, fun index worker _ found => ?_⟩
      · exact ready.paused index worker (workers ▸ found)
      · exact workers.symm ▸ found
  | some handle' =>
      obtain ⟨worker, here, leaving⟩ := ready.handle handle' handle
      have here' : begun.workers[handle']? = some worker := workers.symm ▸ here
      obtain ⟨left, run, going', alive', joinable', joining', object', calls', workers'⟩ :
          ∃ left, Reaches step Always begun left ∧ left.Going ∧ left.freed = 0 ∧
            left.object.detached = false ∧ left.owner = .joining thenFree ∧
            left.object = world.object ∧ left.calls = rest ∧
            left.workers = world.workers.set handle' { worker with pc := .gone } :=
        ⟨_, leave_next going alive joinable here' leaving, going, alive, joinable, joining, object,
          calls, by rw [workers]⟩
      have returned : left.returned left.object.handle = true := by
        have gone := getElem?_set_same here { worker with pc := .gone }
        simp [World.returned, object', handle, workers', gone]
      refine ⟨_, run.trans (join_next going' alive' joining' returned), going', alive', joinable',
        rfl, rfl, rfl, calls', fun index moved found => ?_, fun index old notHandle found => ?_⟩
      · rw [workers'] at found
        rcases getElem?_set_cases found with ⟨-, rfl⟩ | ⟨-, found'⟩
        · exact .inr rfl
        · exact ready.paused index moved found'
      · have apart : handle' ≠ index := fun same => notHandle (congrArg some same)
        rw [workers', List.getElem?_set_ne apart, found]

theorem Stray.keep {last : World} (stray : Stray world)
    (keeps : ∀ (index : Nat) (worker : Worker), world.object.handle ≠ some index →
      world.workers[index]? = some worker → last.workers[index]? = some worker)
    (forgets : ∀ index, world.object.handle ≠ some index → index < world.workers.length →
      last.object.handle ≠ some index) : Stray last := by
  obtain ⟨index, worker, here, leaving, notHandle⟩ := stray
  exact ⟨index, worker, keeps index worker notHandle here, leaving,
    forgets index notHandle (lt_of_getElem? here)⟩

/-- Freed while a forgotten thread has still to look at `flags`. -/
theorem Ready.frees_under (ready : Ready world) (calls : world.calls = [.free])
    (stray : Stray world) : ∃ last, Reaches step Always world last ∧ last.fault = true := by
  have alive' : ({ world with calls := [] }).freed = 0 := ready.alive
  have begins := ready.begins calls
  rw [callBegins, touch_alive alive', if_neg (by simp [ready.joinable])] at begins
  obtain ⟨joined, run, going, alive, joinable, -, -, freeing, -, -, keeps⟩ :=
    ready.joins [] true rfl
  obtain ⟨index, worker, here, leaving, notHandle⟩ := stray
  have here' := keeps index worker notHandle here
  obtain ⟨freed, run', going', gone, workers⟩ : ∃ freed, Reaches step Always joined freed ∧
      freed.Going ∧ freed.freed ≠ 0 ∧ freed.workers = joined.workers := by
    have alive'' : ({ joined with owner := .idle }).freed = 0 := alive
    exact ⟨_, owner_next false going freeing (congrArg some (touch_alive alive'' _)), going,
      Nat.succ_ne_zero _, rfl⟩
  have faults : posixThreadWrapper freed index worker 0 worker.pc =
      some { freed with fault := true } := by
    rw [leaving, posixThreadWrapper, World.touch, if_neg gone]
  exact ⟨_, ((begins.trans run).trans run').trans (worker_next 0 going' (workers ▸ here') faults), rfl⟩

theorem exists_fault {calls : List Call} (last : FreesLast calls) : ∀ world, Ready world →
    world.calls = calls → (Stray world ∧ .free ∈ calls) ∨
      Careful world.object.handle.isSome calls = false →
    ∃ last, Reaches step Always world last ∧ last.fault = true := by
  induction calls with
  | nil =>
      rintro world - - (⟨-, absent⟩ | absent)
      · cases absent
      · cases absent
  | cons call rest inductionHypothesis =>
      intro world ready calls reckless
      have goesOn := inductionHypothesis last.tail
      have carries {next : World} (run : Reaches step Always world next)
          (fails : ∃ last, Reaches step Always next last ∧ last.fault = true) :
          ∃ last, Reaches step Always world last ∧ last.fault = true := by
        obtain ⟨end_, run', fault⟩ := fails
        exact ⟨end_, run.trans run', fault⟩
      have asked {next : World} (workers : next.workers = world.workers)
          (object : next.object = world.object)
          (both : Stray world ∧ .free ∈ call :: rest) (other : call ≠ .free) :
          Stray next ∧ .free ∈ rest := by
        refine ⟨both.1.keep (fun index worker _ here => workers.symm ▸ here)
          fun index notHandle _ => object.symm ▸ notHandle, ?_⟩
        rcases List.mem_cons.mp both.2 with same | later
        · exact absurd same.symm other
        · exact later
      cases call with
      | start task =>
          obtain ⟨next, run, ready', calls', handle, keeps⟩ := ready.starts calls
          refine carries run (goesOn next ready' calls' ?_)
          have strays (stray : Stray world) : Stray next :=
            stray.keep (fun index worker _ => keeps index worker) fun index _ inside same => by
              rw [handle] at same
              exact absurd (Option.some.inj same) (Nat.ne_of_gt inside)
          rcases reckless with ⟨stray, later⟩ | reckless
          · rcases List.mem_cons.mp later with same | later'
            · cases same
            · exact .inl ⟨strays stray, later'⟩
          · rw [Careful, Bool.and_eq_false_iff] at reckless
            rcases reckless with both | reckless
            · simp only [Bool.or_eq_false_iff, Bool.not_eq_false', List.contains_iff_mem,
                Option.isSome_iff_exists] at both
              obtain ⟨⟨old, held⟩, later⟩ := both
              obtain ⟨worker, here, leaving⟩ := ready.handle old held
              refine .inl ⟨⟨old, worker, keeps old worker here, leaving, fun same => ?_⟩, later⟩
              rw [handle] at same
              exact absurd (Option.some.inj same) (Nat.ne_of_gt (lt_of_getElem? here))
            · rw [handle]
              exact .inr reckless
      | join =>
          have alive' : ({ world with calls := rest }).freed = 0 := ready.alive
          have begins := ready.begins calls
          rw [callBegins, touch_alive alive', if_neg (by simp [ready.joinable])] at begins
          obtain ⟨next, run, going, alive, joinable, stopped, none, idle, calls', paused, keeps⟩ :=
            ready.joins rest false rfl
          have ready' : Ready next := ⟨going, joinable, alive, idle, stopped, paused,
            fun index same => absurd (none.symm.trans same) (by simp)⟩
          refine carries (begins.trans run) (goesOn next ready' calls' ?_)
          rcases reckless with ⟨stray, later⟩ | reckless
          · rcases List.mem_cons.mp later with same | later'
            · cases same
            · exact .inl ⟨stray.keep keeps fun index _ _ same =>
                absurd (none.symm.trans same) (by simp), later'⟩
          · rw [none]
            exact .inr reckless
      | free =>
          obtain rfl := last.end_
          rcases reckless with ⟨stray, -⟩ | absent
          · exact ready.frees_under calls stray
          · cases absent
      | isRunning =>
          obtain ⟨next, run, ready', calls', workers, object⟩ := ready.queries calls (.inl rfl)
          exact carries run (goesOn next ready' calls' (reckless.imp
            (asked workers object · (by simp)) fun reckless => object ▸ reckless))
      | getTaskStatus =>
          obtain ⟨next, run, ready', calls', workers, object⟩ := ready.queries calls (.inr rfl)
          exact carries run (goesOn next ready' calls' (reckless.imp
            (asked workers object · (by simp)) fun reckless => object ▸ reckless))

theorem ready_new (calls : List Call) : Ready (ucbThreadNewFlags false calls) :=
  ⟨⟨rfl, rfl⟩, rfl, rfl, rfl, rfl, fun _ _ absent => absurd absent (by simp [ucbThreadNewFlags]),
    fun _ absent => absurd absent (by simp [ucbThreadNewFlags])⟩

/-- An owner of a joinable thread that calls nothing on it after the free: no interleaving with the
threads that it starts uses freed memory, if and only if no start that is followed by the free comes
between an earlier start and its join. -/
theorem safe_iff_careful {calls : List Call} (last : FreesLast calls) :
    (∀ world, Reaches step Always (ucbThreadNewFlags false calls) world → world.fault = false) ↔
      Careful false calls = true := by
  constructor
  · intro safe
    by_contra reckless
    rw [Bool.not_eq_true] at reckless
    obtain ⟨world, run, fault⟩ := exists_fault last _ (ready_new calls) rfl (.inr reckless)
    rw [safe world run] at fault
    cases fault
  · intro careful world run
    have guarded : Guarded world := run.invariant (guarded_new last careful)
      fun _ _ _ guarded _ ran => guarded.step ran
    exact guarded.whole

/-- Started again before the join of the first start. -/
def restarted : List Call :=
  [.start ⟨1, false⟩, .start ⟨2, false⟩, .join, .free]

theorem safe_iff_careful_restarted : ¬ ∀ world,
    Reaches step Always (ucbThreadNewFlags false restarted) world → world.fault = false := by
  rw [safe_iff_careful (by simp [FreesLast, restarted])]
  decide

end Ucb.Threads.Thread
