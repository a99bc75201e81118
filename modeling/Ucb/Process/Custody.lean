import Ucb.Process.Lifetime

/-!
Contract: every child is in the hands of one handle, and the handle tells the truth about it.

Owns:
- `Sound`, what holds between the process table, the children and the handles;
- one lemma for each kind of change: a session that moves on, a signal, a child that is waited
  for, an event of a child;
- that no order of steps leaves it.
-/

namespace Ucb.Process.Lifetime

open Ucb.Lib

/-! ## Children -/

def Child.Finishes (child : Child) (ending : Ending) : Prop :=
  child.life = .dying ending ∨ child.life = .ended ending

structure Child.Sound (child : Child) : Prop where
  starting : child.life = .starting → child.execed = false
  running : child.life = .running → child.execed = true
  reported : child.report ≠ none → child.execed = false
  cause : ∀ ending, child.Finishes ending → child.execed = true ∨ child.report ≠ none ∨
    child.lostPipe = true ∨ ∃ signal, ending = .signaled signal
  killed : child.killed = true → ∀ ending, child.Finishes ending → ending = .signaled sigkill

structure Child.Later (old new : Child) : Prop where
  begun : old.life ≠ .starting → new.life ≠ .starting ∧ new.report = old.report
  report : ∀ errno, old.report = some errno → new.report = some errno
  lostPipe : old.lostPipe = true → new.lostPipe = true
  execed : old.execed = true → new.execed = true
  killed : old.killed = true → new.killed = true
  ended : ∀ ending, old.life = .ended ending → new.life = .ended ending
  finishes : ∀ ending, old.Finishes ending → new.Finishes ending

theorem Child.Later.refl (child : Child) : child.Later child :=
  ⟨fun begun => ⟨begun, rfl⟩, fun _ same => same, fun same => same, fun same => same,
    fun same => same, fun _ same => same, fun _ same => same⟩

/-- The child has become its program, or a signal ended it before it could report a failure, or it
has nothing to report one with. -/
def Child.Started (child : Child) : Prop :=
  child.lostPipe = true ∨ child.life ≠ .starting ∧ child.report = none ∧
    (child.execed = true ∨ ∃ signal, child.Finishes (.signaled signal))

def Child.Blames (child : Child) (error : SpawnError) : Prop :=
  ∀ errno, error = .execFailed errno → child.report = some errno

def Child.Confirms (child : Child) : Return → Prop
  | .exited code => ∃ ending, child.life = .ended ending ∧ code = ending.exitCode
  | .timedOut began timeout now =>
      timeout = 0 ∨ processUnixNowMs began + timeout ≤ processUnixNowMs now
  | .waitFailed => False
  | .signalled true true => child.killed = true ∨ ∃ ending, child.Finishes ending
  | .signalled _ _ => True

variable {child child' : Child}

theorem Child.Sound.started (sound : child.Sound) (begun : child.life ≠ .starting)
    (silent : child.report = none) : child.Started := by
  by_cases lost : child.lostPipe = true
  · exact .inl lost
  refine .inr ⟨begun, silent, ?_⟩
  have ran {ending : Ending} (finishes : child.Finishes ending) :
      child.execed = true ∨ ∃ signal, child.Finishes (.signaled signal) := by
    rcases sound.cause ending finishes with execed | reported | lost' | ⟨signal, rfl⟩
    · exact .inl execed
    · exact absurd silent reported
    · exact absurd lost' lost
    · exact .inr ⟨signal, finishes⟩
  cases life : child.life with
  | starting => exact absurd life begun
  | running => exact .inl (sound.running life)
  | dying ending => exact ran (.inl life)
  | ended ending => exact ran (.inr life)

theorem Child.Started.later (started : child.Started) (later : child.Later child') :
    child'.Started := by
  obtain lost | ⟨begun, silent, ran⟩ := started
  · exact .inl (later.lostPipe lost)
  obtain ⟨begun', same⟩ := later.begun begun
  refine .inr ⟨begun', same.trans silent, ?_⟩
  rcases ran with execed | ⟨signal, finishes⟩
  · exact .inl (later.execed execed)
  · exact .inr ⟨signal, later.finishes _ finishes⟩

theorem Child.Blames.later {error : SpawnError} (blames : child.Blames error)
    (later : child.Later child') : child'.Blames error :=
  fun errno same => later.report errno (blames errno same)

theorem Child.Confirms.later {result : Return} (confirms : child.Confirms result)
    (later : child.Later child') : child'.Confirms result := by
  cases result with
  | exited code =>
      obtain ⟨ending, ended, same⟩ := confirms
      exact ⟨ending, later.ended _ ended, same⟩
  | timedOut began timeout now => exact confirms
  | waitFailed => exact confirms
  | signalled force ok =>
      cases force with
      | false => trivial
      | true =>
          cases ok with
          | false => trivial
          | true =>
              rcases confirms with killed | ⟨ending, finishes⟩
              · exact .inl (later.killed killed)
              · exact .inr ⟨ending, later.finishes _ finishes⟩

theorem Child.later_signal (child : Child) (signal : Nat) :
    child.Later (child.signal signal) := by
  rw [Child.signal]
  split
  · exact ⟨fun begun => ⟨begun, rfl⟩, fun _ same => same, fun same => same, fun same => same,
      fun killed => by rw [killed]; rfl, fun _ same => same, fun _ same => same⟩
  · exact .refl child

theorem Child.Sound.signal (sound : child.Sound) (signal : Nat) : (child.signal signal).Sound := by
  rw [Child.signal]
  split
  next alive =>
    refine ⟨sound.starting, sound.running, sound.reported, sound.cause,
      fun _ ending finishes => ?_⟩
    rcases alive with here | here <;> rcases finishes with there | there <;>
      exact absurd (here.symm.trans there) (by simp)
  · exact sound

/-- `SIGKILL` is received, unless the child is on its way out. -/
theorem Child.signal_confirms (child : Child) (force : Bool) :
    (child.signal (if force then sigkill else sigterm)).Confirms (.signalled force true) := by
  cases force with
  | false => trivial
  | true =>
      rw [Child.signal, if_pos rfl]
      split
      · exact .inl (by simp)
      next gone =>
        refine .inr ?_
        cases life : child.life with
        | starting => exact absurd (.inl life) gone
        | running => exact absurd (.inr life) gone
        | dying ending => exact ⟨ending, .inl life⟩
        | ended ending => exact ⟨ending, .inr life⟩

/-! ## Events of a child -/

def Keeps (event : Child → Option Child) : Prop :=
  ∀ child child', child.Sound → event child = some child' → child'.Sound ∧ child.Later child'

theorem keeps_losesPipe : Keeps (·.losesPipe) := by
  intro child child' sound ran
  simp only [Child.losesPipe, Option.ite_none_right_eq_some, Option.some.injEq] at ran
  obtain ⟨⟨starting, silent⟩, rfl⟩ := ran
  constructor
  · exact ⟨sound.starting, sound.running, sound.reported, fun _ _ => .inr (.inr (.inl rfl)),
      sound.killed⟩
  · exact ⟨fun begun => absurd starting begun, fun _ same => same, fun _ => rfl, fun same => same,
      fun same => same, fun _ same => same, fun _ same => same⟩

theorem keeps_reports (errno : Nat) : Keeps (·.reports errno) := by
  intro child child' sound ran
  simp only [Child.reports, Option.ite_none_right_eq_some, Option.some.injEq] at ran
  obtain ⟨⟨starting, silent, -⟩, rfl⟩ := ran
  constructor
  · exact ⟨sound.starting, sound.running, fun _ => sound.starting starting,
      fun _ _ => .inr (.inl (Option.some_ne_none errno)), sound.killed⟩
  · refine ⟨fun begun => absurd starting begun, fun _ same => ?_, fun same => same,
      fun same => same, fun same => same, fun _ same => same, fun _ same => same⟩
    rw [silent] at same
    cases same

theorem keeps_execs : Keeps (·.execs) := by
  intro child child' sound ran
  simp only [Child.execs, Option.ite_none_right_eq_some, Option.some.injEq] at ran
  obtain ⟨⟨starting, silent⟩, rfl⟩ := ran
  constructor
  · refine ⟨fun same => absurd same (by simp), fun _ => rfl, fun reported => absurd silent reported,
      fun _ _ => .inl rfl, fun _ ending finishes => ?_⟩
    rcases finishes with same | same <;> cases same
  · refine ⟨fun begun => absurd starting begun, fun _ same => same, fun same => same, fun _ => rfl,
      fun same => same, fun ending same => ?_, fun ending finishes => ?_⟩
    · exact absurd (starting.symm.trans same) (by simp)
    · rcases finishes with same | same <;> exact absurd (starting.symm.trans same) (by simp)

theorem Child.alive_of_canEnd {ending : Ending} (possible : child.canEnd ending = true) :
    child.life = .starting ∨ child.life = .running := by
  cases ending <;> simp only [Child.canEnd, Bool.and_eq_true, Bool.or_eq_true,
    decide_eq_true_eq] at possible
  · rcases possible.2 with running | starting
    · exact .inr running
    · exact .inl starting.1.1
  · exact possible.2

theorem keeps_dies (ending : Ending) : Keeps (·.dies ending) := by
  intro child child' sound ran
  simp only [Child.dies, Option.ite_none_right_eq_some, Option.some.injEq] at ran
  obtain ⟨possible, rfl⟩ := ran
  have alive := Child.alive_of_canEnd possible
  constructor
  · refine ⟨fun same => absurd same (by simp), fun same => absurd same (by simp), sound.reported, ?_, ?_⟩
    · rintro other (same | same) <;> cases same
      cases ending with
      | signaled signal => exact .inr (.inr (.inr ⟨signal, rfl⟩))
      | exited status =>
          simp only [Child.canEnd, Bool.and_eq_true, Bool.or_eq_true,
            decide_eq_true_eq] at possible
          rcases possible.2 with running | starting
          · exact .inl (sound.running running)
          · rcases starting.1.2 with reported | lost
            · exact .inr (.inl (Option.isSome_iff_ne_none.mp reported))
            · exact .inr (.inr (.inl lost))
    · rintro killed other (same | same) <;> cases same
      have killed' : child.killed = true := killed
      cases ending with
      | exited status => simp [Child.canEnd, killed'] at possible
      | signaled signal =>
          simp only [Child.canEnd, killed', Bool.not_true, Bool.false_or, Bool.and_eq_true,
            decide_eq_true_eq] at possible
          rw [possible.1]
  · refine ⟨fun begun => ⟨by simp, rfl⟩, fun _ same => same, fun same => same, fun same => same,
      fun same => same, fun other same => ?_, fun other finishes => ?_⟩
    · rcases alive with here | here <;> exact absurd (here.symm.trans same) (by simp)
    · rcases alive with here | here <;> rcases finishes with same | same <;>
        exact absurd (here.symm.trans same) (by simp)

theorem keeps_ends : Keeps (·.ends) := by
  intro child child' sound ran
  have ran' : child.ends = some child' := ran
  rw [Child.ends] at ran'
  split at ran'
  next ending dying =>
    obtain rfl := Option.some.inj ran'
    have back {other : Ending}
        (finishes : Child.Finishes { child with life := .ended ending } other) :
        child.Finishes other := by
      rcases finishes with same | same <;> cases same
      exact .inl dying
    constructor
    · exact ⟨fun same => absurd same (by simp), fun same => absurd same (by simp), sound.reported,
        fun other finishes => sound.cause other (back finishes),
        fun killed other finishes => sound.killed killed other (back finishes)⟩
    · refine ⟨fun _ => ⟨by simp, rfl⟩, fun _ same => same, fun same => same, fun same => same,
        fun same => same, fun other same => ?_, fun other finishes => ?_⟩
      · exact absurd (dying.symm.trans same) (by simp)
      · rcases finishes with same | same
        · rw [dying] at same
          cases same
          exact .inr rfl
        · exact absurd (dying.symm.trans same) (by simp)
  next => cases ran'

/-! ## Sessions -/

/-- The pid of the child that a session answers for. -/
def Session.holds : Session → Option Nat
  | .spawning pid _ => some pid
  | .failed _ => none
  | .opened proc _ => if proc.reaped then none else some proc.pid
  | .freed left => left

/-- A deadline is not before the end of the timeout. -/
def CallPc.InTime (began now : Nat) : CallPc → Prop
  | .stamping _ => began ≤ now
  | .polling timeout deadline | .checking timeout deadline | .sleeping timeout deadline =>
      timeout = 0 ∨ processUnixNowMs began + timeout ≤ deadline
  | _ => True

def Session.Right (child : Child) (began now : Nat) : Session → Prop
  | .spawning _ .reading => True
  | .spawning _ .allocating => child.Started
  | .spawning _ (.killing error) => child.Blames error
  | .spawning _ (.reaping error) => child.Blames error
  | .failed error => child.Blames error ∧ ∃ ending, child.life = .ended ending
  | .opened proc call => child.Started ∧ call.InTime began now ∧ (proc.reaped = true →
      call = .idle ∧ ∃ ending, child.life = .ended ending ∧ proc.exitCode = ending.exitCode)
  | .freed left => child.Started ∧ (left = none → ∃ ending, child.life = .ended ending)

theorem Session.Right.later {session : Session} {began now : Nat}
    (right : session.Right child began now) (later : child.Later child') :
    session.Right child' began now := by
  have ended : (∃ ending, child.life = .ended ending) → ∃ ending, child'.life = .ended ending :=
    fun ⟨ending, same⟩ => ⟨ending, later.ended _ same⟩
  cases session with
  | spawning pid pc =>
      cases pc with
      | reading => trivial
      | allocating => exact Child.Started.later right later
      | killing error => exact Child.Blames.later right later
      | reaping error => exact Child.Blames.later right later
  | failed error => exact ⟨right.1.later later, ended right.2⟩
  | opened proc call =>
      obtain ⟨started, inTime, reaped⟩ := right
      refine ⟨started.later later, inTime, fun isReaped => ?_⟩
      obtain ⟨idle, ending, same, code⟩ := reaped isReaped
      exact ⟨idle, ending, later.ended _ same, code⟩
  | freed left => exact ⟨right.1.later later, fun none => ended (right.2 none)⟩

theorem Session.Right.tick {session : Session} {began now : Nat}
    (right : session.Right child began now) : session.Right child began (now + 1) := by
  cases session with
  | spawning pid pc => cases pc <;> exact right
  | failed error => exact right
  | freed left => exact right
  | opened proc call =>
      refine ⟨right.1, ?_, right.2.2⟩
      cases call with
      | stamping timeout => exact Nat.le_succ_of_le right.2.1
      | _ => exact right.2.1

/-! ## The world -/

/-- The process table and the sessions agree on who has which child, and what the sessions know and
have returned is true. -/
structure Sound (world : World) : Prop where
  child : ∀ pid index, world.procs pid = some (.child index) ↔
    ∃ spawned, world.spawned index = some spawned ∧ spawned.session.holds = some pid
  others : ∀ pid, world.procs pid ≠ some (.other true)
  children : ∀ index spawned, world.spawned index = some spawned → spawned.child.Sound
  right : ∀ index spawned, world.spawned index = some spawned →
    spawned.session.Right spawned.child spawned.began world.now
  returns : ∀ index result, (index, result) ∈ world.returns →
    ∃ spawned, world.spawned index = some spawned ∧ spawned.child.Confirms result

variable {world after : World} {index pid : Nat} {old new : Spawned}

theorem put_cases {other : Nat} {spawned : Spawned}
    (found : (world.put index new).spawned other = some spawned) :
    (other = index ∧ spawned = new) ∨ (other ≠ index ∧ world.spawned other = some spawned) := by
  by_cases same : other = index
  · subst same
    rw [put_same] at found
    exact .inl ⟨rfl, (Option.some.inj found).symm⟩
  · rw [put_of_ne new same] at found
    exact .inr ⟨same, found⟩

theorem Sound.put_returns (sound : Sound world) (here : world.spawned index = some old)
    (new : Spawned) (later : old.child.Later new.child) {other : Nat} {result : Return}
    (member : (other, result) ∈ world.returns) :
    ∃ spawned, (world.put index new).spawned other = some spawned ∧
      spawned.child.Confirms result := by
  obtain ⟨spawned, found, confirms⟩ := sound.returns other result member
  by_cases same : other = index
  · subst same
    obtain rfl := Option.some.inj (here.symm.trans found)
    exact ⟨new, put_same _ _ _, confirms.later later⟩
  · exact ⟨spawned, (put_of_ne new same).trans found, confirms⟩

/-- A session goes on with a child that is at most later, and answers for the same pid. -/
theorem Sound.put (sound : Sound world) (here : world.spawned index = some old)
    (holds : new.session.holds = old.session.holds) (childSound : new.child.Sound)
    (later : old.child.Later new.child)
    (right : new.session.Right new.child new.began world.now) : Sound (world.put index new) := by
  constructor
  · intro pid other
    rw [put_procs, sound.child]
    by_cases same : other = index
    · subst same
      rw [here, put_same]
      simp only [Option.some.injEq, exists_eq_left', holds]
    · rw [put_of_ne new same]
  · exact sound.others
  · intro other spawned found
    rcases put_cases found with ⟨-, rfl⟩ | ⟨-, found'⟩
    · exact childSound
    · exact sound.children other spawned found'
  · intro other spawned found
    rcases put_cases found with ⟨-, rfl⟩ | ⟨-, found'⟩
    · exact right
    · exact sound.right other spawned found'
  · exact fun other result member => sound.put_returns here new later member

theorem Sound.move (sound : Sound world) (here : world.spawned index = some old)
    {session : Session} (holds : session.holds = old.session.holds)
    (right : session.Right old.child old.began world.now) :
    Sound (world.move index old session) :=
  sound.put here holds (sound.children index old here) (.refl _) right

/-- A child that has been waited for is out of the hands of its session. -/
theorem Sound.reaped (sound : Sound world) (here : world.spawned index = some old)
    (held : old.session.holds = some pid) {session : Session} (gone : session.holds = none)
    (right : session.Right old.child old.began world.now) :
    Sound ((world.release pid).move index old session) := by
  have mine : world.procs pid = some (.child index) := (sound.child pid index).mpr ⟨old, here, held⟩
  rw [World.move, World.release]
  constructor
  · intro pid' other
    rw [put_procs]
    by_cases same : other = index
    · subst same
      simp only [put_same, Option.some.injEq, exists_eq_left', gone, reduceCtorEq, iff_false]
      by_cases samePid : pid' = pid
      · rw [samePid, occupy_same]
        exact Option.some_ne_none _ |>.symm
      · rw [occupy_of_ne _ samePid, sound.child]
        rintro ⟨spawned, found, holds⟩
        obtain rfl := Option.some.inj (here.symm.trans found)
        exact samePid (Option.some.inj (holds.symm.trans held))
    · rw [put_of_ne _ same, occupy_spawned, ← sound.child]
      by_cases samePid : pid' = pid
      · rw [samePid, occupy_same, mine]
        simp [Ne.symm same]
      · rw [occupy_of_ne _ samePid]
  · intro pid'
    rw [put_procs]
    by_cases samePid : pid' = pid
    · rw [samePid, occupy_same]
      exact Option.some_ne_none _ |>.symm
    · rw [occupy_of_ne _ samePid]
      exact sound.others pid'
  · intro other spawned found
    rcases put_cases found with ⟨-, rfl⟩ | ⟨-, found'⟩
    · exact sound.children index old here
    · exact sound.children other spawned found'
  · intro other spawned found
    rcases put_cases found with ⟨-, rfl⟩ | ⟨-, found'⟩
    · exact right
    · exact sound.right other spawned found'
  · intro other result member
    exact sound.put_returns here { old with session := session } (.refl _) member

theorem Sound.log (sound : Sound world) (here : world.spawned index = some old) {result : Return}
    (confirms : old.child.Confirms result) : Sound (world.log index result) := by
  refine ⟨sound.child, sound.others, sound.children, sound.right, fun other result' member => ?_⟩
  rcases List.mem_cons.mp member with same | member'
  · obtain ⟨rfl, rfl⟩ := Prod.mk.inj same
    exact ⟨old, here, confirms⟩
  · exact sound.returns other result' member'

theorem Sound.occupy (sound : Sound world) (foreign : ∀ index, world.procs pid ≠ some (.child index))
    {occupant : Option Occupant} (notChild : ∀ index, occupant ≠ some (.child index))
    (quiet : occupant ≠ some (.other true)) : Sound (world.occupy pid occupant) := by
  refine ⟨fun pid' other => ?_, fun pid' => ?_, sound.children, sound.right, sound.returns⟩
  · rw [occupy_spawned, ← sound.child]
    by_cases same : pid' = pid
    · rw [same, occupy_same]
      exact iff_of_false (notChild other) (foreign other)
    · rw [occupy_of_ne _ same]
  · by_cases same : pid' = pid
    · rw [same, occupy_same]
      exact quiet
    · rw [occupy_of_ne _ same]
      exact sound.others pid'

theorem Sound.tick (sound : Sound world) : Sound { world with now := world.now + 1 } :=
  ⟨sound.child, sound.others, sound.children, fun index spawned found =>
    (sound.right index spawned found).tick, sound.returns⟩

theorem Sound.childStep {event : Child → Option Child} (keeps : Keeps event) (sound : Sound world)
    (ran : childStep world index event = some after) : Sound after := by
  rw [Lifetime.childStep] at ran
  cases here : world.spawned index with
  | none =>
      rw [here] at ran
      cases ran
  | some old =>
      rw [here] at ran
      obtain ⟨child', happened, rfl⟩ := Option.map_eq_some_iff.mp ran
      obtain ⟨childSound, later⟩ := keeps _ _ (sound.children index old here) happened
      exact sound.put here rfl childSound later ((sound.right index old here).later later)

theorem Sound.fork (sound : Sound world) (ran : ucbProcessPlatSpawn world index pid = some after) :
    Sound after := by
  simp only [ucbProcessPlatSpawn, Option.ite_none_right_eq_some, Option.some.injEq] at ran
  obtain ⟨⟨-, free, unused⟩, rfl⟩ := ran
  have elsewhere {other : Nat} {spawned : Spawned} (found : world.spawned other = some spawned) :
      other ≠ index := by
    rintro rfl
    exact absurd (unused.symm.trans found) (by simp)
  constructor
  · intro pid' other
    rw [put_procs]
    by_cases same : other = index
    · subst same
      simp only [put_same, Option.some.injEq, exists_eq_left', Session.holds]
      by_cases samePid : pid' = pid
      · rw [samePid, occupy_same]
        exact iff_of_true rfl rfl
      · rw [occupy_of_ne _ samePid, sound.child]
        refine iff_of_false ?_ (Ne.symm samePid)
        rintro ⟨spawned, found, -⟩
        exact elsewhere found rfl
    · rw [put_of_ne _ same, occupy_spawned, ← sound.child]
      by_cases samePid : pid' = pid
      · rw [samePid, occupy_same, free]
        simp [Ne.symm same]
      · rw [occupy_of_ne _ samePid]
  · intro pid'
    rw [put_procs]
    by_cases samePid : pid' = pid
    · rw [samePid, occupy_same]
      simp
    · rw [occupy_of_ne _ samePid]
      exact sound.others pid'
  · intro other spawned found
    rcases put_cases found with ⟨-, rfl⟩ | ⟨-, found'⟩
    · exact ⟨fun _ => rfl, fun same => absurd same (by simp), fun reported => absurd rfl reported,
        fun ending finishes => absurd finishes (by simp [Child.Finishes]),
        fun killed => absurd killed (by simp)⟩
    · exact sound.children other spawned found'
  · intro other spawned found
    rcases put_cases found with ⟨-, rfl⟩ | ⟨-, found'⟩
    · trivial
    · exact sound.right other spawned found'
  · intro other result member
    obtain ⟨spawned, found, confirms⟩ := sound.returns other result member
    exact ⟨spawned, (put_of_ne _ (elsewhere found)).trans found, confirms⟩

/-! ## System calls on a child that a session has -/

theorem Sound.mine (sound : Sound world) (here : world.spawned index = some old)
    (held : old.session.holds = some pid) : world.procs pid = some (.child index) :=
  (sound.child pid index).mpr ⟨old, here, held⟩

theorem Sound.waitpid_ne (sound : Sound world) (here : world.spawned index = some old)
    (held : old.session.holds = some pid) : world.waitpid pid ≠ .notChild := by
  simp only [World.waitpid, sound.mine here held, here]
  split <;> simp

theorem Sound.waitpid_ended (sound : Sound world) (here : world.spawned index = some old)
    (held : old.session.holds = some pid) {ending : Ending}
    (ended : world.waitpid pid = .ended ending) : old.child.life = .ended ending := by
  simp only [World.waitpid, sound.mine here held, here] at ended
  split at ended
  next life =>
    obtain rfl := Waited.ended.inj ended
    exact life
  next => cases ended

theorem Sound.kill_eq (sound : Sound world) (here : world.spawned index = some old)
    (held : old.session.holds = some pid) (signal : Nat) :
    world.kill pid signal = world.setChild index old (old.child.signal signal) := by
  simp only [World.kill, sound.mine here held, here]

theorem Sound.kill (sound : Sound world) (here : world.spawned index = some old)
    (held : old.session.holds = some pid) (signal : Nat) : Sound (world.kill pid signal) := by
  rw [sound.kill_eq here held]
  have later := Child.later_signal old.child signal
  exact sound.put here rfl ((sound.children index old here).signal signal) later
    ((sound.right index old here).later later)

/-! ## Calls -/

theorem Sound.reapQuiet {error : SpawnError} (sound : Sound world)
    (here : world.spawned index = some old) (session : old.session = .spawning pid (.reaping error))
    (ran : processUnixReapQuiet world index old pid error = some after) : Sound after := by
  have held : old.session.holds = some pid := by rw [session, Session.holds]
  have right := sound.right index old here
  rw [session] at right
  rw [processUnixReapQuiet] at ran
  split at ran
  next none => exact absurd none (sound.waitpid_ne here held)
  next => cases ran
  next ending ended =>
    obtain rfl := Option.some.inj ran
    exact sound.reaped here held rfl ⟨right, ending, sound.waitpid_ended here held ended⟩

theorem Sound.spawnStep {pc : SpawnPc} {answer : Answer} (sound : Sound world)
    (here : world.spawned index = some old) (session : old.session = .spawning pid pc)
    (ran : spawnStep world index old pid pc answer = some after) : Sound after := by
  have held : old.session.holds = some pid := by rw [session, Session.holds]
  have right := sound.right index old here
  rw [session] at right
  -- an error of the parent itself says nothing about the child
  have parents {error : SpawnError} (own : ∀ errno, error ≠ .execFailed errno) :
      Sound (world.move index old (.spawning pid (.killing error))) :=
    sound.move here held.symm fun errno same => absurd same (own errno)
  cases pc with
  | reading =>
      cases answer with
      | interrupted =>
          obtain rfl := Option.some.inj ran
          exact sound
      | refused errno =>
          obtain rfl := Option.some.inj ran
          exact parents (by simp)
      | done =>
          simp only [Lifetime.spawnStep] at ran
          split at ran
          next errno reported =>
            obtain rfl := Option.some.inj ran
            refine sound.move here held.symm fun errno' same => ?_
            obtain rfl := SpawnError.execFailed.inj same
            exact reported
          next silent =>
            split at ran
            next lost =>
              obtain rfl := Option.some.inj ran
              exact sound.move here held.symm (.inl lost)
            next => cases ran
          next silent begun =>
            obtain rfl := Option.some.inj ran
            exact sound.move here held.symm ((sound.children index old here).started begun silent)
  | allocating =>
      cases answer with
      | done =>
          obtain rfl := Option.some.inj ran
          exact sound.move here held.symm ⟨right, trivial, fun same => absurd same (by simp)⟩
      | _ =>
          obtain rfl := Option.some.inj ran
          exact parents (by simp)
  | killing error =>
      obtain rfl := Option.some.inj ran
      have moved : Sound (world.move index old (.spawning pid (.reaping error))) :=
        sound.move here held.symm right
      exact moved.kill (put_same _ _ _) rfl sigkill
  | reaping error =>
      cases answer with
      | interrupted =>
          obtain rfl := Option.some.inj ran
          exact sound
      | _ => exact sound.reapQuiet here session ran

section Calls

variable {proc : UcbProcess} {call : CallPc}

theorem Session.Right.unreaped {began now : Nat}
    (right : (Session.opened proc call).Right child began now) (busy : call ≠ .idle) :
    proc.reaped = false := by
  cases reaped : proc.reaped with
  | false => rfl
  | true => exact absurd (right.2.2 reaped).1 busy

theorem Session.holds_opened (unreaped : proc.reaped = false) (call : CallPc) :
    (Session.opened proc call).holds = some proc.pid := by
  rw [Session.holds, unreaped]
  rfl

theorem Sound.goesOn (sound : Sound world) (here : world.spawned index = some old)
    (session : old.session = .opened proc call) (busy : call ≠ .idle) {next : CallPc}
    (inTime : next.InTime old.began world.now) :
    Sound (world.move index old (.opened proc next)) := by
  have right := sound.right index old here
  rw [session] at right
  have unreaped := right.unreaped busy
  refine sound.move here ?_ ⟨right.1, inTime, fun same => ?_⟩
  · rw [session, Session.holds_opened unreaped, Session.holds_opened unreaped]
  · rw [unreaped] at same
    cases same

theorem Sound.waitReaped (sound : Sound world) (here : world.spawned index = some old)
    (held : old.session.holds = some proc.pid) (started : old.child.Started) {ending : Ending}
    (ended : old.child.life = .ended ending) :
    Sound (waitReaped world index old proc ending) := by
  have reaped : Sound ((world.release proc.pid).move index old
      (.opened { proc with reaped := true, exitCode := ending.exitCode } .idle)) :=
    sound.reaped here held rfl ⟨started, trivial, fun _ => ⟨rfl, ending, ended, rfl⟩⟩
  exact reaped.log (put_same _ _ _) ⟨ending, ended, rfl⟩

theorem Sound.waitAnswered {alive : Option World} (sound : Sound world)
    (here : world.spawned index = some old) (held : old.session.holds = some proc.pid)
    (started : old.child.Started) (keeps : ∀ after ∈ alive, Sound after)
    (ran : waitAnswered world index old proc alive = some after) : Sound after := by
  rw [Lifetime.waitAnswered] at ran
  split at ran
  next none => exact absurd none (sound.waitpid_ne here held)
  next => exact keeps after ran
  next ending ended =>
    obtain rfl := Option.some.inj ran
    exact sound.waitReaped here held started (sound.waitpid_ended here held ended)

theorem Sound.freeAnswered (sound : Sound world) (here : world.spawned index = some old)
    (held : old.session.holds = some proc.pid) (started : old.child.Started) :
    Sound (freeAnswered world index old proc) := by
  rw [Lifetime.freeAnswered]
  split
  next none => exact absurd none (sound.waitpid_ne here held)
  next => exact sound.move here held.symm ⟨started, fun none => by cases none⟩
  next ending ended =>
    exact sound.reaped here held rfl
      ⟨started, fun _ => ⟨ending, sound.waitpid_ended here held ended⟩⟩

theorem Sound.callStep {answer : Answer} (sound : Sound world)
    (here : world.spawned index = some old) (session : old.session = .opened proc call)
    (ran : callStep world index old proc call answer = some after) : Sound after := by
  have right : (Session.opened proc call).Right old.child old.began world.now := by
    rw [← session]
    exact sound.right index old here
  have held (busy : call ≠ .idle) : old.session.holds = some proc.pid := by
    rw [session, Session.holds_opened (right.unreaped busy)]
  have ends (busy : call ≠ .idle) : Sound (world.move index old (.opened proc .idle)) :=
    sound.goesOn here session busy trivial
  have interrupts (ran : some world = some after) : Sound after := by
    obtain rfl := Option.some.inj ran
    exact sound
  cases call with
  | idle => cases ran
  | blocking =>
      have answered : Lifetime.waitAnswered world index old proc none = some after → Sound after :=
        sound.waitAnswered here (held (by simp)) right.1 fun _ absent => by cases absent
      cases answer with
      | interrupted => exact interrupts ran
      | _ => exact answered ran
  | stamping timeout =>
      obtain rfl := Option.some.inj ran
      have later : processUnixNowMs old.began ≤ processUnixNowMs world.now :=
        Nat.div_le_div_right right.2.1
      exact sound.goesOn here session (by simp) (.inr (Nat.add_le_add_right later timeout))
  | polling timeout deadline =>
      have answered : Lifetime.waitAnswered world index old proc
          (some (world.move index old (.opened proc (.checking timeout deadline)))) = some after →
          Sound after := by
        refine sound.waitAnswered here (held (by simp)) right.1 fun after' same => ?_
        obtain rfl := Option.some.inj same
        exact sound.goesOn here session (by simp) right.2.1
      cases answer with
      | interrupted => exact interrupts ran
      | _ => exact answered ran
  | checking timeout deadline =>
      simp only [Lifetime.callStep] at ran
      split at ran
      next up =>
        obtain rfl := Option.some.inj ran
        refine (ends (by simp)).log (put_same _ _ _) ?_
        rcases up with zero | up
        · exact .inl zero
        · exact right.2.1.imp_right (Nat.le_trans · up)
      next =>
        obtain rfl := Option.some.inj ran
        exact sound.goesOn here session (by simp) right.2.1
  | sleeping timeout deadline =>
      cases answer with
      | interrupted => exact interrupts ran
      | _ =>
          obtain rfl := Option.some.inj ran
          exact sound.goesOn here session (by simp) right.2.1
  | signalling force =>
      have unreaped := right.unreaped (by simp)
      have sent : Sound (((world.move index old (.opened proc .idle)).kill proc.pid
          (if force then sigkill else sigterm)).log index (.signalled force true)) := by
        have idle := ends (by simp)
        have here' : (world.move index old (.opened proc .idle)).spawned index =
            some { old with session := .opened proc .idle } := put_same _ _ _
        have held' : (Session.opened proc .idle).holds = some proc.pid :=
          Session.holds_opened unreaped .idle
        have killed := idle.kill here' held' (if force then sigkill else sigterm)
        rw [idle.kill_eq here' held'] at killed ⊢
        exact killed.log (put_same _ _ _) (old.child.signal_confirms force)
      cases answer with
      | refused errno =>
          obtain rfl := Option.some.inj ran
          exact (ends (by simp)).log (put_same _ _ _) (by cases force <;> trivial)
      | _ =>
          obtain rfl := Option.some.inj ran
          exact sent
  | freeing =>
      cases answer with
      | interrupted => exact interrupts ran
      | _ =>
          obtain rfl := Option.some.inj ran
          exact sound.freeAnswered here (held (by simp)) right.1

theorem Sound.begins (sound : Sound world) (here : world.spawned index = some old)
    (session : old.session = .opened proc .idle) (unreaped : proc.reaped = false) {next : CallPc}
    (inTime : next.InTime world.now world.now) :
    Sound (world.move index { old with began := world.now } (.opened proc next)) := by
  have right := sound.right index old here
  rw [session] at right
  refine sound.put here ?_ (sound.children index old here) (.refl _)
    ⟨right.1, inTime, fun same => ?_⟩
  · rw [session, Session.holds_opened unreaped, Session.holds_opened unreaped]
  · rw [unreaped] at same
    cases same

theorem Sound.processWait (sound : Sound world) (here : world.spawned index = some old)
    (session : old.session = .opened proc .idle) (timeoutMs : Int) :
    Sound (ucbProcessWait world index old proc timeoutMs) := by
  have right := sound.right index old here
  rw [session] at right
  rw [ucbProcessWait]
  split
  next reaped =>
    obtain ⟨-, ending, ended, code⟩ := right.2.2 reaped
    have moved : Sound (world.move index { old with began := world.now } (.opened proc .idle)) := by
      refine sound.put here ?_ (sound.children index old here) (.refl _)
        ⟨right.1, trivial, right.2.2⟩
      rw [session]
    exact moved.log (put_same _ _ _) ⟨ending, ended, code⟩
  next unreaped =>
    rw [Bool.not_eq_true] at unreaped
    split
    · exact sound.begins here session unreaped trivial
    · split
      · exact sound.begins here session unreaped (Nat.le_refl world.now)
      · exact sound.begins here session unreaped (.inl rfl)

theorem Sound.terminateCommon (sound : Sound world) (here : world.spawned index = some old)
    (session : old.session = .opened proc .idle) (force : Bool) :
    Sound (processTerminateCommon world index old proc force) := by
  have right := sound.right index old here
  rw [session] at right
  rw [processTerminateCommon]
  split
  next reaped =>
    obtain ⟨-, ending, ended, -⟩ := right.2.2 reaped
    refine sound.log here ?_
    cases force with
    | false => trivial
    | true => exact .inr ⟨ending, .inr ended⟩
  next unreaped =>
    rw [Bool.not_eq_true] at unreaped
    refine sound.move here ?_ ⟨right.1, trivial, fun same => absurd same (by simp [unreaped])⟩
    rw [session, Session.holds_opened unreaped, Session.holds_opened unreaped]

theorem Sound.processFree (sound : Sound world) (here : world.spawned index = some old)
    (session : old.session = .opened proc .idle) : Sound (ucbProcessFree world index old proc) := by
  have right := sound.right index old here
  rw [session] at right
  rw [ucbProcessFree]
  split
  next reaped =>
    obtain ⟨-, ending, ended, -⟩ := right.2.2 reaped
    refine sound.move here ?_ ⟨right.1, fun _ => ⟨ending, ended⟩⟩
    rw [session, Session.holds, Session.holds, if_pos reaped]
  next unreaped =>
    rw [Bool.not_eq_true] at unreaped
    refine sound.move here ?_ ⟨right.1, trivial, fun same => absurd same (by simp [unreaped])⟩
    rw [session, Session.holds_opened unreaped, Session.holds_opened unreaped]

theorem Sound.callBegins {began : Call} (sound : Sound world)
    (ran : callBegins world index began = some after) : Sound after := by
  rw [Lifetime.callBegins] at ran
  cases here : world.spawned index with
  | none =>
      rw [here] at ran
      cases ran
  | some old =>
      simp only [here] at ran
      split at ran
      next session =>
        obtain rfl := Option.some.inj ran
        exact sound.processWait here session _
      next session =>
        obtain rfl := Option.some.inj ran
        exact sound.terminateCommon here session false
      next session =>
        obtain rfl := Option.some.inj ran
        exact sound.terminateCommon here session true
      next session =>
        obtain rfl := Option.some.inj ran
        exact sound.processFree here session
      next => cases ran

end Calls

theorem Sound.proceed {answer : Answer} (sound : Sound world)
    (ran : proceed world index answer = some after) : Sound after := by
  rw [Lifetime.proceed] at ran
  cases here : world.spawned index with
  | none =>
      rw [here] at ran
      cases ran
  | some old =>
      simp only [here] at ran
      split at ran
      next session => exact sound.spawnStep here session ran
      next session => exact sound.callStep here session ran
      next => cases ran

/-! ## Runs -/

theorem Sound.step {action : Action} (sound : Sound world)
    (ran : step world action = some after) : Sound after := by
  cases action with
  | tick =>
      obtain rfl := Option.some.inj ran
      exact sound.tick
  | otherStarts pid =>
      simp only [Lifetime.step, Option.ite_none_right_eq_some, Option.some.injEq] at ran
      obtain ⟨free, rfl⟩ := ran
      exact sound.occupy (fun index => by simp [free]) (by simp) (by simp)
  | otherEnds pid =>
      simp only [Lifetime.step] at ran
      split at ran
      next signalled taken =>
        obtain rfl := Option.some.inj ran
        exact sound.occupy (fun index => by simp [taken]) (by simp) (by simp)
      next => cases ran
  | childLosesPipe index => exact sound.childStep keeps_losesPipe ran
  | childReports index errno => exact sound.childStep (keeps_reports errno) ran
  | childExecs index => exact sound.childStep keeps_execs ran
  | childDies index ending => exact sound.childStep (keeps_dies ending) ran
  | childEnds index => exact sound.childStep keeps_ends ran
  | fork index pid => exact sound.fork ran
  | call index call => exact sound.callBegins ran
  | proceed index answer => exact sound.proceed ran

/-- A table with nothing but undisturbed processes of others. -/
def Foreign (procs : Nat → Option Occupant) : Prop :=
  ∀ pid, procs pid = none ∨ procs pid = some (.other false)

theorem sound_initial {procs : Nat → Option Occupant} (foreign : Foreign procs) :
    Sound (.initial procs) := by
  have notChild (pid index : Nat) : procs pid ≠ some (.child index) := by
    rcases foreign pid with free | other
    · simp [free]
    · simp [other]
  have unused {index : Nat} {spawned : Spawned} :
      (World.initial procs).spawned index ≠ some spawned := (Option.some_ne_none _).symm
  refine ⟨fun pid index => ?_, fun pid => ?_, fun _ _ found => absurd found unused,
    fun _ _ found => absurd found unused, fun _ _ member => absurd member List.not_mem_nil⟩
  · refine iff_of_false (notChild pid index) ?_
    rintro ⟨spawned, absent, -⟩
    cases absent
  · rcases foreign pid with free | other
    · simp [World.initial, free]
    · simp [World.initial, other]

/-- The worlds that any interleaving leads to. -/
def Reachable (procs : Nat → Option Occupant) : World → Prop :=
  Reaches step Always (.initial procs)

theorem Reachable.sound {procs : Nat → Option Occupant} (foreign : Foreign procs)
    (reached : Reachable procs world) : Sound world :=
  reached.invariant (sound_initial foreign) fun _ _ _ sound _ ran => sound.step ran

end Ucb.Process.Lifetime
