import Ucb.Process.Custody

/-!
Contract: what a program may rely on when it starts children and uses handles on them.

Owns:
- no child is lost or shared, and no system call reaches another process;
- exit codes are those of the children, whatever the order of the calls;
- a spawn returns a handle when the child has become its program, and leaves
  nothing behind when it fails.
-/

namespace Ucb.Process.Lifetime

open Ucb.Lib

/-! ## What a system call reaches -/

/-- Nothing has changed but the session and what is at the pid of its child. -/
structure Touches (index : Nat) (world after : World) : Prop where
  spawned : ∀ other, other ≠ index → after.spawned other = world.spawned other
  procs : ∀ pid, world.procs pid ≠ some (.child index) → after.procs pid = world.procs pid

variable {world after : World} {index pid : Nat} {old : Spawned} {proc : UcbProcess}

theorem Touches.refl (index : Nat) (world : World) : Touches index world world :=
  ⟨fun _ _ => rfl, fun _ _ => rfl⟩

theorem Touches.put (touches : Touches index world after) (new : Spawned) :
    Touches index world (after.put index new) :=
  ⟨fun other apart => (put_of_ne new apart).trans (touches.spawned other apart), touches.procs⟩

theorem Touches.log (touches : Touches index world after) (other : Nat) (result : Return) :
    Touches index world (after.log other result) :=
  ⟨touches.spawned, touches.procs⟩

theorem touches_move (session : Session) : Touches index world (world.move index old session) :=
  (Touches.refl index world).put _

theorem touches_release (mine : world.procs pid = some (.child index)) :
    Touches index world (world.release pid) := by
  refine ⟨fun _ _ => rfl, fun pid' other => ?_⟩
  have apart : pid' ≠ pid := by
    rintro rfl
    exact other mine
  exact occupy_of_ne none apart

theorem touches_kill (mine : world.procs pid = some (.child index)) (session : Session)
    (signal : Nat) :
    Touches index world ((world.move index old session).kill pid signal) := by
  simp only [World.kill, World.move, put_procs, mine, put_same]
  exact (touches_move session).put _

theorem touches_reapQuiet {error : SpawnError} (mine : world.procs pid = some (.child index))
    (ran : processUnixReapQuiet world index old pid error = some after) :
    Touches index world after := by
  rw [processUnixReapQuiet] at ran
  split at ran
  next =>
    obtain rfl := Option.some.inj ran
    exact touches_move _
  next => cases ran
  next =>
    obtain rfl := Option.some.inj ran
    exact (touches_release mine).put _

theorem touches_spawnStep {pc : SpawnPc} {answer : Answer}
    (mine : world.procs pid = some (.child index))
    (ran : spawnStep world index old pid pc answer = some after) : Touches index world after := by
  have interrupts (ran : some world = some after) : Touches index world after := by
    obtain rfl := Option.some.inj ran
    exact .refl index world
  have moves {session : Session} (ran : some (world.move index old session) = some after) :
      Touches index world after := by
    obtain rfl := Option.some.inj ran
    exact touches_move session
  cases pc with
  | reading =>
      cases answer with
      | interrupted => exact interrupts ran
      | refused errno => exact moves ran
      | done =>
          simp only [spawnStep] at ran
          split at ran
          next => exact moves ran
          next =>
            split at ran
            · exact moves ran
            · cases ran
          next => exact moves ran
  | allocating => cases answer <;> exact moves ran
  | killing error =>
      obtain rfl := Option.some.inj ran
      exact touches_kill mine _ sigkill
  | reaping error =>
      cases answer with
      | interrupted => exact interrupts ran
      | _ => exact touches_reapQuiet mine ran

theorem touches_waitAnswered {alive : Option World}
    (mine : world.procs proc.pid = some (.child index))
    (goesOn : ∀ after ∈ alive, Touches index world after)
    (ran : waitAnswered world index old proc alive = some after) : Touches index world after := by
  rw [waitAnswered] at ran
  split at ran
  next =>
    obtain rfl := Option.some.inj ran
    exact (touches_move _).log _ _
  next => exact goesOn after ran
  next =>
    obtain rfl := Option.some.inj ran
    exact ((touches_release mine).put _).log _ _

theorem touches_freeAnswered (mine : world.procs proc.pid = some (.child index)) :
    Touches index world (freeAnswered world index old proc) := by
  rw [freeAnswered]
  split
  · exact touches_move _
  · exact touches_move _
  · exact (touches_release mine).put _

theorem touches_callStep {call : CallPc} {answer : Answer}
    (mine : world.procs proc.pid = some (.child index))
    (ran : callStep world index old proc call answer = some after) : Touches index world after := by
  have interrupts (ran : some world = some after) : Touches index world after := by
    obtain rfl := Option.some.inj ran
    exact .refl index world
  have moves {session : Session} (ran : some (world.move index old session) = some after) :
      Touches index world after := by
    obtain rfl := Option.some.inj ran
    exact touches_move session
  have returns {session : Session} {result : Return}
      (ran : some ((world.move index old session).log index result) = some after) :
      Touches index world after := by
    obtain rfl := Option.some.inj ran
    exact (touches_move session).log index result
  cases call with
  | idle => cases ran
  | blocking =>
      have answered : waitAnswered world index old proc none = some after →
          Touches index world after :=
        touches_waitAnswered mine fun _ absent => absurd absent (by simp)
      cases answer with
      | interrupted => exact interrupts ran
      | _ => exact answered ran
  | stamping timeout => exact moves ran
  | polling timeout deadline =>
      have answered : waitAnswered world index old proc
          (some (world.move index old (.opened proc (.checking timeout deadline)))) = some after →
          Touches index world after := by
        refine touches_waitAnswered mine fun after' same => ?_
        obtain rfl := Option.some.inj same
        exact touches_move _
      cases answer with
      | interrupted => exact interrupts ran
      | _ => exact answered ran
  | checking timeout deadline =>
      simp only [callStep] at ran
      split at ran
      · exact returns ran
      · exact moves ran
  | sleeping timeout deadline =>
      cases answer with
      | interrupted => exact interrupts ran
      | _ => exact moves ran
  | signalling force =>
      cases answer with
      | refused errno => exact returns ran
      | _ =>
          obtain rfl := Option.some.inj ran
          exact (touches_kill mine _ _).log _ _
  | freeing =>
      cases answer with
      | interrupted => exact interrupts ran
      | _ =>
          obtain rfl := Option.some.inj ran
          exact touches_freeAnswered mine

theorem Sound.touches {answer : Answer} (sound : Sound world)
    (ran : Lifetime.proceed world index answer = some after) : Touches index world after := by
  rw [Lifetime.proceed] at ran
  cases here : world.spawned index with
  | none =>
      rw [here] at ran
      cases ran
  | some old =>
      simp only [here] at ran
      split at ran
      next pid pc session =>
        exact touches_spawnStep (sound.mine here (by rw [session, Session.holds])) ran
      next proc call session =>
        by_cases idle : call = .idle
        · rw [idle] at ran
          cases ran
        · have right := sound.right index old here
          rw [session] at right
          have held : old.session.holds = some proc.pid := by
            rw [session, Session.holds_opened (right.unreaped idle)]
          exact touches_callStep (sound.mine here held) ran
      next => cases ran

/-! ## Custody -/

variable {procs : Nat → Option Occupant}

/-- Whatever the order of the calls, the children and the processes of others: a pid is that of a
child exactly as long as one session answers for it, no process of somebody else has been signalled,
and a system call on one child reaches no other one. -/
theorem children_in_custody (foreign : Foreign procs) (reached : Reachable procs world) :
    (∀ pid index, world.procs pid = some (.child index) ↔
      ∃ spawned, world.spawned index = some spawned ∧ spawned.session.holds = some pid) ∧
    (∀ pid, world.procs pid ≠ some (.other true)) ∧
    ∀ index answer after, proceed world index answer = some after → Touches index world after :=
  ⟨(reached.sound foreign).child, (reached.sound foreign).others,
    fun _ _ _ ran => (reached.sound foreign).touches ran⟩

/-- A child is started, exits with 3, and is waited for. -/
def sampleActions : List Action :=
  [.fork 0 7, .childExecs 0, .proceed 0 .done, .proceed 0 .done, .call 0 (.wait (-1)),
    .childDies 0 (.exited 3), .childEnds 0, .proceed 0 .interrupted, .proceed 0 .done]

theorem foreign_none : Foreign fun _ => none := fun _ => .inl rfl

theorem sample_reached : ∃ world, Reachable (fun _ => none) world ∧
    world.returns = [(0, .exited 3)] ∧ world.spawned 0 =
      some ⟨⟨.ended (.exited 3), none, false, true, false⟩, .opened ⟨7, true, 3⟩ .idle, 0⟩ := by
  cases replayed : replay step (.initial fun _ => none) sampleActions with
  | none => cases replayed
  | some last =>
      refine ⟨last, .of_replay replayed (meetsAll_always _ _), ?_⟩
      obtain rfl := Option.some.inj replayed
      exact ⟨rfl, rfl⟩

theorem children_in_custody_sample : ∃ world, Reachable (fun _ => none) world ∧
    world.returns = [(0, .exited 3)] ∧ ∀ pid, world.procs pid ≠ some (.other true) := by
  obtain ⟨world, reached, returns, -⟩ := sample_reached
  exact ⟨world, reached, returns, (children_in_custody foreign_none reached).2.1⟩

/-! ## Exit codes -/

theorem Sound.waits (sound : Sound world) (here : world.spawned index = some old)
    (session : old.session = .opened proc .blocking) {ending : Ending}
    (ended : old.child.life = .ended ending) :
    Lifetime.proceed world index .done = some (Lifetime.waitReaped world index old proc ending) := by
  have right := sound.right index old here
  rw [session] at right
  have held : old.session.holds = some proc.pid := by
    rw [session, Session.holds_opened (right.unreaped (by simp))]
  simp only [Lifetime.proceed, here, session, Lifetime.callStep,
    Lifetime.waitAnswered, World.waitpid, sound.mine here held, ended]

/-- Whatever the order, an exit code is that of the child, the same from every call, `waitpid` does
not fail, no timeout is over before the clock in whole milliseconds says so, and a child whose end
is waited for is reported. Once `ucb_process_kill` has succeeded the child ends by it, or was on its
way out. -/
theorem waits_tell_truth (foreign : Foreign procs) (reached : Reachable procs world) :
    (∀ index code, (index, .exited code) ∈ world.returns → ∃ spawned ending,
      world.spawned index = some spawned ∧ spawned.child.life = .ended ending ∧
        code = ending.exitCode ∧ (spawned.child.killed = true → code = 137)) ∧
    (∀ index, (index, .waitFailed) ∉ world.returns) ∧
    (∀ index began timeout now, (index, .timedOut began timeout now) ∈ world.returns →
      timeout = 0 ∨ processUnixNowMs began + timeout ≤ processUnixNowMs now) ∧
    (∀ index, (index, .signalled true true) ∈ world.returns → ∃ spawned,
      world.spawned index = some spawned ∧
        (spawned.child.killed = true ∨ ∃ ending, spawned.child.Finishes ending)) ∧
    ∀ index spawned proc ending, world.spawned index = some spawned →
      spawned.session = .opened proc .blocking → spawned.child.life = .ended ending →
        ∃ after, proceed world index .done = some after ∧
          (index, .exited ending.exitCode) ∈ after.returns := by
  have sound := reached.sound foreign
  refine ⟨fun index code member => ?_, fun index member => ?_, fun index _ _ _ member => ?_,
    fun index member => ?_, fun index spawned proc ending here session ended => ?_⟩
  · obtain ⟨spawned, here, ending, ended, same⟩ := sound.returns index _ member
    refine ⟨spawned, ending, here, ended, same, fun killed => ?_⟩
    rw [same, (sound.children index spawned here).killed killed ending (.inr ended)]
    rfl
  · obtain ⟨spawned, -, absent⟩ := sound.returns index _ member
    exact absent
  · obtain ⟨spawned, -, inTime⟩ := sound.returns index _ member
    exact inTime
  · exact sound.returns index _ member
  · exact ⟨_, sound.waits here session ended, List.mem_cons_self⟩

theorem waits_tell_truth_sample : ∃ world, Reachable (fun _ => none) world ∧ ∃ spawned ending,
    world.spawned 0 = some spawned ∧ spawned.child.life = .ended ending ∧ 3 = ending.exitCode := by
  obtain ⟨world, reached, returns, -⟩ := sample_reached
  have member : (0, .exited 3) ∈ world.returns := by
    rw [returns]
    exact List.mem_cons_self
  obtain ⟨spawned, ending, here, ended, code, -⟩ :=
    (waits_tell_truth foreign_none reached).1 0 3 member
  exact ⟨world, reached, spawned, ending, here, ended, code⟩

/-! ## Spawning -/

/-- A spawn that returns a handle has a child that has become its program, or that a signal ended
before it could report, or that has lost the status pipe to a redirection. One that fails leaves no
child, and an error of `exec` is the one that the child has reported. -/
theorem spawns_tell_truth (foreign : Foreign procs) (reached : Reachable procs world)
    {spawned : Spawned} (here : world.spawned index = some spawned) :
    (∀ proc call, spawned.session = .opened proc call → spawned.child.lostPipe = false →
      spawned.child.report = none ∧
        (spawned.child.execed = true ∨ ∃ signal, spawned.child.Finishes (.signaled signal))) ∧
    ∀ error, spawned.session = .failed error → (∃ ending, spawned.child.life = .ended ending) ∧
      (∀ pid, world.procs pid ≠ some (.child index)) ∧
      ∀ errno, error = .execFailed errno → spawned.child.report = some errno := by
  have sound := reached.sound foreign
  have right := sound.right index spawned here
  refine ⟨fun proc call session piped => ?_, fun error session => ?_⟩
  · rw [session] at right
    exact (right.1.resolve_left (by simp [piped])).2
  · rw [session] at right
    refine ⟨right.2, fun pid mine => ?_, right.1⟩
    obtain ⟨spawned', here', held⟩ := (sound.child pid index).mp mine
    obtain rfl := Option.some.inj (here.symm.trans here')
    rw [session] at held
    cases held

theorem spawns_tell_truth_sample : ∃ world, Reachable (fun _ => none) world ∧ ∃ spawned,
    world.spawned 0 = some spawned ∧ spawned.child.report = none := by
  obtain ⟨world, reached, -, here⟩ := sample_reached
  exact ⟨world, reached, _, here,
    ((spawns_tell_truth foreign_none reached here).1 _ _ rfl rfl).1⟩

end Ucb.Process.Lifetime
