import Mathlib.Algebra.GroupWithZero.Nat
import Ucb.Process.Streams

/-!
Contract: a capture and its child do not wait for each other for ever.

Owns:
- the failures that a capture survives: what the child has left for a stream that
  nobody reads any more fits into its pipe;
- that every capture returns then, whatever the order of the steps;
- the deadlock after a failure that it does not survive.

After a failed read or growth the read end stays open and unread until the child
has been waited for.
-/

namespace Ucb.Process

open Ucb.Lib

/-- The child waits for room in the pipe of a stream. -/
def Blocked (opts : CaptureOpts) (state : Capture) (stream : Stream) : Prop :=
  state.exited = false ∧ opts.captures stream = true ∧
    ∃ bytes rest, state.script = (stream, bytes) :: rest ∧ bytes ≠ [] ∧
      opts.capacity stream ≤ (state.pipes stream).length

/-- The child waits for room and, whatever happens, nobody will make any. -/
def Stuck (opts : CaptureOpts) (state : Capture) : Prop :=
  ∃ stream, ∀ later, Reaches (step opts) Always state later → Blocked opts later stream

def Round.leaves (pipe : List UInt8) : Round → Option (List UInt8)
  | .bytes count false => some (pipe.drop count)
  | .readFails => some pipe
  | _ => none

/-- When the round fails, the pipe has room for what the child has left. -/
def Spares (opts : CaptureOpts) (state : Capture) (stream : Stream) (round : Round) : Prop :=
  ∀ left ∈ round.leaves (state.pipes stream),
    (bytesOf stream state.script).length + left.length ≤ opts.capacity stream

/-- Reads and growths fail only where the child can do without them. A child that
has been killed always can. -/
def Harmless (opts : CaptureOpts) (state : Capture) : Action → Prop
  | .caller round =>
      match state.caller with
      | .reading stream => Spares opts state stream round
      | _ => True
  | .drainer round => Spares opts state .err round
  | _ => True

instance (opts : CaptureOpts) (state : Capture) (action : Action) :
    Decidable (Harmless opts state action) := by
  unfold Harmless Spares
  split
  · split <;> infer_instance
  · infer_instance
  · infer_instance

/-! ## Streams that are read -/

def Reads (state : Capture) (stream : Stream) : Prop :=
  state.caller = .starting ∨ state.caller = .reading stream ∨
    (state.drainer = .reading ∧ stream = .err)

/-- What is in the pipe of a stream, and what the child has left for it, fits. -/
def FitsAll (opts : CaptureOpts) (state : Capture) (stream : Stream) : Prop :=
  (bytesOf stream state.script).length + (state.pipes stream).length ≤ opts.capacity stream

/-- As long as the child lives, every stream is read or fits its pipe. -/
def Served (opts : CaptureOpts) (state : Capture) : Prop :=
  state.exited = false → state.killed = false → ∀ stream, opts.captures stream = true →
    Reads state stream ∨ FitsAll opts state stream

theorem Leaves.spared {opts : CaptureOpts} {state : Capture} {stream : Stream} {round : Round}
    {left : List UInt8} {ok : Bool} (leaves : Leaves state stream round left ok)
    (spares : Spares opts state stream round) (alive : state.exited = false) :
    (bytesOf stream state.script).length + left.length ≤ opts.capacity stream := by
  cases leaves with
  | ends exited empty => exact absurd (alive.symm.trans exited) nofun
  | fails => exact spares _ rfl
  | short some inside => exact spares _ rfl

theorem fitsAll_leave {opts : CaptureOpts} {state : Capture} {stream other : Stream}
    {round : Round} {left : List UInt8} {ok : Bool} (leaves : Leaves state stream round left ok)
    (spares : Spares opts state stream round) (alive : state.exited = false)
    (before : other ≠ stream → FitsAll opts state other) :
    FitsAll opts (state.leave stream left) other := by
  by_cases same : other = stream
  · subst same
    have fits := leaves.spared spares alive
    simpa [FitsAll, Capture.leave] using fits
  · have fits := before same
    rw [FitsAll, update_self_of_ne same]
    exact fits

theorem served_callerEnds {opts : CaptureOpts} {state : Capture} {stream : Stream} {round : Round}
    {left : List UInt8} {ok : Bool} {caller : CallerPc} (served : Served opts state)
    (here : state.caller = .reading stream) (leaves : Leaves state stream round left ok)
    (spares : Spares opts state stream round) :
    Served opts { state.leave stream left with ioOk := ok, caller := caller } := by
  intro alive unharmed other captured
  by_cases drained : state.drainer = .reading ∧ other = .err
  · exact .inl (.inr (.inr drained))
  · apply Or.inr
    apply fitsAll_leave leaves spares alive
    intro elsewhere
    refine (served alive unharmed other captured).resolve_left ?_
    rintro (starting | reading | beside)
    · rw [here] at starting
      cases starting
    · rw [here] at reading
      exact elsewhere (CallerPc.reading.inj reading).symm
    · exact drained beside

theorem served_drainerEnds {opts : CaptureOpts} {state : Capture} {round : Round}
    {left : List UInt8} {ok : Bool} (served : Served opts state)
    (leaves : Leaves state .err round left ok) (spares : Spares opts state .err round) :
    Served opts { state.leave .err left with drainer := .finished ok } := by
  intro alive unharmed other captured
  by_cases reads : state.caller = .starting ∨ state.caller = .reading other
  · exact .inl (reads.imp_right .inl)
  · apply Or.inr
    apply fitsAll_leave leaves spares alive
    intro elsewhere
    refine (served alive unharmed other captured).resolve_left ?_
    rintro (starting | reading | beside)
    · exact reads (.inl starting)
    · exact reads (.inr reading)
    · exact elsewhere beside.2

theorem length_get (state : Capture) (stream other : Stream) (count : Nat) :
    ((state.get stream count).pipes other).length ≤ (state.pipes other).length := by
  by_cases same : other = stream
  · subst same
    simp [Capture.get]
  · simp [Capture.get, same]

theorem served_get {opts : CaptureOpts} {state : Capture} (served : Served opts state)
    (stream : Stream) (count : Nat) : Served opts (state.get stream count) := by
  intro alive unharmed other captured
  refine (served alive unharmed other captured).imp id fun fits => ?_
  exact Nat.le_trans (Nat.add_le_add_left (length_get state stream other count) _) fits

theorem served_skips {opts : CaptureOpts} {state : Capture} {write : Stream × List UInt8}
    {rest : List (Stream × List UInt8)} (served : Served opts state)
    (head : state.script = write :: rest) : Served opts { state with script := rest } := by
  intro alive unharmed other captured
  refine (served alive unharmed other captured).imp id fun fits => ?_
  rw [FitsAll, head, bytesOf_cons, List.length_append] at fits
  rw [FitsAll]
  simp only
  omega

theorem served_writes {opts : CaptureOpts} {state : Capture} {stream : Stream}
    {bytes : List UInt8} {rest : List (Stream × List UInt8)} {count : Nat}
    (served : Served opts state) (head : state.script = (stream, bytes) :: rest)
    (inside : count ≤ bytes.length) :
    Served opts { state with
      script := (stream, bytes.drop count) :: rest
      pipes := Function.update state.pipes stream (state.pipes stream ++ bytes.take count) } := by
  intro alive unharmed other captured
  refine (served alive unharmed other captured).imp id fun fits => ?_
  rw [FitsAll, head, bytesOf_cons] at fits
  rw [FitsAll, bytesOf_cons]
  by_cases same : stream = other
  · subst same
    simp only [if_true, List.length_append] at fits
    simp only [if_true, List.length_append, Function.update_self, List.length_drop,
      List.length_take]
    omega
  · have elsewhere : other ≠ stream := Ne.symm same
    simp only [if_neg same, List.nil_append] at fits
    simpa [same, elsewhere] using fits

theorem served_step {opts : CaptureOpts} {written : List (Stream × List UInt8)}
    {state state' : Capture} {action : Action} (served : Served opts state)
    (streamed : Streamed opts written state) (harmless : Harmless opts state action)
    (effect : Effect opts state action state') : Served opts state' := by
  have phase := streamed.phase
  cases effect with
  | skips alive head free => exact served_skips served head
  | writes alive head some inside room => exact served_writes served head inside
  | exits alive ended => nofun
  | starts here =>
      intro _ _ stream _
      cases stream with
      | out => exact .inl (.inr (.inl rfl))
      | err => exact .inl (.inr (.inr ⟨rfl, rfl⟩))
  | kills here => exact fun _ unharmed => absurd unharmed nofun
  | @callerGets stream count here some inside => exact served_get served stream count
  | callerEnds here leaves =>
      simp only [Harmless, here] at harmless
      exact served_callerEnds served here leaves harmless
  | drainsOut here leaves =>
      rw [here] at phase
      exact fun _ unharmed => absurd (phase.1.symm.trans unharmed) nofun
  | drainsErr here leaves =>
      rw [here] at phase
      exact fun _ unharmed => absurd (phase.1.symm.trans unharmed) nofun
  | @drainerGets count here some inside => exact served_get served .err count
  | drainerEnds here leaves => exact served_drainerEnds served leaves harmless
  | joins here finished =>
      intro alive unharmed stream captured
      refine .inr ((served alive unharmed stream captured).resolve_left ?_)
      rintro (starting | reading | beside)
      · rw [here] at starting
        cases starting
      · rw [here] at reading
        cases reading
      · rw [finished] at beside
        cases beside.1
  | reaps here exited => exact fun alive => absurd (alive.symm.trans exited) nofun

/-! ## Somebody can go on -/

/-- A step that meets the condition can be taken. -/
def Moves (opts : CaptureOpts) (state : Capture) : Prop :=
  ∃ action after, Harmless opts state action ∧ step opts state action = some after

/-- A reader can read, or its stream is empty and the child still writes. -/
theorem round_ready (state : Capture) (stream : Stream) :
    (∃ round result, round.leaves (state.pipes stream) = none ∧
        readBuffer state stream round = some result) ∨
      (state.exited = false ∧ state.pipes stream = []) := by
  by_cases empty : state.pipes stream = []
  · cases alive : state.exited with
    | false => exact .inr ⟨rfl, empty⟩
    | true => exact .inl ⟨.endOfFile, _, rfl, by rw [readBuffer, if_pos ⟨alive, empty⟩]⟩
  · have some := List.length_pos_iff.mpr empty
    refine .inl ⟨.bytes 1 true, (state.get stream 1, none), rfl, ?_⟩
    rw [readBuffer, if_pos ⟨Nat.one_pos, by decide, some⟩]
    rfl

theorem moves_caller {opts : CaptureOpts} {state : Capture} {stream : Stream} {round : Round}
    {result : Capture × Option Bool}
    (here : state.caller = .reading stream ∨ state.caller = .draining stream)
    (succeeds : round.leaves (state.pipes stream) = none)
    (read : readBuffer state stream round = some result) : Moves opts state := by
  have harmless : Harmless opts state (.caller round) := by
    rcases here with reading | draining
    · simp only [Harmless, reading, Spares, succeeds]
      exact fun _ member => absurd member nofun
    · simp only [Harmless, draining]
  rcases here with reading | draining
  · exact ⟨.caller round, _, harmless, by simp only [step, callerReads, reading, read]; rfl⟩
  · cases stream with
    | out => exact ⟨.caller round, _, harmless,
      by simp only [step, callerReads, draining, read]; rfl⟩
    | err => exact ⟨.caller round, _, harmless,
      by simp only [step, callerReads, draining, read]; rfl⟩

theorem moves_drainer {opts : CaptureOpts} {state : Capture} {round : Round}
    {result : Capture × Option Bool} (here : state.drainer = .reading)
    (succeeds : round.leaves (state.pipes .err) = none)
    (read : readBuffer state .err round = some result) : Moves opts state := by
  have harmless : Harmless opts state (.drainer round) := by
    simp only [Harmless, Spares, succeeds]
    exact fun _ member => absurd member nofun
  exact ⟨.drainer round, _, harmless, by simp only [step, drainerReads, here, if_true, read]; rfl⟩

/-- A child that has been killed dies. -/
theorem moves_killed {opts : CaptureOpts} {state : Capture} (alive : state.exited = false)
    (killed : state.killed = true) : Moves opts state :=
  ⟨.childExit, _, trivial, by simp [step, alive, childExit, killed]; rfl⟩

/-- The child goes on when the streams that are read are empty. -/
theorem moves_child {opts : CaptureOpts} {state : Capture}
    (positive : ∀ stream, 0 < opts.capacity stream) (served : Served opts state)
    (alive : state.exited = false) (unharmed : state.killed = false)
    (empty : ∀ stream, Reads state stream → state.pipes stream = []) : Moves opts state := by
  cases script : state.script with
  | nil => exact ⟨.childExit, _, trivial, by simp [step, alive, childExit, script]; rfl⟩
  | cons write rest =>
      obtain ⟨stream, bytes⟩ := write
      by_cases free : opts.captures stream = false ∨ bytes = []
      · refine ⟨.childWrite 0, { state with script := rest }, trivial, ?_⟩
        simp only [step, alive, childWrite, script, if_pos free]
        rfl
      · have captured : opts.captures stream = true := by
          by_contra uncaptured
          exact free (.inl (by simpa using uncaptured))
        have some : 0 < bytes.length := by
          apply List.length_pos_iff.mpr
          exact fun none => free (.inr none)
        have room : (state.pipes stream).length + 1 ≤ opts.capacity stream := by
          rcases served alive unharmed stream captured with reads | fits
          · rw [empty stream reads]
            exact positive stream
          · rw [FitsAll, script, bytesOf_cons, if_pos rfl, List.length_append] at fits
            simp only at fits
            omega
        refine ⟨.childWrite 1, { state with
          script := (stream, bytes.drop 1) :: rest
          pipes := Function.update state.pipes stream (state.pipes stream ++ bytes.take 1) },
          trivial, ?_⟩
        simp only [step, alive, childWrite, script, if_neg free]
        rw [if_neg Bool.false_ne_true, if_pos ⟨Nat.one_pos, some, room⟩]

/-- The drainer, or the child when the drainer has nothing to read. -/
theorem moves_beside {opts : CaptureOpts} {state : Capture}
    (positive : ∀ stream, 0 < opts.capacity stream) (served : Served opts state)
    (alive : state.exited = false) (unharmed : state.killed = false)
    (empty : ∀ stream, state.caller = .starting ∨ state.caller = .reading stream →
      state.pipes stream = []) : Moves opts state := by
  by_cases draining : state.drainer = .reading
  · rcases round_ready state .err with ⟨round, result, succeeds, read⟩ | ⟨-, drained⟩
    · exact moves_drainer draining succeeds read
    · apply moves_child positive served alive unharmed
      rintro stream (starting | reading | ⟨-, rfl⟩)
      · exact empty stream (.inl starting)
      · exact empty stream (.inr reading)
      · exact drained
  · apply moves_child positive served alive unharmed
    rintro stream (starting | reading | ⟨reading, -⟩)
    · exact empty stream (.inl starting)
    · exact empty stream (.inr reading)
    · exact absurd reading draining

/-- Until the call has returned, somebody can go on. -/
theorem moves_of_served {opts : CaptureOpts} {written : List (Stream × List UInt8)}
    {state : Capture} (positive : ∀ stream, 0 < opts.capacity stream)
    (served : Served opts state) (streamed : Streamed opts written state)
    (running : ∀ ok, state.caller ≠ .returned ok) : Moves opts state := by
  have phase := streamed.phase
  cases here : state.caller with
  | starting => exact ⟨.start true, _, trivial, by simp only [step, startDrainer, here]; rfl⟩
  | reading stream =>
      rw [here] at phase
      rcases round_ready state stream with ⟨round, result, succeeds, read⟩ | ⟨alive, empty⟩
      · exact moves_caller (.inl here) succeeds read
      · apply moves_beside positive served alive phase.1
        rintro other (starting | reading)
        · rw [here] at starting
          cases starting
        · rwa [← CallerPc.reading.inj (here.symm.trans reading)]
  | joining =>
      rw [here] at phase
      obtain ⟨unharmed, present, -⟩ := phase
      cases drainer : state.drainer with
      | absent => exact absurd drainer present
      | finished ok =>
          exact ⟨.join, _, trivial, by simp only [step, callerJoins, here, drainer]; rfl⟩
      | reading =>
          rcases round_ready state .err with ⟨round, result, succeeds, read⟩ | ⟨alive, -⟩
          · exact moves_drainer drainer succeeds read
          · apply moves_beside positive served alive unharmed
            rintro other (starting | reading)
            · rw [here] at starting
              cases starting
            · rw [here] at reading
              cases reading
  | draining stream =>
      rw [here] at phase
      rcases round_ready state stream with ⟨round, result, succeeds, read⟩ | ⟨alive, -⟩
      · exact moves_caller (.inr here) succeeds read
      · exact moves_killed alive phase.1
  | waiting =>
      cases alive : state.exited with
      | true => exact ⟨.wait, _, trivial, by simp only [step, callerWaits, here, alive]; rfl⟩
      | false =>
          cases killed : state.killed with
          | true => exact moves_killed alive killed
          | false =>
              apply moves_beside positive served alive killed
              rintro other (starting | reading)
              · rw [here] at starting
                cases starting
              · rw [here] at reading
                cases reading
  | returned ok => exact absurd here (running ok)

/-! ## Every capture returns -/

def callerRank : CallerPc → Nat
  | .starting => 10
  | .reading _ => 5
  | .draining .out => 5
  | .draining .err => 4
  | .joining => 4
  | .waiting => 1
  | .returned _ => 0

def drainerRank : DrainerPc → Nat
  | .reading => 2
  | .finished _ => 1
  | .absent => 0

/-- How many bytes the child has left to write. -/
def leftToWrite (script : List (Stream × List UInt8)) : Nat :=
  (script.map fun write => write.2.length).sum

/-- The work that is left; a byte is written once and read once. -/
def work (state : Capture) : Nat :=
  2 * leftToWrite state.script + state.script.length +
    ((state.pipes .out).length + (state.pipes .err).length) +
    (!state.exited).toNat + callerRank state.caller + drainerRank state.drainer

theorem leftToWrite_cons (write : Stream × List UInt8) (rest : List (Stream × List UInt8)) :
    leftToWrite (write :: rest) = write.2.length + leftToWrite rest :=
  List.sum_cons

theorem length_pipes (pipes : Stream → List UInt8) (stream : Stream) (left : List UInt8) :
    ((Function.update pipes stream left .out).length +
        (Function.update pipes stream left .err).length) + (pipes stream).length =
      ((pipes .out).length + (pipes .err).length) + left.length := by
  cases stream with
  | out => simp; omega
  | err => simp; omega

theorem work_get {state : Capture} {stream : Stream} {count : Nat} (some : 0 < count)
    (inside : count ≤ (state.pipes stream).length) :
    work (state.get stream count) < work state := by
  have pipes := length_pipes state.pipes stream ((state.pipes stream).drop count)
  rw [List.length_drop] at pipes
  simp only [work, Capture.get]
  omega

theorem work_leave {state : Capture} {stream : Stream} {round : Round} {left : List UInt8}
    {ok : Bool} (leaves : Leaves state stream round left ok) :
    ((state.leave stream left).pipes .out).length + ((state.leave stream left).pipes .err).length ≤
      (state.pipes .out).length + (state.pipes .err).length := by
  have pipes := length_pipes state.pipes stream left
  have shorter := leaves.length_le
  simp only [Capture.leave]
  omega

/-- Every step uses up work. -/
theorem work_step {opts : CaptureOpts} {state state' : Capture} {action : Action}
    (effect : Effect opts state action state') : work state' < work state := by
  cases effect with
  | skips alive head free =>
      simp only [work, head, leftToWrite_cons, List.length_cons]
      omega
  | @writes stream bytes rest count alive head some inside room =>
      have pipes := length_pipes state.pipes stream (state.pipes stream ++ bytes.take count)
      rw [List.length_append, List.length_take] at pipes
      simp only [work, head, leftToWrite_cons, List.length_cons, List.length_drop]
      omega
  | exits alive ended => simp [work, alive]
  | starts here =>
      simp only [work, here, callerRank, drainerRank]
      omega
  | kills here =>
      simp only [work, here, callerRank]
      omega
  | callerGets here some inside => exact work_get some inside
  | callerEnds here leaves =>
      have shorter := work_leave leaves
      simp only [Capture.leave] at shorter
      simp only [work, here, Capture.leave]
      by_cases absent : state.drainer = .absent
      · simp only [absent, if_true, callerRank]
        omega
      · simp only [absent, if_false, callerRank]
        omega
  | drainsOut here leaves =>
      have shorter := work_leave leaves
      simp only [Capture.leave] at shorter
      simp only [work, here, Capture.leave, callerRank]
      omega
  | drainsErr here leaves =>
      have shorter := work_leave leaves
      simp only [Capture.leave] at shorter
      simp only [work, here, Capture.leave, callerRank]
      omega
  | drainerGets here some inside => exact work_get some inside
  | drainerEnds here leaves =>
      have shorter := work_leave leaves
      simp only [Capture.leave] at shorter
      simp only [work, here, Capture.leave, drainerRank]
      omega
  | joins here finished =>
      simp only [work, here, finished, callerRank, drainerRank]
      omega
  | reaps here exited =>
      simp only [work, here, callerRank]
      omega

theorem streamed_of_run {opts : CaptureOpts} {script : List (Stream × List UInt8)}
    {state : Capture} (run : Reaches (step opts) Always (ucbProcessCapture opts script) state) :
    Streamed opts script state :=
  run.invariant (streamed_start opts script) fun _ _ _ before _ stepped =>
    streamed_step before (effect_of_step stepped)

theorem served_start (opts : CaptureOpts) (script : List (Stream × List UInt8)) :
    Served opts (ucbProcessCapture opts script) := by
  intro _ _ stream captured
  apply Or.inl
  cases out : opts.captures .out <;> cases err : opts.captures .err <;> cases stream <;>
    simp_all [Reads, ucbProcessCapture]

/-- `ucb_process_capture` never deadlocks with its child when reads and growths
fail only where the child can do without them: from every state it can return,
and it does, since every step uses up work. In every run the child is reaped
before the call returns, and a call that returns true has appended exactly what
the child wrote. -/
theorem capture_never_stuck {opts : CaptureOpts} (script : List (Stream × List UInt8))
    (positive : ∀ stream, 0 < opts.capacity stream) :
    (∀ state, Reaches (step opts) Always (ucbProcessCapture opts script) state →
      ∀ ok, state.caller = .returned ok → state.reaped = true ∧
        (ok = true → ∀ stream, opts.captures stream = true →
          state.buffers stream = bytesOf stream script)) ∧
    ∀ state, Reaches (step opts) (Harmless opts) (ucbProcessCapture opts script) state →
      ¬ Stuck opts state ∧
        (∃ later ok, Reaches (step opts) (Harmless opts) state later ∧
          later.caller = .returned ok) ∧
        ∀ action next, step opts state action = some next → work next < work state := by
  constructor
  · intro state run ok here
    exact (streamed_of_run run).returned here
  · intro state run
    have holds : Served opts state ∧ Streamed opts script state := by
      apply run.invariant
      · exact ⟨served_start opts script, streamed_start opts script⟩
      · rintro before action after ⟨served, streamed⟩ harmless stepped
        have effect := effect_of_step stepped
        exact ⟨served_step served streamed harmless effect, streamed_step streamed effect⟩
    obtain ⟨later, continued, ok, here⟩ :
        ∃ later, Reaches (step opts) (Harmless opts) state later ∧
          ∃ ok, later.caller = .returned ok := by
      have progress : ∀ middle, (Served opts middle ∧ Streamed opts script middle) →
          (¬ ∃ ok, middle.caller = .returned ok) →
          ∃ action after, Harmless opts middle action ∧ step opts middle action = some after ∧
            (Served opts after ∧ Streamed opts script after) ∧ work after < work middle := by
        rintro middle ⟨served, streamed⟩ running
        obtain ⟨action, after, harmless, stepped⟩ :=
          moves_of_served positive served streamed fun ok here => running ⟨ok, here⟩
        have effect := effect_of_step stepped
        exact ⟨action, after, harmless, stepped,
          ⟨served_step served streamed harmless effect, streamed_step streamed effect⟩,
          work_step effect⟩
      exact exists_run_to progress state holds
    refine ⟨?_, ⟨later, ok, continued, here⟩, fun _ _ stepped => work_step (effect_of_step stepped)⟩
    rintro ⟨stream, blocked⟩
    have whole : Reaches (step opts) Always state later := continued.weaken fun _ _ _ => trivial
    have start : Reaches (step opts) Always (ucbProcessCapture opts script) state :=
      run.weaken fun _ _ _ => trivial
    have phase := (streamed_of_run (start.trans whole)).phase
    rw [here] at phase
    exact absurd ((blocked later whole).1.symm.trans phase.2.1) nofun

/-- Both streams through pipes of one byte. -/
theorem capture_never_stuck_bothStreams :
    ¬ Stuck ⟨fun _ => true, fun _ => 1⟩
      (ucbProcessCapture ⟨fun _ => true, fun _ => 1⟩ [(.err, [0x61, 0x62]), (.out, [0x63])]) :=
  ((capture_never_stuck [(.err, [0x61, 0x62]), (.out, [0x63])] fun _ => Nat.one_pos).2 _
    (.refl _)).1

/-- Standard output only, through a pipe of one byte. -/
def outOnly : CaptureOpts where
  captures := fun stream => stream = .out
  capacity := fun _ => 1

/-- The child has written one byte of two, and the read of it has failed. -/
def unreadByte : Capture where
  script := [(.out, [0x62])]
  exited := false
  killed := false
  reaped := false
  pipes := Function.update (fun _ => []) .out [0x61]
  buffers := fun _ => []
  caller := .waiting
  drainer := .absent
  ioOk := false

theorem unreadByte_reached :
    Reaches (step outOnly) Always
      (ucbProcessCapture outOnly [(.out, [0x61, 0x62])]) unreadByte := by
  have written : replay (step outOnly) (ucbProcessCapture outOnly [(.out, [0x61, 0x62])])
      [.childWrite 1, .caller .readFails] = some unreadByte := rfl
  exact .of_replay written (meetsAll_always _ _)

theorem unreadByte_stays (action : Action) : step outOnly unreadByte action = none := by
  cases action with
  | childWrite count =>
      have full : ¬ (0 < count ∧ count ≤ 1 ∧ 1 + count ≤ 1) := by omega
      show (if 0 < count ∧ count ≤ 1 ∧ 1 + count ≤ 1 then _ else none) = none
      rw [if_neg full]
  | childExit => rfl
  | start started => rfl
  | caller round => rfl
  | drainer round => rfl
  | join => rfl
  | wait => rfl

/-- After a failed read the caller waits for a child that waits for room. -/
theorem capture_stuck_after_failed_read :
    ¬ ∀ state, Reaches (step outOnly) Always
      (ucbProcessCapture outOnly [(.out, [0x61, 0x62])]) state → ¬ Stuck outOnly state := by
  intro unstuck
  refine unstuck unreadByte unreadByte_reached ⟨.out, fun later run => ?_⟩
  have same : unreadByte = later := by
    apply run.invariant rfl
    rintro before action after rfl _ stepped
    rw [unreadByte_stays action] at stepped
    cases stepped
  rw [← same]
  exact ⟨rfl, rfl, [0x62], [], rfl, nofun, Nat.le_refl _⟩

end Ucb.Process
