import Ucb.Process.Effects

/-!
Contract: what becomes of the bytes that a child writes.

Owns:
- `Phase`, what holds of the streams and of the threads at each point of the
  caller;
- that every step keeps it, so that a capture that returns true has all bytes,
  and none returns before the child is reaped.
-/

namespace Ucb.Process

open Ucb.Lib

def bytesOf (stream : Stream) (script : List (Stream × List UInt8)) : List UInt8 :=
  script.flatMap fun write => if write.1 = stream then write.2 else []

variable (opts : CaptureOpts) (written : List (Stream × List UInt8))

/-- What has been appended, is in the pipe and is to be written of a stream is
what the child writes to it. -/
def Intact (state : Capture) (stream : Stream) : Prop :=
  state.buffers stream ++ state.pipes stream ++ bytesOf stream state.script =
    bytesOf stream written

/-- The stream has been read to its end, and the child has ended by itself. -/
structure Whole (state : Capture) (stream : Stream) : Prop where
  intact : Intact written state stream
  exited : state.exited = true
  unharmed : state.killed = false
  empty : state.pipes stream = []

def DrainerPhase (state : Capture) : DrainerPc → Prop
  | .absent => True
  | .reading => opts.captures .err = true ∧ Intact written state .err
  | .finished ok => ok = true → Whole written state .err

/-- What holds of the streams and the threads where the caller is. -/
def Phase (state : Capture) : CallerPc → Prop
  | .starting =>
      state.killed = false ∧ state.drainer = .absent ∧
        ∀ stream, opts.captures stream = true ∧ Intact written state stream
  | .reading stream =>
      state.killed = false ∧ opts.captures stream = true ∧ Intact written state stream ∧
        (state.drainer = .absent → ∀ other, opts.captures other = true → other = stream) ∧
        (state.drainer ≠ .absent → stream = .out ∧ DrainerPhase opts written state state.drainer)
  | .joining =>
      state.killed = false ∧ state.drainer ≠ .absent ∧
        (state.ioOk = true → Whole written state .out) ∧
        DrainerPhase opts written state state.drainer
  | .draining _ => state.killed = true ∧ state.drainer = .absent ∧ state.ioOk = false
  | .waiting =>
      state.drainer = .absent ∧ (state.ioOk = true →
        ∀ stream, opts.captures stream = true → Whole written state stream)
  | .returned ok =>
      state.reaped = true ∧ state.exited = true ∧ state.drainer = .absent ∧ (ok = true →
        ∀ stream, opts.captures stream = true → Whole written state stream)

/-- The streams and the threads fit together. -/
structure Streamed (state : Capture) : Prop where
  phase : Phase opts written state state.caller
  ended : state.exited = true → state.killed = true ∨ state.script = []
  fits : ∀ stream, (state.pipes stream).length ≤ opts.capacity stream

variable {opts written}

/-! ## Bytes that move on -/

theorem bytesOf_cons (stream : Stream) (write : Stream × List UInt8)
    (rest : List (Stream × List UInt8)) :
    bytesOf stream (write :: rest) =
      (if write.1 = stream then write.2 else []) ++ bytesOf stream rest :=
  List.flatMap_cons

theorem Whole.exact {state : Capture} {stream : Stream} (whole : Whole written state stream)
    (ended : state.exited = true → state.killed = true ∨ state.script = []) :
    state.buffers stream = bytesOf stream written := by
  have finished : state.script = [] := by
    rcases ended whole.exited with killed | finished
    · rw [whole.unharmed] at killed
      cases killed
    · exact finished
  have intact := whole.intact
  rw [Intact, whole.empty, finished] at intact
  simpa [bytesOf] using intact

/-- A step that keeps what the threads have achieved, with the threads where they
are. -/
structure Flows (opts : CaptureOpts) (written : List (Stream × List UInt8))
    (state state' : Capture) : Prop where
  caller : state'.caller = state.caller
  drainer : state'.drainer = state.drainer
  killed : state'.killed = state.killed
  reaped : state'.reaped = state.reaped
  ioOk : state'.ioOk = state.ioOk
  exited : state.exited = true → state'.exited = true
  intact : ∀ stream, opts.captures stream = true → Intact written state stream →
    Intact written state' stream
  whole : ∀ stream, Whole written state stream → Whole written state' stream

theorem Flows.drainerPhase {state state' : Capture} (flows : Flows opts written state state')
    {drainer : DrainerPc} (phase : DrainerPhase opts written state drainer) :
    DrainerPhase opts written state' drainer := by
  cases drainer with
  | absent => trivial
  | reading => exact ⟨phase.1, flows.intact .err phase.1 phase.2⟩
  | finished ok => exact fun read => flows.whole .err (phase read)

theorem Flows.phase {state state' : Capture} (flows : Flows opts written state state')
    {caller : CallerPc} (phase : Phase opts written state caller) :
    Phase opts written state' caller := by
  cases caller with
  | starting =>
      obtain ⟨unharmed, absent, intact⟩ := phase
      refine ⟨flows.killed.trans unharmed, flows.drainer.trans absent, fun stream => ?_⟩
      exact ⟨(intact stream).1, flows.intact stream (intact stream).1 (intact stream).2⟩
  | reading stream =>
      obtain ⟨unharmed, captured, intact, alone, beside⟩ := phase
      refine ⟨flows.killed.trans unharmed, captured, flows.intact stream captured intact, ?_, ?_⟩
      · rw [flows.drainer]
        exact alone
      · rw [flows.drainer]
        exact fun present => ⟨(beside present).1, flows.drainerPhase (beside present).2⟩
  | joining =>
      obtain ⟨unharmed, present, read, drained⟩ := phase
      refine ⟨flows.killed.trans unharmed, ?_, ?_, ?_⟩
      · rwa [flows.drainer]
      · rw [flows.ioOk]
        exact fun ok => flows.whole .out (read ok)
      · rw [flows.drainer]
        exact flows.drainerPhase drained
  | draining stream =>
      obtain ⟨killed, absent, failed⟩ := phase
      exact ⟨flows.killed.trans killed, flows.drainer.trans absent, flows.ioOk.trans failed⟩
  | waiting =>
      obtain ⟨absent, read⟩ := phase
      refine ⟨flows.drainer.trans absent, ?_⟩
      rw [flows.ioOk]
      exact fun ok stream captured => flows.whole stream (read ok stream captured)
  | returned ok =>
      obtain ⟨reaped, exited, absent, read⟩ := phase
      refine ⟨flows.reaped.trans reaped, flows.exited exited, flows.drainer.trans absent, ?_⟩
      exact fun good stream captured => flows.whole stream (read good stream captured)

theorem update_self_of_ne {state : Capture} {stream other : Stream} (elsewhere : other ≠ stream)
    (left : List UInt8) : (state.leave stream left).pipes other = state.pipes other :=
  Function.update_of_ne elsewhere _ _

/-- Bytes go from a pipe into the buffer. -/
theorem flows_get (state : Capture) {stream : Stream} {count : Nat} (some : 0 < count)
    (inside : count ≤ (state.pipes stream).length) :
    Flows opts written state (state.get stream count) where
  caller := rfl
  drainer := rfl
  killed := rfl
  reaped := rfl
  ioOk := rfl
  exited := id
  intact := by
    intro other _ intact
    by_cases same : other = stream
    · subst same
      simpa [Intact, Capture.get] using intact
    · simpa [Intact, Capture.get, same] using intact
  whole := by
    intro other whole
    have elsewhere : other ≠ stream := by
      rintro rfl
      rw [whole.empty] at inside
      simp at inside
      omega
    constructor
    · simpa [Intact, Capture.get, elsewhere] using whole.intact
    · exact whole.exited
    · exact whole.unharmed
    · simpa [Capture.get, elsewhere] using whole.empty

theorem Whole.not_alive {state : Capture} {stream : Stream} (whole : Whole written state stream)
    (alive : state.exited = false) : False := by
  have exited := whole.exited
  rw [alive] at exited
  cases exited

theorem flows_skips {state : Capture} {stream : Stream} {bytes : List UInt8}
    {rest : List (Stream × List UInt8)} (alive : state.exited = false)
    (head : state.script = (stream, bytes) :: rest)
    (free : opts.captures stream = false ∨ bytes = []) :
    Flows opts written state { state with script := rest } where
  caller := rfl
  drainer := rfl
  killed := rfl
  reaped := rfl
  ioOk := rfl
  exited := id
  intact := by
    intro other captured intact
    rw [Intact, head, bytesOf_cons] at intact
    rcases free with uncaptured | rfl
    · have elsewhere : stream ≠ other := by
        rintro rfl
        rw [captured] at uncaptured
        cases uncaptured
      simpa [Intact, elsewhere] using intact
    · simpa [Intact] using intact
  whole := fun _ whole => (whole.not_alive alive).elim

theorem flows_writes {state : Capture} {stream : Stream} {bytes : List UInt8}
    {rest : List (Stream × List UInt8)} (count : Nat) (alive : state.exited = false)
    (head : state.script = (stream, bytes) :: rest) :
    Flows opts written state { state with
      script := (stream, bytes.drop count) :: rest
      pipes := Function.update state.pipes stream (state.pipes stream ++ bytes.take count) } where
  caller := rfl
  drainer := rfl
  killed := rfl
  reaped := rfl
  ioOk := rfl
  exited := id
  intact := by
    intro other _ intact
    rw [Intact, head, bytesOf_cons] at intact
    by_cases same : stream = other
    · subst same
      have split := List.take_append_drop count bytes
      simp only [if_true] at intact
      simp only [Intact, bytesOf_cons, Function.update_self, if_true]
      rw [← intact]
      simp only [List.append_assoc]
      rw [← List.append_assoc (bytes.take count), split]
    · have elsewhere : other ≠ stream := Ne.symm same
      simpa [Intact, bytesOf_cons, same, elsewhere] using intact
  whole := fun _ whole => (whole.not_alive alive).elim

theorem flows_exits (state : Capture) :
    Flows opts written state { state with exited := true } where
  caller := rfl
  drainer := rfl
  killed := rfl
  reaped := rfl
  ioOk := rfl
  exited := fun _ => rfl
  intact := fun _ _ intact => intact
  whole := fun _ whole => ⟨whole.intact, rfl, whole.unharmed, whole.empty⟩

/-! ## The end of a stream -/

theorem Leaves.whole {state : Capture} {stream : Stream} {round : Round} {left : List UInt8}
    (leaves : Leaves state stream round left true) (intact : Intact written state stream)
    (unharmed : state.killed = false) : Whole written (state.leave stream left) stream := by
  cases leaves with
  | ends exited empty =>
      have same : (state.leave stream []).pipes stream = [] := Function.update_self _ _ _
      refine ⟨?_, exited, unharmed, same⟩
      rw [Intact, same, ← empty]
      exact intact

theorem intact_leave {state : Capture} {stream other : Stream} (elsewhere : other ≠ stream)
    (left : List UInt8) (intact : Intact written state other) :
    Intact written (state.leave stream left) other := by
  rw [Intact, update_self_of_ne elsewhere]
  exact intact

theorem whole_leave {state : Capture} {stream other : Stream} (elsewhere : other ≠ stream)
    (left : List UInt8) (whole : Whole written state other) :
    Whole written (state.leave stream left) other := by
  refine ⟨intact_leave elsewhere left whole.intact, whole.exited, whole.unharmed, ?_⟩
  rw [update_self_of_ne elsewhere, whole.empty]

theorem drainerPhase_leave {state : Capture} (left : List UInt8) {drainer : DrainerPc}
    (phase : DrainerPhase opts written state drainer) :
    DrainerPhase opts written (state.leave .out left) drainer := by
  have elsewhere : Stream.err ≠ .out := nofun
  cases drainer with
  | absent => trivial
  | reading => exact ⟨phase.1, intact_leave elsewhere left phase.2⟩
  | finished ok => exact fun read => whole_leave elsewhere left (phase read)

/-- The same child, pipes and buffers, with the threads elsewhere. -/
structure SameStreams (state state' : Capture) : Prop where
  script : state'.script = state.script
  exited : state'.exited = state.exited
  killed : state'.killed = state.killed
  pipes : state'.pipes = state.pipes
  buffers : state'.buffers = state.buffers

theorem sameStreams (state : Capture) (caller : CallerPc) (drainer : DrainerPc)
    (ioOk reaped : Bool) :
    SameStreams state { state with
      caller := caller, drainer := drainer, ioOk := ioOk, reaped := reaped } :=
  ⟨rfl, rfl, rfl, rfl, rfl⟩

theorem SameStreams.intact {state state' : Capture} (same : SameStreams state state')
    {stream : Stream} (intact : Intact written state stream) : Intact written state' stream := by
  rw [Intact, same.script, same.pipes, same.buffers]
  exact intact

theorem SameStreams.whole {state state' : Capture} (same : SameStreams state state')
    {stream : Stream} (whole : Whole written state stream) : Whole written state' stream := by
  refine ⟨same.intact whole.intact, same.exited.trans whole.exited,
    same.killed.trans whole.unharmed, ?_⟩
  rw [same.pipes, whole.empty]

theorem SameStreams.drainerPhase {state state' : Capture} (same : SameStreams state state')
    {drainer : DrainerPc} (phase : DrainerPhase opts written state drainer) :
    DrainerPhase opts written state' drainer := by
  cases drainer with
  | absent => trivial
  | reading => exact ⟨phase.1, same.intact phase.2⟩
  | finished ok => exact fun read => same.whole (phase read)

/-! ## Every step -/

theorem phase_callerEnds {state : Capture} {stream : Stream} {round : Round} {left : List UInt8}
    {ok : Bool} (phase : Phase opts written state (.reading stream))
    (leaves : Leaves state stream round left ok) :
    Phase opts written
      { state.leave stream left with
        ioOk := ok, caller := if state.drainer = .absent then .waiting else .joining }
      (if state.drainer = .absent then .waiting else .joining) := by
  obtain ⟨unharmed, captured, intact, alone, beside⟩ := phase
  have read : ok = true → Whole written (state.leave stream left) stream := by
    rintro rfl
    exact leaves.whole intact unharmed
  by_cases absent : state.drainer = .absent
  · rw [if_pos absent]
    refine ⟨absent, fun good other wanted => ?_⟩
    obtain rfl := alone absent other wanted
    exact (sameStreams _ .waiting _ ok _).whole (read good)
  · obtain ⟨rfl, drained⟩ := beside absent
    rw [if_neg absent]
    refine ⟨unharmed, absent, fun good => ?_, ?_⟩
    · exact (sameStreams _ .joining _ ok _).whole (read good)
    · exact (sameStreams _ .joining _ ok _).drainerPhase (drainerPhase_leave left drained)

/-- The drainer has read the error stream. -/
theorem phase_drainerEnds {state : Capture} {round : Round} {left : List UInt8} {ok : Bool}
    {caller : CallerPc} (phase : Phase opts written state caller)
    (here : state.drainer = .reading) (leaves : Leaves state .err round left ok) :
    Phase opts written { state.leave .err left with drainer := .finished ok } caller := by
  have elsewhere : Stream.out ≠ .err := nofun
  have present : state.drainer ≠ .absent := by
    rw [here]
    nofun
  have same : SameStreams (state.leave .err left)
      { state.leave .err left with drainer := .finished ok } :=
    sameStreams _ _ (.finished ok) _ _
  have read : state.killed = false → DrainerPhase opts written state state.drainer →
      DrainerPhase opts written { state.leave .err left with drainer := .finished ok }
        (.finished ok) := by
    intro unharmed drained
    rw [here] at drained
    rintro rfl
    exact same.whole (leaves.whole drained.2 unharmed)
  cases caller with
  | reading stream =>
      obtain ⟨unharmed, captured, intact, -, beside⟩ := phase
      obtain ⟨rfl, drained⟩ := beside present
      exact ⟨unharmed, captured, same.intact (intact_leave elsewhere left intact), nofun,
        fun _ => ⟨rfl, read unharmed drained⟩⟩
  | joining =>
      obtain ⟨unharmed, -, whole, drained⟩ := phase
      exact ⟨unharmed, nofun, fun good => same.whole (whole_leave elsewhere left (whole good)),
        read unharmed drained⟩
  | starting => exact absurd phase.2.1 present
  | draining stream => exact absurd phase.2.1 present
  | waiting => exact absurd phase.1 present
  | returned ok => exact absurd phase.2.2.1 present

/-- Every step keeps the streams and the threads together. -/
theorem phase_step {state state' : Capture} {action : Action}
    (phase : Phase opts written state state.caller) (effect : Effect opts state action state') :
    Phase opts written state' state'.caller := by
  cases effect with
  | skips alive head free => exact (flows_skips alive head free).phase phase
  | writes alive head some inside room => exact (flows_writes _ alive head).phase phase
  | exits alive ended => exact (flows_exits state).phase phase
  | starts here =>
      rw [here] at phase
      obtain ⟨unharmed, -, both⟩ := phase
      exact ⟨unharmed, (both .out).1, (both .out).2, nofun, fun _ => ⟨rfl, both .err⟩⟩
  | kills here =>
      rw [here] at phase
      exact ⟨rfl, phase.2.1, rfl⟩
  | callerGets here some inside => exact (flows_get state some inside).phase phase
  | callerEnds here leaves =>
      rw [here] at phase
      exact phase_callerEnds phase leaves
  | drainsOut here leaves =>
      rw [here] at phase
      exact phase
  | drainsErr here leaves =>
      rw [here] at phase
      obtain ⟨-, absent, failed⟩ := phase
      refine ⟨absent, fun good => ?_⟩
      rw [show state.ioOk = true from good] at failed
      cases failed
  | drainerGets here some inside => exact (flows_get state some inside).phase phase
  | drainerEnds here leaves => exact phase_drainerEnds phase here leaves
  | @joins ok here finished =>
      rw [here] at phase
      obtain ⟨-, -, read, drained⟩ := phase
      rw [finished] at drained
      refine ⟨rfl, fun good stream _ => ?_⟩
      obtain ⟨callerRead, drainerRead⟩ := Bool.and_eq_true_iff.mp good
      cases stream with
      | out => exact (sameStreams state .waiting .absent _ _).whole (read callerRead)
      | err => exact (sameStreams state .waiting .absent _ _).whole (drained drainerRead)
  | reaps here exited =>
      rw [here] at phase
      obtain ⟨absent, read⟩ := phase
      refine ⟨rfl, exited, absent, fun good stream captured => ?_⟩
      exact (sameStreams state (.returned _) _ _ true).whole (read good stream captured)

theorem length_update_le {capacity : Stream → Nat} {pipes : Stream → List UInt8} {stream : Stream}
    {left : List UInt8} (fits : ∀ other, (pipes other).length ≤ capacity other)
    (inside : left.length ≤ capacity stream) (other : Stream) :
    (Function.update pipes stream left other).length ≤ capacity other := by
  by_cases same : other = stream
  · subst same
    rwa [Function.update_self]
  · rw [Function.update_of_ne same]
    exact fits other

theorem Leaves.length_le {state : Capture} {stream : Stream} {round : Round} {left : List UInt8}
    {ok : Bool} (leaves : Leaves state stream round left ok) :
    left.length ≤ (state.pipes stream).length := by
  cases leaves with
  | ends exited empty => exact Nat.zero_le _
  | fails => exact Nat.le_refl _
  | short some inside => simp

theorem streamed_step {state state' : Capture} {action : Action}
    (streamed : Streamed opts written state) (effect : Effect opts state action state') :
    Streamed opts written state' := by
  have phase := phase_step streamed.phase effect
  have fits := streamed.fits
  have ended := streamed.ended
  refine ⟨phase, ?_, ?_⟩
  · cases effect with
    | skips alive head free => exact fun exited => absurd (alive.symm.trans exited) nofun
    | writes alive head some inside room =>
        exact fun exited => absurd (alive.symm.trans exited) nofun
    | exits alive finished => exact fun _ => finished.symm
    | kills here => exact fun _ => .inl rfl
    | _ => exact ended
  · cases effect with
    | writes alive head some inside room =>
        apply length_update_le fits
        rw [List.length_append, List.length_take]
        omega
    | @callerGets stream count here some inside =>
        apply length_update_le fits
        exact Nat.le_trans (by simp) (fits stream)
    | @callerEnds stream round left ok here leaves =>
        exact length_update_le fits (Nat.le_trans leaves.length_le (fits stream))
    | drainsOut here leaves =>
        exact length_update_le fits (Nat.le_trans leaves.length_le (fits .out))
    | drainsErr here leaves =>
        exact length_update_le fits (Nat.le_trans leaves.length_le (fits .err))
    | drainerGets here some inside =>
        apply length_update_le fits
        exact Nat.le_trans (by simp) (fits .err)
    | drainerEnds here leaves =>
        exact length_update_le fits (Nat.le_trans leaves.length_le (fits .err))
    | _ => exact fits

theorem streamed_start (opts : CaptureOpts) (written : List (Stream × List UInt8)) :
    Streamed opts written (ucbProcessCapture opts written) := by
  have intact : ∀ stream, Intact written (ucbProcessCapture opts written) stream :=
    fun stream => rfl
  refine ⟨?_, nofun, fun stream => Nat.zero_le _⟩
  cases out : opts.captures .out with
  | true =>
      cases err : opts.captures .err with
      | true =>
          have caller : (ucbProcessCapture opts written).caller = .starting := by
            simp [ucbProcessCapture, out, err]
          rw [caller]
          refine ⟨rfl, rfl, fun stream => ⟨?_, intact stream⟩⟩
          cases stream <;> assumption
      | false =>
          have caller : (ucbProcessCapture opts written).caller = .reading .out := by
            simp [ucbProcessCapture, out, err]
          rw [caller]
          refine ⟨rfl, out, intact .out, fun _ other captured => ?_,
            fun present => absurd rfl present⟩
          cases other with
          | out => rfl
          | err => exact absurd (captured.symm.trans err) nofun
  | false =>
      cases err : opts.captures .err with
      | true =>
          have caller : (ucbProcessCapture opts written).caller = .reading .err := by
            simp [ucbProcessCapture, out, err]
          rw [caller]
          refine ⟨rfl, err, intact .err, fun _ other captured => ?_,
            fun present => absurd rfl present⟩
          cases other with
          | out => exact absurd (captured.symm.trans out) nofun
          | err => rfl
      | false =>
          have caller : (ucbProcessCapture opts written).caller = .waiting := by
            simp [ucbProcessCapture, out, err]
          rw [caller]
          refine ⟨rfl, fun _ stream captured => ?_⟩
          cases stream with
          | out => exact absurd (captured.symm.trans out) nofun
          | err => exact absurd (captured.symm.trans err) nofun

/-- A capture that returns has reaped its child, and one that returns true has
appended what the child wrote. -/
theorem Streamed.returned {state : Capture} (streamed : Streamed opts written state) {ok : Bool}
    (here : state.caller = .returned ok) :
    state.reaped = true ∧ (ok = true → ∀ stream, opts.captures stream = true →
      state.buffers stream = bytesOf stream written) := by
  have phase := streamed.phase
  rw [here] at phase
  obtain ⟨reaped, -, -, read⟩ := phase
  refine ⟨reaped, fun good stream captured => ?_⟩
  exact (read good stream captured).exact streamed.ended

end Ucb.Process
