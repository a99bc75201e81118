import Ucb.Process.Capture

/-!
Contract: what one step of a capture can do.

Owns:
- `Leaves`, how the loop of `ucb_file_read_buffer` ends;
- `Effect`, one constructor for each way a thread or the child moves on;
- that every step is one of them.
-/

namespace Ucb.Process

/-- The last round of `ucb_file_read_buffer` on a stream leaves `left` in the pipe
and gives the result `ok`. -/
inductive Leaves (state : Capture) (stream : Stream) : Round → List UInt8 → Bool → Prop
  | ends (exited : state.exited = true) (empty : state.pipes stream = []) :
      Leaves state stream .endOfFile [] true
  | fails : Leaves state stream .readFails (state.pipes stream) false
  | short {count : Nat} (some : 0 < count) (inside : count ≤ (state.pipes stream).length) :
      Leaves state stream (.bytes count false) ((state.pipes stream).drop count) false

/-- The state after a stream has been read up to `left`. -/
def Capture.leave (state : Capture) (stream : Stream) (left : List UInt8) : Capture :=
  { state with pipes := Function.update state.pipes stream left }

/-- The state after `count` bytes of a stream have been appended to its buffer. -/
def Capture.get (state : Capture) (stream : Stream) (count : Nat) : Capture :=
  { state with
    pipes := Function.update state.pipes stream ((state.pipes stream).drop count)
    buffers := Function.update state.buffers stream
      (state.buffers stream ++ (state.pipes stream).take count) }

/-- The ways the child and the threads move on. -/
inductive Effect (opts : CaptureOpts) (state : Capture) : Action → Capture → Prop
  | skips {stream : Stream} {bytes : List UInt8} {rest : List (Stream × List UInt8)} {count : Nat}
      (alive : state.exited = false) (head : state.script = (stream, bytes) :: rest)
      (free : opts.captures stream = false ∨ bytes = []) :
      Effect opts state (.childWrite count) { state with script := rest }
  | writes {stream : Stream} {bytes : List UInt8} {rest : List (Stream × List UInt8)}
      {count : Nat} (alive : state.exited = false)
      (head : state.script = (stream, bytes) :: rest) (some : 0 < count)
      (inside : count ≤ bytes.length)
      (room : (state.pipes stream).length + count ≤ opts.capacity stream) :
      Effect opts state (.childWrite count) { state with
        script := (stream, bytes.drop count) :: rest
        pipes := Function.update state.pipes stream (state.pipes stream ++ bytes.take count) }
  | exits (alive : state.exited = false) (ended : state.script = [] ∨ state.killed = true) :
      Effect opts state .childExit { state with exited := true }
  | starts (here : state.caller = .starting) :
      Effect opts state (.start true) { state with caller := .reading .out, drainer := .reading }
  | kills (here : state.caller = .starting) :
      Effect opts state (.start false)
        { state with caller := .draining .out, killed := true, ioOk := false }
  | callerGets {stream : Stream} {count : Nat}
      (here : state.caller = .reading stream ∨ state.caller = .draining stream) (some : 0 < count)
      (inside : count ≤ (state.pipes stream).length) :
      Effect opts state (.caller (.bytes count true)) (state.get stream count)
  | callerEnds {stream : Stream} {round : Round} {left : List UInt8} {ok : Bool}
      (here : state.caller = .reading stream) (leaves : Leaves state stream round left ok) :
      Effect opts state (.caller round) { state.leave stream left with
        ioOk := ok, caller := if state.drainer = .absent then .waiting else .joining }
  | drainsOut {round : Round} {left : List UInt8} {ok : Bool}
      (here : state.caller = .draining .out) (leaves : Leaves state .out round left ok) :
      Effect opts state (.caller round) { state.leave .out left with caller := .draining .err }
  | drainsErr {round : Round} {left : List UInt8} {ok : Bool}
      (here : state.caller = .draining .err) (leaves : Leaves state .err round left ok) :
      Effect opts state (.caller round) { state.leave .err left with caller := .waiting }
  | drainerGets {count : Nat} (here : state.drainer = .reading) (some : 0 < count)
      (inside : count ≤ (state.pipes .err).length) :
      Effect opts state (.drainer (.bytes count true)) (state.get .err count)
  | drainerEnds {round : Round} {left : List UInt8} {ok : Bool}
      (here : state.drainer = .reading) (leaves : Leaves state .err round left ok) :
      Effect opts state (.drainer round) { state.leave .err left with drainer := .finished ok }
  | joins {ok : Bool} (here : state.caller = .joining) (finished : state.drainer = .finished ok) :
      Effect opts state .join
        { state with ioOk := state.ioOk && ok, drainer := .absent, caller := .waiting }
  | reaps (here : state.caller = .waiting) (exited : state.exited = true) :
      Effect opts state .wait { state with reaped := true, caller := .returned state.ioOk }

theorem readBuffer_cases {state state' : Capture} {stream : Stream} {round : Round}
    {result : Option Bool} (ran : readBuffer state stream round = some (state', result)) :
    (∃ count, round = .bytes count true ∧ 0 < count ∧ count ≤ (state.pipes stream).length ∧
        state' = state.get stream count ∧ result = none) ∨
      ∃ left ok, Leaves state stream round left ok ∧ state' = state.leave stream left ∧
        result = some ok := by
  cases round with
  | bytes count grown =>
      simp only [readBuffer] at ran
      split at ran
      next possible =>
        obtain ⟨some, -, inside⟩ := possible
        cases grown with
        | true =>
            obtain ⟨rfl, rfl⟩ := Prod.mk.inj (Option.some.inj ran)
            exact .inl ⟨count, rfl, some, inside, rfl, rfl⟩
        | false =>
            obtain ⟨rfl, rfl⟩ := Prod.mk.inj (Option.some.inj ran)
            exact .inr ⟨_, _, .short some inside, rfl, rfl⟩
      next => cases ran
  | endOfFile =>
      simp only [readBuffer] at ran
      split at ran
      next atEnd =>
        obtain ⟨rfl, rfl⟩ := Prod.mk.inj (Option.some.inj ran)
        refine .inr ⟨_, _, .ends atEnd.1 atEnd.2, ?_, rfl⟩
        rw [Capture.leave, ← atEnd.2, Function.update_eq_self]
      next => cases ran
  | readFails =>
      obtain ⟨rfl, rfl⟩ := Prod.mk.inj (Option.some.inj ran)
      refine .inr ⟨_, _, .fails, ?_, rfl⟩
      rw [Capture.leave, Function.update_eq_self]

theorem effect_childWrite {opts : CaptureOpts} {state state' : Capture} {count : Nat}
    (alive : state.exited = false) (ran : childWrite opts state count = some state') :
    Effect opts state (.childWrite count) state' := by
  unfold childWrite at ran
  split at ran
  next => cases ran
  next stream bytes rest head =>
    split at ran
    next free =>
      obtain rfl := Option.some.inj ran
      exact .skips alive head free
    next =>
      split at ran
      next possible =>
        obtain rfl := Option.some.inj ran
        exact .writes alive head possible.1 possible.2.1 possible.2.2
      next => cases ran

theorem effect_caller {opts : CaptureOpts} {state state' : Capture} {round : Round}
    (ran : callerReads state round = some state') : Effect opts state (.caller round) state' := by
  unfold callerReads at ran
  split at ran
  next stream here =>
    obtain ⟨⟨middle, result⟩, read, did⟩ := Option.map_eq_some_iff.mp ran
    rcases readBuffer_cases read with
      ⟨count, rfl, some, inside, rfl, rfl⟩ | ⟨left, ok, leaves, rfl, rfl⟩
    · obtain rfl := did
      exact .callerGets (.inl here) some inside
    · obtain rfl := did
      exact .callerEnds here leaves
  next here =>
    obtain ⟨⟨middle, result⟩, read, did⟩ := Option.map_eq_some_iff.mp ran
    rcases readBuffer_cases read with
      ⟨count, rfl, some, inside, rfl, rfl⟩ | ⟨left, ok, leaves, rfl, rfl⟩
    · obtain rfl := did
      exact .callerGets (.inr here) some inside
    · obtain rfl := did
      exact .drainsOut here leaves
  next here =>
    obtain ⟨⟨middle, result⟩, read, did⟩ := Option.map_eq_some_iff.mp ran
    rcases readBuffer_cases read with
      ⟨count, rfl, some, inside, rfl, rfl⟩ | ⟨left, ok, leaves, rfl, rfl⟩
    · obtain rfl := did
      exact .callerGets (.inr here) some inside
    · obtain rfl := did
      exact .drainsErr here leaves
  next => cases ran

theorem effect_drainer {opts : CaptureOpts} {state state' : Capture} {round : Round}
    (ran : drainerReads state round = some state') : Effect opts state (.drainer round) state' := by
  unfold drainerReads at ran
  split at ran
  next here =>
    obtain ⟨⟨middle, result⟩, read, did⟩ := Option.map_eq_some_iff.mp ran
    rcases readBuffer_cases read with
      ⟨count, rfl, some, inside, rfl, rfl⟩ | ⟨left, ok, leaves, rfl, rfl⟩
    · obtain rfl := did
      exact .drainerGets here some inside
    · obtain rfl := did
      exact .drainerEnds here leaves
  next => cases ran

/-- Every step is one of the ways to move on. -/
theorem effect_of_step {opts : CaptureOpts} {state state' : Capture} {action : Action}
    (stepped : step opts state action = some state') : Effect opts state action state' := by
  cases action with
  | childWrite count =>
      simp only [step] at stepped
      split at stepped
      next => cases stepped
      next alive => exact effect_childWrite (by simpa using alive) stepped
  | childExit =>
      simp only [step] at stepped
      split at stepped
      next => cases stepped
      next alive =>
        unfold childExit at stepped
        split at stepped
        next ended =>
          obtain rfl := Option.some.inj stepped
          exact .exits (by simpa using alive) ended
        next => cases stepped
  | start started =>
      simp only [step, startDrainer] at stepped
      split at stepped
      next here =>
        cases started with
        | true =>
            obtain rfl := Option.some.inj stepped
            exact .starts here
        | false =>
            obtain rfl := Option.some.inj stepped
            exact .kills here
      next => cases stepped
  | caller round => exact effect_caller stepped
  | drainer round => exact effect_drainer stepped
  | join =>
      simp only [step, callerJoins] at stepped
      split at stepped
      next ok here finished =>
        obtain rfl := Option.some.inj stepped
        exact .joins here finished
      next => cases stepped
  | wait =>
      simp only [step, callerWaits] at stepped
      split at stepped
      next ready =>
        obtain rfl := Option.some.inj stepped
        exact .reaps ready.1 ready.2
      next => cases stepped

end Ucb.Process
