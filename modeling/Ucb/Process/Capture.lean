import Ucb.Lib.System
import Mathlib.Logic.Function.Basic

/-!
Contract: `ucb_process_capture` as a system of a child, two pipes, the calling
thread and the thread that drains the error stream.

Owns:
- the child as the writes it has left, and the pipes as bounded queues;
- the steps of the caller from `ucb_process_spawn` on, and of
  `process_capture_drain_func`.

A read, a growth of a buffer and the start of the thread end as the environment
decides. `ucb_process_kill` reaches the child and `ucb_process_wait` succeeds
once the child has exited. The read ends are closed after that only, so a write
finds its pipe open as long as the child lives.
-/

namespace Ucb.Process

open Ucb.Lib

inductive Stream where
  | out
  | err
deriving DecidableEq, Repr

/-- A call of `ucb_process_capture`: which buffers are given, and how much the
pipes hold. -/
structure CaptureOpts where
  captures : Stream → Bool
  capacity : Stream → Nat

inductive CallerPc where
  /-- About to start the drainer. -/
  | starting
  /-- In `ucb_file_read_buffer` on a stream. -/
  | reading (stream : Stream)
  /-- In `ucb_thread_join` for the drainer. -/
  | joining
  /-- In `ucb_file_read_buffer` on a stream after killing the child. -/
  | draining (stream : Stream)
  /-- In `ucb_process_wait`. -/
  | waiting
  | returned (ok : Bool)
deriving DecidableEq, Repr

inductive DrainerPc where
  | absent
  | reading
  | finished (ok : Bool)
deriving DecidableEq, Repr

/-- The child, the pipes, the buffers and the threads. -/
structure Capture where
  /-- The writes that the child has left, each with the bytes not written yet. -/
  script : List (Stream × List UInt8)
  exited : Bool
  killed : Bool
  reaped : Bool
  pipes : Stream → List UInt8
  buffers : Stream → List UInt8
  caller : CallerPc
  drainer : DrainerPc
  ioOk : Bool

/-- The state when the child has been spawned and the write ends are closed. -/
def ucbProcessCapture (opts : CaptureOpts) (script : List (Stream × List UInt8)) : Capture where
  script := script
  exited := false
  killed := false
  reaped := false
  pipes := fun _ => []
  buffers := fun _ => []
  caller :=
    match opts.captures .out, opts.captures .err with
    | true, true => .starting
    | true, false => .reading .out
    | false, true => .reading .err
    | false, false => .waiting
  drainer := .absent
  ioOk := true

/-! ## The child -/

/-- The child goes on with its first write: `count` bytes go into the pipe, or
the write is done. A stream that is not captured is the null device. -/
def childWrite (opts : CaptureOpts) (state : Capture) (count : Nat) : Option Capture :=
  match state.script with
  | [] => none
  | (stream, bytes) :: rest =>
      if opts.captures stream = false ∨ bytes = [] then some { state with script := rest }
      else if 0 < count ∧ count ≤ bytes.length ∧
          (state.pipes stream).length + count ≤ opts.capacity stream then
        some { state with
          script := (stream, bytes.drop count) :: rest
          pipes := Function.update state.pipes stream (state.pipes stream ++ bytes.take count) }
      else none

/-- The child has written everything, or dies of the signal. -/
def childExit (state : Capture) : Option Capture :=
  if state.script = [] ∨ state.killed = true then some { state with exited := true } else none

/-! ## Reading a stream -/

/-- How a round of the loop of `ucb_file_read_buffer` ends. -/
inductive Round where
  /-- `count` bytes are read, and appended if the buffer can be grown. -/
  | bytes (count : Nat) (grown : Bool)
  | endOfFile
  | readFails
deriving DecidableEq, Repr

def readChunk : Nat := 4096

/-- One round of the loop of `ucb_file_read_buffer`, and its result when it is
the last. -/
def readBuffer (state : Capture) (stream : Stream) : Round → Option (Capture × Option Bool)
  | .bytes count grown =>
      if 0 < count ∧ count ≤ readChunk ∧ count ≤ (state.pipes stream).length then
        let read := { state with
          pipes := Function.update state.pipes stream ((state.pipes stream).drop count) }
        if grown then
          some ({ read with
            buffers := Function.update state.buffers stream
              (state.buffers stream ++ (state.pipes stream).take count) }, none)
        else some (read, some false)
      else none
  | .endOfFile =>
      if state.exited = true ∧ state.pipes stream = [] then some (state, some true) else none
  | .readFails => some (state, some false)

/-! ## The threads -/

/-- The caller starts the drainer, or kills the child when it cannot. -/
def startDrainer (state : Capture) (started : Bool) : Option Capture :=
  if state.caller = .starting then
    if started then some { state with caller := .reading .out, drainer := .reading }
    else some { state with caller := .draining .out, killed := true, ioOk := false }
  else none

/-- The caller in `ucb_file_read_buffer`. -/
def callerReads (state : Capture) (round : Round) : Option Capture :=
  match state.caller with
  | .reading stream =>
      (readBuffer state stream round).map fun
        | (state, none) => state
        | (state, some ok) => { state with
            ioOk := ok, caller := if state.drainer = .absent then .waiting else .joining }
  | .draining .out =>
      (readBuffer state .out round).map fun
        | (state, none) => state
        | (state, some _) => { state with caller := .draining .err }
  | .draining .err =>
      (readBuffer state .err round).map fun
        | (state, none) => state
        | (state, some _) => { state with caller := .waiting }
  | _ => none

/-- `process_capture_drain_func`. -/
def drainerReads (state : Capture) (round : Round) : Option Capture :=
  if state.drainer = .reading then
    (readBuffer state .err round).map fun
      | (state, none) => state
      | (state, some ok) => { state with drainer := .finished ok }
  else none

def callerJoins (state : Capture) : Option Capture :=
  match state.caller, state.drainer with
  | .joining, .finished ok => some { state with
      ioOk := state.ioOk && ok, drainer := .absent, caller := .waiting }
  | _, _ => none

/-- The caller reaps the child and returns. -/
def callerWaits (state : Capture) : Option Capture :=
  if state.caller = .waiting ∧ state.exited = true then
    some { state with reaped := true, caller := .returned state.ioOk }
  else none

/-! ## Steps -/

inductive Action where
  | childWrite (count : Nat)
  | childExit
  | start (started : Bool)
  | caller (round : Round)
  | drainer (round : Round)
  | join
  | wait
deriving DecidableEq, Repr

def step (opts : CaptureOpts) (state : Capture) : Action → Option Capture
  | .childWrite count => if state.exited then none else childWrite opts state count
  | .childExit => if state.exited then none else childExit state
  | .start started => startDrainer state started
  | .caller round => callerReads state round
  | .drainer round => drainerReads state round
  | .join => callerJoins state
  | .wait => callerWaits state

end Ucb.Process
