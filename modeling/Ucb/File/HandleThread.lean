import Mathlib.Data.Finset.Basic
import Ucb.File.Handles

/-!
Contract: a thread that uses handles, beside others of its process.

Owns:
- what its caller has: handles, and descriptors of its own;
- the calls of the library, and when a caller may make them;
- `step`: the thread goes on with one call of the system, or its caller or others do
  something, in any order;
- which failing closes there are.

The caller uses no handle after it has freed it, and `ucb_file_from_fd` takes over only
what the caller has opened itself.
-/

namespace Ucb.File.Handles

open Ucb.Lib

/-! ## Callers -/

/-- The handles of a caller, and the descriptors that it has opened itself. -/
structure Store where
  files : List UcbFileHandle
  raws : Finset Int

/-- A call of the library, on handles by their place in the list. -/
inductive Call where
  | openMode (path : List UInt8) (flags : UcbFileFlags) (mode : Nat)
  | close (place : Nat)
  | free (place : Nat)
  | fromFd (fd : Int) (own : Bool)
  | dup (place : Nat)
  | setInherit (place : Nat) (inherit : Bool)
  | pipeCreate (flags : UcbFileFlags)

namespace Store

def add (store : Store) (result : Except Thrown UcbFileHandle) : Store :=
  match result with
  | .ok file => { store with files := file :: store.files }
  | .error _ => store

/-- A descriptor of the caller's own goes over to a handle. -/
def adopt (store : Store) (fd : Int) (result : Except Thrown UcbFileHandle) : Store :=
  match result with
  | .ok file => ⟨file :: store.files, store.raws.erase fd⟩
  | .error _ => store

def addBoth (store : Store) (result : Except Thrown (UcbFileHandle × UcbFileHandle)) : Store :=
  match result with
  | .ok (read, write) => { store with files := read :: write :: store.files }
  | .error _ => store

def put (store : Store) (place : Nat) (file : UcbFileHandle) : Store :=
  { store with files := store.files.set place file }

def drop (store : Store) (place : Nat) : Store :=
  { store with files := store.files.eraseIdx place }

end Store

/-- What a call runs, and leaves of what the caller has; `none` where the caller must not make
it. -/
def Call.program (store : Store) : Call → Option (FdProg Store)
  | .openMode path flags mode => some (do
      let result ← ucbFileOpenMode path flags mode
      pure (store.add result))
  | .close place =>
      store.files[place]?.map fun file => do
        let result ← ucbFileClose file
        pure (store.put place result.2)
  | .free place =>
      store.files[place]?.map fun file => do
        ucbFileFree (some file)
        pure (if file.std then store else store.drop place)
  | .fromFd fd own =>
      if own = true → fd ∈ store.raws then
        some (do
          let result ← ucbFileFromFd fd own
          pure (if own then store.adopt fd result else store.add result))
      else none
  | .dup place =>
      store.files[place]?.map fun file => do
        let result ← ucbFileDup file
        pure (store.add result)
  | .setInherit place inherit =>
      store.files[place]?.map fun file => do
        let result ← ucbFileSetInherit file inherit
        pure (store.put place result.2)
  | .pipeCreate flags => some (do
      let result ← ucbPipeCreate flags
      pure (store.addBoth result))

def Call.isClose : Call → Bool
  | .close _ => true
  | _ => false

/-! ## Steps -/

inductive Thread where
  | idle (store : Store)
  | running (call : Call) (store : Store) (program : FdProg Store)

def Thread.settle (call : Call) (store : Store) (program : FdProg Store) : Thread :=
  match program with
  | .ret after => .idle after
  | .ask question next => .running call store (.ask question next)

/-- The descriptors of the process, the thread, and whether a call has gone astray: has closed what
the thread does not hold. -/
structure World where
  table : Table
  thread : Thread
  astray : Bool

/-- What happens next: the thread makes a call or goes on with one, its caller opens or closes a
descriptor itself, or others open and close theirs. -/
inductive Action where
  | call (call : Call)
  | proceed (chance : Chance)
  | rawOpen (fd : Int)
  | rawClose (fd : Int)
  | others (after : Finset Int)

/-- A call that closes what the thread does not hold. -/
def Table.stray (table : Table) : Ask → Bool
  | .close fd => decide (fd ∉ table.ours)
  | _ => false

def step (world : World) (action : Action) : Option World :=
  match action, world.thread with
  | .call call, .idle store =>
      (call.program store).map fun program =>
        { world with thread := .settle call store program }
  | .proceed chance, .running call store (.ask question next) =>
      (serve world.table question chance).map fun served =>
        ⟨served.2, .settle call store (next served.1), world.astray || world.table.stray question⟩
  | .rawOpen fd, .idle store =>
      if world.table.Vacant fd then
        some { world with
          table := { world.table with ours := insert fd world.table.ours }
          thread := .idle { store with raws := insert fd store.raws } }
      else none
  | .rawClose fd, .idle store =>
      if fd ∈ store.raws then
        some { world with
          table := { world.table with ours := world.table.ours.erase fd }
          thread := .idle { store with raws := store.raws.erase fd } }
      else none
  | .others after, _ =>
      if Disjoint after world.table.ours then
        some { world with table := { world.table with others := after } }
      else none
  | _, _ => none

/-- The beginning: the thread holds nothing, and its caller has handles that own nothing. -/
structure World.Initial (world : World) : Prop where
  nothing : world.table.ours = ∅
  whole : world.astray = false
  idle : ∃ files, world.thread = .idle ⟨files, ∅⟩ ∧ ∀ file ∈ files, file.own = false

/-- A `close` of an open descriptor that fails: whether `ucb_file_close` has called it, and whether
it has released the descriptor. -/
def failedClose (world : World) (action : Action) : Option (Bool × Bool) :=
  match action, world.thread with
  | .proceed chance, .running call _ (.ask (.close fd) _) =>
      if chance.fault ≠ none ∧ fd ∈ world.table.ours then some (call.isClose, chance.released)
      else none
  | _, _ => none

/-- A failing `close` that nobody looks at has released the descriptor. -/
def ReleasesElsewhere (world : World) (action : Action) : Prop :=
  failedClose world action ≠ some (false, false)

/-- A failing `close` of `ucb_file_close` has not released the descriptor. -/
def KeepsInClose (world : World) (action : Action) : Prop :=
  failedClose world action ≠ some (true, true)

instance (world : World) (action : Action) : Decidable (ReleasesElsewhere world action) := by
  unfold ReleasesElsewhere
  infer_instance

instance (world : World) (action : Action) : Decidable (KeepsInClose world action) := by
  unfold KeepsInClose
  infer_instance

end Ucb.File.Handles
