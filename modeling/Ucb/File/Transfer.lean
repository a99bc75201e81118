import Ucb.Container.GrowthArithmetic

/-!
Contract: the bulk transfers of `file.c` and `fs_stream_copy`.

Owns:
- handles, and the platform backend behind them as a parameter;
- `ucb_file_read`, `ucb_file_write`, `ucb_file_seek` and `ucb_file_tell` with their checks;
- `ucb_file_read_full`, `ucb_file_write_full`, `ucb_file_read_buffer` and `fs_stream_copy`.

The two endless loops run for as many rounds as their fuel says; `none` means that a loop is still
running then.
-/

namespace Ucb.File

open Ucb.Container

/-! ## Handles -/

inductive UcbFileKind where
  | unknown
  | regular
  | pipe
  | console
  | device
deriving DecidableEq, Repr

/-- The bits of `ucb_file_caps`. -/
structure UcbFileCaps where
  read : Bool
  write : Bool
  seek : Bool
  poll : Bool
deriving DecidableEq, Repr

structure UcbFile where
  kind : UcbFileKind
  caps : UcbFileCaps
  fd : Int
deriving DecidableEq, Repr

def ucbFileIsValid (file : UcbFile) : Bool :=
  if file.kind = .unknown ∨ file.caps = ⟨false, false, false, false⟩ then false
  else decide (file.fd ≥ 0)

/-- `ucb_file_throw_closed`. -/
def ucbFileClosed (op : String) : UcbError :=
  ⟨.invalidState, "ucb_file_" ++ op ++ ": handle is not open"⟩

/-- `ucb_file_throw_cap`. -/
def ucbFileLacks (op cap : String) : UcbError :=
  ⟨.notImplemented, "ucb_file_" ++ op ++ ": handle does not support " ++ cap⟩

inductive UcbFileWhence where
  | set
  | cur
  | fromEnd
deriving DecidableEq, Repr

/-- How `fs_stream_copy` opens files: for reading, to create one that must not exist, or to create
or truncate one. -/
inductive OpenFlags where
  | read
  | exclusive
  | truncate
deriving DecidableEq, Repr

/-- The platform backend over the states of the system. A read returns the bytes it has put into
the buffer, and a write how many bytes it has taken. -/
structure FilePlatform (σ : Type) where
  openFile : List UInt8 → OpenFlags → σ → Except UcbError UcbFile × σ
  freeFile : UcbFile → σ → σ
  read : UcbFile → Nat → σ → Except UcbError (List UInt8) × σ
  write : UcbFile → List UInt8 → σ → Except UcbError Nat × σ
  seek : UcbFile → Int → UcbFileWhence → σ → Except UcbError Unit × σ
  tell : UcbFile → σ → Except UcbError Int × σ

variable {σ : Type} (platform : FilePlatform σ)

/-! ## Single calls -/

def ucbFileRead (file : UcbFile) (size : Nat) (sys : σ) : Except UcbError (List UInt8) × σ :=
  if size = 0 then (.ok [], sys)
  else if !ucbFileIsValid file then (.error (ucbFileClosed "read"), sys)
  else if !file.caps.read then (.error (ucbFileLacks "read" "read"), sys)
  else platform.read file size sys

def ucbFileWrite (file : UcbFile) (data : List UInt8) (sys : σ) : Except UcbError Nat × σ :=
  if data.length = 0 then (.ok 0, sys)
  else if !ucbFileIsValid file then (.error (ucbFileClosed "write"), sys)
  else if !file.caps.write then (.error (ucbFileLacks "write" "write"), sys)
  else platform.write file data sys

def ucbFileSeek (file : UcbFile) (offset : Int) (whence : UcbFileWhence) (sys : σ) :
    Except UcbError Unit × σ :=
  if !ucbFileIsValid file then (.error (ucbFileClosed "seek"), sys)
  else if !file.caps.seek then (.error (ucbFileLacks "seek" "seek"), sys)
  else platform.seek file offset whence sys

def ucbFileTell (file : UcbFile) (sys : σ) : Except UcbError Int × σ :=
  if !ucbFileIsValid file then (.error (ucbFileClosed "tell"), sys)
  else if !file.caps.seek then (.error (ucbFileLacks "tell" "seek"), sys)
  else platform.tell file sys

/-! ## `ucb_file_write_full` -/

def writeNoProgress : UcbError :=
  ⟨.internal, "ucb_file_write_full: write made no progress"⟩

/-- The loop of `ucb_file_write_full`. -/
def writeFullLoop (file : UcbFile) (data : List UInt8) (written : Nat) (sys : σ) :
    Except UcbError Unit × σ :=
  if written < data.length then
    match ucbFileWrite platform file (data.drop written) sys with
    | (.error error, sys) => (.error error, sys)
    | (.ok n, sys) =>
        if n = 0 then (.error writeNoProgress, sys)
        else writeFullLoop file data (written + n) sys
  else (.ok (), sys)
termination_by data.length - written

def ucbFileWriteFull (file : UcbFile) (data : List UInt8) (sys : σ) : Except UcbError Unit × σ :=
  if data.length = 0 then (.ok (), sys) else writeFullLoop platform file data 0 sys

/-! ## `ucb_file_read_full` -/

/-- What `ucb_file_read_full` leaves: the bytes at the front of `buf`, `*out_size`, and what it
reports. -/
structure ReadFull where
  bytes : List UInt8
  outSize : Nat
  report : Except UcbError Unit

def readFullNotSeekable : UcbError :=
  ⟨.notImplemented, "ucb_file_read_full: a seekable handle is required"⟩

def readFullTooSmall (remaining : Nat) : UcbError :=
  ⟨.outOfBounds, "ucb_file_read_full: buffer too small (" ++ toString remaining ++
    " bytes required)"⟩

/-- The loop of `ucb_file_read_full`, with the bytes it has got. -/
def readFullLoop (file : UcbFile) (remaining : Nat) (got : List UInt8) (sys : σ) :
    (List UInt8 × Except UcbError Unit) × σ :=
  if got.length < remaining then
    match ucbFileRead platform file (remaining - got.length) sys with
    | (.error error, sys) => ((got, .error error), sys)
    | (.ok bytes, sys) =>
        if _end : bytes.length = 0 then ((got, .ok ()), sys)
        else readFullLoop file remaining (got ++ bytes) sys
  else ((got, .ok ()), sys)
termination_by remaining - got.length
decreasing_by
  rw [List.length_append]
  omega

/-- The part of `ucb_file_read_full` behind the measuring, from `cur` to `last`. -/
def readFullMeasured (file : UcbFile) (capacity outSize : Nat) (cur last : Int) (sys : σ) :
    ReadFull × σ :=
  let last := if last < cur then cur else last
  let remaining := (last - cur).toNat
  if capacity < remaining then
    (⟨[], remaining, .error (readFullTooSmall remaining)⟩, sys)
  else
    match readFullLoop platform file remaining [] sys with
    | ((got, .error error), sys) => (⟨got, outSize, .error error⟩, sys)
    | ((got, .ok ()), sys) => (⟨got, got.length, .ok ()⟩, sys)

/-- `ucb_file_read_full` into a buffer of `capacity` bytes. -/
def ucbFileReadFull (file : UcbFile) (capacity outSize : Nat) (sys : σ) : ReadFull × σ :=
  if !ucbFileIsValid file then (⟨[], outSize, .error (ucbFileClosed "read_full")⟩, sys)
  else if !file.caps.read then (⟨[], outSize, .error (ucbFileLacks "read_full" "read")⟩, sys)
  else if !file.caps.seek then (⟨[], outSize, .error readFullNotSeekable⟩, sys)
  else
    match ucbFileTell platform file sys with
    | (.error error, sys) => (⟨[], outSize, .error error⟩, sys)
    | (.ok cur, sys) =>
        match ucbFileSeek platform file 0 .fromEnd sys with
        | (.error error, sys) => (⟨[], outSize, .error error⟩, sys)
        | (.ok (), sys) =>
            match ucbFileTell platform file sys with
            | (.error error, sys) => (⟨[], outSize, .error error⟩, sys)
            | (.ok last, sys) =>
                match ucbFileSeek platform file cur .set sys with
                | (.error error, sys) => (⟨[], outSize, .error error⟩, sys)
                | (.ok (), sys) => readFullMeasured platform file capacity outSize cur last sys

/-! ## `ucb_file_read_buffer` -/

/-- A grow function: the capacity it answers at its `n`-th use, for a buffer that needs so many
bytes more. -/
abbrev GrowFunc := Nat → ByteBuffer → UInt64 → UInt64

def growDouble : GrowFunc :=
  fun _ buf needed => GrowthArithmetic.ucbBufferGrowDouble (.ofNat buf.alloc) needed

/-- A `ucb_buffer` with its `grow_func`, and how many pushes were made. -/
structure GrowingBuffer where
  buffer : ByteBuffer
  growFunc : Option GrowFunc
  pushes : Nat

/-- What a push of `data` meets; `allocators` are the answers to the pushes. -/
def GrowingBuffer.meets (buf : GrowingBuffer) (allocators : Nat → Allocator)
    (data : List UInt8) : Surroundings where
  growFunc := buf.growFunc.map fun grow =>
    grow buf.pushes buf.buffer (.ofNat (data.length - (buf.buffer.alloc - buf.buffer.size)))
  allocator := allocators buf.pushes

/-- `ucb_buffer_push`. -/
def growingPush (allocators : Nat → Allocator) (buf : GrowingBuffer) (data : List UInt8) :
    Exec (GrowingBuffer × Bool) := do
  let (buffer, pushed) ← Container.ucbBufferPush (buf.meets allocators data) buf.buffer data
  pure (⟨buffer, buf.growFunc, buf.pushes + 1⟩, pushed)

def readBufferGrowFailure : UcbError :=
  ⟨.outOfMemory, "ucb_file_read_buffer: failed to grow buffer"⟩

def ucbFileReadChunk : Nat := 4096

/-- The loop of `ucb_file_read_buffer`. -/
def readBufferLoop (allocators : Nat → Allocator) (file : UcbFile) :
    Nat → GrowingBuffer → σ → Exec (Option ((GrowingBuffer × Except UcbError Unit) × σ))
  | 0, _, _ => pure none
  | fuel + 1, out, sys =>
      match ucbFileRead platform file ucbFileReadChunk sys with
      | (.error error, sys) => pure (some ((out, .error error), sys))
      | (.ok bytes, sys) =>
          if bytes.length = 0 then pure (some ((out, .ok ()), sys))
          else do
            let (out, pushed) ← growingPush allocators out bytes
            if pushed then readBufferLoop allocators file fuel out sys
            else pure (some ((out, .error readBufferGrowFailure), sys))

def ucbFileReadBuffer (allocators : Nat → Allocator) (file : UcbFile) (fuel : Nat)
    (out : GrowingBuffer) (sys : σ) :
    Exec (Option ((GrowingBuffer × Except UcbError Unit) × σ)) := do
  let prevGrow := out.growFunc
  let begun := if prevGrow.isNone then { out with growFunc := some growDouble } else out
  let ended ← readBufferLoop platform allocators file fuel begun sys
  pure (ended.map fun ((out, report), sys) => (({ out with growFunc := prevGrow }, report), sys))

/-! ## `fs_stream_copy` -/

def ucbFsCopyChunk : Nat := 65536

/-- The loop of `fs_stream_copy`. -/
def streamCopyLoop (input output : UcbFile) : Nat → σ → Option (Except UcbError Unit × σ)
  | 0, _ => none
  | fuel + 1, sys =>
      match ucbFileRead platform input ucbFsCopyChunk sys with
      | (.error error, sys) => some (.error error, sys)
      | (.ok bytes, sys) =>
          if bytes.length = 0 then some (.ok (), sys)
          else
            match ucbFileWriteFull platform output bytes sys with
            | (.error error, sys) => some (.error error, sys)
            | (.ok (), sys) => streamCopyLoop input output fuel sys

def fsStreamCopy (fuel : Nat) (src dst : List UInt8) (openFlags : OpenFlags) (sys : σ) :
    Option (Except UcbError Unit × σ) :=
  match platform.openFile src .read sys with
  | (.error error, sys) => some (.error error, sys)
  | (.ok input, sys) =>
      match platform.openFile dst openFlags sys with
      | (.error error, sys) => some (.error error, platform.freeFile input sys)
      | (.ok output, sys) =>
          (streamCopyLoop platform input output fuel sys).map fun (report, sys) =>
            (report, platform.freeFile input (platform.freeFile output sys))

end Ucb.File
