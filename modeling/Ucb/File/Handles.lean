import Mathlib.Data.Finset.Basic
import Ucb.File.Transfer
import Ucb.Lib.Asking
import Ucb.Process.Redirect

/-!
Contract: how `file.c` and `file_unix.c` open, wrap, duplicate, mark and close
descriptors, and the descriptors of the process.

Owns:
- the handle with its flags and its owner;
- the calls of the system that make, ask about, mark and close descriptors;
- the functions of the two files that use them, as programs of such calls.

The platform is one with `pipe2`, `O_CLOEXEC`, `O_DIRECT` and `F_DUPFD_CLOEXEC`. The
singletons of the standard streams are made before.
-/

namespace Ucb.File.Handles

open Ucb.Lib
open Ucb.Process (Errno ebadf)

/-! ## Handles -/

/-- The bits of `ucb_file_open_flags`. -/
structure UcbFileFlags where
  read : Bool := false
  write : Bool := false
  append : Bool := false
  truncate : Bool := false
  create : Bool := false
  excl : Bool := false
  nonblock : Bool := false
  cloexec : Bool := false
  inherit : Bool := false
  binary : Bool := false
  direct : Bool := false
deriving DecidableEq

/-- `ucb_file` with its flags and its owner. `std` says that the object is one of the singletons
of the standard streams. -/
structure UcbFileHandle extends UcbFile where
  flags : UcbFileFlags
  own : Bool
  std : Bool
deriving DecidableEq

/-- What a function that fails stores through `perr`: nothing where an object cannot be
allocated. -/
abbrev Thrown := Option UcbError

/-- `ucb_err_wrap_errno`, with a name for the codes that callers compare with. -/
def ucbErrWrapErrno (errno : Errno) : UcbEcode :=
  match errno.code with
  | 2 => .errsysEnoent
  | 17 => .errsysEexist
  | 20 => .errsysEnotdir
  | 21 => .errsysEisdir
  | code => .errsysOther code

def ucbThrowErrno {α : Type} (errno : Errno) (msg : String) : Except Thrown α :=
  .error (some ⟨ucbErrWrapErrno errno, msg⟩)

def ucbThrow {α : Type} (code : UcbEcode) (msg : String) : Except Thrown α :=
  .error (some ⟨code, msg⟩)

/-! ## Descriptors -/

/-- `O_ACCMODE`. -/
inductive Access where
  | readOnly
  | writeOnly
  | readWrite
deriving DecidableEq

def Access.reads : Access → Bool
  | readOnly | readWrite => true
  | writeOnly => false

def Access.writes : Access → Bool
  | writeOnly | readWrite => true
  | readOnly => false

/-- The file type of `st_mode`. -/
inductive FileType where
  | regular
  | fifo
  | charDevice
  | blockDevice
  | other
deriving DecidableEq

/-- What `F_GETFL` returns. -/
structure StatusFlags where
  access : Access
  append : Bool
  nonblock : Bool
deriving DecidableEq

/-- The flags for `open`. -/
structure OpenFlags where
  status : StatusFlags
  trunc : Bool
  creat : Bool
  excl : Bool
  direct : Bool
  cloexec : Bool
deriving DecidableEq

/-- The open descriptors of the process: those of a thread, and those of others. -/
structure Table where
  ours : Finset Int
  others : Finset Int

/-! ## System calls -/

inductive Ask where
  | allocate
  | openPath (path : List UInt8) (flags : OpenFlags) (mode : Nat)
  | pipe (nonblock cloexec : Bool)
  | dupfdCloexec (fd : Int)
  | getfd (fd : Int)
  | setfd (fd : Int) (cloexec : Bool)
  | getfl (fd : Int)
  | fstat (fd : Int)
  | isatty (fd : Int)
  | close (fd : Int)
deriving DecidableEq

def Ask.Answer : Ask → Type
  | .allocate | .isatty _ => Bool
  | .openPath _ _ _ | .dupfdCloexec _ => Except Errno Int
  | .pipe _ _ => Except Errno (Int × Int)
  | .getfd _ => Except Errno Bool
  | .setfd _ _ | .close _ => Except Errno Unit
  | .getfl _ => Except Errno StatusFlags
  | .fstat _ => Except Errno FileType

abbrev FdProg := Asking Ask Ask.Answer

/-- `ucb_calloc_type`. -/
abbrev allocate : FdProg Bool :=
  Asking.request Ask.allocate

abbrev openPath (path : List UInt8) (flags : OpenFlags) (mode : Nat) : FdProg (Except Errno Int) :=
  Asking.request (Ask.openPath path flags mode)

/-- `pipe2`, or `pipe` without flags. -/
abbrev pipe (nonblock cloexec : Bool) : FdProg (Except Errno (Int × Int)) :=
  Asking.request (Ask.pipe nonblock cloexec)

/-- `fcntl` with `F_DUPFD_CLOEXEC`. -/
abbrev dupfdCloexec (fd : Int) : FdProg (Except Errno Int) :=
  Asking.request (Ask.dupfdCloexec fd)

/-- `fcntl` with `F_GETFD`. -/
abbrev getfd (fd : Int) : FdProg (Except Errno Bool) :=
  Asking.request (Ask.getfd fd)

/-- `fcntl` with `F_SETFD`. -/
abbrev setfd (fd : Int) (cloexec : Bool) : FdProg (Except Errno Unit) :=
  Asking.request (Ask.setfd fd cloexec)

/-- `fcntl` with `F_GETFL`. -/
abbrev getfl (fd : Int) : FdProg (Except Errno StatusFlags) :=
  Asking.request (Ask.getfl fd)

abbrev fstat (fd : Int) : FdProg (Except Errno FileType) :=
  Asking.request (Ask.fstat fd)

abbrev isatty (fd : Int) : FdProg Bool :=
  Asking.request (Ask.isatty fd)

abbrev close (fd : Int) : FdProg (Except Errno Unit) :=
  Asking.request (Ask.close fd)

/-- What the system is free in: whether a call fails, the numbers of new descriptors, whether a
failing `close` has released the descriptor, and what it says of an open one. -/
structure Chance where
  fault : Option Errno
  fds : Int × Int
  released : Bool
  yes : Bool
  status : StatusFlags
  type : FileType

def Chance.unless {α : Type} (chance : Chance) (value : α) : Except Errno α :=
  match chance.fault with
  | some errno => .error errno
  | none => .ok value

def Table.Vacant (table : Table) (fd : Int) : Prop :=
  0 ≤ fd ∧ fd ∉ table.ours ∧ fd ∉ table.others

instance (table : Table) (fd : Int) : Decidable (table.Vacant fd) := by
  unfold Table.Vacant
  infer_instance

def Table.drop (table : Table) (fd : Int) : Table :=
  ⟨table.ours.erase fd, table.others.erase fd⟩

def Table.make (table : Table) (chance : Chance) : Option (Except Errno Int × Table) :=
  match chance.fault with
  | some errno => some (.error errno, table)
  | none =>
      if table.Vacant chance.fds.1 then
        some (.ok chance.fds.1, { table with ours := insert chance.fds.1 table.ours })
      else none

/-- What the system does for the thread. A call that is `none` cannot turn out so. -/
def serve (table : Table) : (ask : Ask) → Chance → Option (ask.Answer × Table)
  | .allocate, chance | .isatty _, chance => some (chance.yes, table)
  | .openPath _ _ _, chance | .dupfdCloexec _, chance => table.make chance
  | .pipe _ _, chance =>
      match chance.fault with
      | some errno => some (.error errno, table)
      | none =>
          if table.Vacant chance.fds.1 ∧ table.Vacant chance.fds.2 ∧
              chance.fds.1 ≠ chance.fds.2 then
            some (.ok chance.fds,
              { table with ours := insert chance.fds.2 (insert chance.fds.1 table.ours) })
          else none
  | .getfd _, chance => some (chance.unless chance.yes, table)
  | .setfd _ _, chance => some (chance.unless (), table)
  | .getfl _, chance => some (chance.unless chance.status, table)
  | .fstat _, chance => some (chance.unless chance.type, table)
  | .close fd, chance =>
      if fd ∈ table.ours ∪ table.others then
        some (chance.unless (), if chance.fault = none ∨ chance.released then table.drop fd
          else table)
      else some (.error ebadf, table)

/-! ## Building handles -/

/-- `ucb_file_alloc`, where the object can be allocated. -/
def ucbFileAlloc : UcbFileHandle :=
  ⟨⟨.unknown, ⟨false, false, false, false⟩, -1⟩, {}, false, false⟩

def ucbFileSetIoCaps (file : UcbFileHandle) : UcbFileHandle :=
  { file with caps := { file.caps with
      read := file.caps.read || file.flags.read, write := file.caps.write || file.flags.write } }

def ucbFileApplyKindCaps (file : UcbFileHandle) : UcbFileHandle :=
  { file with caps := { file.caps with
      seek := file.caps.seek || (file.kind == .regular || file.kind == .device)
      poll := file.caps.poll || file.kind != .unknown } }

def ucbFileInvalidate (file : UcbFileHandle) : UcbFileHandle :=
  { ucbFileAlloc with std := file.std }

def ucbFilePlatHasResource (file : UcbFileHandle) : Bool :=
  decide (file.fd ≥ 0)

/-- The kind that `ucb_file_unix_query` finds. -/
def kindOf (type : FileType) (tty : Bool) : UcbFileKind :=
  if tty then .console
  else
    match type with
    | .regular => .regular
    | .fifo => .pipe
    | .charDevice | .blockDevice => .device
    | .other => .unknown

/-- What `ucb_file_unix_query` returns: −1 with the error, 1, or 0 with the handle. -/
inductive Query where
  | failed (errno : Errno)
  | unsupported
  | found (file : UcbFileHandle)

def ucbFileUnixQuery (file : UcbFileHandle) : FdProg Query := do
  match ← fstat file.fd with
  | .error errno => pure (.failed errno)
  | .ok type => do
      let tty ← isatty file.fd
      let kind := kindOf type tty
      if kind = .unknown then pure .unsupported
      else pure (.found (ucbFileApplyKindCaps { file with kind }))

/-- The flags that `ucb_file_unix_detect_flags` takes from `F_GETFL`. -/
def UcbFileFlags.addStatus (flags : UcbFileFlags) (status : StatusFlags) : UcbFileFlags :=
  { flags with
    read := flags.read || status.access.reads
    write := flags.write || status.access.writes
    append := flags.append || status.append
    nonblock := flags.nonblock || status.nonblock }

/-- The flags that `ucb_file_unix_detect_flags` takes from `F_GETFD`. -/
def UcbFileFlags.addInherit (flags : UcbFileFlags) (cloexec : Bool) : UcbFileFlags :=
  if cloexec then { flags with cloexec := true } else { flags with inherit := true }

def ucbFileUnixDetectFlags (file : UcbFileHandle) : FdProg UcbFileHandle := do
  let fl ← getfl file.fd
  let fdflags ← getfd file.fd
  let flags := match fl with
    | .ok status => file.flags.addStatus status
    | .error _ => file.flags
  pure { file with flags := match fdflags with
    | .ok cloexec => flags.addInherit cloexec
    | .error _ => flags }

def ucbFileUnixFromFd (fd : Int) (own : Bool) : FdProg (Except Thrown UcbFileHandle) := do
  if ← allocate then
    let file ← ucbFileUnixDetectFlags { ucbFileAlloc with fd, own }
    match ← ucbFileUnixQuery (ucbFileSetIoCaps file) with
    | .failed errno => pure (ucbThrowErrno errno "ucb_file: invalid file descriptor")
    | .unsupported => pure (ucbThrow .notImplemented "ucb_file: unsupported file type")
    | .found file => pure (.ok file)
  else pure (.error none)

/-! ## Opening and closing -/

def ucbFileUnixOpenflags (flags : UcbFileFlags) : OpenFlags where
  status :=
    { access :=
        if flags.read && flags.write then .readWrite
        else if flags.write then .writeOnly
        else .readOnly
      append := flags.append
      nonblock := flags.nonblock }
  trunc := flags.truncate
  creat := flags.create
  excl := flags.excl
  direct := flags.direct
  cloexec := false

def ucbFileUnixApplyInherit (fd : Int) (inherit : Bool) : FdProg (Except Thrown Unit) := do
  match ← getfd fd with
  | .error errno => pure (ucbThrowErrno errno "ucb_file: fcntl(F_GETFD) failed")
  | .ok _ =>
      match ← setfd fd !inherit with
      | .error errno => pure (ucbThrowErrno errno "ucb_file: fcntl(F_SETFD) failed")
      | .ok () => pure (.ok ())

def closeQuiet (fd : Int) : FdProg Unit := do
  let _ ← close fd
  pure ()

/-- The inheritance that `ucb_file_plat_open` applies, if it is asked for. -/
def applyAsked (fd : Int) (flags : UcbFileFlags) : FdProg (Except Thrown Unit) :=
  if flags.cloexec || flags.inherit then ucbFileUnixApplyInherit fd flags.inherit
  else pure (.ok ())

/-- A new descriptor gets its handle, with the flags that it is to have, or is closed. -/
def wrapNew (fd : Int) (flags : UcbFileFlags) : FdProg (Except Thrown UcbFileHandle) := do
  match ← ucbFileUnixFromFd fd true with
  | .error thrown => do
      closeQuiet fd
      pure (.error thrown)
  | .ok file => pure (.ok { file with flags })

def ucbFilePlatOpen (path : List UInt8) (flags : UcbFileFlags) (mode : Nat) :
    FdProg (Except Thrown UcbFileHandle) := do
  let oflags := { ucbFileUnixOpenflags flags with cloexec := flags.cloexec }
  match ← openPath path oflags mode with
  | .error errno => pure (ucbThrowErrno errno "ucb_file_open: failed to open file")
  | .ok fd =>
      match ← applyAsked fd flags with
      | .error thrown => do
          closeQuiet fd
          pure (.error thrown)
      | .ok () => wrapNew fd flags

def ucbFileOpenMode (path : List UInt8) (flags : UcbFileFlags) (mode : Nat) :
    FdProg (Except Thrown UcbFileHandle) :=
  if !flags.read && !flags.write then
    pure (ucbThrow .invalidArg
      "ucb_file_open: flags must include UCB_FILE_READ or UCB_FILE_WRITE")
  else ucbFilePlatOpen path flags mode

def ucbFilePlatClose (file : UcbFileHandle) : FdProg (Except Thrown Unit) := do
  match ← close file.fd with
  | .error errno => pure (ucbThrowErrno errno "ucb_file_close: close failed")
  | .ok () => pure (.ok ())

/-- `ucb_file_close`, with the object as it leaves it. -/
def ucbFileClose (file : UcbFileHandle) : FdProg (Except Thrown Unit × UcbFileHandle) :=
  if file.std then pure (.ok (), file)
  else if file.own && ucbFilePlatHasResource file then do
    match ← ucbFilePlatClose file with
    | .error thrown => pure (.error thrown, file)
    | .ok () => pure (.ok (), ucbFileInvalidate file)
  else pure (.ok (), ucbFileInvalidate file)

def ucbFileFree (file : Option UcbFileHandle) : FdProg Unit :=
  match file with
  | none => pure ()
  | some file =>
      if file.std then pure ()
      else if file.own && ucbFilePlatHasResource file then do
        let _ ← ucbFilePlatClose file
        pure ()
      else pure ()

/-! ## Wrapping, duplicating, marking -/

def ucbFileFromFd (fd : Int) (own : Bool) : FdProg (Except Thrown UcbFileHandle) :=
  if fd < 0 then pure (ucbThrow .invalidArg "ucb_file_from_fd: fd must be non-negative")
  else ucbFileUnixFromFd fd own

/-- The inheritance of the source, if it is known, for the duplicate. -/
def copyInherit (fd new : Int) : FdProg Unit := do
  match ← getfd fd with
  | .error _ => pure ()
  | .ok cloexec => do
      let _ ← setfd new cloexec
      pure ()

def ucbFilePlatDup (file : UcbFileHandle) : FdProg (Except Thrown UcbFileHandle) := do
  match ← dupfdCloexec file.fd with
  | .error errno => pure (ucbThrowErrno errno "ucb_file_dup: dup failed")
  | .ok fd => do
      copyInherit file.fd fd
      wrapNew fd file.flags

def ucbFileDup (file : UcbFileHandle) : FdProg (Except Thrown UcbFileHandle) :=
  if ucbFileIsValid file.toUcbFile then ucbFilePlatDup file
  else pure (.error (some (ucbFileClosed "dup")))

/-- `ucb_file_set_inherit`, with the object as it leaves it. -/
def ucbFileSetInherit (file : UcbFileHandle) (inherit : Bool) :
    FdProg (Except Thrown Unit × UcbFileHandle) :=
  if ucbFileIsValid file.toUcbFile then do
    match ← ucbFileUnixApplyInherit file.fd inherit with
    | .error thrown => pure (.error thrown, file)
    | .ok () => pure (.ok (),
        { file with flags := { file.flags with cloexec := !inherit, inherit } })
  else pure (.error (some (ucbFileClosed "set_inherit")), file)

/-! ## Pipes -/

/-- The end of `ucb_pipe_plat_create` for one handle. -/
def pipeFlags (file : UcbFileHandle) (flags : UcbFileFlags) : UcbFileHandle :=
  { file with flags := { file.flags with
      nonblock := file.flags.nonblock || flags.nonblock
      cloexec := file.flags.cloexec || flags.cloexec } }

/-- The loop of `ucb_pipe_plat_create` over both ends. -/
def inheritBoth (read write : Int) : FdProg (Except Thrown Unit) := do
  match ← ucbFileUnixApplyInherit read true with
  | .error thrown => pure (.error thrown)
  | .ok () => ucbFileUnixApplyInherit write true

def inheritAsked (flags : UcbFileFlags) (read write : Int) : FdProg (Except Thrown Unit) :=
  if flags.inherit then inheritBoth read write else pure (.ok ())

/-- Both ends get their handles, or both are closed. -/
def wrapBoth (read write : Int) (flags : UcbFileFlags) :
    FdProg (Except Thrown (UcbFileHandle × UcbFileHandle)) := do
  match ← ucbFileUnixFromFd read true with
  | .error thrown => do
      closeQuiet read
      closeQuiet write
      pure (.error thrown)
  | .ok readEnd =>
      match ← ucbFileUnixFromFd write true with
      | .error thrown => do
          ucbFileFree (some readEnd)
          closeQuiet write
          pure (.error thrown)
      | .ok writeEnd => pure (.ok (pipeFlags readEnd flags, pipeFlags writeEnd flags))

def ucbPipeCreate (flags : UcbFileFlags) :
    FdProg (Except Thrown (UcbFileHandle × UcbFileHandle)) := do
  match ← pipe flags.nonblock flags.cloexec with
  | .error errno => pure (ucbThrowErrno errno "ucb_pipe_create: pipe failed")
  | .ok (read, write) =>
      match ← inheritAsked flags read write with
      | .error thrown => do
          closeQuiet read
          closeQuiet write
          pure (.error thrown)
      | .ok () => wrapBoth read write flags

end Ucb.File.Handles
