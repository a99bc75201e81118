import Ucb.Lib.ParallelCopy

/-!
Contract: what a child process does with its descriptors before it becomes the
program, and what the parent hears of it.

Owns:
- descriptor tables, `dup2`, `close` and the closing at `execve`;
- `ucbProcessPlatSpawn`, from the status pipe to the parent's read;
- exactly which redirections it makes as if all at once.

The redirections are made one after the other, so one may overwrite the source
of the next, or the status pipe.
-/

namespace Ucb.Process

open Ucb.Lib

/-- The code that a failed call leaves in `errno`. -/
structure Errno where
  code : Nat
  failed : code ≠ 0

def ebadf : Errno :=
  ⟨9, Nat.succ_ne_zero 8⟩

/-- What a descriptor refers to in the child: what it referred to in the parent, or
an end of the status pipe. -/
inductive Description (File : Type) where
  | file (file : File)
  | statusRead
  | statusWrite
deriving DecidableEq

structure Descriptor (Target : Type) where
  description : Target
  cloexec : Bool
deriving DecidableEq

abbrev Table (Target : Type) := Nat → Option (Descriptor Target)

section Descriptors

variable {Target : Type}

/-- A duplicate stays open in a new program. -/
def Descriptor.duplicate (descriptor : Descriptor Target) : Descriptor Target :=
  { descriptor with cloexec := false }

/-- `dup2`, which fails on a closed descriptor or for a reason of the system's. -/
def dup2 (table : Table Target) (fault : Option Errno) (source target : Nat) :
    Except Errno (Table Target) :=
  match fault, table source with
  | some code, _ => .error code
  | none, none => .error ebadf
  | none, some descriptor =>
      if source = target then .ok table
      else .ok (Function.update table target (some descriptor.duplicate))

def close (table : Table Target) (fd : Nat) : Table Target :=
  Function.update table fd none

def execTable (table : Table Target) : Table Target :=
  fun fd => (table fd).filter fun descriptor => !descriptor.cloexec

end Descriptors

variable {File : Type} {parent : Table File}

structure StatusPipe (parent : Table File) where
  read : Nat
  write : Nat
  readFree : parent read = none
  writeFree : parent write = none
  distinct : read ≠ write

/-- `fd_in`, `fd_out` and `fd_err`, each absent or open in the parent. -/
structure Redirects (parent : Table File) where
  fdIn : Option Nat
  fdOut : Option Nat
  fdErr : Option Nat
  inOpen : ∀ fd, fdIn = some fd → (parent fd).isSome
  outOpen : ∀ fd, fdOut = some fd → (parent fd).isSome
  errOpen : ∀ fd, fdErr = some fd → (parent fd).isSome

/-- How the calls of the child fail. `chdir` is without a fault when no directory is
asked for. -/
structure Faults where
  dupIn : Option Errno
  dupOut : Option Errno
  dupErr : Option Errno
  chdir : Option Errno
  exec : Option Errno

/-- A child before it becomes the program; `failure` is absent where the source's is 0. -/
structure Child (File : Type) where
  table : Table (Description File)
  failure : Option Errno

/-- The child as `fork` leaves it: the table of the parent with the status pipe. -/
def forked (parent : Table File) (pipe : StatusPipe parent) : Child File where
  table fd :=
    if fd = pipe.read then some ⟨.statusRead, true⟩
    else if fd = pipe.write then some ⟨.statusWrite, true⟩
    else (parent fd).map fun descriptor => ⟨.file descriptor.description, descriptor.cloexec⟩
  failure := none

/-- `if (!failure && fd >= 0 && fd != target && dup2(fd, target) < 0) failure = errno;` -/
def Child.redirect (child : Child File) (fd : Option Nat) (target : Nat) (fault : Option Errno) :
    Child File :=
  match child.failure, fd with
  | none, some source =>
      if source = target then child
      else
        match dup2 child.table fault source target with
        | .ok table => { child with table }
        | .error code => { child with failure := some code }
  | _, _ => child

/-- `if (!failure && opts->cwd && chdir(opts->cwd) != 0) failure = errno;` -/
def Child.enterDirectory (child : Child File) (fault : Option Errno) : Child File :=
  match child.failure with
  | none => { child with failure := fault }
  | some _ => child

/-- `if (fd > STDERR_FILENO && ...) close(fd);`, where `earlier` are the sources
closed before. -/
def Child.closeSource (child : Child File) (fd : Option Nat) (earlier : List (Option Nat)) :
    Child File :=
  match fd with
  | some source =>
      if 2 < source ∧ fd ∉ earlier then { child with table := close child.table source }
      else child
  | none => child

/-- The child up to `execve`. -/
def Child.prepare (child : Child File) (redirects : Redirects parent) (faults : Faults) :
    Child File :=
  ((((((child.redirect redirects.fdIn 0 faults.dupIn).redirect redirects.fdOut 1
    faults.dupOut).redirect redirects.fdErr 2 faults.dupErr).enterDirectory
    faults.chdir).closeSource redirects.fdIn []).closeSource redirects.fdOut
    [redirects.fdIn]).closeSource redirects.fdErr [redirects.fdIn, redirects.fdOut]

/-- How a child ends: as the program, or with a failure. -/
inductive Ended (File : Type) where
  | program (table : Table (Description File))
  | failed (table : Table (Description File)) (failure : Errno)

/-- `execve`, which only returns when it fails. -/
def Child.exec (child : Child File) (fault : Option Errno) : Ended File :=
  match child.failure, fault with
  | none, none => .program (execTable child.table)
  | none, some code => .failed child.table code
  | some code, _ => .failed child.table code

/-- The parent's read of the status pipe: what the child has written to
`status_pipe[1]`, where that still is the pipe, and the end of the file otherwise. -/
def received (pipe : StatusPipe parent) : Ended File → Option Errno
  | .program _ => none
  | .failed table failure =>
      match table pipe.write with
      | some ⟨.statusWrite, _⟩ => some failure
      | _ => none

/-- `ucb_process_plat_spawn` from the fork on: how the child ends. -/
def ucbProcessPlatSpawn (parent : Table File) (pipe : StatusPipe parent)
    (redirects : Redirects parent) (faults : Faults) : Ended File :=
  ((forked parent pipe).prepare redirects faults).exec faults.exec

/-- What is asked for: a descriptor, or none, for each of 0, 1 and 2. -/
def Redirects.streams (redirects : Redirects parent) : List (Option Nat × Nat) :=
  [(redirects.fdIn, 0), (redirects.fdOut, 1), (redirects.fdErr, 2)]

/-- What 0, 1 or 2 is to refer to: what its redirection refers to in the parent, and
without one, what a program inherits from the parent. -/
def expected (parent : Table File) (fd : Option Nat) (target : Nat) : Option (Description File) :=
  match fd with
  | some source => (parent source).map fun descriptor => .file descriptor.description
  | none => (execTable parent target).map fun descriptor => .file descriptor.description

structure Correct (pipe : StatusPipe parent) (redirects : Redirects parent)
    (ended : Ended File) : Prop where
  assigned : ∀ table, ended = .program table → ∀ stream ∈ redirects.streams,
    (table stream.2).map (·.description) = expected parent stream.1 stream.2
  closed : ∀ table, ended = .program table → ∀ stream ∈ redirects.streams, ∀ fd,
    stream.1 = some fd → 2 < fd → table fd = none
  reported : ∀ table failure, ended = .failed table failure → received pipe ended = some failure

def Redirects.copies (redirects : Redirects parent) : List (Copy Nat) :=
  redirects.streams.filterMap fun stream => stream.1.map fun fd => ⟨fd, stream.2⟩

/-- No redirection is in the way of another or of the status pipe, and none in place
is to be closed by `execve`. -/
structure Undisturbed (pipe : StatusPipe parent) (redirects : Redirects parent) : Prop where
  pipeKept : ∀ copy ∈ redirects.copies, copy.target ≠ pipe.write
  staysOpen : ∀ copy ∈ redirects.copies, copy.source = copy.target →
    ∀ descriptor, parent copy.source = some descriptor → descriptor.cloexec = false
  sourcesKept : redirects.copies.Pairwise fun earlier later => earlier.target = later.source →
    (parent earlier.source).map (·.description) = (parent later.source).map (·.description)

section Calls

def arrive {Target : Type} : Option (Descriptor Target) → Option (Descriptor Target) :=
  Option.map Descriptor.duplicate

def view {Target : Type} : Option (Descriptor Target) → Option Target :=
  Option.map (·.description)

theorem view_arrive {Target : Type} (slot : Option (Descriptor Target)) :
    view (arrive slot) = view slot := by
  cases slot <;> rfl

variable {child : Child File} {fd : Option Nat} {target key : Nat} {fault : Option Errno}
  {earlier : List (Option Nat)}

def copyOf (fd : Option Nat) (target : Nat) : List (Copy Nat) :=
  (fd.map fun source => ⟨source, target⟩).toList

/-- A redirection changes only its target. -/
theorem Child.redirect_spared (spared : fd.isSome → target ≠ key) :
    (child.redirect fd target fault).table key = child.table key := by
  unfold Child.redirect
  split
  next source failure =>
    have apart : key ≠ target := (spared rfl).symm
    split
    next => rfl
    next other =>
      unfold dup2
      cases fault with
      | some code => rfl
      | none =>
          cases child.table source with
          | none => rfl
          | some descriptor => simp [other, apart]
  next => rfl

theorem Child.redirect_made (made : (child.redirect fd target fault).failure = none) :
    child.failure = none ∧
      (child.redirect fd target fault).table =
        copyInOrder arrive (copyOf fd target) child.table := by
  unfold Child.redirect at made ⊢
  cases failed : child.failure with
  | some code => simp [failed] at made
  | none =>
      cases fd with
      | none => exact ⟨rfl, by simp [copyOf]⟩
      | some source =>
          refine ⟨rfl, ?_⟩
          simp only [failed] at made ⊢
          by_cases inPlace : source = target
          · simp [inPlace, copyOf, Copy.run]
          · simp only [inPlace, ↓reduceIte] at made ⊢
            cases fault with
            | some code => simp [dup2] at made
            | none =>
                cases slot : child.table source with
                | none => simp [dup2, slot] at made
                | some descriptor => simp [dup2, slot, inPlace, copyOf, Copy.run, arrive]

/-- A redirection of an open descriptor has no failure but the system's. -/
theorem Child.redirect_granted (untroubled : child.failure = none)
    (isOpen : ∀ source, fd = some source → (child.table source).isSome) :
    (child.redirect fd target none).failure = none := by
  cases fd with
  | none => simp [Child.redirect, untroubled]
  | some source =>
      obtain ⟨descriptor, slot⟩ := Option.isSome_iff_exists.mp (isOpen source rfl)
      by_cases inPlace : source = target
      · simp [Child.redirect, untroubled, inPlace]
      · simp [Child.redirect, untroubled, inPlace, dup2, slot]

@[simp] theorem Child.enterDirectory_table :
    (child.enterDirectory fault).table = child.table := by
  unfold Child.enterDirectory
  split <;> rfl

theorem Child.enterDirectory_entered (entered : (child.enterDirectory fault).failure = none) :
    child.failure = none := by
  unfold Child.enterDirectory at entered
  split at entered
  next untroubled => exact untroubled
  next => exact entered

@[simp] theorem Child.closeSource_failure :
    (child.closeSource fd earlier).failure = child.failure := by
  unfold Child.closeSource
  split
  next => split <;> rfl
  next => rfl

/-- Closing a source leaves 0, 1, 2 and everything that is no source. -/
theorem Child.closeSource_spared (spared : fd = some key → key ≤ 2) :
    (child.closeSource fd earlier).table key = child.table key := by
  unfold Child.closeSource
  split
  next source =>
    split
    next above =>
      refine Function.update_of_ne ?_ _ _
      rintro rfl
      have := spared rfl
      omega
    next => rfl
  next => rfl

theorem Child.closeSource_keeps_closed (closed : child.table key = none) :
    (child.closeSource fd earlier).table key = none := by
  unfold Child.closeSource
  split
  next source =>
    split
    next =>
      by_cases same : key = source
      · simp [close, same]
      · simpa [close, same] using closed
    next => exact closed
  next => exact closed

theorem Child.closeSource_closes (source : fd = some key) (above : 2 < key) :
    fd ∈ earlier ∨ (child.closeSource fd earlier).table key = none := by
  by_cases before : fd ∈ earlier
  · exact Or.inl before
  · subst source
    exact Or.inr (by simp [Child.closeSource, above, before, close])

end Calls

section Spawn

variable {pipe : StatusPipe parent} {redirects : Redirects parent} {faults : Faults} {key : Nat}

theorem Redirects.in_mem (redirects : Redirects parent) :
    (redirects.fdIn, 0) ∈ redirects.streams := by
  simp [Redirects.streams]

theorem Redirects.out_mem (redirects : Redirects parent) :
    (redirects.fdOut, 1) ∈ redirects.streams := by
  simp [Redirects.streams]

theorem Redirects.err_mem (redirects : Redirects parent) :
    (redirects.fdErr, 2) ∈ redirects.streams := by
  simp [Redirects.streams]

theorem Redirects.mem_copies {copy : Copy Nat} :
    copy ∈ redirects.copies ↔ (some copy.source, copy.target) ∈ redirects.streams := by
  obtain ⟨source, target⟩ := copy
  simp [Redirects.copies, Option.map_eq_some_iff]

theorem Redirects.copies_eq :
    redirects.copies =
      copyOf redirects.fdIn 0 ++ copyOf redirects.fdOut 1 ++ copyOf redirects.fdErr 2 := by
  obtain ⟨fdIn, fdOut, fdErr, _, _, _⟩ := redirects
  cases fdIn <;> cases fdOut <;> cases fdErr <;> rfl

theorem Redirects.separate : Separate redirects.copies := by
  obtain ⟨fdIn, fdOut, fdErr, _, _, _⟩ := redirects
  cases fdIn <;> cases fdOut <;> cases fdErr <;>
    simp [Separate, Redirects.copies, Redirects.streams]

theorem Redirects.stream_isOpen {stream : Option Nat × Nat} (member : stream ∈ redirects.streams)
    {fd : Nat} (present : stream.1 = some fd) : (parent fd).isSome := by
  simp only [Redirects.streams, List.mem_cons, List.not_mem_nil, or_false] at member
  obtain rfl | rfl | rfl := member
  · exact redirects.inOpen fd present
  · exact redirects.outOpen fd present
  · exact redirects.errOpen fd present

theorem Redirects.target_le {stream : Option Nat × Nat} (member : stream ∈ redirects.streams) :
    stream.2 ≤ 2 := by
  simp only [Redirects.streams, List.mem_cons, List.not_mem_nil, or_false] at member
  obtain rfl | rfl | rfl := member <;> simp

/-- The streams have targets of their own. -/
theorem Redirects.stream_unique {first second : Option Nat × Nat}
    (firstIn : first ∈ redirects.streams) (secondIn : second ∈ redirects.streams)
    (same : first.2 = second.2) : first = second := by
  simp only [Redirects.streams, List.mem_cons, List.not_mem_nil, or_false] at firstIn secondIn
  obtain rfl | rfl | rfl := firstIn <;> obtain rfl | rfl | rfl := secondIn <;> simp_all

/-- What is open in the parent is the same in the child. -/
theorem forked_of_isOpen {descriptor : Descriptor File} (isOpen : parent key = some descriptor) :
    (forked parent pipe).table key =
      some ⟨.file descriptor.description, descriptor.cloexec⟩ := by
  have notRead : key ≠ pipe.read := by
    rintro rfl
    cases pipe.readFree.symm.trans isOpen
  have notWrite : key ≠ pipe.write := by
    rintro rfl
    cases pipe.writeFree.symm.trans isOpen
  simp [forked, notRead, notWrite, isOpen]

theorem view_forked (isOpen : (parent key).isSome) :
    view ((forked parent pipe).table key) =
      (parent key).map fun descriptor => .file descriptor.description := by
  obtain ⟨descriptor, slot⟩ := Option.isSome_iff_exists.mp isOpen
  rw [forked_of_isOpen slot, slot]
  rfl

theorem forked_write : (forked parent pipe).table pipe.write = some ⟨.statusWrite, true⟩ := by
  simp [forked, pipe.distinct.symm]

/-- The status pipe does not survive `execve`, the rest as in the parent. -/
theorem execTable_forked (pipe : StatusPipe parent) :
    (execTable (forked parent pipe).table key).map (·.description) =
      (execTable parent key).map fun descriptor => .file descriptor.description := by
  by_cases isRead : key = pipe.read
  · subst isRead
    simp [execTable, forked, pipe.readFree]
  · by_cases isWrite : key = pipe.write
    · subst isWrite
      simp [execTable, forked, pipe.writeFree, pipe.distinct.symm]
    · cases slot : parent key with
      | none => simp [execTable, forked, isRead, isWrite, slot]
      | some descriptor =>
          cases kept : descriptor.cloexec <;>
            simp [execTable, forked, isRead, isWrite, slot, Option.filter, kept]

/-- The child of which no call fails before `execve`: its redirections are the copies
in their order, and its sources are closed. -/
theorem prepare_made
    (made : ((forked parent pipe).prepare redirects faults).failure = none) :
    (∀ key ≤ 2, ((forked parent pipe).prepare redirects faults).table key =
        copyInOrder arrive redirects.copies (forked parent pipe).table key) ∧
      ∀ stream ∈ redirects.streams, ∀ fd, stream.1 = some fd → 2 < fd →
        ((forked parent pipe).prepare redirects faults).table fd = none := by
  constructor
  · intro key low
    simp only [Child.prepare, Child.closeSource_failure] at made
    obtain ⟨madeOut, tableErr⟩ := Child.redirect_made (Child.enterDirectory_entered made)
    obtain ⟨madeIn, tableOut⟩ := Child.redirect_made madeOut
    obtain ⟨-, tableIn⟩ := Child.redirect_made madeIn
    simp only [Child.prepare]
    rw [Child.closeSource_spared fun _ => low, Child.closeSource_spared fun _ => low,
      Child.closeSource_spared fun _ => low, Child.enterDirectory_table, tableErr, tableOut,
      tableIn, Redirects.copies_eq, copyInOrder_append, copyInOrder_append]
  · intro stream member fd present above
    simp only [Redirects.streams, List.mem_cons, List.not_mem_nil, or_false] at member
    simp only [Child.prepare]
    -- a source that is closed stays so, and one not closed was closed before
    have closedIn (source : redirects.fdIn = some fd) (child : Child File) :
        (child.closeSource redirects.fdIn []).table fd = none :=
      (Child.closeSource_closes source above).resolve_left List.not_mem_nil
    have closedOut (source : redirects.fdOut = some fd) (child : Child File) :
        ((child.closeSource redirects.fdIn []).closeSource redirects.fdOut
          [redirects.fdIn]).table fd = none := by
      obtain before | closed := Child.closeSource_closes source above
      · exact Child.closeSource_keeps_closed
          (closedIn ((List.mem_singleton.mp before).symm.trans source) child)
      · exact closed
    obtain rfl | rfl | rfl := member
    · exact Child.closeSource_keeps_closed (Child.closeSource_keeps_closed (closedIn present _))
    · exact Child.closeSource_keeps_closed (closedOut present _)
    · by_cases before : redirects.fdErr ∈ [redirects.fdIn, redirects.fdOut]
      · refine Child.closeSource_keeps_closed ?_
        obtain same | same : redirects.fdErr = redirects.fdIn ∨
            redirects.fdErr = redirects.fdOut := by
          simpa using before
        · exact Child.closeSource_keeps_closed (closedIn (same.symm.trans present) _)
        · exact closedOut (same.symm.trans present) _
      · exact (Child.closeSource_closes present above).resolve_left before

/-- No call has failed, and the sources are open. -/
structure Ready (redirects : Redirects parent) (child : Child File) : Prop where
  untroubled : child.failure = none
  isOpen : ∀ stream ∈ redirects.streams, ∀ fd, stream.1 = some fd → (child.table fd).isSome

theorem ready_forked : Ready redirects (forked parent pipe) where
  untroubled := rfl
  isOpen stream member fd present := by
    obtain ⟨descriptor, slot⟩ :=
      Option.isSome_iff_exists.mp (Redirects.stream_isOpen member present)
    rw [forked_of_isOpen slot]
    rfl

/-- A copy closes nothing, so the sources of the next redirections are there. -/
theorem Ready.redirect {child : Child File} (ready : Ready redirects child)
    {stream : Option Nat × Nat} (member : stream ∈ redirects.streams) :
    Ready redirects (child.redirect stream.1 stream.2 none) := by
  have granted : (child.redirect stream.1 stream.2 none).failure = none :=
    Child.redirect_granted ready.untroubled (ready.isOpen stream member)
  refine ⟨granted, fun other otherIn fd present => ?_⟩
  rw [(Child.redirect_made granted).2]
  have kept : ∀ slot : Option (Descriptor (Description File)),
      (arrive slot).isSome = slot.isSome := by
    intro slot
    cases slot <;> rfl
  obtain same | ⟨copy, made, same⟩ :=
    view_copyInOrder kept (copyOf stream.1 stream.2) child.table fd
  · rw [same]
    exact ready.isOpen other otherIn fd present
  · rw [same]
    obtain ⟨source, streamSource, rfl⟩ := Option.map_eq_some_iff.mp (Option.mem_toList.mp made)
    exact ready.isOpen stream member source streamSource

/-- Without faults, the child gets to `execve`. -/
theorem prepare_granted (dupIn : faults.dupIn = none) (dupOut : faults.dupOut = none)
    (dupErr : faults.dupErr = none) (chdir : faults.chdir = none) :
    ((forked parent pipe).prepare redirects faults).failure = none := by
  have atFork : Ready redirects (forked parent pipe) := ready_forked
  have ready := ((atFork.redirect redirects.in_mem).redirect redirects.out_mem).redirect
    redirects.err_mem
  simp only [Child.prepare, Child.closeSource_failure, dupIn, dupOut, dupErr, chdir]
  simp [Child.enterDirectory, ready.untroubled]

/-- What 0, 1 or 2 is in the program, for a redirection to it. -/
theorem assigned_iff {copy : Copy Nat} (member : copy ∈ redirects.copies) :
    (execTable (copyInOrder arrive redirects.copies (forked parent pipe).table)
          copy.target).map (·.description) = expected parent (some copy.source) copy.target ↔
      view (copyInOrder arrive redirects.copies (forked parent pipe).table copy.target) =
          view ((forked parent pipe).table copy.source) ∧
        (copy.source = copy.target → ∀ descriptor, parent copy.source = some descriptor →
          descriptor.cloexec = false) := by
  have isOpen : (parent copy.source).isSome :=
    Redirects.stream_isOpen (Redirects.mem_copies.mp member) rfl
  have wanted : expected parent (some copy.source) copy.target =
      view ((forked parent pipe).table copy.source) :=
    (view_forked isOpen).symm
  rw [wanted]
  by_cases inPlace : copy.source = copy.target
  · obtain ⟨descriptor, slot⟩ := Option.isSome_iff_exists.mp isOpen
    have stays : copyInOrder arrive redirects.copies (forked parent pipe).table copy.target =
        (forked parent pipe).table copy.target :=
      copyInOrder_inPlace Redirects.separate member inPlace
    rw [inPlace] at slot ⊢
    simp only [execTable, stays, forked_of_isOpen slot]
    cases kept : descriptor.cloexec <;> simp [slot, kept, view]
  · obtain ⟨sent, arrived⟩ := copyInOrder_arrived (forked parent pipe).table
      Redirects.separate member inPlace
    have notClosed : (execTable (copyInOrder arrive redirects.copies
        (forked parent pipe).table) copy.target) =
        copyInOrder arrive redirects.copies (forked parent pipe).table copy.target := by
      rw [execTable, arrived]
      cases sent <;> simp [arrive, Descriptor.duplicate]
    rw [notClosed]
    exact (and_iff_left fun same => absurd same inPlace).symm

/-- The end of a child of which every call succeeds. -/
theorem spawn_program (table : Table (Description File)) :
    ucbProcessPlatSpawn parent pipe redirects faults = .program table ↔
      ((forked parent pipe).prepare redirects faults).failure = none ∧ faults.exec = none ∧
        table = execTable ((forked parent pipe).prepare redirects faults).table := by
  unfold ucbProcessPlatSpawn Child.exec
  split
  next made granted => simp [made, granted, eq_comm]
  next made code => simp [made, code]
  next code made => simp [made]

/-- The status pipe is where it was unless a redirection went over it. -/
theorem prepare_write (pipeKept : ∀ copy ∈ redirects.copies, copy.target ≠ pipe.write) :
    ((forked parent pipe).prepare redirects faults).table pipe.write =
      some ⟨.statusWrite, true⟩ := by
  have noTarget : ∀ stream ∈ redirects.streams, stream.1.isSome → stream.2 ≠ pipe.write := by
    intro stream member present
    obtain ⟨fd, source⟩ := Option.isSome_iff_exists.mp present
    refine pipeKept ⟨fd, stream.2⟩ (Redirects.mem_copies.mpr ?_)
    rw [← source]
    exact member
  have noSource (fd : Option Nat) (stream : Option Nat × Nat) (same : stream.1 = fd)
      (member : stream ∈ redirects.streams) : fd = some pipe.write → pipe.write ≤ 2 := by
    intro present
    have isOpen := Redirects.stream_isOpen member (same.trans present)
    simp [pipe.writeFree] at isOpen
  simp only [Child.prepare]
  rw [Child.closeSource_spared (noSource _ _ rfl redirects.err_mem),
    Child.closeSource_spared (noSource _ _ rfl redirects.out_mem),
    Child.closeSource_spared (noSource _ _ rfl redirects.in_mem), Child.enterDirectory_table,
    Child.redirect_spared (noTarget _ redirects.err_mem),
    Child.redirect_spared (noTarget _ redirects.out_mem),
    Child.redirect_spared (noTarget _ redirects.in_mem), forked_write]

/-- A child without faults, or with one at `execve` only. -/
def onlyExec (exec : Option Errno) : Faults where
  dupIn := none
  dupOut := none
  dupErr := none
  chdir := none
  exec := exec

/-- The table of a child without faults at 0, 1 and 2. -/
theorem spawn_granted (pipe : StatusPipe parent) (redirects : Redirects parent) :
    ∃ table, ucbProcessPlatSpawn parent pipe redirects (onlyExec none) = .program table ∧
      ∀ key ≤ 2, table key =
        execTable (copyInOrder arrive redirects.copies (forked parent pipe).table) key := by
  have granted : ((forked parent pipe).prepare redirects (onlyExec none)).failure = none :=
    prepare_granted rfl rfl rfl rfl
  refine ⟨_, (spawn_program _).mpr ⟨granted, rfl, rfl⟩, fun key low => ?_⟩
  simp only [execTable, (prepare_made granted).1 key low]

theorem spawn_failed {table : Table (Description File)} {failure : Errno}
    (ended : ucbProcessPlatSpawn parent pipe redirects faults = .failed table failure) :
    table = ((forked parent pipe).prepare redirects faults).table := by
  unfold ucbProcessPlatSpawn Child.exec at ended
  split at ended
  next => cases ended
  next => cases ended; rfl
  next => cases ended; rfl

/-- Two sources look the same in the child when they do in the parent. -/
theorem sourcesKept_iff (pipe : StatusPipe parent) :
    (redirects.copies.Pairwise fun earlier later => earlier.target = later.source →
        view ((forked parent pipe).table earlier.source) =
          view ((forked parent pipe).table later.source)) ↔
      redirects.copies.Pairwise fun earlier later => earlier.target = later.source →
        (parent earlier.source).map (·.description) =
          (parent later.source).map (·.description) := by
  have isOpen {copy : Copy Nat} (member : copy ∈ redirects.copies) :
      (parent copy.source).isSome :=
    Redirects.stream_isOpen (Redirects.mem_copies.mp member) rfl
  refine List.Pairwise.iff_of_mem fun {earlier later} earlierIn laterIn =>
    imp_congr_right fun _ => ?_
  obtain ⟨first, firstSlot⟩ := Option.isSome_iff_exists.mp (isOpen earlierIn)
  obtain ⟨second, secondSlot⟩ := Option.isSome_iff_exists.mp (isOpen laterIn)
  rw [view_forked (isOpen earlierIn), view_forked (isOpen laterIn), firstSlot, secondSlot]
  simp

theorem inherited {target : Nat} (member : (none, target) ∈ redirects.streams) :
    (execTable (copyInOrder arrive redirects.copies (forked parent pipe).table)
        target).map (·.description) = expected parent none target := by
  have untouched : ∀ copy ∈ redirects.copies, copy.target ≠ target := by
    intro copy copyIn same
    cases Redirects.stream_unique (Redirects.mem_copies.mp copyIn) member same
  rw [expected, ← execTable_forked pipe]
  simp only [execTable, copyInOrder_untouched untouched]

/-- When nothing is in the way of anything, the redirections are made as if all at once,
and every failure is heard of. -/
theorem Undisturbed.correct (undisturbed : Undisturbed pipe redirects) (faults : Faults) :
    Correct pipe redirects (ucbProcessPlatSpawn parent pipe redirects faults) where
  assigned table ended stream member := by
    obtain ⟨made, -, rfl⟩ := (spawn_program table).mp ended
    have low := Redirects.target_le member
    have sameSlot : execTable ((forked parent pipe).prepare redirects faults).table stream.2 =
        execTable (copyInOrder arrive redirects.copies (forked parent pipe).table) stream.2 := by
      simp only [execTable, (prepare_made made).1 stream.2 low]
    rw [sameSlot]
    obtain ⟨fd, target⟩ := stream
    cases fd with
    | none => exact inherited member
    | some source =>
        have copyIn : (⟨source, target⟩ : Copy Nat) ∈ redirects.copies :=
          Redirects.mem_copies.mpr member
        have simultaneous := (copyInOrder_simultaneous_iff view_arrive
          Redirects.separate).mpr ((sourcesKept_iff pipe).mpr undisturbed.sourcesKept)
        exact (assigned_iff copyIn).mpr
          ⟨simultaneous _ copyIn, undisturbed.staysOpen _ copyIn⟩
  closed table ended stream member fd present above := by
    obtain ⟨made, -, rfl⟩ := (spawn_program table).mp ended
    simp [execTable, (prepare_made made).2 stream member fd present above]
  reported table failure ended := by
    rw [ended]
    obtain rfl := spawn_failed ended
    simp [received, prepare_write undisturbed.pipeKept]

/-- A child whose `execve` fails. -/
theorem spawn_exec_fails (failure : Errno) :
    ucbProcessPlatSpawn parent pipe redirects (onlyExec (some failure)) =
      .failed ((forked parent pipe).prepare redirects (onlyExec (some failure))).table failure := by
  have granted : ((forked parent pipe).prepare redirects
      (onlyExec (some failure))).failure = none :=
    prepare_granted rfl rfl rfl rfl
  rw [ucbProcessPlatSpawn, Child.exec.eq_def, granted]
  rfl

/-- The file that a redirection over the status pipe brings is not the pipe. -/
theorem not_received {copy : Copy Nat} (member : copy ∈ redirects.copies)
    (onPipe : copy.target = pipe.write) (failure : Errno) :
    received pipe (ucbProcessPlatSpawn parent pipe redirects (onlyExec (some failure))) = none := by
  have streamIn := Redirects.mem_copies.mp member
  have granted : ((forked parent pipe).prepare redirects
      (onlyExec (some failure))).failure = none :=
    prepare_granted rfl rfl rfl rfl
  obtain ⟨origin, originIn, looks⟩ := view_copyInOrder_target view_arrive
    (forked parent pipe).table Redirects.separate member
  have originOpen := Redirects.stream_isOpen (Redirects.mem_copies.mp originIn) rfl
  obtain ⟨descriptor, isOpen⟩ := Option.isSome_iff_exists.mp originOpen
  rw [view_forked originOpen, ← (prepare_made granted).1 _ (Redirects.target_le streamIn), onPipe,
    isOpen] at looks
  obtain ⟨brought, slot, isFile⟩ := Option.map_eq_some_iff.mp looks
  rw [spawn_exec_fails, received, slot]
  obtain ⟨description, cloexec⟩ := brought
  cases isFile
  rfl

/-- The child's redirections are a simultaneous assignment, its sources are closed and
its failures are heard of, whatever fails, exactly when none is in the way. -/
theorem spawn_correct_iff (pipe : StatusPipe parent) (redirects : Redirects parent) :
    (∀ faults, Correct pipe redirects (ucbProcessPlatSpawn parent pipe redirects faults)) ↔
      Undisturbed pipe redirects := by
  refine ⟨fun correct => ?_, Undisturbed.correct⟩
  obtain ⟨table, ended, slots⟩ := spawn_granted pipe redirects
  have assigned {copy : Copy Nat} (member : copy ∈ redirects.copies) := by
    have streamIn := Redirects.mem_copies.mp member
    have right := (correct (onlyExec none)).assigned table ended _ streamIn
    rw [slots _ (Redirects.target_le streamIn)] at right
    exact (assigned_iff member).mp right
  exact {
    pipeKept := by
      intro copy member onPipe
      have heard := (correct (onlyExec (some ebadf))).reported _ _ (spawn_exec_fails ebadf)
      cases (not_received member onPipe ebadf).symm.trans heard
    staysOpen := fun copy member => (assigned member).2
    sourcesKept := (sourcesKept_iff pipe).mp ((copyInOrder_simultaneous_iff view_arrive
      Redirects.separate).mp fun copy member => (assigned member).1) }

end Spawn

def threeFiles : Table Nat := fun fd => if fd < 3 then some ⟨fd, false⟩ else none

def threeFilesPipe : StatusPipe threeFiles where
  read := 3
  write := 4
  readFree := rfl
  writeFree := rfl
  distinct := Nat.succ_ne_self 3 |>.symm

/-- The standard output as input, and the standard input as output. -/
def crossed : Redirects threeFiles where
  fdIn := some 1
  fdOut := some 0
  fdErr := none
  inOpen fd present := by cases present; rfl
  outOpen fd present := by cases present; rfl
  errOpen fd absent := by cases absent

/-- The output is the file that the input has just become. -/
theorem crossed_not_assigned :
    ¬Correct threeFilesPipe crossed
      (ucbProcessPlatSpawn threeFiles threeFilesPipe crossed (onlyExec none)) := by
  intro correct
  have output := correct.assigned _ rfl (some 0, 1) crossed.out_mem
  revert output
  decide

end Ucb.Process
