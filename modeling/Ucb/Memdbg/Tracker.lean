import Mathlib.Data.Finmap
import Ucb.Lib.LinkedList

/-!
Contract: the memory tracker of `memdbg.c` and what it does with `s_mutex` held.

Owns:
- the header in front of every tracked block, the tracepoints and the free log;
- one function for everything done in one critical section.

A block is named by the pointer its user has; the header, `entry` in the
source, is the memory in front of it. `entries` has the headers of the blocks
the system has handed out and not taken back, and touching another one is
undefined. Undefined steps and failed assertions have no result.

The free log is kept as the list of its records, newest first. The backtraces
of a `UCB_MEMTRACK_BACKTRACE` build are left out.
-/

namespace Ucb.Memdbg

abbrev Ptr := Nat

/-- An address of a `ucb_tracepoint`. -/
abbrev TracepointPtr := Nat

def allocMagic : UInt32 := 0xBEA01234

def deallocMagic : UInt32 := 0x0DEADBEA

def metaSize : Nat := 48

/-- The end of its last field; there is padding behind it. -/
def headerEnd : Nat := 44

/-- The fields of a header that are not links. -/
structure AllocInfo where
  size : UInt64
  file : String
  line : Int
  level : Nat
  magic : UInt32
deriving DecidableEq, Repr

structure AllocMeta extends Lib.Link Ptr, AllocInfo
deriving DecidableEq, Repr

/-- The metrics of a `ucb_tracepoint`. -/
structure Metrics where
  currentAlloc : UInt64
  currentSize : UInt64
  peakAlloc : UInt64
  peakSize : UInt64
  peakAllocBlock : UInt64
  totalAlloc : UInt64
  totalSize : UInt64
deriving DecidableEq, Repr

/-- The metrics of a tracepoint `calloc` has cleared. -/
def Metrics.zero : Metrics where
  currentAlloc := 0
  currentSize := 0
  peakAlloc := 0
  peakSize := 0
  peakAllocBlock := 0
  totalAlloc := 0
  totalSize := 0

/-- `ucb_tracepoint` without its name. -/
structure Tracepoint extends Metrics where
  alloc : Option Ptr
deriving DecidableEq, Repr

def Tracepoint.empty : Tracepoint where
  toMetrics := .zero
  alloc := none

/-- What the callers of `record_free` and `free_table_insert_locked` know. -/
structure FreeEvent where
  ptr : Ptr
  size : UInt64
  allocFile : String
  allocLine : Int
  freeFile : String
  freeLine : Int
deriving DecidableEq, Repr

structure FreeMeta extends FreeEvent where
  level : Nat
deriving DecidableEq, Repr

/-- `UCB_MEMTRACK_MAX_TRACEPOINTS` and `UCB_MEMTRACK_FREE_CAPACITY`. -/
structure Config where
  maxTracepoints : Nat
  freeCapacity : Nat

abbrev Entries := Finmap fun _ : Ptr => AllocMeta

/-- The variables of `memdbg.c` and the memory they point to. -/
structure Tracker where
  entries : Entries
  tracepoints : TracepointPtr → Option Tracepoint
  tracePoints : Nat → Option TracepointPtr
  traceLevel : Nat
  /-- `s_free_pool` could be allocated. -/
  freePool : Bool
  freeLog : List FreeMeta

/-- `ucb_mem_tracking_enable`, before any block is allocated. -/
def ucbMemTrackingEnable (freePool : Bool) : Tracker where
  entries := ∅
  tracepoints := Function.update (fun _ => none) 0 (some .empty)
  tracePoints := Function.update (fun _ => none) 0 (some 0)
  traceLevel := 0
  freePool := freePool
  freeLog := []

/-! ## The free log -/

def freeTableFindLocked (t : Tracker) (ptr : Ptr) : Option FreeMeta :=
  if t.freePool then t.freeLog.find? fun node => node.ptr = ptr else none

def freeTableRemoveLocked (log : List FreeMeta) (ptr : Ptr) : List FreeMeta :=
  log.eraseP fun node => node.ptr = ptr

/-- Without a free slot the oldest record is evicted. -/
def freeTableInsertLocked (config : Config) (freePool : Bool) (log : List FreeMeta)
    (record : FreeMeta) : List FreeMeta :=
  if freePool then
    let log := freeTableRemoveLocked log record.ptr
    if log.length < config.freeCapacity then record :: log
    else if log = [] then []
    else record :: log.dropLast
  else log

def freeTableClearLocked (t : Tracker) : Tracker :=
  { t with freeLog := [] }

/-! ## Headers -/

def Entries.links (entries : Entries) (entry : Ptr) : Option (Lib.Link Ptr) :=
  (entries.lookup entry).map AllocMeta.toLink

def Entries.info (entries : Entries) (entry : Ptr) : Option AllocInfo :=
  (entries.lookup entry).map AllocMeta.toAllocInfo

def Entries.setPrev (entries : Entries) (target prev : Option Ptr) : Option Entries :=
  match target with
  | none => some entries
  | some node =>
      (entries.lookup node).map fun found => entries.insert node { found with prev := prev }

def Entries.setNext (entries : Entries) (target next : Option Ptr) : Option Entries :=
  match target with
  | none => some entries
  | some node =>
      (entries.lookup node).map fun found => entries.insert node { found with next := next }

def Entries.isAlloc (entries : Entries) (target : Option Ptr) : Prop :=
  ∀ node ∈ target, (entries.info node).map AllocInfo.magic = some allocMagic

instance (entries : Entries) (target : Option Ptr) : Decidable (entries.isAlloc target) := by
  unfold Entries.isAlloc
  infer_instance

def initAlloc (found : AllocMeta) (size : UInt64) (file : String) (line : Int) : AllocMeta :=
  { found with magic := allocMagic, size := size, file := file, line := line }

/-- A header `malloc` has not written to. -/
def AllocMeta.fresh : AllocMeta where
  prev := none
  next := none
  size := 0
  file := ""
  line := 0
  level := 0
  magic := 0

/-! ## Registering -/

/-- The tracepoint of a level, that of `s_trace_level` being the current one. -/
def Tracker.tracepointAt (t : Tracker) (level : Nat) : Option Tracepoint :=
  (t.tracePoints level).bind t.tracepoints

def Tracker.setTracepoint (t : Tracker) (address : TracepointPtr) (tp : Tracepoint) : Tracker :=
  { t with tracepoints := Function.update t.tracepoints address (some tp) }

/-- The metrics of a level with another block. -/
def Metrics.gain (metrics : Metrics) (size : UInt64) : Metrics where
  currentAlloc := metrics.currentAlloc + 1
  currentSize := metrics.currentSize + size
  totalAlloc := metrics.totalAlloc + 1
  totalSize := metrics.totalSize + size
  peakAlloc := max (metrics.currentAlloc + 1) metrics.peakAlloc
  peakSize := max (metrics.currentSize + size) metrics.peakSize
  peakAllocBlock := max size metrics.peakAllocBlock

def Metrics.lose (metrics : Metrics) (size : UInt64) : Metrics :=
  { metrics with
    currentAlloc := metrics.currentAlloc - 1, currentSize := metrics.currentSize - size }

def registerAlloc (t : Tracker) (entry : Ptr) : Option Tracker := do
  let address ← t.tracePoints t.traceLevel
  let tp ← t.tracepoints address
  let found ← t.entries.lookup entry
  let entries : Entries := t.entries.insert entry
    { found with level := t.traceLevel, next := tp.alloc, prev := none }
  guard (entries.isAlloc tp.alloc)
  let entries ← entries.setPrev tp.alloc (some entry)
  some { t.setTracepoint address ⟨tp.gain found.size, some entry⟩ with
    entries := entries
    freeLog := freeTableRemoveLocked t.freeLog entry }

/-- `s_trace_points[entry->level]->alloc = entry->next`, when the entry is the first
of its list. -/
def Tracker.dropHead (t : Tracker) (found : AllocMeta) : Option Tracker :=
  match found.prev with
  | some _ => some t
  | none => do
      let address ← t.tracePoints found.level
      let tp ← t.tracepoints address
      some (t.setTracepoint address { tp with alloc := found.next })

/-- `unregister_alloc_locked`: the metrics are those of the current level, the
list is that of the level of the entry. -/
def unregisterAllocLocked (t : Tracker) (entry : Ptr) : Option Tracker := do
  let found ← t.entries.lookup entry
  guard (found.magic = allocMagic)
  let entries : Entries := t.entries.insert entry { found with magic := deallocMagic }
  let address ← t.tracePoints t.traceLevel
  let tp ← t.tracepoints address
  let t := t.setTracepoint address { tp with toMetrics := tp.lose found.size }
  guard (entries.isAlloc found.prev)
  let entries ← entries.setNext found.prev found.next
  let t ← t.dropHead found
  guard (entries.isAlloc found.next)
  let entries ← entries.setPrev found.next found.prev
  some { t with entries := entries }

def recordFree (config : Config) (t : Tracker) (event : FreeEvent) : Tracker :=
  { t with freeLog :=
      freeTableInsertLocked config t.freePool t.freeLog { event with level := t.traceLevel } }

/-- How the critical section of `ucb_free_debug` ends. -/
inductive FreeOutcome where
  /-- The block goes back to the system. -/
  | free
  /-- A fatal error names where the block was freed before. -/
  | doubleFree (prevFile : String) (prevLine : Int)
  /-- A fatal error says that the memory may be corrupt. -/
  | invalid
deriving DecidableEq, Repr

/-- The critical section of `ucb_free_debug`. -/
def freeLocked (config : Config) (t : Tracker) (ptr : Ptr) (file : String) (line : Int) :
    Option (Tracker × FreeOutcome) :=
  match freeTableFindLocked t ptr with
  | some prev => some (t, .doubleFree prev.freeFile prev.freeLine)
  | none => do
      let found ← t.entries.lookup ptr
      if found.magic = allocMagic then
        let t ← unregisterAllocLocked t ptr
        let event := FreeEvent.mk ptr found.size found.file found.line file line
        some (recordFree config t event, .free)
      else some (t, .invalid)

/-! ## Tracepoints -/

/-- `ucb_mem_tracking_push_name`, where `calloc` returns `address`. -/
def ucbMemTrackingPushName (config : Config) (t : Tracker) (address : TracepointPtr) : Tracker :=
  if t.traceLevel + 1 < config.maxTracepoints then
    { t.setTracepoint address .empty with
      traceLevel := t.traceLevel + 1
      tracePoints := Function.update t.tracePoints (t.traceLevel + 1) (some address) }
  else t

/-- The loop of `ucb_mem_tracking_pop` over the list that starts with `entry`,
in front of the list that starts with `head`. -/
def moveEntries (level levelUp : Nat) :
    Nat → Entries → Option Ptr → Option Ptr → Option (Entries × Option Ptr)
  | _, entries, head, none => some (entries, head)
  | 0, _, _, some _ => none
  | fuel + 1, entries, head, some entry => do
      let found ← entries.lookup entry
      guard (found.level = level)
      let entries : Entries := entries.insert entry
        { found with level := levelUp, prev := none, next := head }
      let entries ← entries.setPrev head (some entry)
      moveEntries level levelUp fuel entries (some entry) found.next

/-- The statistics of the parent after those of a popped level have been merged. -/
def Metrics.merge (up tp : Metrics) : Metrics where
  currentAlloc := up.currentAlloc + tp.currentAlloc
  currentSize := up.currentSize + tp.currentSize
  totalAlloc := up.totalAlloc + tp.totalAlloc
  totalSize := up.totalSize + tp.totalSize
  peakAlloc := up.peakAlloc + tp.peakAlloc
  peakSize := up.peakSize + tp.peakSize
  peakAllocBlock := max up.peakAllocBlock tp.peakAllocBlock

/-- The end of `ucb_mem_tracking_pop`, from `int level_up` on. At level 0 it
would look for a tracepoint in front of the array. Every round of the loop moves
another block away from the level, so that there are no more than blocks. -/
def popLocked (t : Tracker) (address : TracepointPtr) (entry : Option Ptr) : Option Tracker := do
  guard (0 < t.traceLevel)
  let levelUp := t.traceLevel - 1
  let addressUp ← t.tracePoints levelUp
  let up ← t.tracepoints addressUp
  let (entries, head) ←
    moveEntries t.traceLevel levelUp t.entries.keys.card t.entries up.alloc entry
  let t := t.setTracepoint addressUp { up with alloc := head }
  let tp ← t.tracepoints address
  let t := t.setTracepoint address { tp with alloc := none }
  let up ← t.tracepoints addressUp
  let t := t.setTracepoint addressUp { up with toMetrics := up.merge tp.toMetrics }
  some { t with
    entries := entries
    tracepoints := Function.update t.tracepoints address none
    tracePoints := Function.update t.tracePoints t.traceLevel none
    traceLevel := levelUp }

/-- The statistics `ucb_mem_tracking_reset` leaves. -/
def Metrics.reset (metrics : Metrics) : Metrics :=
  { metrics with
    peakAlloc := 0, peakSize := 0, peakAllocBlock := 0, totalAlloc := 0, totalSize := 0 }

/-- The loop of `ucb_mem_tracking_reset` up to a level. -/
def resetLevels (t : Tracker) : Nat → Option Tracker
  | 0 => some t
  | count + 1 => do
      let t ← resetLevels t count
      let address ← t.tracePoints count
      let tp ← t.tracepoints address
      some (t.setTracepoint address { tp with toMetrics := tp.reset })

def ucbMemTrackingReset (t : Tracker) : Option Tracker :=
  (resetLevels t (t.traceLevel + 1)).map freeTableClearLocked

/-! ## Reading the lists -/

/-- The blocks of a level, as the loop of `verify_level` meets them. -/
def Tracker.allocs (t : Tracker) (level : Nat) : List Ptr :=
  match t.tracepointAt level with
  | some tp => Lib.walk t.entries.links t.entries.keys.card tp.alloc
  | none => []

end Ucb.Memdbg
