import Ucb.Lib.RecencyLog
import Ucb.Memdbg.FreeLog

/-!
Contract: the free log of `memdbg.c` as its table of linked nodes.

Owns:
- the pool of nodes, and finding, detaching, inserting and clearing as the source
  does them, link by link;
- runs of these operations.

A node is named by its index in the pool. Where the source follows a pointer to a
pointer, `FreeLink` says which pointer it is. A loop has fuel, and no result without.
`Ucb.Memdbg.Tracker` has the same log as a list of its records.
-/

namespace Ucb.Memdbg

/-- A node of `s_free_pool`; its links in the age list are those of `Lib.Link`. -/
structure FreeNode (capacity : Nat) extends FreeMeta, Lib.Link (Fin capacity) where
  hashNext : Option (Fin capacity)
  poolNext : Option (Fin capacity)
deriving DecidableEq, Repr

structure FreeTable (capacity : Nat) where
  /-- `s_free_pool` is not null. -/
  pool : Bool
  nodes : Fin capacity → FreeNode capacity
  slots : Option (Fin capacity)
  buckets : Nat → Option (Fin capacity)
  newest : Option (Fin capacity)
  oldest : Option (Fin capacity)

def freeHash (capacity : Nat) (ptr : Ptr) : Nat :=
  (ptr >>> 4) % capacity

/-- A place that points to a node of a bucket. -/
inductive FreeLink (capacity : Nat) where
  | bucket (hash : Nat)
  | hashNext (node : Fin capacity)

namespace FreeTable

variable {capacity : Nat}

def modify (t : FreeTable capacity) (node : Fin capacity)
    (change : FreeNode capacity → FreeNode capacity) : FreeTable capacity :=
  { t with nodes := Function.update t.nodes node (change (t.nodes node)) }

/-! ## Finding -/

def findFrom (t : FreeTable capacity) (ptr : Ptr) :
    Nat → Option (Fin capacity) → Option (Option (Fin capacity))
  | _, none => some none
  | 0, some _ => none
  | fuel + 1, some node =>
      if (t.nodes node).ptr = ptr then some (some node)
      else t.findFrom ptr fuel (t.nodes node).hashNext

def findLocked (t : FreeTable capacity) (ptr : Ptr) : Option (Option (Fin capacity)) :=
  if t.pool then t.findFrom ptr capacity (t.buckets (freeHash capacity ptr)) else some none

/-! ## Detaching -/

def follow (t : FreeTable capacity) : FreeLink capacity → Option (Fin capacity)
  | .bucket hash => t.buckets hash
  | .hashNext node => (t.nodes node).hashNext

def relink (t : FreeTable capacity) (target : Option (Fin capacity)) :
    FreeLink capacity → FreeTable capacity
  | .bucket hash => { t with buckets := Function.update t.buckets hash target }
  | .hashNext node => t.modify node fun old => { old with hashNext := target }

/-- The loop of `free_table_detach_locked`. -/
def unlinkFrom (t : FreeTable capacity) (node : Fin capacity) :
    Nat → FreeLink capacity → Option (FreeTable capacity)
  | 0, _ => none
  | fuel + 1, link =>
      match t.follow link with
      | none => some t
      | some here =>
          if here = node then some (t.relink (t.nodes node).hashNext link)
          else t.unlinkFrom node fuel (.hashNext here)

/-- Link the node before to `next`; without one, `next` is the newest. -/
def setAgeNext (t : FreeTable capacity) (before next : Option (Fin capacity)) :
    FreeTable capacity :=
  match before with
  | some node => t.modify node fun old => { old with next := next }
  | none => { t with newest := next }

/-- Link the node after back to `prev`; without one, `prev` is the oldest. -/
def setAgePrev (t : FreeTable capacity) (after prev : Option (Fin capacity)) :
    FreeTable capacity :=
  match after with
  | some node => t.modify node fun old => { old with prev := prev }
  | none => { t with oldest := prev }

/-- Link the neighbours of a node in the age list to each other. -/
def unlinkAge (t : FreeTable capacity) (node : Fin capacity) : FreeTable capacity :=
  let t := t.setAgeNext (t.nodes node).prev (t.nodes node).next
  t.setAgePrev (t.nodes node).next (t.nodes node).prev

def clearLinks (t : FreeTable capacity) (node : Fin capacity) : FreeTable capacity :=
  t.modify node fun old => { old with hashNext := none, prev := none, next := none }

def detachLocked (t : FreeTable capacity) (node : Fin capacity) :
    Option (FreeTable capacity) := do
  let t ← t.unlinkFrom node (capacity + 1) (.bucket (freeHash capacity (t.nodes node).ptr))
  return (t.unlinkAge node).clearLinks node

/-! ## The operations -/

def slotReturnLocked (t : FreeTable capacity) (node : Fin capacity) : FreeTable capacity :=
  { t with slots := some node }.modify node fun old => { old with poolNext := t.slots }

def removeLocked (t : FreeTable capacity) (ptr : Ptr) : Option (FreeTable capacity) := do
  match ← t.findLocked ptr with
  | none => return t
  | some node => return (← t.detachLocked node).slotReturnLocked node

def store (t : FreeTable capacity) (slot : Fin capacity) (record : FreeMeta) :
    FreeTable capacity :=
  let hash := freeHash capacity record.ptr
  { t with buckets := Function.update t.buckets hash (some slot) }.modify slot fun _ => {
    toFreeMeta := record
    hashNext := t.buckets hash
    prev := none
    next := t.newest
    poolNext := none }

/-- The end of `free_table_insert_locked`. -/
def fill (t : FreeTable capacity) (slot : Fin capacity) (record : FreeMeta) :
    FreeTable capacity :=
  let t := t.store slot record
  { t.setAgePrev t.newest (some slot) with newest := some slot }

/-- Without a free slot the oldest record is evicted. -/
def insertLocked (t : FreeTable capacity) (record : FreeMeta) : Option (FreeTable capacity) :=
  if t.pool then do
    let t ← t.removeLocked record.ptr
    match t.slots, t.oldest with
    | some slot, _ => return { t with slots := (t.nodes slot).poolNext }.fill slot record
    | none, some slot => return (← t.detachLocked slot).fill slot record
    | none, none => return t
  else some t

/-- The loop does with every node what `free_slot_return_locked` does. -/
def clearLocked (t : FreeTable capacity) : FreeTable capacity :=
  if t.pool then
    (List.finRange capacity).foldl slotReturnLocked
      { t with buckets := fun _ => none, newest := none, oldest := none, slots := none }
  else t

/-! ## Runs -/

/-- What `ucb_mem_tracking_enable` leaves, with the nodes cleared by `calloc`. -/
def enable (capacity : Nat) (pool : Bool) : FreeTable capacity :=
  clearLocked {
    pool := pool
    nodes := fun _ => {
      ptr := 0
      size := 0
      allocFile := ""
      allocLine := 0
      freeFile := ""
      freeLine := 0
      level := 0
      prev := none
      next := none
      hashNext := none
      poolNext := none }
    slots := none
    buckets := fun _ => none
    newest := none
    oldest := none }

def step (t : FreeTable capacity) : Lib.LogEvent FreeMeta Ptr → Option (FreeTable capacity)
  | .insert record => t.insertLocked record
  | .remove ptr => t.removeLocked ptr
  | .clear => some t.clearLocked

def run (t : FreeTable capacity) (events : List (Lib.LogEvent FreeMeta Ptr)) :
    Option (FreeTable capacity) :=
  events.foldlM step t

end FreeTable

end Ucb.Memdbg
