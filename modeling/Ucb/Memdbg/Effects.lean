import Ucb.Memdbg.Calls
import Ucb.Memdbg.Ledger

/-!
Contract: what one step of the threads does to the ledger.

Owns:
- `Undisturbed`, the steps that find the lists as they left them;
- `Sound`, that a world keeps a ledger and no thread holds a block of it;
- `Effect`, one constructor for each way a thread moves on, and that every
  undisturbed step of a sound world is one of them.
-/

namespace Ucb.Memdbg

/-- The block only this thread knows about. -/
def Point.holds : Point → Option Ptr
  | .registering entry => some entry
  | .reallocating old _ _ => some old.ptr
  | .recordingFree old _ => some old.ptr
  | .freeing entry _ => some entry
  | .reregistering entry false => some entry
  | _ => none

/-- `ucb_mem_tracking_pop` finds the current tracepoint and the first entry of its
list as it left them for the report, and `ucb_realloc2_debug` does not register a
block it has freed. -/
def Undisturbed (w : World) (action : Action) : Prop :=
  match action.op, w.threads action.thread with
  | .popEnd, .reporting address entry =>
      0 < w.tracker.traceLevel ∧
        w.tracker.tracePoints w.tracker.traceLevel = some address ∧
        (w.tracker.tracepoints address).map Tracepoint.alloc = some (some entry)
  | .reregister, .reregistering _ freed => freed = false
  | _, _ => True

instance (w : World) (action : Action) : Decidable (Undisturbed w action) := by
  unfold Undisturbed
  split <;> infer_instance

/-- No two threads hold the same block, and what a thread holds is allocated and
in no list. -/
structure Holding (threads : Nat → Point) (info : Ptr → Option AllocInfo)
    (has : Ptr → Prop) : Prop where
  there : ∀ thread entry, (threads thread).holds = some entry →
    (info entry).isSome ∧ ¬ has entry
  apart : ∀ first second entry, (threads first).holds = some entry →
    (threads second).holds = some entry → first = second

/-- The tracker holds a ledger of the live blocks. -/
structure Sound (w : World) (g : Ledger) : Prop where
  refines : Refines w.tracker g
  live : ∀ entry, entry ∈ w.live ↔ g.Has entry
  nodup : w.live.Nodup
  holding : Holding w.threads w.tracker.entries.info g.Has

/-- What a step leaves, apart from the levels. -/
structure Leaves (w after : World) (thread : Nat) (point : Point)
    (info : Ptr → Option AllocInfo) (log : List FreeMeta) (live : List Ptr) : Prop where
  threads : after.threads = Function.update w.threads thread point
  info : after.tracker.entries.info = info
  freePool : after.tracker.freePool = w.tracker.freePool
  freeLog : after.tracker.freeLog = log
  live : after.live = live

/-- The header `init_alloc` makes of one. -/
def AllocInfo.init (info : AllocInfo) (size : UInt64) (file : String) (line : Int) : AllocInfo :=
  { info with magic := allocMagic, size := size, file := file, line := line }

def AllocInfo.freed (info : AllocInfo) (ptr : Ptr) (file : String) (line : Int) : FreeEvent :=
  ⟨ptr, info.size, info.file, info.line, file, line⟩

def World.infoWith (w : World) (entry : Ptr) (info : Option AllocInfo) : Ptr → Option AllocInfo :=
  Function.update w.tracker.entries.info entry info

def World.logWith (w : World) (config : Config) (event : FreeEvent) : List FreeMeta :=
  freeTableInsertLocked config w.tracker.freePool w.tracker.freeLog
    { event with level := w.tracker.traceLevel }

inductive Effect (config : Config) (w : World) (g : Ledger) :
    Action → World → Ledger → Prop
  | nothing {action : Action} (notReset : action.op ≠ .reset) : Effect config w g action w g
  | allocates {thread : Nat} {op : Op} {size : UInt64} {file : String} {line : Int}
      {address : Ptr} {after : World} (notReset : op ≠ .reset)
      (idle : w.threads thread = .idle) (free : w.tracker.entries.info address = none)
      (asked : w.asked ⟨thread, op⟩ = some size) (room : w.hasRoom size)
      (leaves : Leaves w after thread (.registering address)
        (w.infoWith address (some (AllocMeta.fresh.init size file line)))
        w.tracker.freeLog w.live) :
      Effect config w g ⟨thread, op⟩ after g
  | registers {thread : Nat} {op : Op} {entry : Ptr} {info : AllocInfo} {after : World}
      (notReset : op ≠ .reset)
      (here : w.threads thread = .registering entry ∨
        w.threads thread = .reregistering entry false)
      (header : w.tracker.entries.info entry = some info)
      (leaves : Leaves w after thread .idle
        (w.infoWith entry (some { info with level := g.level }))
        (freeTableRemoveLocked w.tracker.freeLog entry) (entry :: w.live)) :
      Effect config w g ⟨thread, op⟩ after (g.register entry info.size)
  | takes {thread : Nat} {ptr : Ptr} {size : UInt64} {freeOnFailure : Bool} {file : String}
      {line : Int} {info : AllocInfo} {after : World} (idle : w.threads thread = .idle)
      (isLive : ptr ∈ w.live) (header : w.tracker.entries.info ptr = some info)
      (magic : info.magic = allocMagic)
      (leaves : Leaves w after thread
        (if 0 < size then .reallocating (info.freed ptr file line) size freeOnFailure
          else .recordingFree (info.freed ptr file line) freeOnFailure)
        (w.infoWith ptr (some { info with magic := deallocMagic })) w.tracker.freeLog
        (w.live.erase ptr)) :
      Effect config w g ⟨thread, .realloc2 ptr size freeOnFailure file line⟩ after
        (g.unregister ptr info.level info.size)
  | frees {thread : Nat} {ptr : Ptr} {file : String} {line : Int} {info : AllocInfo}
      {after : World} (idle : w.threads thread = .idle) (isLive : ptr ∈ w.live)
      (header : w.tracker.entries.info ptr = some info) (magic : info.magic = allocMagic)
      (leaves : Leaves w after thread (.freeing ptr true)
        (w.infoWith ptr (some { info with magic := deallocMagic }))
        (w.logWith config (info.freed ptr file line)) (w.live.erase ptr)) :
      Effect config w g ⟨thread, .free ptr file line⟩ after
        (g.unregister ptr info.level info.size)
  | moves {thread : Nat} {address : Ptr} {old : FreeEvent} {size : UInt64}
      {freeOnFailure : Bool} {info : AllocInfo} {after : World}
      (here : w.threads thread = .reallocating old size freeOnFailure)
      (header : w.tracker.entries.info old.ptr = some info)
      (free : address = old.ptr ∨ w.tracker.entries.info address = none)
      (room : w.hasRoom size)
      (leaves : Leaves w after thread (.registering address)
        (Function.update (w.infoWith old.ptr none) address
          (some (info.init size old.freeFile old.freeLine))) w.tracker.freeLog w.live) :
      Effect config w g ⟨thread, .reallocated (some address)⟩ after g
  | fails {thread : Nat} {old : FreeEvent} {size : UInt64} {after : World}
      (here : w.threads thread = .reallocating old size true)
      (leaves : Leaves w after thread (.recordingFailed old) (w.infoWith old.ptr none)
        w.tracker.freeLog w.live) :
      Effect config w g ⟨thread, .reallocated none⟩ after g
  | keeps {thread : Nat} {old : FreeEvent} {size : UInt64} {after : World}
      (here : w.threads thread = .reallocating old size false)
      (leaves : Leaves w after thread (.reregistering old.ptr false) w.tracker.entries.info
        w.tracker.freeLog w.live) :
      Effect config w g ⟨thread, .reallocated none⟩ after g
  | logsFailed {thread : Nat} {old : FreeEvent} {after : World}
      (here : w.threads thread = .recordingFailed old)
      (leaves : Leaves w after thread .idle w.tracker.entries.info (w.logWith config old)
        w.live) :
      Effect config w g ⟨thread, .record⟩ after g
  | logsFree {thread : Nat} {old : FreeEvent} {freeOnFailure : Bool} {after : World}
      (here : w.threads thread = .recordingFree old freeOnFailure)
      (leaves : Leaves w after thread (.freeing old.ptr freeOnFailure) w.tracker.entries.info
        (w.logWith config old) w.live) :
      Effect config w g ⟨thread, .record⟩ after g
  | releases {thread : Nat} {entry : Ptr} {freeOnFailure : Bool} {after : World}
      (here : w.threads thread = .freeing entry freeOnFailure)
      (leaves : Leaves w after thread
        (if freeOnFailure then .idle else .reregistering entry true) (w.infoWith entry none)
        w.tracker.freeLog w.live) :
      Effect config w g ⟨thread, .release⟩ after g
  | pushes {thread : Nat} {address : TracepointPtr} {after : World}
      (idle : w.threads thread = .idle)
      (leaves : Leaves w after thread .idle w.tracker.entries.info w.tracker.freeLog w.live) :
      Effect config w g ⟨thread, .push address⟩ after g.push
  | reports {thread : Nat} {address : TracepointPtr} {entry : Ptr} {after : World}
      (idle : w.threads thread = .idle) (calm : Undisturbed after ⟨thread, .popEnd⟩)
      (leaves : Leaves w after thread (.reporting address entry) w.tracker.entries.info
        w.tracker.freeLog w.live) :
      Effect config w g ⟨thread, .pop⟩ after g
  | pops {thread : Nat} {op : Op} {after : World} (isPop : op = .pop ∨ op = .popEnd)
      (free : (w.threads thread).holds = none) (above : 0 < g.level)
      (leaves : Leaves w after thread .idle
        (w.tracker.entries.raised (g.lists g.level) (g.level - 1)) w.tracker.freeLog w.live) :
      Effect config w g ⟨thread, op⟩ after g.pop
  | resets {thread : Nat} {after : World} (idle : w.threads thread = .idle)
      (leaves : Leaves w after thread .idle w.tracker.entries.info [] w.live) :
      Effect config w g ⟨thread, .reset⟩ after g.reset

/-! ## Every step has an effect -/

section Steps

variable {config : Config} {w after : World} {g : Ledger} {thread : Nat}

theorem Refines.has_info {t : Tracker} {entry : Ptr} (refines : Refines t g)
    (has : g.Has entry) : ∃ info, t.entries.info entry = some info ∧ info.level ≤ g.level ∧
      entry ∈ g.lists info.level := by
  obtain ⟨level, inUse, member⟩ := has
  obtain ⟨info, here, rfl⟩ := Option.map_eq_some_iff.mp (refines.owned level inUse entry member)
  exact ⟨info, here, inUse, member⟩

theorem info_eq_none {entries : Entries} {entry : Ptr} (absent : entries.lookup entry = none) :
    entries.info entry = none := by
  rw [Entries.info, absent]; rfl

/-- Headers outside the lists may be written and given up. -/
theorem Refines.outside {t : Tracker} {entries : Entries} {entry : Ptr} (refines : Refines t g)
    (fresh : ¬ g.Has entry)
    (sameLinks : ∀ node ≠ entry, entries.links node = t.entries.links node)
    (sameInfo : ∀ node ≠ entry, entries.info node = t.entries.info node) :
    Refines { t with entries := entries } g := by
  have different : ∀ node, g.Has node → node ≠ entry := by
    rintro node has rfl
    exact fresh has
  exact refines.frame (fun node has => sameLinks node (different node has))
    (fun node has => sameInfo node (different node has))

theorem Sound.notHas_of_none {entry : Ptr} (sound : Sound w g)
    (absent : w.tracker.entries.info entry = none) : ¬ g.Has entry := by
  intro has
  obtain ⟨info, here, -⟩ := sound.refines.has_info has
  exact Option.some_ne_none _ (here.symm.trans absent)

theorem effect_allocate {op : Op} {size : UInt64} {file : String} {line : Int} {address : Ptr}
    (sound : Sound w g) (notReset : op ≠ .reset) (idle : w.threads thread = .idle)
    (asked : w.asked ⟨thread, op⟩ = some size)
    (ran : allocate w thread size file line address = some after) :
    ∃ g', Effect config w g ⟨thread, op⟩ after g' ∧ Refines after.tracker g' := by
  unfold allocate at ran
  split at ran
  next possible =>
    obtain rfl := Option.some.inj ran
    have absent := info_eq_none possible.1
    refine ⟨g, .allocates notReset idle absent asked possible.2
      ⟨rfl, info_insert _ _, rfl, rfl, rfl⟩, ?_⟩
    apply sound.refines.outside (sound.notHas_of_none absent)
    · intro node other
      rw [links_insert, Function.update_of_ne other]
    · intro node other
      rw [info_insert, Function.update_of_ne other]
  next => cases ran

theorem effect_malloc {size : UInt64} {file : String} {line : Int} {address : Ptr}
    (sound : Sound w g) (idle : w.threads thread = .idle)
    (ran : ucbMallocDebug w thread size file line address = some after) :
    ∃ g', Effect config w g ⟨thread, .malloc size file line address⟩ after g' ∧
      Refines after.tracker g' := by
  unfold ucbMallocDebug at ran
  split at ran
  next => exact effect_allocate sound (by simp) idle rfl ran
  next =>
    obtain rfl := Option.some.inj ran
    exact ⟨g, .nothing (by simp), sound.refines⟩

theorem effect_calloc {num size : UInt64} {file : String} {line : Int} {address : Ptr}
    (sound : Sound w g) (idle : w.threads thread = .idle)
    (ran : ucbCallocDebug w thread num size file line address = some after) :
    ∃ g', Effect config w g ⟨thread, .calloc num size file line address⟩ after g' ∧
      Refines after.tracker g' := by
  unfold ucbCallocDebug at ran
  split at ran
  next => exact effect_allocate sound (by simp) idle rfl ran
  next =>
    obtain rfl := Option.some.inj ran
    exact ⟨g, .nothing (by simp), sound.refines⟩

theorem holds_of_registers {entry : Ptr} (here : w.threads thread = .registering entry ∨
    w.threads thread = .reregistering entry false) : (w.threads thread).holds = some entry := by
  rcases here with here | here <;> rw [here] <;> rfl

theorem effect_registerAlloc {op : Op} {entry : Ptr} {t : Tracker} (sound : Sound w g)
    (notReset : op ≠ .reset)
    (here : w.threads thread = .registering entry ∨
      w.threads thread = .reregistering entry false)
    (ran : registerAlloc w.tracker entry = some t) :
    ∃ g', Effect config w g ⟨thread, op⟩
        { w.move thread t .idle with live := entry :: w.live } g' ∧ Refines t g' := by
  have fresh := (sound.holding.there thread entry (holds_of_registers here)).2
  obtain ⟨info, header, refines, infos, pool, log⟩ := sound.refines.register fresh ran
  exact ⟨_, .registers notReset here header ⟨rfl, infos, pool, log, rfl⟩, refines⟩

theorem effect_register (sound : Sound w g) (ran : register w thread = some after) :
    ∃ g', Effect config w g ⟨thread, .register⟩ after g' ∧ Refines after.tracker g' := by
  unfold register at ran
  split at ran
  next entry here =>
    obtain ⟨t, did, rfl⟩ := Option.map_eq_some_iff.mp ran
    exact effect_registerAlloc sound (by simp) (.inl here) did
  next => cases ran

theorem effect_reregister (sound : Sound w g) (calm : Undisturbed w ⟨thread, .reregister⟩)
    (ran : reregister w thread = some after) :
    ∃ g', Effect config w g ⟨thread, .reregister⟩ after g' ∧ Refines after.tracker g' := by
  unfold reregister at ran
  split at ran
  next entry freed here =>
    obtain ⟨t, did, rfl⟩ := Option.map_eq_some_iff.mp ran
    obtain rfl : freed = false := by simpa only [Undisturbed, here] using calm
    exact effect_registerAlloc sound (by simp) (.inr here) did
  next => cases ran

theorem effect_realloc2 {ptr : Ptr} {size : UInt64} {freeOnFailure : Bool} {file : String}
    {line : Int} (sound : Sound w g) (idle : w.threads thread = .idle)
    (ran : ucbRealloc2Debug w thread ptr size freeOnFailure file line = some after) :
    ∃ g', Effect config w g ⟨thread, .realloc2 ptr size freeOnFailure file line⟩ after g' ∧
      Refines after.tracker g' := by
  unfold ucbRealloc2Debug at ran
  split at ran
  next isLive =>
    split at ran
    next found header =>
      split at ran
      next magic =>
        obtain ⟨t, did, rfl⟩ := Option.map_eq_some_iff.mp ran
        obtain ⟨info, header', -, refines, infos, pool, log⟩ :=
          sound.refines.unregister ((sound.live ptr).mp isLive) did
        obtain rfl := Option.some.inj ((info_of_lookup header).symm.trans header')
        exact ⟨_, .takes idle isLive header' magic ⟨rfl, infos, pool, log, rfl⟩, refines⟩
      next => cases ran
    next => cases ran
  next => cases ran

theorem effect_reallocated {address : Option Ptr} (sound : Sound w g)
    (ran : reallocated w thread address = some after) :
    ∃ g', Effect config w g ⟨thread, .reallocated address⟩ after g' ∧
      Refines after.tracker g' := by
  unfold reallocated at ran
  split at ran
  next old size freeOnFailure here =>
    have fresh := (sound.holding.there thread old.ptr (by rw [here]; rfl)).2
    have given : Refines { w.tracker with entries := w.tracker.entries.erase old.ptr } g := by
      apply sound.refines.outside fresh
      · intro node other
        rw [links_erase, Function.update_of_ne other]
      · intro node other
        rw [info_erase, Function.update_of_ne other]
    split at ran
    next => cases ran
    next found address header =>
      simp only at ran
      split at ran
      next possible =>
        obtain rfl := Option.some.inj ran
        obtain ⟨absent, room⟩ := possible
        have free : address = old.ptr ∨ w.tracker.entries.info address = none := by
          by_cases same : address = old.ptr
          · exact .inl same
          · exact .inr (info_eq_none (by rwa [Finmap.lookup_erase_ne same] at absent))
        have outside : ¬ g.Has address := by
          rcases free with rfl | free
          · exact fresh
          · exact sound.notHas_of_none free
        refine ⟨g, .moves here (info_of_lookup header) free room ⟨rfl, ?_, rfl, rfl, rfl⟩, ?_⟩
        · exact (info_insert _ _).trans (congrArg (Function.update · _ _) (info_erase _))
        · apply given.outside outside
          · intro node other
            rw [links_insert, Function.update_of_ne other]
          · intro node other
            rw [info_insert, Function.update_of_ne other]
      next => cases ran
    next found header =>
      split at ran
      next isTrue =>
        obtain rfl := Option.some.inj ran
        obtain rfl : freeOnFailure = true := isTrue
        exact ⟨g, .fails here ⟨rfl, info_erase _, rfl, rfl, rfl⟩, given⟩
      next isFalse =>
        obtain rfl := Option.some.inj ran
        obtain rfl : freeOnFailure = false := by simpa using isFalse
        exact ⟨g, .keeps here ⟨rfl, rfl, rfl, rfl, rfl⟩, sound.refines⟩
  next => cases ran

theorem effect_record (sound : Sound w g) (ran : record config w thread = some after) :
    ∃ g', Effect config w g ⟨thread, .record⟩ after g' ∧ Refines after.tracker g' := by
  unfold record at ran
  split at ran
  next old here =>
    obtain rfl := Option.some.inj ran
    exact ⟨g, .logsFailed here ⟨rfl, rfl, rfl, rfl, rfl⟩, sound.refines.freeLog⟩
  next old freeOnFailure here =>
    obtain rfl := Option.some.inj ran
    exact ⟨g, .logsFree here ⟨rfl, rfl, rfl, rfl, rfl⟩, sound.refines.freeLog⟩
  next => cases ran

theorem effect_release (sound : Sound w g) (ran : release w thread = some after) :
    ∃ g', Effect config w g ⟨thread, .release⟩ after g' ∧ Refines after.tracker g' := by
  unfold release at ran
  split at ran
  next entry freeOnFailure here =>
    split at ran
    next =>
      obtain rfl := Option.some.inj ran
      refine ⟨g, .releases here ⟨rfl, info_erase _, rfl, rfl, rfl⟩, ?_⟩
      apply sound.refines.outside (sound.holding.there thread entry (by rw [here]; rfl)).2
      · intro node other
        rw [links_erase, Function.update_of_ne other]
      · intro node other
        rw [info_erase, Function.update_of_ne other]
    next => cases ran
  next => cases ran

theorem move_idle (idle : w.threads thread = .idle) : w.move thread w.tracker .idle = w := by
  rw [World.move, Function.update_eq_self_iff.mpr idle.symm]

theorem effect_free {ptr : Ptr} {file : String} {line : Int} (sound : Sound w g)
    (idle : w.threads thread = .idle)
    (ran : ucbFreeDebug config w thread ptr file line = some after) :
    ∃ g', Effect config w g ⟨thread, .free ptr file line⟩ after g' ∧
      Refines after.tracker g' := by
  unfold ucbFreeDebug at ran
  split at ran
  next known =>
    obtain ⟨⟨t, outcome⟩, did, rfl⟩ := Option.map_eq_some_iff.mp ran
    have fatal : Effect config w g ⟨thread, .free ptr file line⟩
        (w.move thread w.tracker .idle) g := by
      rw [move_idle idle]
      exact .nothing (by simp)
    unfold freeLocked at did
    split at did
    next prev logged =>
      obtain ⟨rfl, rfl⟩ := Prod.mk.inj (Option.some.inj did)
      exact ⟨g, fatal, sound.refines⟩
    next notLogged =>
      have isLive : ptr ∈ w.live := known.resolve_right (by simp [notLogged])
      obtain ⟨found, header, did⟩ := Option.bind_eq_some_iff.mp did
      split at did
      next magic =>
        obtain ⟨t', dropped, did⟩ := Option.bind_eq_some_iff.mp did
        obtain ⟨rfl, rfl⟩ := Prod.mk.inj (Option.some.inj did)
        obtain ⟨info, header', -, refines, infos, pool, log⟩ :=
          sound.refines.unregister ((sound.live ptr).mp isLive) dropped
        obtain rfl := Option.some.inj ((info_of_lookup header).symm.trans header')
        refine ⟨_, .frees idle isLive header' magic ⟨rfl, infos, pool, ?_, rfl⟩,
          refines.freeLog⟩
        change freeTableInsertLocked config t'.freePool t'.freeLog _ = _
        rw [pool, log, refines.level]
        exact congrArg (freeTableInsertLocked config _ _ <| FreeMeta.mk _ ·)
          sound.refines.level.symm
      next =>
        obtain ⟨rfl, rfl⟩ := Prod.mk.inj (Option.some.inj did)
        exact ⟨g, fatal, sound.refines⟩
  next => cases ran

theorem effect_push {address : TracepointPtr} (sound : Sound w g)
    (idle : w.threads thread = .idle) (ran : push config w address = some after) :
    ∃ g', Effect config w g ⟨thread, .push address⟩ after g' ∧ Refines after.tracker g' := by
  unfold push at ran
  split at ran
  next free =>
    obtain rfl := Option.some.inj ran
    by_cases room : g.level + 1 < config.maxTracepoints
    · have refines := sound.refines.push free room
      refine ⟨_, .pushes idle ⟨?_, ?_, ?_, ?_, rfl⟩, refines⟩
      · exact (Function.update_eq_self_iff.mpr idle.symm).symm
      all_goals
        simp only [ucbMemTrackingPushName, sound.refines.level, if_pos room]
        rfl
    · rw [push_ignored sound.refines room]
      exact ⟨g, .nothing (by simp), sound.refines⟩
  next => cases ran

theorem effect_pop (sound : Sound w g) (idle : w.threads thread = .idle)
    (ran : ucbMemTrackingPop w thread = some after) :
    ∃ g', Effect config w g ⟨thread, .pop⟩ after g' ∧ Refines after.tracker g' := by
  unfold ucbMemTrackingPop at ran
  split at ran
  next =>
    obtain rfl := Option.some.inj ran
    exact ⟨g, .nothing (by simp), sound.refines⟩
  next above =>
    rw [sound.refines.level] at above
    obtain ⟨address, point, ran⟩ := Option.bind_eq_some_iff.mp ran
    obtain ⟨tp, pointee, ran⟩ := Option.bind_eq_some_iff.mp ran
    rw [sound.refines.level] at point
    split at ran
    next entry head =>
      obtain rfl := Option.some.inj ran
      refine ⟨g, .reports idle ?_ ⟨rfl, rfl, rfl, rfl, rfl⟩, sound.refines⟩
      simp [Undisturbed, World.move, sound.refines.level, point, pointee, head,
        Nat.pos_of_ne_zero above]
    next empty =>
      obtain ⟨t, did, rfl⟩ := Option.map_eq_some_iff.mp ran
      have read := sound.refines.points.get (Nat.le_refl _) point
      obtain rfl := Option.some.inj (pointee.symm.trans read)
      obtain ⟨t', popped, refines, infos, pool, log⟩ :=
        sound.refines.pop (Nat.pos_of_ne_zero above) point
      have same : g.heads g.level = none := empty
      rw [same] at popped
      obtain rfl := Option.some.inj (did.symm.trans popped)
      exact ⟨_, .pops (.inl rfl) (by rw [idle]; rfl) (Nat.pos_of_ne_zero above)
        ⟨(Function.update_eq_self_iff.mpr idle.symm).symm, infos, pool, log, rfl⟩, refines⟩

theorem effect_popEnd (sound : Sound w g) (calm : Undisturbed w ⟨thread, .popEnd⟩)
    (ran : popEnd w thread = some after) :
    ∃ g', Effect config w g ⟨thread, .popEnd⟩ after g' ∧ Refines after.tracker g' := by
  unfold popEnd at ran
  split at ran
  next address entry here =>
    obtain ⟨t, did, rfl⟩ := Option.map_eq_some_iff.mp ran
    simp only [Undisturbed, here, sound.refines.level] at calm
    obtain ⟨above, point, head⟩ := calm
    rw [sound.refines.points.get (Nat.le_refl _) point] at head
    obtain ⟨t', popped, refines, infos, pool, log⟩ := sound.refines.pop above point
    rw [show g.heads g.level = some entry from Option.some.inj head] at popped
    obtain rfl := Option.some.inj (did.symm.trans popped)
    exact ⟨_, .pops (.inr rfl) (by rw [here]; rfl) above ⟨rfl, infos, pool, log, rfl⟩, refines⟩
  next => cases ran

theorem effect_reset (sound : Sound w g) (idle : w.threads thread = .idle)
    (ran : ((ucbMemTrackingReset w.tracker).map fun t => { w with tracker := t }) = some after) :
    ∃ g', Effect config w g ⟨thread, .reset⟩ after g' ∧ Refines after.tracker g' := by
  obtain ⟨t, did, rfl⟩ := Option.map_eq_some_iff.mp ran
  obtain ⟨refines, entries, pool, log⟩ := sound.refines.reset did
  exact ⟨_, .resets idle ⟨(Function.update_eq_self_iff.mpr idle.symm).symm,
    congrArg Entries.info entries, pool, log, rfl⟩, refines⟩

/-- Every undisturbed step is one of the ways to move on. -/
theorem effect_of_step {action : Action} (sound : Sound w g) (calm : Undisturbed w action)
    (stepped : step config w action = some after) :
    ∃ g', Effect config w g action after g' ∧ Refines after.tracker g' := by
  obtain ⟨thread, op⟩ := action
  cases op with
  | register => exact effect_register sound stepped
  | reallocated address => exact effect_reallocated sound stepped
  | record => exact effect_record sound stepped
  | release => exact effect_release sound stepped
  | reregister => exact effect_reregister sound calm stepped
  | popEnd => exact effect_popEnd sound calm stepped
  | malloc size file line address =>
      obtain ⟨idle, ran⟩ := Option.ite_none_right_eq_some.mp stepped
      exact effect_malloc sound idle ran
  | calloc num size file line address =>
      obtain ⟨idle, ran⟩ := Option.ite_none_right_eq_some.mp stepped
      exact effect_calloc sound idle ran
  | realloc2 ptr size freeOnFailure file line =>
      obtain ⟨idle, ran⟩ := Option.ite_none_right_eq_some.mp stepped
      exact effect_realloc2 sound idle ran
  | free ptr file line =>
      obtain ⟨idle, ran⟩ := Option.ite_none_right_eq_some.mp stepped
      exact effect_free sound idle ran
  | push address =>
      obtain ⟨idle, ran⟩ := Option.ite_none_right_eq_some.mp stepped
      exact effect_push sound idle ran
  | pop =>
      obtain ⟨idle, ran⟩ := Option.ite_none_right_eq_some.mp stepped
      exact effect_pop sound idle ran
  | reset =>
      obtain ⟨idle, ran⟩ := Option.ite_none_right_eq_some.mp stepped
      exact effect_reset sound idle ran

end Steps

end Ucb.Memdbg
