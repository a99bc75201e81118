import Mathlib.Algebra.Order.BigOperators.Group.List
import Mathlib.Algebra.Order.Ring.Nat
import Ucb.Lib.NestedPeaks
import Ucb.Memdbg.Counters

/-!
Contract: the peaks of the levels over sequences of calls.

Owns:
- `Watch`, what is seen of the live blocks made since a level was pushed, and
  the steps of a tracker that is watched;
- `PeaksAdd`, that a pop merges peaks that add up, and that statistics are reset
  only when nothing is live;
- that the peaks of the current level are then those that were seen, and two
  sequential levels whose peaks are not.
-/

namespace Ucb.Memdbg

/-! ## Watching -/

/-- The live blocks made since the level was pushed, and how many there were and
how big they were together at most. -/
structure Watch where
  made : List Ptr
  mostAlloc : Nat
  mostSize : Nat

def Watch.empty : Watch where
  made := []
  mostAlloc := 0
  mostSize := 0

/-- The blocks of a level are these now; `restart` forgets what was seen before. -/
def Watch.see (watch : Watch) (info : Ptr → Option AllocInfo) (restart : Bool)
    (made : List Ptr) : Watch where
  made := made
  mostAlloc := max (if restart then 0 else watch.mostAlloc) made.length
  mostSize := max (if restart then 0 else watch.mostSize)
    (made.map fun entry => (blockSize info entry).toNat).sum

/-- What is seen after a step, for the level of each watch: a level that was not in use
has just been pushed, and a block that was not live has just been made. -/
def observe (watches : Nat → Watch) (w : World) (action : Action) (after : World)
    (level : Nat) : Watch :=
  let watch := if w.tracker.traceLevel < level then Watch.empty else watches level
  watch.see after.tracker.entries.info (decide (action.op = .reset))
    ((after.live.filter fun entry => entry ∉ w.live) ++
      watch.made.filter fun entry => entry ∈ after.live)

/-- A world and what has been seen of it. -/
structure Watched where
  world : World
  watches : Nat → Watch

def Watched.start (freePool : Bool) : Watched where
  world := World.start freePool
  watches := fun _ => .empty

def watchedStep (config : Config) (s : Watched) (action : Action) : Option Watched :=
  (step config s.world action).map fun after =>
    ⟨after, observe s.watches s.world action after⟩

/-- The peaks of the current level are the greatest number and total size of the
blocks made since it was pushed that were live at the same time. -/
def TruePeaks (s : Watched) : Prop :=
  ∃ tp, s.world.tracker.tracepointAt s.world.tracker.traceLevel = some tp ∧
    tp.peakAlloc.toNat = (s.watches s.world.tracker.traceLevel).mostAlloc ∧
    tp.peakSize.toNat = (s.watches s.world.tracker.traceLevel).mostSize

/-- A level is popped that never had a block, or whose parent is at its peak, and
the statistics are reset only when nothing is live. -/
def PeaksAdd (w : World) (action : Action) : Prop :=
  match action.op with
  | .pop | .popEnd => 0 < w.tracker.traceLevel →
      ∀ up ∈ w.tracker.tracepointAt (w.tracker.traceLevel - 1),
        ∀ tp ∈ w.tracker.tracepointAt w.tracker.traceLevel,
          (tp.peakAlloc = 0 ∨ up.currentAlloc = up.peakAlloc) ∧
            (tp.peakSize = 0 ∨ up.currentSize = up.peakSize)
  | .reset => w.live = []
  | _ => True

instance (w : World) (action : Action) : Decidable (PeaksAdd w action) := by
  rcases action with ⟨thread, op⟩
  apply Op.casesOn (motive := fun op => Decidable (PeaksAdd w ⟨thread, op⟩)) op <;>
    (intros; dsimp only [PeaksAdd]; infer_instance)

/-- The size asked for does not wrap around with the header in front of it. -/
def AsksInFull (w : World) (action : Action) : Prop :=
  ∀ size ∈ w.asked action, metaSize + size.toNat < 2 ^ 64

-- not by the instance that goes through all sizes
instance (w : World) (action : Action) : Decidable (AsksInFull w action) :=
  Option.decidableForallMem (w.asked action)

/-- The calls of one thread that gives every block back at its own level, with
peaks that add up and sizes that do not wrap around. -/
def Adding (s : Watched) (action : Action) : Prop :=
  InSequence s.world action ∧ PeaksAdd s.world action ∧ AsksInFull s.world action

instance (s : Watched) (action : Action) : Decidable (Adding s action) := by
  unfold Adding
  infer_instance

/-! ## What is seen after a step -/

section Observe

variable {watches : Nat → Watch} {w after : World} {action : Action} {level : Nat}

theorem made_same (inUse : level ≤ w.tracker.traceLevel) (live : after.live = w.live)
    (part : (watches level).made.Sublist w.live) :
    (observe watches w action after level).made = (watches level).made := by
  have old : ¬ w.tracker.traceLevel < level := by omega
  have kept : (watches level).made.filter (fun entry => entry ∈ w.live) = (watches level).made :=
    List.filter_eq_self.mpr fun entry member => by simpa using part.subset member
  have noneBorn : w.live.filter (fun node => node ∉ w.live) = [] :=
    List.filter_eq_nil_iff.mpr (by simp)
  simp only [observe, if_neg old, Watch.see, live, noneBorn, kept, List.nil_append]

theorem made_born {entry : Ptr} (inUse : level ≤ w.tracker.traceLevel)
    (live : after.live = entry :: w.live) (fresh : entry ∉ w.live)
    (part : (watches level).made.Sublist w.live) :
    (observe watches w action after level).made = entry :: (watches level).made := by
  have old : ¬ w.tracker.traceLevel < level := by omega
  have born : (entry :: w.live).filter (fun node => node ∉ w.live) = [entry] := by
    rw [List.filter_cons_of_pos (by simpa using fresh), List.filter_eq_nil_iff.mpr (by simp)]
  have kept : (watches level).made.filter (fun node => node ∈ entry :: w.live) =
      (watches level).made :=
    List.filter_eq_self.mpr fun node member => by simp [part.subset member]
  simp only [observe, if_neg old, Watch.see, live, born, kept, List.singleton_append]

theorem made_gone {ptr : Ptr} (inUse : level ≤ w.tracker.traceLevel)
    (live : after.live = w.live.erase ptr) (nodup : w.live.Nodup)
    (part : (watches level).made.Sublist w.live) :
    (observe watches w action after level).made =
      (watches level).made.filter fun node => node ≠ ptr := by
  have old : ¬ w.tracker.traceLevel < level := by omega
  have noneBorn : (w.live.erase ptr).filter (fun node => node ∉ w.live) = [] :=
    List.filter_eq_nil_iff.mpr fun node member => by simpa using List.mem_of_mem_erase member
  have kept : (watches level).made.filter (fun node => node ∈ w.live.erase ptr) =
      (watches level).made.filter fun node => node ≠ ptr :=
    List.filter_congr fun node member => by simp [nodup.mem_erase_iff, part.subset member]
  simp only [observe, if_neg old, Watch.see, live, noneBorn, kept, List.nil_append]

end Observe

/-! ## Room -/

/-- The memory that the live blocks and their headers would need. -/
def World.span (w : World) : Nat :=
  (w.live.map fun entry => metaSize + (blockSize w.tracker.entries.info entry).toNat).sum

/-- The live blocks fit into memory, together with the one the thread holds. -/
structure Roomy (w : World) : Prop where
  live : w.span < 2 ^ 64
  held : ∀ entry, (w.threads 0).holds = some entry →
    w.span + metaSize + (blockSize w.tracker.entries.info entry).toNat < 2 ^ 64

/-- Where no block is shorter than believed, the system has handed out what is needed. -/
theorem Roomy.bytes {w : World} (roomy : Roomy w) : w.bytes = w.span := by
  rw [World.bytes, World.span]
  congr 1
  apply List.map_congr_left
  intro entry member
  have part : metaSize + (blockSize w.tracker.entries.info entry).toNat ≤ w.span :=
    List.single_le_sum (fun _ _ => Nat.zero_le _) _ (List.mem_map_of_mem member)
  exact Nat.mod_eq_of_lt (part.trans_lt roomy.live)

theorem Roomy.room {w : World} {size : UInt64} (roomy : Roomy w) (room : w.hasRoom size)
    (fits : metaSize + size.toNat < 2 ^ 64) : w.span + metaSize + size.toNat < 2 ^ 64 := by
  have granted := room.2
  rw [roomy.bytes, requested, Nat.mod_eq_of_lt fits] at granted
  omega

section Room

variable {gauge : Gauge} {config : Config} {w after : World} {g g' : Ledger} {action : Action}

theorem total_le_span {nodes : List Ptr} (part : nodes.Sublist w.live) :
    gauge.total w.tracker.entries.info nodes ≤ w.span := by
  calc gauge.total w.tracker.entries.info nodes
      ≤ (nodes.map fun entry => metaSize + (blockSize w.tracker.entries.info entry).toNat).sum :=
        List.sum_le_sum fun entry _ => gauge.weight_le _
    _ ≤ w.span := (part.map _).sum_le_sum fun _ _ => Nat.zero_le _

/-- Memory of the live blocks, by the sizes before the step. -/
theorem Effect.span (effect : Effect config w g action after g') (sound : Sound w g)
    {live : List Ptr} (isLive : after.live = live) (inside : ∀ entry ∈ live, entry ∈ w.live) :
    after.span =
      (live.map fun entry => metaSize + (blockSize w.tracker.entries.info entry).toNat).sum := by
  rw [World.span, isLive]
  congr 1
  apply List.map_congr_left
  intro entry member
  rw [effect.same_size sound ((sound.live entry).mp (inside entry member))]

theorem Effect.span_same (effect : Effect config w g action after g') (sound : Sound w g)
    (live : after.live = w.live) : after.span = w.span :=
  effect.span sound live fun _ member => member

/-- A step that leaves the live blocks, to a point where the thread holds nothing or
what it held. -/
theorem Roomy.passes {point : Point} {info : Ptr → Option AllocInfo} {log : List FreeMeta}
    (roomy : Roomy w) (sound : Sound w g) (effect : Effect config w g action after g')
    (leaves : Leaves w after 0 point info log w.live)
    (held : ∀ entry, point.holds = some entry →
      w.span + metaSize + (blockSize info entry).toNat < 2 ^ 64) : Roomy after where
  live := effect.span_same sound leaves.live ▸ roomy.live
  held := fun entry => by
    rw [leaves.threads, Function.update_self, leaves.info,
      effect.span_same sound leaves.live]
    exact held entry

theorem Roomy.gone {ptr : Ptr} {info : AllocInfo} {point : Point} {log : List FreeMeta}
    (roomy : Roomy w) (sound : Sound w g) (effect : Effect config w g action after g')
    (isLive : ptr ∈ w.live) (header : w.tracker.entries.info ptr = some info)
    (holds : point.holds = some ptr)
    (leaves : Leaves w after 0 point (w.infoWith ptr (some { info with magic := deallocMagic }))
      log (w.live.erase ptr)) : Roomy after := by
  have before : w.span = metaSize + info.size.toNat + after.span := by
    rw [effect.span sound leaves.live fun _ => List.mem_of_mem_erase, World.span,
      ((List.perm_cons_erase isLive).map _).sum_eq, List.map_cons, List.sum_cons,
      blockSize_of_info header]
  have room := roomy.live
  refine ⟨by omega, fun entry held => ?_⟩
  rw [leaves.threads, Function.update_self] at held
  obtain rfl := Option.some.inj (holds.symm.trans held)
  have size : blockSize after.tracker.entries.info ptr = info.size := by
    rw [leaves.info]
    exact blockSize_self
  rw [size]
  omega

theorem Roomy.step (roomy : Roomy w) (sound : Sound w g) (first : action.thread = 0)
    (asksInFull : AsksInFull w action) (effect : Effect config w g action after g') :
    Roomy after := by
  have whole := effect
  cases effect with
  | nothing notReset => exact roomy
  | @allocates thread op size file line address _ notReset idle free asked room leaves =>
      obtain rfl : thread = 0 := first
      apply roomy.passes sound whole leaves
      rintro entry ⟨⟩
      rw [World.infoWith, blockSize_self]
      exact roomy.room room (asksInFull size asked)
  | @registers thread op entry info _ notReset here header leaves =>
      obtain rfl : thread = 0 := first
      have room := roomy.held entry (holds_of_registers here)
      rw [blockSize_of_info header] at room
      have size : blockSize after.tracker.entries.info entry = info.size := by
        rw [leaves.info]
        exact blockSize_self
      have others : ∀ node ∈ w.live, metaSize + (blockSize after.tracker.entries.info node).toNat =
          metaSize + (blockSize w.tracker.entries.info node).toNat := fun node member => by
        rw [whole.same_size sound ((sound.live node).mp member)]
      have sum : after.span = metaSize + info.size.toNat + w.span := by
        rw [World.span, leaves.live, List.map_cons, List.sum_cons, size,
          List.map_congr_left others]
        rfl
      refine ⟨by omega, fun node held => ?_⟩
      rw [leaves.threads, Function.update_self] at held
      cases held
  | @takes thread ptr size freeOnFailure file line info _ idle isLive header magic leaves =>
      obtain rfl : thread = 0 := first
      exact roomy.gone sound whole isLive header (by split <;> rfl) leaves
  | @frees thread ptr file line info _ idle isLive header magic leaves =>
      obtain rfl : thread = 0 := first
      exact roomy.gone sound whole isLive header rfl leaves
  | @moves thread address old size freeOnFailure info _ here header free room leaves =>
      obtain rfl : thread = 0 := first
      apply roomy.passes sound whole leaves
      rintro entry ⟨⟩
      rw [blockSize_self]
      exact roomy.room room (asksInFull size (by simp [World.asked, here]))
  | @keeps thread old size _ here leaves =>
      obtain rfl : thread = 0 := first
      apply roomy.passes sound whole leaves
      rintro entry ⟨⟩
      exact roomy.held old.ptr (by rw [here]; rfl)
  | @logsFree thread old freeOnFailure _ here leaves =>
      obtain rfl : thread = 0 := first
      apply roomy.passes sound whole leaves
      rintro entry ⟨⟩
      exact roomy.held old.ptr (by rw [here]; rfl)
  | @releases thread entry freeOnFailure _ here leaves =>
      obtain rfl : thread = 0 := first
      apply roomy.passes sound whole leaves
      intro node held
      split at held <;> cases held
  | _ =>
      rename_i leaves
      simp only at first
      subst first
      apply roomy.passes sound whole leaves
      rintro entry ⟨⟩

end Room

/-! ## The blocks that are watched -/

/-- The blocks of a watch are those in the lists of its level and the levels inside. -/
structure Watching (w : World) (watches : Nat → Watch) (g : Ledger) : Prop where
  part : ∀ level ≤ g.level, (watches level).made.Sublist w.live
  innermost : (watches g.level).made.Perm (g.lists g.level)
  outer : ∀ level < g.level,
    (watches level).made.Perm (g.lists level ++ (watches (level + 1)).made)

section Watching

variable {config : Config} {w after : World} {g g' : Ledger} {action : Action}
variable {watches : Nat → Watch}

/-- A step that leaves the live blocks and the lists as they are. -/
theorem Watching.same {watches' : Nat → Watch} (watching : Watching w watches g)
    (live : after.live = w.live)
    (made : ∀ level ≤ g.level, (watches' level).made = (watches level).made)
    (level : g'.level = g.level) (lists : g'.lists = g.lists) : Watching after watches' g' where
  part := fun l inUse => by
    rw [level] at inUse
    rw [live, made l inUse]
    exact watching.part l inUse
  innermost := by
    rw [level, lists, made g.level (Nat.le_refl _)]
    exact watching.innermost
  outer := fun l below => by
    rw [level] at below
    rw [lists, made l (by omega), made (l + 1) (by omega)]
    exact watching.outer l below

theorem erase_eq_filter_ne {nodes : List Ptr} (nodup : nodes.Nodup) (ptr : Ptr) :
    nodes.erase ptr = nodes.filter fun node => node ≠ ptr := by
  rw [nodup.erase_eq_filter]
  exact List.filter_congr fun node _ => by rw [Bool.eq_iff_iff]; simp

/-- A block leaves the list of the current level. -/
theorem Watching.unregister {ptr : Ptr} {info : AllocInfo} (watching : Watching w watches g)
    (sound : Sound w g) (isLive : ptr ∈ w.live)
    (header : w.tracker.entries.info ptr = some info) (own : info.level = g.level)
    (live : after.live = w.live.erase ptr) :
    Watching after (observe watches w action after) (g.unregister ptr info.level info.size) := by
  obtain ⟨found, here, inUse, member⟩ := sound.refines.has_info ((sound.live ptr).mp isLive)
  obtain rfl := Option.some.inj (here.symm.trans header)
  rw [own] at member
  have made : ∀ level ≤ g.level, (observe watches w action after level).made =
      (watches level).made.filter fun node => node ≠ ptr := fun level levelIn =>
    made_gone (by rw [sound.refines.level]; exact levelIn) live sound.nodup
      (watching.part level levelIn)
  constructor
  · intro level levelIn
    rw [made level levelIn, live, erase_eq_filter_ne sound.nodup]
    exact (watching.part level levelIn).filter _
  · have lists : (g.unregister ptr found.level found.size).lists g.level =
        (g.lists g.level).filter fun node => node ≠ ptr := by
      simp only [Ledger.unregister, own, Function.update_self]
      exact erase_eq_filter_ne (sound.refines.chain _ (Nat.le_refl _)).nodup ptr
    exact (made _ (Nat.le_refl _)).symm ▸ lists.symm ▸ watching.innermost.filter _
  · intro level below
    replace below : level < g.level := below
    have notCurrent : level ≠ g.level := by omega
    have stays : (g.lists level).filter (fun node => node ≠ ptr) = g.lists level := by
      apply List.filter_eq_self.mpr
      intro node inList
      have different : node ≠ ptr := by
        rintro rfl
        exact notCurrent
          (sound.refines.same_level (by omega) (Nat.le_refl _) inList member)
      simpa using different
    rw [made level (by omega), made (level + 1) below]
    simp only [Ledger.unregister, own, Function.update_of_ne notCurrent]
    have filtered := (watching.outer level below).filter fun node => decide (node ≠ ptr)
    rwa [List.filter_append, stays] at filtered

theorem Watching.step (watching : Watching w watches g) (sound : Sound w g)
    (own : OwnLevel w action) (effect : Effect config w g action after g') :
    Watching after (observe watches w action after) g' := by
  have inUse : ∀ level ≤ g.level, level ≤ w.tracker.traceLevel := by
    rw [sound.refines.level]
    exact fun _ => id
  have keeps : after.live = w.live → ∀ level ≤ g.level,
      (observe watches w action after level).made = (watches level).made :=
    fun live level levelIn => made_same (inUse level levelIn) live (watching.part level levelIn)
  cases effect with
  | nothing notReset => exact watching.same rfl (keeps rfl) rfl rfl
  | @registers thread op entry info _ notReset here header leaves =>
      have fresh : entry ∉ w.live := fun isLive =>
        (sound.holding.there thread entry (holds_of_registers here)).2
          ((sound.live entry).mp isLive)
      have made : ∀ level ≤ g.level, (observe watches w ⟨thread, op⟩ after level).made =
          entry :: (watches level).made := fun level levelIn =>
        made_born (inUse level levelIn) leaves.live fresh (watching.part level levelIn)
      constructor
      · intro level levelIn
        rw [made level levelIn, leaves.live]
        exact (watching.part level levelIn).cons_cons entry
      · change (observe watches w ⟨thread, op⟩ after g.level).made.Perm _
        rw [made _ (Nat.le_refl _)]
        simpa [Ledger.register] using watching.innermost
      · intro level below
        replace below : level < g.level := below
        have notCurrent : level ≠ g.level := by omega
        rw [made level (by omega), made (level + 1) below]
        simp only [Ledger.register, Function.update_of_ne notCurrent]
        exact ((watching.outer level below).cons entry).trans List.perm_middle.symm
  | @takes thread ptr size freeOnFailure file line info _ idle isLive header magic leaves =>
      exact watching.unregister sound isLive header
        ((own info header magic).trans sound.refines.level) leaves.live
  | @frees thread ptr file line info _ idle isLive header magic leaves =>
      exact watching.unregister sound isLive header
        ((own info header magic).trans sound.refines.level) leaves.live
  | @pushes thread address _ idle leaves =>
      have new : (observe watches w ⟨thread, .push address⟩ after (g.level + 1)).made = [] := by
        have pushed : w.tracker.traceLevel < g.level + 1 := by rw [sound.refines.level]; omega
        have noneBorn : w.live.filter (fun node => node ∉ w.live) = [] :=
          List.filter_eq_nil_iff.mpr (by simp)
        simp only [observe, if_pos pushed, Watch.see, Watch.empty, leaves.live, noneBorn,
          List.filter_nil, List.append_nil]
      have made := keeps leaves.live
      constructor
      · intro level levelIn
        rcases Nat.lt_or_eq_of_le (show level ≤ g.level + 1 from levelIn) with below | rfl
        · rw [made level (by omega), leaves.live]
          exact watching.part level (by omega)
        · rw [new]
          exact List.nil_sublist _
      · change (observe watches w ⟨thread, .push address⟩ after (g.level + 1)).made.Perm _
        rw [new]
        simp [Ledger.push]
      · intro level below
        replace below : level < g.level + 1 := below
        have old : level ≠ g.level + 1 := by omega
        simp only [Ledger.push, Function.update_of_ne old]
        rw [made level (by omega)]
        rcases Nat.lt_or_eq_of_le (Nat.lt_succ_iff.mp below) with inside | rfl
        · rw [made (level + 1) inside]
          exact watching.outer level inside
        · rw [new, List.append_nil]
          exact watching.innermost
  | @pops thread op _ isPop free above leaves =>
      have made := keeps leaves.live
      constructor
      · intro level levelIn
        replace levelIn : level ≤ g.level - 1 := levelIn
        rw [made level (by omega), leaves.live]
        exact watching.part level (by omega)
      · change (observe watches w ⟨thread, op⟩ after (g.level - 1)).made.Perm _
        have outer := watching.outer (g.level - 1) (by omega)
        rw [Nat.sub_add_cancel above] at outer
        rw [made _ (Nat.sub_le _ _)]
        simp only [Ledger.pop, Function.update_self]
        have inside := watching.innermost.trans (List.reverse_perm _).symm
        exact (outer.trans (List.Perm.append_left _ inside)).trans List.perm_append_comm
      · intro level below
        replace below : level < g.level - 1 := below
        have notParent : level ≠ g.level - 1 := by omega
        rw [made level (by omega), made (level + 1) (by omega)]
        simp only [Ledger.pop, Function.update_of_ne notParent]
        exact watching.outer level (by omega)
  | _ =>
      rename_i leaves
      exact watching.same leaves.live (keeps leaves.live) rfl rfl

end Watching

structure Observed (w : World) (watches : Nat → Watch) (g : Ledger) : Prop where
  sound : Sound w g
  alone : Alone w
  balanced : ∀ gauge : Gauge, gauge.Balanced w g
  watching : Watching w watches g
  roomy : Roomy w

theorem Observed.start (freePool : Bool) :
    Observed (World.start freePool) (fun _ => .empty) .start where
  sound := .start freePool
  alone := .start freePool
  balanced := fun _ => .start freePool
  watching := ⟨fun _ _ => List.Sublist.refl _, List.Perm.refl _, fun _ below => absurd below (by
    simp [Ledger.start])⟩
  roomy := ⟨(by decide : 0 < 2 ^ 64), fun _ holds => by cases holds⟩

theorem Observed.step {config : Config} {w after : World} {g g' : Ledger} {action : Action}
    {watches : Nat → Watch} (observed : Observed w watches g) (inSequence : InSequence w action)
    (asksInFull : AsksInFull w action) (effect : Effect config w g action after g')
    (kept : Sound after g') :
    Observed after (observe watches w action after) g' where
  sound := kept
  alone := observed.alone.step inSequence.1 effect
  balanced := fun gauge => (observed.balanced gauge).step observed.sound inSequence.2 effect
  watching := observed.watching.step observed.sound inSequence.2 effect
  roomy := observed.roomy.step observed.sound inSequence.1 asksInFull effect

/-! ## The peaks of a gauge -/

structure PeakGauge extends Gauge where
  most : Watch → Nat
  empty_most : most .empty = 0
  see_most : ∀ (watch : Watch) (info : Ptr → Option AllocInfo) (restart : Bool)
    (made : List Ptr), most (watch.see info restart made) =
      max (if restart then 0 else most watch) (toGauge.total info made)

def allocPeak : PeakGauge where
  toGauge := allocGauge
  most := Watch.mostAlloc
  empty_most := rfl
  see_most := fun _ _ _ _ => by rw [total_allocGauge]; rfl

def sizePeak : PeakGauge where
  toGauge := sizeGauge
  most := Watch.mostSize
  empty_most := rfl
  see_most := fun _ _ _ _ => rfl

def Gauge.currentAt (gauge : Gauge) (g : Ledger) (level : Nat) : Nat :=
  (gauge.current (g.metrics level)).toNat

def Gauge.peakAt (gauge : Gauge) (g : Ledger) (level : Nat) : Nat :=
  (gauge.peak (g.metrics level)).toNat

/-- The peaks of the levels account for what the watches have seen. -/
structure PeakGauge.Seen (gauge : PeakGauge) (watches : Nat → Watch) (g : Ledger) : Prop where
  peaks : Lib.Peaks g.level (gauge.currentAt g) (gauge.peakAt g) fun level =>
    gauge.most (watches level)
  bounded : ∀ level ≤ g.level, gauge.most (watches level) < 2 ^ 64

section Seen

variable {gauge : PeakGauge} {config : Config} {w after : World} {g g' : Ledger}
variable {action : Action} {watches : Nat → Watch}

/-- Under a watch nothing wraps around. -/
theorem currentAt_eq {level : Nat} (observed : Observed w watches g) (inUse : level ≤ g.level) :
    gauge.currentAt g level = gauge.total w.tracker.entries.info (g.lists level) := by
  have part : gauge.total w.tracker.entries.info (g.lists level) ≤
      gauge.total w.tracker.entries.info (watches level).made := by
    rcases Nat.lt_or_eq_of_le inUse with below | rfl
    · rw [total_perm (observed.watching.outer level below), total_append]
      exact Nat.le_add_right _ _
    · exact Nat.le_of_eq (total_perm observed.watching.innermost.symm)
  have whole : gauge.total w.tracker.entries.info (watches level).made ≤ w.span :=
    total_le_span (observed.watching.part level inUse)
  have fits := observed.roomy.live
  rw [Gauge.currentAt, observed.balanced gauge.toGauge level inUse, UInt64.toNat_ofNat_of_lt']
  exact Nat.lt_of_le_of_lt (Nat.le_trans part whole) fits

theorem amounts (observed : Observed w watches g) :
    Lib.Amounts g.level (gauge.currentAt g) fun level =>
      gauge.total w.tracker.entries.info (watches level).made where
  innermost := by
    rw [currentAt_eq observed (Nat.le_refl _), total_perm observed.watching.innermost]
  outer := fun level below => by
    rw [currentAt_eq observed (Nat.le_of_lt below),
      total_perm (observed.watching.outer level below), total_append]

/-- What a watch that was there has seen after a step. -/
theorem most_observe {level : Nat} (inUse : level ≤ w.tracker.traceLevel)
    (notReset : action.op ≠ .reset) : gauge.most (observe watches w action after level) =
      max (gauge.most (watches level)) (gauge.total after.tracker.entries.info
        (observe watches w action after level).made) := by
  have old : ¬ w.tracker.traceLevel < level := by omega
  have restart : decide (action.op = Op.reset) = false := by simpa using notReset
  simp only [observe, if_neg old, gauge.see_most, restart]
  rfl

theorem toNat_max (a b : UInt64) : (max a b).toNat = max a.toNat b.toNat := by
  change (if a ≤ b then b else a).toNat = _
  split
  next le => exact (Nat.max_eq_right (UInt64.le_iff_toNat_le.mp le)).symm
  next gt =>
    have less : b.toNat < a.toNat := by
      simpa [UInt64.le_iff_toNat_le] using gt
    exact (Nat.max_eq_left (Nat.le_of_lt less)).symm

theorem Observed.inUse {level : Nat} (observed : Observed w watches g)
    (inUse : level ≤ g.level) : level ≤ w.tracker.traceLevel := by
  rw [observed.sound.refines.level]
  exact inUse

/-- The blocks of a watch weigh the same after a step. -/
theorem Effect.total_made {gauge : Gauge} (effect : Effect config w g action after g')
    (sound : Sound w g) {nodes : List Ptr} (part : nodes.Sublist w.live) :
    gauge.total after.tracker.entries.info nodes = gauge.total w.tracker.entries.info nodes :=
  effect.total sound fun entry member => (sound.live entry).mp (part.subset member)

/-- Without new blocks a watch has seen what it had seen. -/
theorem most_same {level : Nat} (seen : gauge.Seen watches g) (observed : Observed w watches g)
    (effect : Effect config w g action after g') (notReset : action.op ≠ .reset)
    (live : after.live = w.live) (inUse : level ≤ g.level) :
    gauge.most (observe watches w action after level) = gauge.most (watches level) := by
  have part := observed.watching.part level inUse
  have below := seen.peaks.whole_le (amounts observed) level inUse
  rw [most_observe (observed.inUse inUse) notReset, made_same (observed.inUse inUse) live part,
    effect.total_made observed.sound part, Nat.max_eq_left below]

theorem bounded_observe {level : Nat} (seen : gauge.Seen watches g)
    (observed : Observed w watches g)
    (later : Observed after (observe watches w action after) g') (notReset : action.op ≠ .reset)
    (inUse : level ≤ g.level) (stillInUse : level ≤ g'.level) :
    gauge.most (observe watches w action after level) < 2 ^ 64 := by
  have whole : gauge.total after.tracker.entries.info
      (observe watches w action after level).made ≤ after.span :=
    total_le_span (later.watching.part level stillInUse)
  have fits := later.roomy.live
  have before := seen.bounded level inUse
  rw [most_observe (observed.inUse inUse) notReset]
  omega

/-- A step that leaves the metrics, the lists and the live blocks. -/
theorem PeakGauge.Seen.same (seen : gauge.Seen watches g) (observed : Observed w watches g)
    (effect : Effect config w g action after g) (notReset : action.op ≠ .reset)
    (live : after.live = w.live) : gauge.Seen (observe watches w action after) g := by
  have mosts : ∀ level ≤ g.level, gauge.most (observe watches w action after level) =
      gauge.most (watches level) := fun level inUse =>
    most_same seen observed effect notReset live inUse
  refine ⟨⟨seen.peaks.covers, ?_, fun level below => ?_⟩, fun level inUse => ?_⟩
  · rw [mosts g.level (Nat.le_refl _)]
    exact seen.peaks.innermost
  · rw [mosts level (Nat.le_of_lt below), mosts (level + 1) below]
    exact seen.peaks.outer level below
  · rw [mosts level inUse]
    exact seen.bounded level inUse

theorem PeakGauge.Seen.register {entry : Ptr} {info : AllocInfo} (seen : gauge.Seen watches g)
    (observed : Observed w watches g) (notReset : action.op ≠ .reset) (fresh : entry ∉ w.live)
    (live : after.live = entry :: w.live)
    (size : blockSize after.tracker.entries.info entry = info.size)
    (effect : Effect config w g action after (g.register entry info.size))
    (later : Observed after (observe watches w action after) (g.register entry info.size)) :
    gauge.Seen (observe watches w action after) (g.register entry info.size) := by
  have here := Nat.le_refl g.level
  have gains : gauge.currentAt (g.register entry info.size) g.level =
      gauge.currentAt g g.level + (gauge.weight info.size).toNat := by
    have after' : gauge.currentAt _ g.level = _ := currentAt_eq later here
    rw [currentAt_eq observed here, after']
    simp only [Ledger.register, Function.update_self, total_cons] at effect ⊢
    rw [effect.total_list observed.sound here, size, Nat.add_comm]
  refine ⟨seen.peaks.gain (amounts observed) gains ?_ ?_ ?_ ?_, ?_⟩
  · intro level below
    simp [Gauge.currentAt, Ledger.register, Nat.ne_of_lt below]
  · rw [← gains]
    simp only [Gauge.peakAt, Gauge.currentAt, Ledger.register, Function.update_self]
    rw [gauge.gain_peak, gauge.gain_current, toNat_max]
  · intro level below
    simp [Gauge.peakAt, Ledger.register, Nat.ne_of_lt below]
  · intro level inUse
    have part := observed.watching.part level inUse
    rw [most_observe (observed.inUse inUse) notReset,
      made_born (observed.inUse inUse) live fresh part, total_cons, size,
      effect.total_made observed.sound part, Nat.add_comm]
  · exact fun level inUse => bounded_observe seen observed later notReset inUse inUse

/-- A block of the current level is given back. -/
theorem PeakGauge.Seen.unregister {ptr : Ptr} {info : AllocInfo} (seen : gauge.Seen watches g)
    (observed : Observed w watches g) (notReset : action.op ≠ .reset) (isLive : ptr ∈ w.live)
    (header : w.tracker.entries.info ptr = some info) (own : info.level = g.level)
    (live : after.live = w.live.erase ptr)
    (effect : Effect config w g action after (g.unregister ptr info.level info.size))
    (later : Observed after (observe watches w action after)
      (g.unregister ptr info.level info.size)) :
    gauge.Seen (observe watches w action after) (g.unregister ptr info.level info.size) := by
  have sound := observed.sound
  obtain ⟨found, found', -, member⟩ := sound.refines.has_info ((sound.live ptr).mp isLive)
  obtain rfl := Option.some.inj (found'.symm.trans header)
  rw [own] at member
  have here := Nat.le_refl g.level
  have loses : gauge.currentAt (g.unregister ptr found.level found.size) g.level ≤
      gauge.currentAt g g.level := by
    have stays : ∀ entry ∈ (g.lists g.level).erase ptr, g.Has entry := fun entry inList =>
      ⟨g.level, here, List.mem_of_mem_erase inList⟩
    have after' : gauge.currentAt _ g.level = _ := currentAt_eq later here
    rw [currentAt_eq observed here, after', total_erase member]
    simp only [Ledger.unregister, own, Function.update_self] at effect ⊢
    rw [effect.total sound stays]
    exact Nat.le_add_left _ _
  have less : ∀ level ≤ g.level, gauge.total after.tracker.entries.info
      (observe watches w action after level).made ≤
        gauge.total w.tracker.entries.info (watches level).made := by
    intro level inUse
    have part := observed.watching.part level inUse
    rw [made_gone (observed.inUse inUse) live sound.nodup part,
      effect.total_made sound (List.filter_sublist.trans part)]
    exact (List.filter_sublist.map _).sum_le_sum fun _ _ => Nat.zero_le _
  refine ⟨seen.peaks.lose (amounts observed) loses ?_ ?_ less ?_, ?_⟩
  · intro level below
    simp [Gauge.currentAt, Ledger.unregister, Nat.ne_of_lt below]
  · intro level inUse
    rcases Nat.lt_or_eq_of_le inUse with below | rfl
    · simp [Gauge.peakAt, Ledger.unregister, Nat.ne_of_lt below]
    · simp [Gauge.peakAt, Ledger.unregister, gauge.lose_peak]
  · exact fun level inUse => most_observe (observed.inUse inUse) notReset
  · exact fun level inUse => bounded_observe seen observed later notReset inUse inUse

/-- A level is pushed, with a watch that has seen nothing. -/
theorem PeakGauge.Seen.push (seen : gauge.Seen watches g) (observed : Observed w watches g)
    (notReset : action.op ≠ .reset) (live : after.live = w.live)
    (effect : Effect config w g action after g.push)
    (later : Observed after (observe watches w action after) g.push) :
    gauge.Seen (observe watches w action after) g.push := by
  have newMost : gauge.most (observe watches w action after (g.level + 1)) = 0 := by
    have pushed : w.tracker.traceLevel < g.level + 1 := by
      rw [observed.sound.refines.level]; omega
    have empty : (observe watches w action after (g.level + 1)).made = [] := by
      have innermost : (observe watches w action after (g.level + 1)).made.Perm
          (g.push.lists (g.level + 1)) := later.watching.innermost
      simpa [Ledger.push] using innermost
    have restart : decide (action.op = Op.reset) = false := by simpa using notReset
    have seen' : gauge.most (observe watches w action after (g.level + 1)) =
        max (gauge.most .empty) (gauge.total after.tracker.entries.info
          (observe watches w action after (g.level + 1)).made) := by
      simp only [observe, if_pos pushed, gauge.see_most, restart]
      rfl
    rw [seen', empty, gauge.empty_most]
    rfl
  have mosts : ∀ level ≤ g.level, gauge.most (observe watches w action after level) =
      gauge.most (watches level) := fun level inUse =>
    most_same seen observed effect notReset live inUse
  refine ⟨seen.peaks.push ?_ ?_ newMost ?_ ?_ mosts, fun level inUse => ?_⟩
  · simp [Gauge.currentAt, Ledger.push, gauge.zero_current]
  · simp [Gauge.peakAt, Ledger.push, gauge.zero_peak]
  · intro level inUse
    simp [Gauge.currentAt, Ledger.push, Nat.ne_of_lt (Nat.lt_succ_of_le inUse)]
  · intro level inUse
    simp [Gauge.peakAt, Ledger.push, Nat.ne_of_lt (Nat.lt_succ_of_le inUse)]
  · rcases Nat.lt_or_eq_of_le (show level ≤ g.level + 1 from inUse) with below | rfl
    · rw [mosts level (by omega)]
      exact seen.bounded level (by omega)
    · rw [newMost]
      decide

/-- The current level is popped, where the peaks add up. -/
theorem PeakGauge.Seen.pop (seen : gauge.Seen watches g) (observed : Observed w watches g)
    (notReset : action.op ≠ .reset) (above : 0 < g.level) (live : after.live = w.live)
    (adds : gauge.peak (g.metrics g.level) = 0 ∨
      gauge.current (g.metrics (g.level - 1)) = gauge.peak (g.metrics (g.level - 1)))
    (effect : Effect config w g action after g.pop)
    (later : Observed after (observe watches w action after) g.pop) :
    gauge.Seen (observe watches w action after) g.pop := by
  obtain ⟨top, isTop⟩ : ∃ top, g.level = top + 1 := ⟨g.level - 1, by omega⟩
  have parent : g.level - 1 = top := by omega
  have peaks : Lib.Peaks (top + 1) (gauge.currentAt g) (gauge.peakAt g) fun level =>
      gauge.most (watches level) := isTop ▸ seen.peaks
  have mosts : ∀ level ≤ top, gauge.most (observe watches w action after level) =
      gauge.most (watches level) := fun level inUse =>
    most_same seen observed effect notReset live (by omega)
  replace adds : gauge.peakAt g (top + 1) = 0 ∨ gauge.currentAt g top = gauge.peakAt g top := by
    rw [parent, isTop] at adds
    exact adds.imp (congrArg UInt64.toNat) (congrArg UInt64.toNat)
  have merged :
      gauge.currentAt g.pop top = gauge.currentAt g top + gauge.currentAt g (top + 1) := by
    have stillIn : top ≤ g.pop.level := Nat.le_of_eq parent.symm
    rw [currentAt_eq later stillIn, currentAt_eq observed (by omega),
      currentAt_eq observed (by omega)]
    simp only [Ledger.pop, isTop, Nat.add_sub_cancel, Function.update_self, total_append]
    rw [total_perm (List.reverse_perm _), effect.total_list observed.sound (by omega),
      effect.total_list observed.sound (by omega), Nat.add_comm]
  have fits : gauge.peakAt g top + gauge.peakAt g (top + 1) < 2 ^ 64 := by
    have most := peaks.outer top (Nat.lt_succ_self top)
    have inner := peaks.innermost
    have bound := seen.bounded top (by omega)
    omega
  have mergedPeak : gauge.peakAt g.pop top = gauge.peakAt g top + gauge.peakAt g (top + 1) := by
    simp only [Gauge.peakAt, Ledger.pop, isTop, Nat.add_sub_cancel, Function.update_self]
    rw [gauge.merge_peak, UInt64.toNat_add]
    exact Nat.mod_eq_of_lt fits
  have popped := peaks.pop adds merged mergedPeak (fun level below => ?_) (fun level below => ?_)
    mosts
  · have level : g.pop.level = top := parent
    refine ⟨level.symm ▸ popped, fun level inUse => ?_⟩
    replace inUse : level ≤ g.level - 1 := inUse
    rw [mosts level (by omega)]
    exact seen.bounded level (by omega)
  · simp [Gauge.currentAt, Ledger.pop, parent, Nat.ne_of_lt below]
  · simp [Gauge.peakAt, Ledger.pop, parent, Nat.ne_of_lt below]

theorem PeakGauge.Seen.reset (observed : Observed w watches g) (isReset : action.op = .reset)
    (live : after.live = w.live) (nothing : w.live = [])
    (later : Observed after (observe watches w action after) g.reset) :
    gauge.Seen (observe watches w action after) g.reset := by
  have empty : ∀ level ≤ g.level, (observe watches w action after level).made = [] := by
    intro level inUse
    have part := later.watching.part level inUse
    rw [live, nothing] at part
    exact List.sublist_nil.mp part
  have noMost : ∀ level ≤ g.level, gauge.most (observe watches w action after level) = 0 := by
    intro level inUse
    have old : ¬ w.tracker.traceLevel < level := by
      have inUse' := observed.inUse inUse
      omega
    have restart : decide (action.op = Op.reset) = true := by simpa using isReset
    have seen' : gauge.most (observe watches w action after level) =
        max 0 (gauge.total after.tracker.entries.info
          (observe watches w action after level).made) := by
      simp only [observe, if_neg old, gauge.see_most, restart]
      rfl
    rw [seen', empty level inUse]
    rfl
  refine ⟨Lib.Peaks.reset ?_ ?_ noMost, fun level inUse => ?_⟩
  · intro level inUse
    have lists : g.lists level = [] := by
      apply List.eq_nil_iff_forall_not_mem.mpr
      intro entry member
      have isLive := (observed.sound.live entry).mpr ⟨level, inUse, member⟩
      rw [nothing] at isLive
      exact List.not_mem_nil isLive
    have now : gauge.currentAt g.reset level = _ := currentAt_eq later inUse
    rw [now]
    change gauge.total _ (g.lists level) = 0
    rw [lists, total_nil]
  · intro level _
    simp [Gauge.peakAt, Ledger.reset, gauge.reset_peak]
  · rw [noMost level inUse]
    decide

theorem PeakGauge.Seen.step (seen : gauge.Seen watches g) (observed : Observed w watches g)
    (inSequence : InSequence w action)
    (adds : action.op = .pop ∨ action.op = .popEnd → 0 < g.level →
      gauge.peak (g.metrics g.level) = 0 ∨
        gauge.current (g.metrics (g.level - 1)) = gauge.peak (g.metrics (g.level - 1)))
    (nothing : action.op = .reset → w.live = [])
    (effect : Effect config w g action after g')
    (later : Observed after (observe watches w action after) g') :
    gauge.Seen (observe watches w action after) g' := by
  have whole := effect
  cases effect with
  | nothing notReset => exact seen.same observed whole notReset rfl
  | @allocates thread op size file line address _ notReset idle free asked room leaves =>
      exact seen.same observed whole notReset leaves.live
  | @registers thread op entry info _ notReset here header leaves =>
      have fresh : entry ∉ w.live := fun isLive =>
        (observed.sound.holding.there thread entry (holds_of_registers here)).2
          ((observed.sound.live entry).mp isLive)
      have size : blockSize after.tracker.entries.info entry = info.size := by
        rw [leaves.info]
        exact blockSize_self
      exact seen.register observed notReset fresh leaves.live size whole later
  | @takes thread ptr size freeOnFailure file line info _ idle isLive header magic leaves =>
      exact seen.unregister observed (by simp) isLive header
        ((inSequence.2 info header magic).trans observed.sound.refines.level) leaves.live whole
        later
  | @frees thread ptr file line info _ idle isLive header magic leaves =>
      exact seen.unregister observed (by simp) isLive header
        ((inSequence.2 info header magic).trans observed.sound.refines.level) leaves.live whole
        later
  | pushes idle leaves => exact seen.push observed (by simp) leaves.live whole later
  | @pops thread op _ isPop free above leaves =>
      have notReset : op ≠ .reset := by
        rintro rfl
        rcases isPop with isPop | isPop <;> cases isPop
      exact seen.pop observed notReset above leaves.live (adds isPop above) whole later
  | resets idle leaves => exact .reset observed rfl leaves.live (nothing rfl) later
  | _ =>
      rename_i leaves
      exact seen.same observed whole (by simp) leaves.live

theorem PeakGauge.Seen.start : gauge.Seen (fun _ => .empty) .start where
  peaks := Lib.Peaks.reset (fun _ _ => congrArg UInt64.toNat gauge.zero_current)
    (fun _ _ => congrArg UInt64.toNat gauge.zero_peak) (fun _ _ => gauge.empty_most)
  bounded := fun _ _ => by rw [gauge.empty_most]; decide

end Seen

/-! ## Runs -/

section Runs

variable {config : Config} {freePool : Bool} {s : Watched}

theorem seen_of_run (run : Lib.Reaches (watchedStep config) Adding (Watched.start freePool) s) :
    ∃ g, Observed s.world s.watches g ∧ allocPeak.Seen s.watches g ∧
      sizePeak.Seen s.watches g := by
  apply run.invariant ⟨_, .start freePool, .start, .start⟩
  rintro before action after ⟨g, observed, allocSeen, sizeSeen⟩
    ⟨inSequence, adds, asksInFull⟩ stepped
  obtain ⟨world, did, rfl⟩ := Option.map_eq_some_iff.mp stepped
  have calm := observed.alone.undisturbed inSequence.1 did
  obtain ⟨g', effect, kept⟩ := observed.sound.step calm did
  have later := observed.step inSequence asksInFull effect kept
  have both : action.op = .pop ∨ action.op = .popEnd → 0 < g.level →
      ((g.metrics g.level).peakAlloc = 0 ∨
        (g.metrics (g.level - 1)).currentAlloc = (g.metrics (g.level - 1)).peakAlloc) ∧
      ((g.metrics g.level).peakSize = 0 ∨
        (g.metrics (g.level - 1)).currentSize = (g.metrics (g.level - 1)).peakSize) := by
    intro isPop above
    have refines := observed.sound.refines
    have pops : 0 < before.world.tracker.traceLevel →
        ∀ up ∈ before.world.tracker.tracepointAt (before.world.tracker.traceLevel - 1),
          ∀ tp ∈ before.world.tracker.tracepointAt before.world.tracker.traceLevel,
            (tp.peakAlloc = 0 ∨ up.currentAlloc = up.peakAlloc) ∧
              (tp.peakSize = 0 ∨ up.currentSize = up.peakSize) := by
      rcases isPop with isPop | isPop <;> simpa only [PeaksAdd, isPop] using adds
    rw [refines.level] at pops
    exact pops above _ (refines.tracepointAt (Nat.sub_le _ _)) _
      (refines.tracepointAt (Nat.le_refl _))
  have nothing : action.op = .reset → before.world.live = [] := by
    intro isReset
    simpa only [PeaksAdd, isReset] using adds
  exact ⟨g', later,
    allocSeen.step observed inSequence (fun isPop above => (both isPop above).1) nothing effect
      later,
    sizeSeen.step observed inSequence (fun isPop above => (both isPop above).2) nothing effect
      later⟩

/-- After every sequence of calls with peaks that add up, the peaks of the current
level are the true ones. -/
theorem peaks_are_true (run : Lib.Reaches (watchedStep config) Adding (Watched.start freePool) s) :
    TruePeaks s := by
  obtain ⟨g, observed, allocSeen, sizeSeen⟩ := seen_of_run run
  have refines := observed.sound.refines
  refine ⟨_, refines.level ▸ refines.tracepointAt (Nat.le_refl _), ?_, ?_⟩
  · rw [refines.level]
    exact allocSeen.peaks.innermost.symm
  · rw [refines.level]
    exact sizeSeen.peaks.innermost.symm

end Runs

/-- A level is pushed while its parent is at its peak, and has one of its own. -/
def nestedLevels : List Action :=
  [⟨0, .malloc 8 "a.c" 1 16⟩, ⟨0, .register⟩, ⟨0, .push 1⟩, ⟨0, .malloc 24 "a.c" 2 32⟩,
    ⟨0, .register⟩, ⟨0, .free 32 "a.c" 3⟩, ⟨0, .release⟩, ⟨0, .pop⟩, ⟨0, .free 16 "a.c" 4⟩,
    ⟨0, .release⟩]

theorem peaks_are_true_nestedLevels : ∃ s,
    Lib.replay (watchedStep defaultConfig) (Watched.start true) nestedLevels = some s ∧
      TruePeaks s := by
  obtain ⟨s, replayed⟩ : ∃ s,
    Lib.replay (watchedStep defaultConfig) (Watched.start true) nestedLevels = some s := ⟨_, rfl⟩
  have adding : Lib.MeetsAll (watchedStep defaultConfig) Adding (Watched.start true)
      nestedLevels := by
    decide +kernel
  exact ⟨s, replayed, peaks_are_true (.of_replay replayed adding)⟩

def sequentialLevels : List Action :=
  [⟨0, .push 1⟩, ⟨0, .malloc 8 "a.c" 1 16⟩, ⟨0, .register⟩, ⟨0, .free 16 "a.c" 2⟩,
    ⟨0, .release⟩, ⟨0, .pop⟩, ⟨0, .push 1⟩, ⟨0, .malloc 8 "a.c" 3 16⟩, ⟨0, .register⟩,
    ⟨0, .free 16 "a.c" 4⟩, ⟨0, .release⟩, ⟨0, .pop⟩]

/-- The outer level has a peak of two blocks, and never had more than one. -/
theorem peaks_of_sequentialLevels : ∃ s,
    Lib.Reaches (watchedStep defaultConfig) Lib.Always (Watched.start true) s ∧
      ¬ TruePeaks s := by
  obtain ⟨s, replayed⟩ : ∃ s,
    Lib.replay (watchedStep defaultConfig) (Watched.start true) sequentialLevels = some s :=
      ⟨_, rfl⟩
  have facts : (Lib.replay (watchedStep defaultConfig) (Watched.start true) sequentialLevels).map
      (fun s => (s.world.tracker.traceLevel,
        (s.world.tracker.tracepointAt 0).map fun tp => tp.peakAlloc, (s.watches 0).mostAlloc)) =
        some (0, some 2, 1) := by decide +kernel
  rw [replayed] at facts
  simp only [Option.map_some, Option.some.injEq, Prod.mk.injEq] at facts
  obtain ⟨level, peak, most⟩ := facts
  refine ⟨s, .of_replay replayed (Lib.meetsAll_always _ _), ?_⟩
  rintro ⟨tp, here, counted, -⟩
  rw [level] at here counted
  rw [here, Option.map_some, Option.some.injEq] at peak
  rw [peak, most] at counted
  exact absurd counted (by decide)

end Ucb.Memdbg
