import Mathlib.Data.UInt
import Ucb.Memdbg.Lists

/-!
Contract: the counters of the levels over sequences of calls.

Owns:
- that the calls of one thread are undisturbed;
- `Gauge`, a counter with the weight each block has for it, for the number of
  blocks and for their sizes;
- `OwnLevel`, that a block is given back at its own level, and that the counters
  then match the lists in every state of a run;
- the counters after a block of an outer level has been freed.
-/

namespace Ucb.Memdbg

/-! ## One thread -/

/-- Only one thread is in a call, and what it has to find later has not changed. -/
structure Alone (w : World) : Prop where
  others : ∀ thread ≠ 0, w.threads thread = .idle
  calm : Undisturbed w ⟨0, .popEnd⟩
  freed : ∀ entry, w.threads 0 = .reregistering entry true → w.tracker.entries.info entry = none

section Alone

variable {config : Config} {w after : World} {g g' : Ledger} {action : Action}

theorem undisturbed_popEnd {thread : Nat}
    (elsewhere : ∀ address entry, w.threads thread ≠ .reporting address entry) :
    Undisturbed w ⟨thread, .popEnd⟩ := by
  cases here : w.threads thread with
  | reporting address entry => exact absurd here (elsewhere address entry)
  | _ => simp [Undisturbed, here]

/-- No step of the only thread in a call is disturbed. -/
theorem Alone.undisturbed (alone : Alone w) (first : action.thread = 0)
    (stepped : step config w action = some after) : Undisturbed w action := by
  obtain ⟨thread, op⟩ := action
  obtain rfl : thread = 0 := first
  cases op with
  | popEnd => exact alone.calm
  | reregister =>
      simp only [step, reregister] at stepped
      split at stepped
      next entry freed here =>
        cases freed with
        | false => simp [Undisturbed, here]
        | true =>
            obtain ⟨t, did, -⟩ := Option.map_eq_some_iff.mp stepped
            obtain ⟨-, -, found, -, -, -, header, -⟩ := registerAlloc_eq_some.mp did
            exact absurd ((info_of_lookup header).symm.trans (alone.freed entry here)) (by simp)
      next => cases stepped
  | _ => trivial

/-- The thread moves on to a point where nothing has to be found later. -/
theorem Alone.of_leaves {point : Point} {info : Ptr → Option AllocInfo} {log : List FreeMeta}
    {live : List Ptr} (alone : Alone w) (leaves : Leaves w after 0 point info log live)
    (notReporting : ∀ address entry, point ≠ .reporting address entry)
    (freed : ∀ entry, point = .reregistering entry true → info entry = none) : Alone after where
  others := fun thread other => by
    rw [leaves.threads, Function.update_of_ne other]
    exact alone.others thread other
  calm := undisturbed_popEnd fun address entry => by
    rw [leaves.threads, Function.update_self]
    exact notReporting address entry
  freed := fun entry => by
    rw [leaves.threads, Function.update_self, leaves.info]
    exact freed entry

theorem Alone.step (alone : Alone w) (first : action.thread = 0)
    (effect : Effect config w g action after g') : Alone after := by
  cases effect with
  | nothing notReset => exact alone
  | @reports thread address entry _ idle calm leaves =>
      obtain rfl : thread = 0 := first
      refine ⟨fun other different => ?_, calm, fun node => ?_⟩
      · rw [leaves.threads, Function.update_of_ne different]
        exact alone.others other different
      · rw [leaves.threads, Function.update_self]
        simp
  | @releases thread entry freeOnFailure _ here leaves =>
      obtain rfl : thread = 0 := first
      apply alone.of_leaves leaves
      · intro address node; split <;> simp
      · intro node
        split
        · simp
        · intro same
          obtain ⟨rfl, -⟩ := Point.reregistering.inj same
          simp [World.infoWith]
  | @takes thread ptr size freeOnFailure file line info _ idle isLive header magic leaves =>
      obtain rfl : thread = 0 := first
      apply alone.of_leaves leaves
      · intro address node; split <;> simp
      · intro node; split <;> simp
  | _ =>
      rename_i leaves
      simp only at first
      subst first
      exact alone.of_leaves leaves (by simp) (by simp)

theorem Alone.start (freePool : Bool) : Alone (World.start freePool) where
  others := fun _ _ => rfl
  calm := trivial
  freed := fun _ here => by cases here

end Alone

/-! ## Gauges -/

/-- A counter of a level with its peak, and the weight of a block for it. -/
structure Gauge where
  current : Metrics → UInt64
  peak : Metrics → UInt64
  weight : UInt64 → UInt64
  weight_le : ∀ size, (weight size).toNat ≤ metaSize + size.toNat
  zero_current : current .zero = 0
  zero_peak : peak .zero = 0
  gain_current : ∀ metrics size, current (metrics.gain size) = current metrics + weight size
  gain_peak : ∀ metrics size,
    peak (metrics.gain size) = max (current metrics + weight size) (peak metrics)
  lose_current : ∀ metrics size, current (metrics.lose size) = current metrics - weight size
  lose_peak : ∀ metrics size, peak (metrics.lose size) = peak metrics
  merge_current : ∀ up tp : Metrics, current (up.merge tp) = current up + current tp
  merge_peak : ∀ up tp : Metrics, peak (up.merge tp) = peak up + peak tp
  reset_current : ∀ metrics : Metrics, current metrics.reset = current metrics
  reset_peak : ∀ metrics : Metrics, peak metrics.reset = 0

/-- `current_alloc` counts the blocks. -/
def allocGauge : Gauge where
  current := Metrics.currentAlloc
  peak := Metrics.peakAlloc
  weight := fun _ => 1
  weight_le := fun _ => Nat.le_trans (by decide : 1 ≤ metaSize) (Nat.le_add_right _ _)
  zero_current := rfl
  zero_peak := rfl
  gain_current := fun _ _ => rfl
  gain_peak := fun _ _ => rfl
  lose_current := fun _ _ => rfl
  lose_peak := fun _ _ => rfl
  merge_current := fun _ _ => rfl
  merge_peak := fun _ _ => rfl
  reset_current := fun _ => rfl
  reset_peak := fun _ => rfl

/-- `current_size` adds up their sizes. -/
def sizeGauge : Gauge where
  current := Metrics.currentSize
  peak := Metrics.peakSize
  weight := id
  weight_le := fun _ => Nat.le_add_left _ _
  zero_current := rfl
  zero_peak := rfl
  gain_current := fun _ _ => rfl
  gain_peak := fun _ _ => rfl
  lose_current := fun _ _ => rfl
  lose_peak := fun _ _ => rfl
  merge_current := fun _ _ => rfl
  merge_peak := fun _ _ => rfl
  reset_current := fun _ => rfl
  reset_peak := fun _ => rfl

/-- The weight of some blocks together. -/
def Gauge.total (gauge : Gauge) (info : Ptr → Option AllocInfo) (nodes : List Ptr) : Nat :=
  (nodes.map fun entry => (gauge.weight (blockSize info entry)).toNat).sum

section Total

variable {gauge : Gauge} {info info' : Ptr → Option AllocInfo} {nodes others : List Ptr}

@[simp]
theorem total_nil : gauge.total info [] = 0 :=
  rfl

@[simp]
theorem total_cons (entry : Ptr) : gauge.total info (entry :: nodes) =
    (gauge.weight (blockSize info entry)).toNat + gauge.total info nodes :=
  List.sum_cons

@[simp]
theorem total_append :
    gauge.total info (nodes ++ others) = gauge.total info nodes + gauge.total info others := by
  simp [Gauge.total]

theorem total_perm (same : nodes.Perm others) :
    gauge.total info nodes = gauge.total info others :=
  (same.map _).sum_eq

theorem total_erase {entry : Ptr} (member : entry ∈ nodes) :
    gauge.total info nodes =
      (gauge.weight (blockSize info entry)).toNat + gauge.total info (nodes.erase entry) := by
  rw [total_perm (List.perm_cons_erase member), total_cons]

theorem total_congr (same : ∀ entry ∈ nodes, blockSize info' entry = blockSize info entry) :
    gauge.total info' nodes = gauge.total info nodes := by
  unfold Gauge.total
  rw [List.map_congr_left fun entry member => by rw [same entry member]]

theorem total_allocGauge : allocGauge.total info nodes = nodes.length := by
  simp [Gauge.total, allocGauge]

end Total

/-! ## Sizes do not change -/

section Sizes

variable {config : Config} {w after : World} {g g' : Ledger} {action : Action}

theorem blockSize_of_info {info : Ptr → Option AllocInfo} {entry : Ptr} {found : AllocInfo}
    (here : info entry = some found) : blockSize info entry = found.size := by
  rw [blockSize, here]; rfl

theorem blockSize_self {info : Ptr → Option AllocInfo} {entry : Ptr} {new : AllocInfo} :
    blockSize (Function.update info entry (some new)) entry = new.size :=
  blockSize_of_info (Function.update_self _ _ _)

theorem blockSize_update_ne {info : Ptr → Option AllocInfo} {entry other : Ptr}
    {new : Option AllocInfo} (different : entry ≠ other) :
    blockSize (Function.update info other new) entry = blockSize info entry := by
  rw [blockSize, Function.update_of_ne different]; rfl

/-- A header that is only marked, or moved to another level, keeps its size. -/
theorem blockSize_update {info : Ptr → Option AllocInfo} {entry other : Ptr}
    {old new : AllocInfo} (here : info other = some old) (size : new.size = old.size) :
    blockSize (Function.update info other (some new)) entry = blockSize info entry := by
  by_cases same : entry = other
  · subst same
    rw [blockSize_self, blockSize_of_info here, size]
  · exact blockSize_update_ne same

/-- The blocks of a ledger keep their sizes from step to step. -/
theorem Effect.same_size (effect : Effect config w g action after g') (sound : Sound w g)
    {entry : Ptr} (has : g.Has entry) :
    blockSize after.tracker.entries.info entry = blockSize w.tracker.entries.info entry := by
  cases effect with
  | nothing notReset => rfl
  | @allocates thread op size file line address _ notReset idle free asked room leaves =>
      rw [leaves.info]
      apply blockSize_update_ne
      rintro rfl
      exact sound.notHas_of_none free has
  | registers notReset here header leaves => rw [leaves.info]; exact blockSize_update header rfl
  | takes idle isLive header magic leaves => rw [leaves.info]; exact blockSize_update header rfl
  | frees idle isLive header magic leaves => rw [leaves.info]; exact blockSize_update header rfl
  | @moves thread address old size freeOnFailure info _ here header free room leaves =>
      have notOld : entry ≠ old.ptr := by
        rintro rfl
        exact (sound.holding.there thread _ (by rw [here]; rfl)).2 has
      have notNew : entry ≠ address := by
        rintro rfl
        exact free.elim notOld fun free => sound.notHas_of_none free has
      rw [leaves.info, blockSize_update_ne notNew]
      exact blockSize_update_ne notOld
  | @fails thread old size _ here leaves =>
      rw [leaves.info]
      apply blockSize_update_ne
      rintro rfl
      exact (sound.holding.there thread _ (by rw [here]; rfl)).2 has
  | @releases thread held freeOnFailure _ here leaves =>
      rw [leaves.info]
      apply blockSize_update_ne
      rintro rfl
      exact (sound.holding.there thread _ (by rw [here]; rfl)).2 has
  | pops isPop free above leaves =>
      rw [leaves.info, blockSize, Entries.raised]
      split
      · cases found : w.tracker.entries.info entry <;> simp [blockSize, found]
      · rfl
  | keeps here leaves => rw [leaves.info]
  | logsFailed here leaves => rw [leaves.info]
  | logsFree here leaves => rw [leaves.info]
  | pushes idle leaves => rw [leaves.info]
  | reports idle calm leaves => rw [leaves.info]
  | resets idle leaves => rw [leaves.info]

end Sizes

/-! ## Counters match the lists -/

/-- A block is freed or reallocated while its own level is current. -/
def OwnLevel (w : World) (action : Action) : Prop :=
  match action.op with
  | .free ptr _ _ | .realloc2 ptr _ _ _ _ =>
      ∀ info ∈ w.tracker.entries.info ptr, info.magic = allocMagic →
        info.level = w.tracker.traceLevel
  | _ => True

instance (w : World) (action : Action) : Decidable (OwnLevel w action) := by
  rcases action with ⟨thread, op⟩
  apply Op.casesOn (motive := fun op => Decidable (OwnLevel w ⟨thread, op⟩)) op <;>
    (intros; dsimp only [OwnLevel]; infer_instance)

/-- The calls of one thread, which gives every block back at its own level. -/
def InSequence (w : World) (action : Action) : Prop :=
  action.thread = 0 ∧ OwnLevel w action

instance (w : World) (action : Action) : Decidable (InSequence w action) := by
  unfold InSequence
  infer_instance

/-- The counter of every level is the weight of its blocks. -/
def Gauge.Balanced (gauge : Gauge) (w : World) (g : Ledger) : Prop :=
  ∀ level ≤ g.level, gauge.current (g.metrics level) =
    UInt64.ofNat (gauge.total w.tracker.entries.info (g.lists level))

section Balanced

variable {gauge : Gauge} {config : Config} {w after : World} {g g' : Ledger} {action : Action}

/-- The lists of a ledger weigh the same after a step. -/
theorem Effect.total (effect : Effect config w g action after g') (sound : Sound w g)
    {nodes : List Ptr} (inside : ∀ entry ∈ nodes, g.Has entry) :
    gauge.total after.tracker.entries.info nodes = gauge.total w.tracker.entries.info nodes :=
  total_congr fun entry member => effect.same_size sound (inside entry member)

theorem Effect.total_list (effect : Effect config w g action after g') (sound : Sound w g)
    {level : Nat} (inUse : level ≤ g.level) :
    gauge.total after.tracker.entries.info (g.lists level) =
      gauge.total w.tracker.entries.info (g.lists level) :=
  effect.total sound fun _ member => ⟨level, inUse, member⟩

/-- A step that leaves the lists and the counters as they are. -/
theorem Gauge.Balanced.keeps (balanced : gauge.Balanced w g) (sound : Sound w g)
    (effect : Effect config w g action after g') (level : g'.level = g.level)
    (lists : g'.lists = g.lists)
    (current : ∀ l, gauge.current (g'.metrics l) = gauge.current (g.metrics l)) :
    gauge.Balanced after g' := by
  intro l inUse
  rw [level] at inUse
  rw [current, lists, effect.total_list sound inUse]
  exact balanced l inUse

/-- A block leaves the list of the current level. -/
theorem Gauge.Balanced.unregister {ptr : Ptr} {info : AllocInfo} (balanced : gauge.Balanced w g)
    (sound : Sound w g) (isLive : ptr ∈ w.live)
    (header : w.tracker.entries.info ptr = some info) (own : info.level = g.level)
    (effect : Effect config w g action after (g.unregister ptr info.level info.size)) :
    gauge.Balanced after (g.unregister ptr info.level info.size) := by
  obtain ⟨found, here, inUse, member⟩ := sound.refines.has_info ((sound.live ptr).mp isLive)
  obtain rfl := Option.some.inj (here.symm.trans header)
  rw [own] at member
  intro l lInUse
  by_cases current : l = g.level
  · subst current
    have stays : ∀ entry ∈ (g.lists g.level).erase ptr, g.Has entry := fun entry inList =>
      ⟨g.level, Nat.le_refl _, List.mem_of_mem_erase inList⟩
    have weights : gauge.total w.tracker.entries.info (g.lists g.level) = _ := total_erase member
    simp only [Ledger.unregister, own, Function.update_self] at effect ⊢
    rw [effect.total sound stays, gauge.lose_current, balanced _ (Nat.le_refl _), weights,
      blockSize_of_info here, UInt64.ofNat_add, UInt64.ofNat_toNat]
    grind
  · simp only [Ledger.unregister, own, Function.update_of_ne current] at effect ⊢
    rw [effect.total_list sound lInUse]
    exact balanced l lInUse

theorem Gauge.Balanced.step (balanced : gauge.Balanced w g) (sound : Sound w g)
    (own : OwnLevel w action) (effect : Effect config w g action after g') :
    gauge.Balanced after g' := by
  have whole := effect
  cases effect with
  | nothing notReset => exact balanced
  | @registers thread op entry info _ notReset here header leaves =>
      intro level inUse
      by_cases current : level = g.level
      · subst current
        have size : blockSize after.tracker.entries.info entry = info.size := by
          rw [leaves.info]
          exact blockSize_self
        simp only [Ledger.register, Function.update_self, total_cons]
        rw [whole.total_list sound inUse, gauge.gain_current, balanced _ (Nat.le_refl _), size,
          UInt64.ofNat_add, UInt64.ofNat_toNat, UInt64.add_comm]
      · simp only [Ledger.register, Function.update_of_ne current]
        rw [whole.total_list sound inUse]
        exact balanced level inUse
  | @takes thread ptr size freeOnFailure file line info _ idle isLive header magic leaves =>
      exact balanced.unregister sound isLive header
        ((own info header magic).trans sound.refines.level) whole
  | @frees thread ptr file line info _ idle isLive header magic leaves =>
      exact balanced.unregister sound isLive header
        ((own info header magic).trans sound.refines.level) whole
  | pushes idle leaves =>
      intro level inUse
      replace inUse : level ≤ g.level + 1 := inUse
      by_cases new : level = g.level + 1
      · subst new
        simp [Ledger.push, gauge.zero_current]
      · simp only [Ledger.push, Function.update_of_ne new]
        rw [whole.total_list sound (by omega)]
        exact balanced level (by omega)
  | pops isPop free above leaves =>
      intro level inUse
      replace inUse : level ≤ g.level - 1 := inUse
      by_cases parent : level = g.level - 1
      · subst parent
        simp only [Ledger.pop, Function.update_self]
        rw [total_append, total_perm (List.reverse_perm _), whole.total_list sound (Nat.le_refl _),
          whole.total_list sound (Nat.sub_le _ _), gauge.merge_current, balanced _ (by omega),
          balanced _ (Nat.le_refl _), UInt64.ofNat_add, UInt64.add_comm]
      · simp only [Ledger.pop, Function.update_of_ne parent]
        rw [whole.total_list sound (by omega)]
        exact balanced level (by omega)
  | resets idle leaves =>
      exact balanced.keeps sound whole rfl rfl fun level => gauge.reset_current _
  | _ => exact balanced.keeps sound whole rfl rfl fun _ => rfl

theorem Gauge.Balanced.start (freePool : Bool) :
    gauge.Balanced (World.start freePool) .start := fun _ _ => gauge.zero_current

/-- The run lemma: the calls of one thread are undisturbed, and keep the counters of blocks
given back at their own levels. -/
theorem balanced_of_run {freePool : Bool}
    (run : Lib.Reaches (Memdbg.step config) InSequence (World.start freePool) w) :
    ∃ g, Sound w g ∧ Alone w ∧ ∀ gauge : Gauge, gauge.Balanced w g := by
  apply run.invariant ⟨_, .start freePool, .start freePool, fun gauge => .start freePool⟩
  rintro before action after ⟨g, sound, alone, balanced⟩ ⟨first, own⟩ stepped
  obtain ⟨g', effect, kept⟩ := sound.step (alone.undisturbed first stepped) stepped
  exact ⟨g', kept, alone.step first effect, fun gauge => (balanced gauge).step sound own effect⟩

end Balanced

/-- What `verify_level` asserts of the counters of a level, for every level in use. -/
def CountersMatch (w : World) : Prop :=
  ∀ level ≤ w.tracker.traceLevel, ∃ tp, w.tracker.tracepointAt level = some tp ∧
    tp.currentAlloc = UInt64.ofNat (w.tracker.allocs level).length ∧
    tp.currentSize = UInt64.ofNat ((w.tracker.allocs level).map fun entry =>
      (blockSize w.tracker.entries.info entry).toNat).sum

/-- After every sequence of calls that gives blocks back at their own levels, the
counters of every level match its list. -/
theorem counters_match_lists {config : Config} {freePool : Bool} {w : World}
    (run : Lib.Reaches (step config) InSequence (World.start freePool) w) : CountersMatch w := by
  obtain ⟨g, sound, -, balanced⟩ := balanced_of_run run
  intro level inUse
  rw [sound.refines.level] at inUse
  refine ⟨_, sound.refines.tracepointAt inUse, ?_, ?_⟩
  · have counted := balanced allocGauge level inUse
    rw [total_allocGauge] at counted
    rw [sound.refines.allocs inUse]
    exact counted
  · rw [sound.refines.allocs inUse]
    exact balanced sizeGauge level inUse

/-- Two levels with a leak and a block that is moved, all given back where they were made. -/
def ownLevels : List Action :=
  [⟨0, .malloc 8 "a.c" 1 16⟩, ⟨0, .register⟩, ⟨0, .push 1⟩, ⟨0, .calloc 2 4 "a.c" 2 32⟩,
    ⟨0, .register⟩, ⟨0, .realloc2 32 24 true "a.c" 3⟩, ⟨0, .reallocated (some 64)⟩,
    ⟨0, .register⟩, ⟨0, .pop⟩, ⟨0, .popEnd⟩, ⟨0, .free 16 "a.c" 4⟩, ⟨0, .release⟩]

theorem counters_match_lists_ownLevels : ∃ w,
    Lib.replay (step defaultConfig) (World.start true) ownLevels = some w ∧ CountersMatch w := by
  obtain ⟨w, replayed⟩ : ∃ w,
    Lib.replay (step defaultConfig) (World.start true) ownLevels = some w := ⟨_, rfl⟩
  have inSequence : Lib.MeetsAll (step defaultConfig) InSequence (World.start true) ownLevels := by
    decide +kernel
  exact ⟨w, replayed, counters_match_lists (.of_replay replayed inSequence)⟩

/-- A block is freed while the tracepoint after its own is current. -/
def freedDeeper : List Action :=
  [⟨0, .malloc 8 "a.c" 1 16⟩, ⟨0, .register⟩, ⟨0, .push 1⟩, ⟨0, .free 16 "a.c" 2⟩,
    ⟨0, .release⟩]

/-- The counters of the outer level stay, and those of the current one wrap around. -/
theorem counters_of_freedDeeper : ∃ w,
    Lib.Reaches (step defaultConfig) Lib.Always (World.start true) w ∧ ¬ CountersMatch w := by
  obtain ⟨w, replayed⟩ : ∃ w,
    Lib.replay (step defaultConfig) (World.start true) freedDeeper = some w := ⟨_, rfl⟩
  have facts : (Lib.replay (step defaultConfig) (World.start true) freedDeeper).map
      (fun w => (w.tracker.traceLevel, w.tracker.allocs 1,
        (w.tracker.tracepointAt 1).map fun tp => tp.currentAlloc)) =
        some (1, [], some 18446744073709551615) := by decide +kernel
  rw [replayed] at facts
  simp only [Option.map_some, Option.some.injEq, Prod.mk.injEq] at facts
  obtain ⟨level, list, current⟩ := facts
  refine ⟨w, .of_replay replayed (Lib.meetsAll_always _ _), fun matching => ?_⟩
  obtain ⟨tp, here, counted, -⟩ := matching 1 (Nat.le_of_eq level.symm)
  rw [here, Option.map_some, Option.some.injEq, counted, list] at current
  exact absurd current (by decide)

end Ucb.Memdbg
