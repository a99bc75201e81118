import Mathlib.Data.List.ReduceOption
import Ucb.Memdbg.Lists

/-!
Contract: pushes and pops of tracepoints that belong together.

Owns:
- `Nested`, the pushes that have not been popped, and the level each block should
  be attributed to;
- `Attributed`, that the tracker is at the level of the innermost one and has each
  block where it should be;
- that a nested sequence keeps this exactly when no pop whose push was ignored finds
  a tracepoint.
-/

namespace Ucb.Memdbg

/-! ## Nesting -/

/-- A world, the level it had when the sequence began, the pushes since then that
have not been popped, the last one first and without a tracepoint when it was
ignored, and the level each block belongs to. -/
structure Nested where
  world : World
  base : Nat
  scopes : List (Option TracepointPtr)
  home : Ptr → Nat

/-- The level of the innermost tracepoint. -/
def Nested.depth (s : Nested) : Nat :=
  s.base + s.scopes.reduceOption.length

def Nested.begin (w : World) : Nested where
  world := w
  base := w.tracker.traceLevel
  scopes := []
  home := fun entry => (w.tracker.entries.info entry).elim 0 AllocInfo.level

/-- The innermost push is popped; the blocks of its tracepoint go to the parent. -/
def Nested.close (s : Nested) : Nested :=
  match s.scopes with
  | [] => s
  | none :: outer => { s with scopes := outer }
  | some _ :: outer =>
      { s with
        scopes := outer
        home := fun entry => if s.home entry = s.depth then s.depth - 1 else s.home entry }

/-- A push gets a tracepoint below the limit. -/
def Nested.open (s : Nested) (config : Config) (address : TracepointPtr) : Nested :=
  { s with
    scopes := (if s.depth + 1 < config.maxTracepoints then some address else none) :: s.scopes }

/-- A pop comes to its end: it has no leak to report, or has reported it. -/
def Closes (w : World) (action : Action) : Prop :=
  match action.op with
  | .pop => 0 < w.tracker.traceLevel →
      (w.tracker.tracepointAt w.tracker.traceLevel).bind Tracepoint.alloc = none
  | .popEnd => True
  | _ => False

instance (w : World) (action : Action) : Decidable (Closes w action) := by
  rcases action with ⟨thread, op⟩
  apply Op.casesOn (motive := fun op => Decidable (Closes w ⟨thread, op⟩)) op <;>
    (intros; dsimp only [Closes]; infer_instance)

/-- The world has moved on; a block that was made belongs to the innermost tracepoint. -/
def Nested.move (s : Nested) (world : World) : Nested :=
  { s with
    world := world
    home := fun entry => if entry ∈ s.world.live then s.home entry else s.depth }

def Nested.after (s : Nested) (config : Config) (action : Action) (world : World) : Nested :=
  match action.op with
  | .push address => (s.move world).open config address
  | _ => if Closes s.world action then (s.move world).close else s.move world

def nestedStep (config : Config) (s : Nested) (action : Action) : Option Nested :=
  (step config s.world action).map (s.after config action)

/-- The tracepoints of the levels above the base, the innermost first. -/
def Stacked (tracePoints : Nat → Option TracepointPtr) (base : Nat) :
    List TracepointPtr → Prop
  | [] => True
  | address :: outer =>
      tracePoints (base + outer.length + 1) = some address ∧ Stacked tracePoints base outer

/-- The current level is that of the innermost tracepoint that was pushed and not popped, the
outer ones are undisturbed, and every live block is in the list of the level it
belongs to. -/
structure Attributed (s : Nested) : Prop where
  level : s.world.tracker.traceLevel = s.depth
  stacked : Stacked s.world.tracker.tracePoints s.base s.scopes.reduceOption
  homes : ∀ entry ∈ s.world.live,
    s.home entry ≤ s.depth ∧ entry ∈ s.world.tracker.allocs (s.home entry)

/-- Every pop has its push in the sequence. A pop finds its list as it left it, and no
block is registered that has been freed. -/
def Paired (s : Nested) (action : Action) : Prop :=
  Undisturbed s.world action ∧ (Closes s.world action → s.scopes ≠ [])

instance (s : Nested) (action : Action) : Decidable (Paired s action) := by
  unfold Paired
  infer_instance

/-- A pop whose push was ignored finds no tracepoint to pop. -/
def PopsItsOwn (s : Nested) (action : Action) : Prop :=
  Closes s.world action → s.scopes.head? = some none → s.world.tracker.traceLevel = 0

instance (s : Nested) (action : Action) : Decidable (PopsItsOwn s action) := by
  unfold PopsItsOwn
  infer_instance

/-! ## Levels of a step -/

/-- The levels in use and their tracepoints are the same. -/
def SameLevels (t t' : Tracker) : Prop :=
  t'.traceLevel = t.traceLevel ∧ t'.tracePoints = t.tracePoints

section Levels

variable {config : Config} {w after : World} {t t' : Tracker} {thread : Nat}

theorem SameLevels.refl (t : Tracker) : SameLevels t t :=
  ⟨rfl, rfl⟩

theorem SameLevels.trans {middle : Tracker} (first : SameLevels t middle)
    (second : SameLevels middle t') : SameLevels t t' :=
  ⟨second.1.trans first.1, second.2.trans first.2⟩

theorem registerAlloc_levels {entry : Ptr} (ran : registerAlloc t entry = some t') :
    SameLevels t t' := by
  obtain ⟨address, tp, found, entries, -, -, -, -, -, rfl⟩ := registerAlloc_eq_some.mp ran
  exact .refl t

theorem dropHead_levels {found : AllocMeta} (ran : t.dropHead found = some t') :
    SameLevels t t' := by
  unfold Tracker.dropHead at ran
  split at ran
  next =>
    obtain rfl := Option.some.inj ran
    exact .refl t
  next =>
    obtain ⟨address, -, ran⟩ := Option.bind_eq_some_iff.mp ran
    obtain ⟨tp, -, ran⟩ := Option.bind_eq_some_iff.mp ran
    obtain rfl := Option.some.inj ran
    exact .refl t

theorem unregisterAlloc_levels {entry : Ptr} (ran : unregisterAllocLocked t entry = some t') :
    SameLevels t t' := by
  obtain ⟨found, -, -, address, -, tp, -, -, middle, -, first, dropped, -, entries, -, rfl⟩ :=
    unregisterAlloc_eq_some.mp ran
  have moved := dropHead_levels dropped
  exact ⟨moved.1, moved.2⟩

theorem resetLevels_levels {count : Nat} : ∀ {t' : Tracker},
    resetLevels t count = some t' → SameLevels t t' := by
  induction count with
  | zero =>
      intro t' ran
      obtain rfl := Option.some.inj ran
      exact .refl t
  | succ count inductionHypothesis =>
      intro t' ran
      simp only [resetLevels, Option.bind_eq_bind, Option.bind_eq_some_iff,
        Option.some.injEq] at ran
      obtain ⟨middle, earlier, address, -, tp, -, rfl⟩ := ran
      exact (inductionHypothesis earlier).trans (.refl middle)

theorem allocate_levels {size : UInt64} {file : String} {line : Int} {address : Ptr}
    (ran : allocate w thread size file line address = some after) :
    SameLevels w.tracker after.tracker := by
  obtain ⟨-, same⟩ := Option.ite_none_right_eq_some.mp ran
  obtain rfl := Option.some.inj same
  exact .refl _

theorem reallocated_levels {address : Option Ptr}
    (ran : reallocated w thread address = some after) : SameLevels w.tracker after.tracker := by
  unfold reallocated at ran
  split at ran
  next =>
    split at ran
    next => cases ran
    next =>
      obtain ⟨-, same⟩ := Option.ite_none_right_eq_some.mp ran
      obtain rfl := Option.some.inj same
      exact .refl _
    next =>
      split at ran <;>
        (obtain rfl := Option.some.inj ran
         exact .refl _)
  next => cases ran

theorem freeLocked_levels {ptr : Ptr} {file : String} {line : Int} {outcome : FreeOutcome}
    (ran : freeLocked config t ptr file line = some (t', outcome)) : SameLevels t t' := by
  unfold freeLocked at ran
  split at ran
  next =>
    obtain ⟨rfl, -⟩ := Prod.mk.inj (Option.some.inj ran)
    exact .refl t
  next =>
    obtain ⟨found, -, ran⟩ := Option.bind_eq_some_iff.mp ran
    split at ran
    next =>
      obtain ⟨middle, dropped, ran⟩ := Option.bind_eq_some_iff.mp ran
      obtain ⟨rfl, -⟩ := Prod.mk.inj (Option.some.inj ran)
      exact (unregisterAlloc_levels dropped).trans (.refl middle)
    next =>
      obtain ⟨rfl, -⟩ := Prod.mk.inj (Option.some.inj ran)
      exact .refl t

/-- Only pushes and pops change the levels. -/
theorem step_levels {action : Action} (notPush : ∀ address, action.op ≠ .push address)
    (goesOn : ¬ Closes w action) (stepped : step config w action = some after) :
    SameLevels w.tracker after.tracker := by
  obtain ⟨thread, op⟩ := action
  cases op with
  | register =>
      simp only [step, register] at stepped
      split at stepped
      next =>
        obtain ⟨t, did, rfl⟩ := Option.map_eq_some_iff.mp stepped
        exact registerAlloc_levels did
      next => cases stepped
  | reallocated address => exact reallocated_levels stepped
  | record =>
      simp only [step, record] at stepped
      split at stepped
      next =>
        obtain rfl := Option.some.inj stepped
        exact .refl _
      next =>
        obtain rfl := Option.some.inj stepped
        exact .refl _
      next => cases stepped
  | release =>
      simp only [step, release] at stepped
      split at stepped
      next =>
        obtain ⟨-, same⟩ := Option.ite_none_right_eq_some.mp stepped
        obtain rfl := Option.some.inj same
        exact .refl _
      next => cases stepped
  | reregister =>
      simp only [step, reregister] at stepped
      split at stepped
      next =>
        obtain ⟨t, did, rfl⟩ := Option.map_eq_some_iff.mp stepped
        exact registerAlloc_levels did
      next => cases stepped
  | popEnd => exact absurd trivial goesOn
  | malloc size file line address =>
      obtain ⟨-, ran⟩ := Option.ite_none_right_eq_some.mp stepped
      simp only [call, ucbMallocDebug] at ran
      split at ran
      next => exact allocate_levels ran
      next =>
        obtain rfl := Option.some.inj ran
        exact .refl _
  | calloc num size file line address =>
      obtain ⟨-, ran⟩ := Option.ite_none_right_eq_some.mp stepped
      simp only [call, ucbCallocDebug] at ran
      split at ran
      next => exact allocate_levels ran
      next =>
        obtain rfl := Option.some.inj ran
        exact .refl _
  | realloc2 ptr size freeOnFailure file line =>
      obtain ⟨-, ran⟩ := Option.ite_none_right_eq_some.mp stepped
      simp only [call, ucbRealloc2Debug] at ran
      obtain ⟨-, ran⟩ := Option.ite_none_right_eq_some.mp ran
      split at ran
      next =>
        obtain ⟨-, ran⟩ := Option.ite_none_right_eq_some.mp ran
        obtain ⟨t, did, rfl⟩ := Option.map_eq_some_iff.mp ran
        exact unregisterAlloc_levels did
      next => cases ran
  | free ptr file line =>
      obtain ⟨-, ran⟩ := Option.ite_none_right_eq_some.mp stepped
      simp only [call, ucbFreeDebug] at ran
      obtain ⟨-, ran⟩ := Option.ite_none_right_eq_some.mp ran
      obtain ⟨⟨t, outcome⟩, did, rfl⟩ := Option.map_eq_some_iff.mp ran
      have levels := freeLocked_levels did
      cases outcome with
      | _ => exact levels
  | push address => exact absurd rfl (notPush address)
  | pop =>
      obtain ⟨-, ran⟩ := Option.ite_none_right_eq_some.mp stepped
      simp only [call, ucbMemTrackingPop] at ran
      split at ran
      next ground => exact absurd (fun above => absurd ground (by omega)) goesOn
      next above =>
        obtain ⟨address, point, ran⟩ := Option.bind_eq_some_iff.mp ran
        obtain ⟨tp, pointee, ran⟩ := Option.bind_eq_some_iff.mp ran
        split at ran
        next entry head =>
          obtain rfl := Option.some.inj ran
          exact .refl _
        next empty =>
          have closes : Closes w ⟨thread, .pop⟩ := fun _ => by
            rw [Tracker.tracepointAt, point, Option.bind_some, pointee, Option.bind_some, empty]
          exact absurd closes goesOn
  | reset =>
      obtain ⟨-, ran⟩ := Option.ite_none_right_eq_some.mp stepped
      simp only [call] at ran
      obtain ⟨t, did, rfl⟩ := Option.map_eq_some_iff.mp ran
      obtain ⟨middle, looped, rfl⟩ := Option.map_eq_some_iff.mp did
      have levels := resetLevels_levels looped
      exact ⟨levels.1, levels.2⟩

end Levels

/-! ## Blocks of a step -/

section Blocks

variable {config : Config} {w after : World} {g g' : Ledger} {action : Action}

theorem popLocked_points {t t' : Tracker} {address : TracepointPtr} {entry : Option Ptr}
    (ran : popLocked t address entry = some t') :
    t'.tracePoints = Function.update t.tracePoints t.traceLevel none := by
  obtain ⟨-, addressUp, -, up, -, moved, -, tp, -, merged, -, rfl⟩ := popLocked_eq_some.mp ran
  rfl

/-- A pop that comes to its end finds no tracepoint above the first one, or pops the
current one. -/
theorem Sound.closes (sound : Sound w g) (calm : Undisturbed w action)
    (closes : Closes w action) (stepped : Memdbg.step config w action = some after) :
    (w.tracker.traceLevel = 0 ∧ after = w) ∨
      (0 < g.level ∧ after.live = w.live ∧ Refines after.tracker g.pop ∧
        after.tracker.tracePoints = Function.update w.tracker.tracePoints g.level none) := by
  obtain ⟨thread, op⟩ := action
  cases op with
  | pop =>
      obtain ⟨-, ran⟩ := Option.ite_none_right_eq_some.mp stepped
      simp only [call, ucbMemTrackingPop] at ran
      split at ran
      next ground => exact .inl ⟨ground, (Option.some.inj ran).symm⟩
      next above =>
        obtain ⟨address, point, ran⟩ := Option.bind_eq_some_iff.mp ran
        obtain ⟨tp, pointee, ran⟩ := Option.bind_eq_some_iff.mp ran
        have positive := Nat.pos_of_ne_zero above
        have empty : tp.alloc = none := by
          have empty := closes positive
          rwa [Tracker.tracepointAt, point, Option.bind_some, pointee, Option.bind_some] at empty
        rw [empty] at ran
        obtain ⟨t, did, rfl⟩ := Option.map_eq_some_iff.mp ran
        rw [sound.refines.level] at positive point
        have read := sound.refines.points.get (Nat.le_refl _) point
        obtain rfl := Option.some.inj (pointee.symm.trans read)
        obtain ⟨t', popped, refines, -⟩ := sound.refines.pop positive point
        rw [show g.heads g.level = none from empty] at popped
        obtain rfl := Option.some.inj (did.symm.trans popped)
        have points := popLocked_points popped
        rw [sound.refines.level] at points
        exact .inr ⟨positive, rfl, refines, points⟩
  | popEnd =>
      simp only [Memdbg.step, popEnd] at stepped
      split at stepped
      next address entry here =>
        obtain ⟨t, did, rfl⟩ := Option.map_eq_some_iff.mp stepped
        simp only [Undisturbed, here, sound.refines.level] at calm
        obtain ⟨above, point, head⟩ := calm
        rw [sound.refines.points.get (Nat.le_refl _) point] at head
        obtain ⟨t', popped, refines, -⟩ := sound.refines.pop above point
        rw [show g.heads g.level = some entry from Option.some.inj head] at popped
        obtain rfl := Option.some.inj (did.symm.trans popped)
        have points := popLocked_points popped
        rw [sound.refines.level] at points
        exact .inr ⟨above, rfl, refines, points⟩
      next => cases stepped
  | _ => exact absurd closes id

/-- While the levels stay the same, a live block stays in its list and a new one gets into that of
the current level. -/
theorem Effect.stays (effect : Effect config w g action after g') (sound : Sound w g)
    (level : g'.level = g.level) {entry : Ptr} (isLive : entry ∈ after.live) :
    (entry ∈ w.live ∧ ∀ l, entry ∈ g.lists l → entry ∈ g'.lists l) ∨
      (entry ∉ w.live ∧ entry ∈ g'.lists g.level) := by
  -- A block that is taken from its list is not live any more.
  have taken : ∀ ptr home (size : UInt64), after.live = w.live.erase ptr →
      entry ∈ w.live ∧ ∀ l, entry ∈ g.lists l → entry ∈ (g.unregister ptr home size).lists l := by
    intro ptr home size live
    rw [live, sound.nodup.mem_erase_iff] at isLive
    refine ⟨isLive.2, fun l member => ?_⟩
    by_cases here : l = home
    · subst here
      simpa [Ledger.unregister] using (List.mem_erase_of_ne isLive.1).mpr member
    · simpa [Ledger.unregister, here] using member
  cases effect with
  | nothing notReset => exact .inl ⟨isLive, fun _ member => member⟩
  | @registers thread op fresh info _ notReset here header leaves =>
      rw [leaves.live, List.mem_cons] at isLive
      rcases isLive with rfl | old
      · right
        refine ⟨fun already => ?_, by simp [Ledger.register]⟩
        exact (sound.holding.there _ _ (holds_of_registers here)).2 ((sound.live entry).mp already)
      · refine .inl ⟨old, fun l member => ?_⟩
        by_cases current : l = g.level
        · subst current
          simp [Ledger.register, member]
        · simpa [Ledger.register, current] using member
  | @takes thread ptr size freeOnFailure file line info _ idle here header magic leaves =>
      exact .inl (taken ptr _ _ leaves.live)
  | @frees thread ptr file line info _ idle here header magic leaves =>
      exact .inl (taken ptr _ _ leaves.live)
  | pushes idle leaves => exact absurd level (Nat.succ_ne_self g.level)
  | pops isPop free above leaves =>
      replace level : g.level - 1 = g.level := level
      omega
  | _ =>
      rename_i leaves
      rw [leaves.live] at isLive
      exact .inl ⟨isLive, fun _ member => member⟩

end Blocks

/-! ## Attribution -/

section Attributed

variable {config : Config} {s next : Nested} {after : World} {g g' : Ledger} {action : Action}

theorem after_of_closes (closes : Closes s.world action) :
    s.after config action after = (s.move after).close := by
  obtain ⟨thread, op⟩ := action
  cases op with
  | push address => exact absurd closes id
  | _ => simp only [Nested.after, closes, if_true]

theorem after_of_goesOn (notPush : ∀ address, action.op ≠ .push address)
    (goesOn : ¬ Closes s.world action) : s.after config action after = s.move after := by
  obtain ⟨thread, op⟩ := action
  cases op with
  | push address => exact absurd rfl (notPush address)
  | _ => simp only [Nested.after, goesOn, if_false]

theorem Attributed.of_ledger (refines : Refines s.world.tracker g) (level : g.level = s.depth)
    (stacked : Stacked s.world.tracker.tracePoints s.base s.scopes.reduceOption)
    (homes : ∀ entry ∈ s.world.live,
      s.home entry ≤ s.depth ∧ entry ∈ g.lists (s.home entry)) : Attributed s where
  level := refines.level.trans level
  stacked := stacked
  homes := fun entry isLive => by
    obtain ⟨inUse, member⟩ := homes entry isLive
    exact ⟨inUse, by rwa [refines.allocs (level ▸ inUse)]⟩

theorem Attributed.ledger_level (attributed : Attributed s) (refines : Refines s.world.tracker g) :
    g.level = s.depth :=
  refines.level.symm.trans attributed.level

theorem Attributed.ledger (attributed : Attributed s) (refines : Refines s.world.tracker g)
    {entry : Ptr} (isLive : entry ∈ s.world.live) :
    s.home entry ≤ s.depth ∧ entry ∈ g.lists (s.home entry) := by
  obtain ⟨inUse, member⟩ := attributed.homes entry isLive
  rw [refines.allocs (attributed.ledger_level refines ▸ inUse)] at member
  exact ⟨inUse, member⟩

theorem Stacked.update {tracePoints : Nat → Option TracepointPtr} {base level : Nat}
    {new : Option TracepointPtr} : ∀ {scopes : List TracepointPtr},
    Stacked tracePoints base scopes → base + scopes.length < level →
      Stacked (Function.update tracePoints level new) base scopes
  | [], _, _ => trivial
  | address :: outer, ⟨here, below⟩, above => by
      rw [List.length_cons] at above
      refine ⟨?_, below.update (by omega)⟩
      rwa [Function.update_of_ne (by omega)]

theorem move_home (world : World) {entry : Ptr} (isLive : entry ∈ s.world.live) :
    (s.move world).home entry = s.home entry :=
  if_pos isLive

/-- A push below the limit opens a level, and another one changes nothing. -/
theorem Attributed.push {address : TracepointPtr} (attributed : Attributed s)
    (refines : Refines s.world.tracker g)
    (ran : Memdbg.push config s.world address = some after) :
    Attributed ((s.move after).open config address) := by
  obtain ⟨free, same⟩ := Option.ite_none_right_eq_some.mp ran
  have level := attributed.ledger_level refines
  have live : after.live = s.world.live := by rw [← Option.some.inj same]
  have homes : ∀ entry ∈ after.live, (s.move after).home entry ≤ s.depth ∧
      entry ∈ g.lists ((s.move after).home entry) := by
    intro entry isLive
    rw [live] at isLive
    rw [move_home after isLive]
    exact attributed.ledger refines isLive
  by_cases room : s.depth + 1 < config.maxTracepoints
  · have opened : ((s.move after).open config address).scopes = some address :: s.scopes :=
      congrArg (· :: s.scopes) (if_pos room)
    have roomy : g.level + 1 < config.maxTracepoints := level ▸ room
    have pushed : Refines after.tracker g.push := by
      rw [← Option.some.inj same]
      exact refines.push free roomy
    have points : after.tracker.tracePoints =
        Function.update s.world.tracker.tracePoints (s.depth + 1) (some address) := by
      rw [← Option.some.inj same, ← level, ← refines.level]
      simp [ucbMemTrackingPushName, refines.level, roomy]
    have deeper : ((s.move after).open config address).depth = s.depth + 1 := by
      rw [Nested.depth, opened]
      simp [Nested.depth, Nested.open, Nested.move, Nat.add_assoc]
    refine .of_ledger pushed ?_ ?_ ?_
    · rw [deeper, ← level]
      rfl
    · rw [opened, List.reduceOption_cons_of_some]
      change Stacked after.tracker.tracePoints s.base _
      rw [points]
      exact ⟨Function.update_self _ _ _, attributed.stacked.update (Nat.lt_succ_self _)⟩
    · intro entry isLive
      obtain ⟨inUse, member⟩ := homes entry isLive
      rw [deeper]
      refine ⟨Nat.le_succ_of_le inUse, ?_⟩
      change entry ∈ g.push.lists ((s.move after).home entry)
      have old : (s.move after).home entry ≠ g.level + 1 := by omega
      simpa [Ledger.push, old] using member
  · have opened : ((s.move after).open config address).scopes = none :: s.scopes :=
      congrArg (· :: s.scopes) (if_neg room)
    have ignored : after = s.world := by
      rw [← Option.some.inj same, push_ignored refines (level ▸ room)]
    have asDeep : ((s.move after).open config address).depth = s.depth := by
      rw [Nested.depth, opened]
      rfl
    refine .of_ledger (ignored ▸ refines) (level.trans asDeep.symm) ?_ ?_
    · rw [opened, List.reduceOption_cons_of_none]
      exact ignored ▸ attributed.stacked
    · rw [asDeep]
      exact homes

/-- A pop of an ignored push only leaves the levels as they are where there is nothing to
pop. -/
theorem Attributed.close_ignored {outer : List (Option TracepointPtr)} (attributed : Attributed s)
    (sound : Sound s.world g) (calm : Undisturbed s.world action)
    (closes : Closes s.world action) (innermost : s.scopes = none :: outer)
    (ran : step config s.world action = some after) :
    Attributed (s.move after).close ↔ s.world.tracker.traceLevel = 0 := by
  have level := attributed.ledger_level sound.refines
  have shape : (s.move after).close = { s.move after with scopes := outer } := by
    simp only [Nested.close, Nested.move, innermost]
  have asDeep : (s.move after).close.depth = s.depth := by
    rw [shape, Nested.depth, Nested.depth, innermost]
    rfl
  rcases sound.closes calm closes ran with ⟨ground, rfl⟩ | ⟨above, live, refines, points⟩
  · refine iff_of_true ?_ ground
    refine .of_ledger (by rw [shape]; exact sound.refines) (level.trans asDeep.symm) ?_ ?_
    · have stacked := attributed.stacked
      rw [innermost] at stacked
      rw [shape]
      exact stacked
    · intro entry isLive
      rw [shape] at isLive
      rw [asDeep, shape, show ({ s.move s.world with scopes := outer } : Nested).home entry =
        s.home entry from if_pos isLive]
      exact attributed.ledger sound.refines isLive
  · refine iff_of_false (fun still => ?_) (by rw [sound.refines.level]; omega)
    have shallower := still.level
    rw [asDeep, shape] at shallower
    have popped : after.tracker.traceLevel = g.level - 1 := refines.level
    have same : g.level - 1 = s.depth := popped.symm.trans shallower
    omega

/-- A pop of a tracepoint leads to the level of the parent, which gets its blocks. -/
theorem Attributed.close_own {address : TracepointPtr} {outer : List (Option TracepointPtr)}
    (attributed : Attributed s) (sound : Sound s.world g) (calm : Undisturbed s.world action)
    (closes : Closes s.world action) (innermost : s.scopes = some address :: outer)
    (ran : step config s.world action = some after) : Attributed (s.move after).close := by
  have level := attributed.ledger_level sound.refines
  have deeper : s.depth = s.base + outer.reduceOption.length + 1 := by
    rw [Nested.depth, innermost, List.reduceOption_cons_of_some, List.length_cons, Nat.add_assoc]
  have shape : (s.move after).close =
      { s.move after with
        scopes := outer
        home := fun entry => if (s.move after).home entry = s.depth then s.depth - 1
          else (s.move after).home entry } := by
    simp only [Nested.close, Nested.move, Nested.depth, innermost]
  have newDepth : (s.move after).close.depth = s.depth - 1 := by
    rw [shape, deeper]
    rfl
  rcases sound.closes calm closes ran with ⟨ground, -⟩ | ⟨above, live, refines, points⟩
  · have := attributed.level
    omega
  · refine .of_ledger (g := g.pop) (by rw [shape]; exact refines) ?_ ?_ ?_
    · rw [newDepth, ← level]
      rfl
    · have stacked := attributed.stacked
      rw [innermost, List.reduceOption_cons_of_some] at stacked
      rw [shape]
      change Stacked after.tracker.tracePoints s.base _
      rw [points]
      exact stacked.2.update (by omega)
    · intro entry isLive
      rw [shape] at isLive
      replace isLive : entry ∈ s.world.live := live ▸ isLive
      obtain ⟨inUse, member⟩ := attributed.ledger sound.refines isLive
      rw [newDepth, shape]
      simp only [move_home after isLive]
      by_cases top : s.home entry = s.depth
      · rw [if_pos top]
        refine ⟨Nat.le_refl _, ?_⟩
        rw [top, ← level] at member
        rw [← level]
        simp [Ledger.pop, member]
      · rw [if_neg top]
        refine ⟨by omega, ?_⟩
        by_cases parent : s.home entry = g.level - 1
        · rw [parent] at member
          rw [parent]
          simp [Ledger.pop, member]
        · simpa [Ledger.pop, parent] using member

/-- While no level is pushed or popped, blocks stay where they are and new ones belong to the
current level. -/
theorem Attributed.goesOn (attributed : Attributed s) (sound : Sound s.world g)
    (calm : Undisturbed s.world action) (notPush : ∀ address, action.op ≠ .push address)
    (goesOn : ¬ Closes s.world action) (ran : step config s.world action = some after) :
    Attributed (s.move after) := by
  have level := attributed.ledger_level sound.refines
  obtain ⟨sameLevel, samePoints⟩ := step_levels notPush goesOn ran
  obtain ⟨g', effect, kept⟩ := sound.step calm ran
  have sameDepth : g'.level = g.level := by
    rw [← kept.refines.level, sameLevel, sound.refines.level]
  refine .of_ledger kept.refines (sameDepth.trans level) ?_ ?_
  · change Stacked after.tracker.tracePoints _ _
    rw [samePoints]
    exact attributed.stacked
  · intro entry isLive
    rcases effect.stays sound sameDepth isLive with ⟨old, stays⟩ | ⟨new, member⟩
    · rw [move_home after old]
      obtain ⟨inUse, member⟩ := attributed.ledger sound.refines old
      exact ⟨inUse, stays _ member⟩
    · rw [show (s.move after).home entry = s.depth from if_neg new]
      exact ⟨Nat.le_refl _, level ▸ member⟩

theorem after_frame (s : Nested) (config : Config) (action : Action) (world : World) :
    (s.after config action world).world = world ∧
      (s.after config action world).base = s.base := by
  have close : ∀ s : Nested, s.close.world = s.world ∧ s.close.base = s.base := by
    intro s
    unfold Nested.close
    split <;> exact ⟨rfl, rfl⟩
  unfold Nested.after
  split
  · exact ⟨rfl, rfl⟩
  · split
    · exact close _
    · exact ⟨rfl, rfl⟩

theorem Attributed.step (attributed : Attributed s) (sound : Sound s.world g)
    (paired : Paired s action) (ran : Memdbg.step config s.world action = some after) :
    Attributed (s.after config action after) ↔ PopsItsOwn s action := by
  obtain ⟨calm, nested⟩ := paired
  by_cases closes : Closes s.world action
  · rw [after_of_closes closes]
    cases innermost : s.scopes with
    | nil => exact absurd innermost (nested closes)
    | cons scope outer =>
        cases scope with
        | none =>
            rw [attributed.close_ignored sound calm closes innermost ran]
            simp only [PopsItsOwn, closes, innermost, List.head?_cons, forall_const]
        | some address =>
            refine iff_of_true (attributed.close_own sound calm closes innermost ran) ?_
            intro _ ignored
            simp [innermost] at ignored
  · refine iff_of_true ?_ fun now => absurd now closes
    by_cases pushes : ∃ address, action.op = .push address
    · obtain ⟨address, isPush⟩ := pushes
      obtain ⟨thread, op⟩ := action
      obtain rfl : op = .push address := isPush
      obtain ⟨-, called⟩ := Option.ite_none_right_eq_some.mp ran
      exact attributed.push sound.refines called
    · have notPush : ∀ address, action.op ≠ .push address := not_exists.mp pushes
      rw [after_of_goesOn notPush closes]
      exact attributed.goesOn sound calm notPush closes ran

/-- At the beginning of a sequence nothing has been pushed. -/
theorem Attributed.begin {w : World} (sound : Sound w g) : Attributed (.begin w) := by
  refine .of_ledger sound.refines sound.refines.level.symm trivial ?_
  intro entry isLive
  obtain ⟨info, here, inUse, member⟩ := sound.refines.has_info ((sound.live entry).mp isLive)
  have home : (Nested.begin w).home entry = info.level := by
    change (w.tracker.entries.info entry).elim 0 AllocInfo.level = _
    rw [here]
    rfl
  rw [home]
  exact ⟨inUse.trans (Nat.le_of_eq sound.refines.level.symm), member⟩

/-- From every state of an undisturbed run, a sequence of pushes and pops that belong together,
with any calls of any threads between them, keeps every block attributed to the
innermost tracepoint it was made under, and comes back to the level it began at, exactly
when no pop whose push was ignored finds a tracepoint to pop. -/
theorem nesting_kept_iff {freePool : Bool} {w : World} {actions : List Action} {last : Nested}
    (run : Lib.Reaches (Memdbg.step config) Undisturbed (World.start freePool) w)
    (performed : Lib.replay (nestedStep config) (.begin w) actions = some last)
    (paired : Lib.MeetsAll (nestedStep config) Paired (.begin w) actions) :
    ((∀ front rest, actions = front ++ rest →
        ∀ s ∈ Lib.replay (nestedStep config) (.begin w) front, Attributed s ∧
          (s.scopes = [] → s.world.tracker.traceLevel = w.tracker.traceLevel)) ↔
      Lib.MeetsAll (nestedStep config) PopsItsOwn (.begin w) actions) := by
  obtain ⟨g, sound⟩ := sound_of_run run
  let invariant : Nested → Prop := fun s =>
    s.base = w.tracker.traceLevel ∧ ∃ g, Sound s.world g
  -- The second part follows from the first.
  have whole : ∀ s, s.base = w.tracker.traceLevel → (Attributed s ↔ Attributed s ∧
      (s.scopes = [] → s.world.tracker.traceLevel = w.tracker.traceLevel)) := by
    intro s base
    refine ⟨fun attributed => ⟨attributed, fun closed => ?_⟩, And.left⟩
    rw [attributed.level, Nested.depth, closed, base]
    rfl
  apply Lib.good_throughout_iff invariant _ _ ⟨rfl, g, sound⟩
    ((whole _ rfl).mp (.begin sound)) performed paired
  rintro before action next ⟨base, g, sound⟩ ⟨attributed, -⟩ allowed ran
  obtain ⟨after, stepped, rfl⟩ := Option.map_eq_some_iff.mp ran
  obtain ⟨sameWorld, sameBase⟩ := after_frame before config action after
  obtain ⟨g', -, kept⟩ := sound.step allowed.1 stepped
  refine ⟨⟨sameBase.trans base, g', by rw [sameWorld]; exact kept⟩, ?_⟩
  rw [← whole _ (sameBase.trans base)]
  exact attributed.step sound allowed stepped

end Attributed

/-- Two tracepoints, with a block under each of them that is left to the parent or freed
there, and one made between the pops. -/
def twoScopes : List Action :=
  [⟨0, .push 1⟩, ⟨0, .malloc 8 "a.c" 1 16⟩, ⟨0, .register⟩, ⟨0, .push 2⟩,
    ⟨0, .malloc 8 "a.c" 2 32⟩, ⟨0, .register⟩, ⟨0, .pop⟩, ⟨0, .popEnd⟩,
    ⟨0, .malloc 8 "a.c" 3 64⟩, ⟨0, .register⟩, ⟨0, .free 32 "a.c" 4⟩, ⟨0, .release⟩,
    ⟨0, .pop⟩, ⟨0, .popEnd⟩]

theorem nesting_kept_iff_twoScopes : ∃ last,
    Lib.replay (nestedStep defaultConfig) (.begin (World.start true)) twoScopes = some last ∧
      Attributed last ∧ last.scopes = [] := by
  obtain ⟨last, replayed⟩ : ∃ last, Lib.replay (nestedStep defaultConfig)
    (.begin (World.start true)) twoScopes = some last := ⟨_, rfl⟩
  have paired : Lib.MeetsAll (nestedStep defaultConfig) Paired (.begin (World.start true))
      twoScopes := by decide +kernel
  have own : Lib.MeetsAll (nestedStep defaultConfig) PopsItsOwn (.begin (World.start true))
      twoScopes := by decide +kernel
  have closed : (Lib.replay (nestedStep defaultConfig) (.begin (World.start true)) twoScopes).map
      Nested.scopes = some [] := by decide +kernel
  rw [replayed] at closed
  refine ⟨last, replayed, ?_, Option.some.inj closed⟩
  exact ((nesting_kept_iff (.refl _) replayed paired).mpr own twoScopes []
    (List.append_nil _).symm last replayed).1

/-- Nine pushes lead to the last level of the default configuration. -/
def fullDepth : List Action :=
  (List.range 9).map fun count => ⟨0, .push (count + 1)⟩

def ignoredPair : List Action :=
  [⟨0, .push 10⟩, ⟨0, .pop⟩]

/-- Another push is ignored, and its pop pops the ninth tracepoint. -/
theorem ignored_push_pops_parent : ∃ w last,
    Lib.Reaches (step defaultConfig) Undisturbed (World.start true) w ∧
      Lib.replay (nestedStep defaultConfig) (.begin w) ignoredPair = some last ∧
      Lib.MeetsAll (nestedStep defaultConfig) Paired (.begin w) ignoredPair ∧
      last.scopes = [] ∧ w.tracker.traceLevel = 9 ∧ last.world.tracker.traceLevel = 8 := by
  obtain ⟨w, replayed⟩ : ∃ w,
    Lib.replay (step defaultConfig) (World.start true) fullDepth = some w := ⟨_, rfl⟩
  have calm : Lib.MeetsAll (step defaultConfig) Undisturbed (World.start true) fullDepth := by
    decide +kernel
  have paired : ∀ w ∈ Lib.replay (step defaultConfig) (World.start true) fullDepth,
      Lib.MeetsAll (nestedStep defaultConfig) Paired (.begin w) ignoredPair := by
    decide +kernel
  have facts : (Lib.replay (step defaultConfig) (World.start true) fullDepth).bind (fun w =>
      (Lib.replay (nestedStep defaultConfig) (.begin w) ignoredPair).map fun last =>
        (last.scopes, w.tracker.traceLevel, last.world.tracker.traceLevel)) =
          some ([], 9, 8) := by decide +kernel
  rw [replayed, Option.bind_some] at facts
  obtain ⟨last, performed, same⟩ := Option.map_eq_some_iff.mp facts
  simp only [Prod.mk.injEq] at same
  exact ⟨w, last, .of_replay replayed calm, performed, paired w replayed, same⟩

end Ucb.Memdbg
