import Ucb.Memdbg.Effects

/-!
Contract: the lists of live blocks over runs of any number of threads.

Owns:
- that an undisturbed step keeps a world sound, and so does an undisturbed run;
- `LiveSetKept`, what a pop leaves, and that it holds in every state of an
  undisturbed run;
- the allocation that is lost by a pop.
-/

namespace Ucb.Memdbg

/-! ## The blocks of a ledger -/

section Has

variable {g : Ledger} {entry node : Ptr}

theorem has_register {size : UInt64} :
    (g.register entry size).Has node ↔ node = entry ∨ g.Has node := by
  constructor
  · rintro ⟨level, inUse, member⟩
    by_cases current : level = g.level
    · subst current
      simp only [Ledger.register, Function.update_self, List.mem_cons] at member
      exact member.imp_right fun old => ⟨_, inUse, old⟩
    · simp only [Ledger.register, Function.update_of_ne current] at member
      exact .inr ⟨level, inUse, member⟩
  · rintro (rfl | ⟨level, inUse, member⟩)
    · exact ⟨g.level, Nat.le_refl _, by simp [Ledger.register]⟩
    · refine ⟨level, inUse, ?_⟩
      by_cases current : level = g.level
      · subst current
        simp [Ledger.register, member]
      · simpa [Ledger.register, current] using member

theorem has_unregister {t : Tracker} {home : Nat} {size : UInt64} (refines : Refines t g)
    (homeIn : home ≤ g.level) (inHome : entry ∈ g.lists home) :
    (g.unregister entry home size).Has node ↔ g.Has node ∧ node ≠ entry := by
  have nodup := (refines.chain home homeIn).nodup
  constructor
  · rintro ⟨level, inUse, member⟩
    by_cases same : level = home
    · subst same
      simp only [Ledger.unregister, Function.update_self, nodup.mem_erase_iff] at member
      exact ⟨⟨level, inUse, member.2⟩, member.1⟩
    · simp only [Ledger.unregister, Function.update_of_ne same] at member
      refine ⟨⟨level, inUse, member⟩, ?_⟩
      rintro rfl
      exact same (refines.same_level inUse homeIn member inHome)
  · rintro ⟨⟨level, inUse, member⟩, other⟩
    refine ⟨level, inUse, ?_⟩
    by_cases same : level = home
    · subst same
      simp [Ledger.unregister, nodup.mem_erase_iff, other, member]
    · simpa [Ledger.unregister, same] using member

theorem has_push : g.push.Has node ↔ g.Has node := by
  constructor
  · rintro ⟨level, inUse, member⟩
    replace inUse : level ≤ g.level + 1 := inUse
    by_cases new : level = g.level + 1
    · subst new
      simp [Ledger.push] at member
    · simp only [Ledger.push, Function.update_of_ne new] at member
      exact ⟨level, by omega, member⟩
  · rintro ⟨level, inUse, member⟩
    have old : level ≠ g.level + 1 := by omega
    exact ⟨level, Nat.le_succ_of_le inUse, by simpa [Ledger.push, old] using member⟩

theorem has_pop (above : 0 < g.level) : g.pop.Has node ↔ g.Has node := by
  constructor
  · rintro ⟨level, inUse, member⟩
    replace inUse : level ≤ g.level - 1 := inUse
    by_cases parent : level = g.level - 1
    · subst parent
      simp only [Ledger.pop, Function.update_self, List.mem_append, List.mem_reverse] at member
      rcases member with top | stays
      · exact ⟨_, Nat.le_refl _, top⟩
      · exact ⟨_, by omega, stays⟩
    · simp only [Ledger.pop, Function.update_of_ne parent] at member
      exact ⟨level, by omega, member⟩
  · rintro ⟨level, inUse, member⟩
    by_cases top : level = g.level
    · subst top
      exact ⟨g.level - 1, Nat.le_refl _, by simp [Ledger.pop, member]⟩
    · have below : level ≤ g.level - 1 := by omega
      refine ⟨level, below, ?_⟩
      by_cases parent : level = g.level - 1
      · subst parent
        simp [Ledger.pop, member]
      · simpa [Ledger.pop, parent] using member

end Has

/-! ## Steps keep a world sound -/

section Sound

variable {config : Config} {w after : World} {g g' : Ledger} {action : Action}

/-- A thread that moves on holds the block it held, one from the lists, or one
that was not allocated, and changes no block that is neither its own nor in the
lists. -/
theorem Holding.move {threads : Nat → Point} {info info' : Ptr → Option AllocInfo}
    {has has' : Ptr → Prop} {thread : Nat} {point : Point} (holding : Holding threads info has)
    (own : ∀ entry, point.holds = some entry → (info' entry).isSome ∧ ¬ has' entry ∧
      ((threads thread).holds = some entry ∨ info entry = none ∨ has entry))
    (others : ∀ entry, (threads thread).holds ≠ some entry → (info entry).isSome →
      ¬ has entry → (info' entry).isSome ∧ ¬ has' entry) :
    Holding (Function.update threads thread point) info' has' := by
  have notOthers : ∀ entry, point.holds = some entry → ∀ other ≠ thread,
      (threads other).holds ≠ some entry := by
    intro entry holds other different otherHolds
    obtain ⟨isSome, notHas⟩ := holding.there other entry otherHolds
    rcases (own entry holds).2.2 with same | absent | inList
    · exact different (holding.apart other thread entry otherHolds same)
    · rw [absent] at isSome
      exact Bool.false_ne_true isSome
    · exact notHas inList
  constructor
  · intro other entry holds
    by_cases same : other = thread
    · subst same
      rw [Function.update_self] at holds
      exact ⟨(own entry holds).1, (own entry holds).2.1⟩
    · rw [Function.update_of_ne same] at holds
      obtain ⟨isSome, notHas⟩ := holding.there other entry holds
      exact others entry (fun mine => same (holding.apart other thread entry holds mine))
        isSome notHas
  · intro first second entry firstHolds secondHolds
    by_cases firstSame : first = thread <;> by_cases secondSame : second = thread
    · exact firstSame.trans secondSame.symm
    · subst firstSame
      rw [Function.update_self] at firstHolds
      rw [Function.update_of_ne secondSame] at secondHolds
      exact absurd secondHolds (notOthers entry firstHolds second secondSame)
    · subst secondSame
      rw [Function.update_self] at secondHolds
      rw [Function.update_of_ne firstSame] at firstHolds
      exact absurd firstHolds (notOthers entry secondHolds first firstSame)
    · rw [Function.update_of_ne firstSame] at firstHolds
      rw [Function.update_of_ne secondSame] at secondHolds
      exact holding.apart first second entry firstHolds secondHolds

/-- A thread that moves on to a point without a block. -/
theorem Holding.drop {threads : Nat → Point} {info info' : Ptr → Option AllocInfo}
    {has has' : Ptr → Prop} {thread : Nat} {point : Point} (holding : Holding threads info has)
    (nothing : point.holds = none)
    (others : ∀ entry, (threads thread).holds ≠ some entry → (info entry).isSome →
      ¬ has entry → (info' entry).isSome ∧ ¬ has' entry) :
    Holding (Function.update threads thread point) info' has' :=
  holding.move (fun entry holds => absurd (nothing.symm.trans holds) (by simp)) others

/-- A live block that a thread has taken out of the lists is its own. -/
theorem Sound.unregistered {thread : Nat} {ptr : Ptr} {info info' : AllocInfo} {point : Point}
    {log : List FreeMeta} (sound : Sound w g) (isLive : ptr ∈ w.live)
    (header : w.tracker.entries.info ptr = some info) (holds : point.holds = some ptr)
    (leaves : Leaves w after thread point (w.infoWith ptr (some info')) log (w.live.erase ptr))
    (refines : Refines after.tracker (g.unregister ptr info.level info.size)) :
    Sound after (g.unregister ptr info.level info.size) := by
  have has := (sound.live ptr).mp isLive
  obtain ⟨found, here, inUse, member⟩ := sound.refines.has_info has
  obtain rfl := Option.some.inj (here.symm.trans header)
  have hasAfter : ∀ node, (g.unregister ptr found.level found.size).Has node ↔
      g.Has node ∧ node ≠ ptr := fun node => has_unregister sound.refines inUse member
  refine ⟨refines, ?_, leaves.live ▸ sound.nodup.erase ptr, ?_⟩
  · intro node
    rw [leaves.live, hasAfter, sound.nodup.mem_erase_iff, sound.live, and_comm]
  · rw [leaves.threads, leaves.info]
    apply sound.holding.move
    · intro entry pointHolds
      obtain rfl := Option.some.inj (holds.symm.trans pointHolds)
      exact ⟨by simp [World.infoWith], fun still => ((hasAfter ptr).mp still).2 rfl,
        .inr (.inr has)⟩
    · intro entry _ isSome notHas
      refine ⟨?_, fun still => notHas ((hasAfter entry).mp still).1⟩
      have different : entry ≠ ptr := by
        rintro rfl
        exact notHas has
      rwa [World.infoWith, Function.update_of_ne different]

/-- A step that leaves the ledger and the live blocks as they are. -/
theorem Sound.keeps {thread : Nat} {point : Point} {info : Ptr → Option AllocInfo}
    {log : List FreeMeta} (sound : Sound w g)
    (leaves : Leaves w after thread point info log w.live) (refines : Refines after.tracker g')
    (same : ∀ node, g'.Has node ↔ g.Has node)
    (holding : Holding (Function.update w.threads thread point) info g.Has) : Sound after g' where
  refines := refines
  live := fun entry => by rw [leaves.live, same, sound.live]
  nodup := leaves.live ▸ sound.nodup
  holding := by
    have equal : g'.Has = g.Has := funext fun node => propext (same node)
    rw [leaves.threads, leaves.info, equal]
    exact holding

/-- The block a thread holds is given up. -/
theorem Sound.erased {thread : Nat} {entry : Ptr} {point : Point} {log : List FreeMeta}
    (sound : Sound w g) (here : (w.threads thread).holds = some entry)
    (nothing : point.holds = none)
    (leaves : Leaves w after thread point (w.infoWith entry none) log w.live)
    (refines : Refines after.tracker g) : Sound after g := by
  apply sound.keeps leaves refines (fun _ => Iff.rfl)
  apply sound.holding.drop nothing
  intro node notMine isSome notHas
  have different : node ≠ entry := by
    rintro rfl
    exact notMine here
  exact ⟨by rwa [World.infoWith, Function.update_of_ne different], notHas⟩

/-- A thread moves on and no block is touched. -/
theorem Sound.passes {thread : Nat} {point : Point} {log : List FreeMeta} (sound : Sound w g)
    (leaves : Leaves w after thread point w.tracker.entries.info log w.live)
    (refines : Refines after.tracker g') (same : ∀ node, g'.Has node ↔ g.Has node)
    (holds : point.holds = none ∨ point.holds = (w.threads thread).holds) : Sound after g' := by
  apply sound.keeps leaves refines same
  apply sound.holding.move
  · intro entry pointHolds
    rcases holds with nothing | kept
    · exact absurd (nothing.symm.trans pointHolds) (by simp)
    · have mine := kept.symm.trans pointHolds
      exact ⟨(sound.holding.there thread entry mine).1, (sound.holding.there thread entry mine).2,
        .inl mine⟩
  · exact fun entry _ isSome notHas => ⟨isSome, notHas⟩

/-- The ways to move on keep a world sound. -/
theorem Sound.effect (sound : Sound w g) (effect : Effect config w g action after g')
    (refines : Refines after.tracker g') : Sound after g' := by
  cases effect with
  | nothing notReset => exact sound
  | @allocates thread op size file line address _ notReset idle free asked room leaves =>
      apply sound.keeps leaves refines (fun _ => Iff.rfl)
      apply sound.holding.move
      · rintro entry ⟨⟩
        exact ⟨by simp [World.infoWith], sound.notHas_of_none free, .inr (.inl free)⟩
      · intro entry _ isSome notHas
        have different : entry ≠ address := by
          rintro rfl
          simp [free] at isSome
        exact ⟨by rwa [World.infoWith, Function.update_of_ne different], notHas⟩
  | @registers thread op entry info _ notReset registers header leaves =>
      have here := holds_of_registers registers
      obtain ⟨isSome, fresh⟩ := sound.holding.there _ _ here
      refine ⟨refines, ?_, ?_, ?_⟩
      · intro node
        rw [leaves.live, has_register, List.mem_cons, sound.live]
      · rw [leaves.live]
        exact List.nodup_cons.mpr
          ⟨fun member => fresh ((sound.live entry).mp member), sound.nodup⟩
      · rw [leaves.threads, leaves.info]
        apply sound.holding.drop rfl
        intro node notMine isSome notHas
        have different : node ≠ entry := by
          rintro rfl
          exact notMine here
        refine ⟨?_, fun has => (has_register.mp has).elim different notHas⟩
        rwa [World.infoWith, Function.update_of_ne different]
  | takes idle isLive header magic leaves =>
      exact sound.unregistered isLive header (by split <;> rfl) leaves refines
  | frees idle isLive header magic leaves =>
      exact sound.unregistered isLive header rfl leaves refines
  | @moves thread address old size freeOnFailure info _ here header free room leaves =>
      have mine : (w.threads thread).holds = some old.ptr := by rw [here]; rfl
      apply sound.keeps leaves refines (fun _ => Iff.rfl)
      apply sound.holding.move
      · rintro entry ⟨⟩
        refine ⟨by simp, ?_, ?_⟩
        · rcases free with rfl | free
          · exact (sound.holding.there thread _ mine).2
          · exact sound.notHas_of_none free
        · exact free.imp (fun same => by rw [same]; exact mine) .inl
      · intro entry notMine isSome notHas
        have notOld : entry ≠ old.ptr := by
          rintro rfl
          exact notMine mine
        have notNew : entry ≠ address := by
          rintro rfl
          rcases free with same | free
          · exact notOld same
          · simp [free] at isSome
        rw [Function.update_of_ne notNew, World.infoWith, Function.update_of_ne notOld]
        exact ⟨isSome, notHas⟩
  | fails here leaves => exact sound.erased (by rw [here]; rfl) rfl leaves refines
  | keeps here leaves =>
      exact sound.passes leaves refines (fun _ => Iff.rfl) (.inr (by rw [here]; rfl))
  | logsFailed here leaves =>
      exact sound.passes leaves refines (fun _ => Iff.rfl) (.inl rfl)
  | logsFree here leaves =>
      exact sound.passes leaves refines (fun _ => Iff.rfl) (.inr (by rw [here]; rfl))
  | releases here leaves =>
      exact sound.erased (by rw [here]; rfl) (by split <;> rfl) leaves refines
  | pushes idle leaves => exact sound.passes leaves refines (fun _ => has_push) (.inl rfl)
  | reports idle calm leaves => exact sound.passes leaves refines (fun _ => Iff.rfl) (.inl rfl)
  | pops isPop free above leaves =>
      apply sound.keeps leaves refines (fun _ => has_pop above)
      apply sound.holding.drop rfl
      intro node _ isSome notHas
      have notTop : node ∉ g.lists g.level := fun top => notHas ⟨g.level, Nat.le_refl _, top⟩
      rw [Entries.raised, if_neg notTop]
      exact ⟨isSome, notHas⟩
  | resets idle leaves => exact sound.passes leaves refines (fun _ => Iff.rfl) (.inl rfl)

theorem Sound.start (freePool : Bool) : Sound (World.start freePool) .start where
  refines := .start freePool
  live := fun entry => by simp [World.start, Ledger.Has, Ledger.start]
  nodup := List.nodup_nil
  holding := ⟨fun _ _ holds => by simp [World.start, Point.holds] at holds,
    fun _ _ _ holds => by simp [World.start, Point.holds] at holds⟩

theorem Sound.step (sound : Sound w g) (calm : Undisturbed w action)
    (stepped : step config w action = some after) :
    ∃ g', Effect config w g action after g' ∧ Sound after g' := by
  obtain ⟨g', effect, refines⟩ := effect_of_step sound calm stepped
  exact ⟨g', effect, sound.effect effect refines⟩

theorem sound_of_run {freePool : Bool}
    (run : Lib.Reaches (Memdbg.step config) Undisturbed (World.start freePool) w) :
    ∃ g, Sound w g := by
  apply run.invariant ⟨_, .start freePool⟩
  rintro before action after ⟨g, sound⟩ calm stepped
  obtain ⟨g', -, kept⟩ := sound.step calm stepped
  exact ⟨g', kept⟩

end Sound

/-! ## What a pop leaves -/

/-- Every live block is in the list of one level and every block in a list is
live, with the level of the list in its header; the lists are linked both ways
from their heads. -/
structure LiveSetKept (w : World) : Prop where
  attributed : ∀ entry ∈ w.live,
    ∃! level, level ≤ w.tracker.traceLevel ∧ entry ∈ w.tracker.allocs level
  listed : ∀ level ≤ w.tracker.traceLevel, ∀ entry ∈ w.tracker.allocs level,
    entry ∈ w.live ∧ (w.tracker.entries.info entry).map AllocInfo.level = some level
  linked : ∀ level ≤ w.tracker.traceLevel,
    Lib.Chain w.tracker.entries.links (w.tracker.allocs level)
  heads : ∀ level ≤ w.tracker.traceLevel,
    (w.tracker.tracepointAt level).map Tracepoint.alloc = some (w.tracker.allocs level).head?

section Pop

variable {config : Config} {freePool : Bool} {w : World} {g : Ledger}

theorem Sound.liveSetKept (sound : Sound w g) : LiveSetKept w where
  attributed := fun entry isLive => by
    obtain ⟨level, inUse, member⟩ := (sound.live entry).mp isLive
    refine ⟨level, ⟨sound.refines.level ▸ inUse, by rwa [sound.refines.allocs inUse]⟩, ?_⟩
    rintro other ⟨otherIn, otherMember⟩
    rw [sound.refines.level] at otherIn
    rw [sound.refines.allocs otherIn] at otherMember
    exact sound.refines.same_level otherIn inUse otherMember member
  listed := fun level inUse entry member => by
    rw [sound.refines.level] at inUse
    rw [sound.refines.allocs inUse] at member
    exact ⟨(sound.live entry).mpr ⟨level, inUse, member⟩,
      sound.refines.owned level inUse entry member⟩
  linked := fun level inUse => by
    rw [sound.refines.level] at inUse
    rw [sound.refines.allocs inUse]
    exact sound.refines.chain level inUse
  heads := fun level inUse => by
    rw [sound.refines.level] at inUse
    rw [sound.refines.allocs inUse, sound.refines.tracepointAt inUse]
    rfl

/-- A pop that finds its list as it left it comes to an end. -/
theorem Sound.popEnd_isSome {thread : Nat} {address : TracepointPtr} {entry : Ptr}
    (sound : Sound w g) (here : w.threads thread = .reporting address entry)
    (calm : Undisturbed w ⟨thread, .popEnd⟩) :
    ∃ after, popEnd w thread = some after ∧ after.live = w.live ∧
      after.tracker.traceLevel + 1 = w.tracker.traceLevel := by
  simp only [Undisturbed, here, sound.refines.level] at calm
  obtain ⟨above, point, head⟩ := calm
  rw [sound.refines.points.get (Nat.le_refl _) point] at head
  obtain ⟨t', popped, refines, -⟩ := sound.refines.pop above point
  rw [show g.heads g.level = some entry from Option.some.inj head] at popped
  refine ⟨w.move thread t' .idle, by simp [popEnd, here, popped], rfl, ?_⟩
  have level : t'.traceLevel = g.level - 1 := refines.level
  change t'.traceLevel + 1 = _
  rw [level, sound.refines.level, Nat.sub_add_cancel above]

/-- In every run of undisturbed steps every state has its live blocks in the lists,
so that a pop moves exactly those of its level; nor can such a pop fail. -/
theorem pop_keeps_live_set
    (run : Lib.Reaches (step config) Undisturbed (World.start freePool) w) :
    LiveSetKept w ∧ ∀ thread address entry, w.threads thread = .reporting address entry →
      Undisturbed w ⟨thread, .popEnd⟩ → ∃ after, step config w ⟨thread, .popEnd⟩ = some after ∧
        after.live = w.live ∧ after.tracker.traceLevel + 1 = w.tracker.traceLevel ∧
        LiveSetKept after := by
  obtain ⟨g, sound⟩ := sound_of_run run
  refine ⟨sound.liveSetKept, fun thread address entry here calm => ?_⟩
  obtain ⟨after, ended, live, level⟩ := sound.popEnd_isSome here calm
  have stepped : step config w ⟨thread, .popEnd⟩ = some after := ended
  obtain ⟨g', -, kept⟩ := sound.step calm stepped
  exact ⟨after, stepped, live, level, kept.liveSetKept⟩

end Pop

def defaultConfig : Config where
  maxTracepoints := 10
  freeCapacity := 1024

/-- A thread pops a level with a leak while another one allocates and frees at the level
below it, so that the pop is undisturbed. -/
def quietPop : List Action :=
  [⟨0, .malloc 8 "a.c" 1 16⟩, ⟨0, .register⟩, ⟨0, .push 1⟩, ⟨0, .malloc 8 "a.c" 2 32⟩,
    ⟨0, .register⟩, ⟨0, .pop⟩, ⟨1, .free 16 "b.c" 1⟩, ⟨1, .release⟩, ⟨0, .popEnd⟩]

theorem pop_keeps_live_set_quietPop : ∃ w,
    Lib.replay (step defaultConfig) (World.start true) quietPop = some w ∧ LiveSetKept w := by
  obtain ⟨w, replayed⟩ : ∃ w,
    Lib.replay (step defaultConfig) (World.start true) quietPop = some w := ⟨_, rfl⟩
  have calm : Lib.MeetsAll (step defaultConfig) Undisturbed (World.start true) quietPop := by
    decide +kernel
  exact ⟨w, replayed, (pop_keeps_live_set (.of_replay replayed calm)).1⟩

/-- Another thread allocates during the report, in front of the entry the pop goes
on from. -/
def disturbedPop : List Action :=
  [⟨0, .push 1⟩, ⟨0, .malloc 8 "a.c" 1 16⟩, ⟨0, .register⟩, ⟨0, .pop⟩,
    ⟨1, .malloc 8 "b.c" 1 32⟩, ⟨1, .register⟩, ⟨0, .popEnd⟩]

/-- The block allocated during the report is live and in no list. -/
theorem pop_loses_allocation : ∃ w,
    Lib.Reaches (step defaultConfig) Lib.Always (World.start true) w ∧ ¬ LiveSetKept w := by
  obtain ⟨w, replayed⟩ : ∃ w,
    Lib.replay (step defaultConfig) (World.start true) disturbedPop = some w := ⟨_, rfl⟩
  have facts : (Lib.replay (step defaultConfig) (World.start true) disturbedPop).map
      (fun w => (w.live, w.tracker.traceLevel, w.tracker.allocs 0)) =
        some ([32, 16], 0, [16]) := by decide +kernel
  rw [replayed] at facts
  simp only [Option.map_some, Option.some.injEq, Prod.mk.injEq] at facts
  obtain ⟨live, level, list⟩ := facts
  refine ⟨w, .of_replay replayed (Lib.meetsAll_always _ _), fun kept => ?_⟩
  obtain ⟨other, ⟨inUse, member⟩, -⟩ := kept.attributed 32 (by simp [live])
  obtain rfl : other = 0 := by omega
  simp [list] at member

end Ucb.Memdbg
