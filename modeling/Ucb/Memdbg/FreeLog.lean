import Ucb.Memdbg.Lists

/-!
Contract: the free log over runs of any number of threads.

Owns:
- what inserting and removing do to the records of the log;
- `InOrder`, the steps that log a free before its address is used again and
  register no block they have marked as freed;
- that no live block is in the log in a run of such steps, and the false double
  free of one that is not.
-/

namespace Ucb.Memdbg

/-! ## Records -/

section Records

variable {log : List FreeMeta} {ptr : Ptr} {record kept : FreeMeta}

/-- No two records have the same address. -/
def Distinct (log : List FreeMeta) : Prop :=
  log.Pairwise fun first second => first.ptr ≠ second.ptr

theorem distinct_remove (distinct : Distinct log) : Distinct (freeTableRemoveLocked log ptr) :=
  distinct.sublist List.eraseP_sublist

theorem mem_remove (distinct : Distinct log) (member : kept ∈ freeTableRemoveLocked log ptr) :
    kept ∈ log ∧ kept.ptr ≠ ptr := by
  refine ⟨List.mem_of_mem_eraseP member, ?_⟩
  induction log with
  | nil => cases member
  | cons first rest inductionHypothesis =>
      obtain ⟨others, distinct⟩ := List.pairwise_cons.mp distinct
      by_cases same : first.ptr = ptr
      · rw [freeTableRemoveLocked, List.eraseP_cons_of_pos (by simpa using same)] at member
        rintro rfl
        exact others kept member same
      · rw [freeTableRemoveLocked, List.eraseP_cons_of_neg (by simpa using same)] at member
        rcases List.mem_cons.mp member with rfl | later
        · exact same
        · exact inductionHypothesis distinct later

variable {config : Config} {freePool : Bool}

theorem mem_insert (member : kept ∈ freeTableInsertLocked config freePool log record) :
    kept = record ∨ kept ∈ log := by
  have old : ∀ {other}, other ∈ freeTableRemoveLocked log record.ptr → other ∈ log :=
    List.mem_of_mem_eraseP
  unfold freeTableInsertLocked at member
  dsimp only at member
  split at member
  · split at member
    · exact (List.mem_cons.mp member).imp_right old
    · split at member
      · cases member
      · exact (List.mem_cons.mp member).imp_right fun stays =>
          old (List.dropLast_subset _ stays)
  · exact .inr member

theorem distinct_insert (distinct : Distinct log) :
    Distinct (freeTableInsertLocked config freePool log record) := by
  have others : ∀ other ∈ freeTableRemoveLocked log record.ptr, record.ptr ≠ other.ptr :=
    fun other member => (mem_remove distinct member).2.symm
  unfold freeTableInsertLocked
  dsimp only
  split
  · split
    · exact List.pairwise_cons.mpr ⟨others, distinct_remove distinct⟩
    · split
      · exact List.Pairwise.nil
      · exact List.pairwise_cons.mpr
          ⟨fun other member => others other (List.dropLast_subset _ member),
            (distinct_remove distinct).sublist (List.dropLast_sublist _)⟩
  · exact distinct

theorem find_eq_none {t : Tracker} (absent : ∀ record ∈ t.freeLog, record.ptr ≠ ptr) :
    freeTableFindLocked t ptr = none := by
  unfold freeTableFindLocked
  split
  · exact List.find?_eq_none.mpr fun record member => by simpa using absent record member
  · rfl

end Records

/-! ## Runs -/

/-- Undisturbed steps, but for two more slips: an address is logged only while it
is not that of a live block again, and no `ucb_realloc2` that is not to free its
block fails, which would be registered again with the magic of a freed one. -/
def InOrder (w : World) (action : Action) : Prop :=
  Undisturbed w action ∧
    match action.op, w.threads action.thread with
    | .record, .recordingFailed old => old.ptr ∉ w.live
    | .reallocated none, .reallocating _ _ freeOnFailure => freeOnFailure = true
    | _, _ => True

instance (w : World) (action : Action) : Decidable (InOrder w action) :=
  decidable_of_iff
    (Undisturbed w action ∧
      (match action.op, w.threads action.thread with
        | .record, .recordingFailed old => decide (old.ptr ∉ w.live)
        | .reallocated none, .reallocating _ _ freeOnFailure => freeOnFailure
        | _, _ => true) = true)
    (by unfold InOrder; split <;> simp)

structure Logged (w : World) : Prop where
  distinct : Distinct w.tracker.freeLog
  dead : ∀ record ∈ w.tracker.freeLog, record.ptr ∉ w.live
  marked : ∀ entry, (entry ∈ w.live ∨ ∃ thread, w.threads thread = .registering entry) →
    (w.tracker.entries.info entry).map AllocInfo.magic = some allocMagic
  never : ∀ thread entry, w.threads thread ≠ .reregistering entry false

section Runs

variable {config : Config} {freePool : Bool} {w after : World} {g g' : Ledger} {action : Action}

/-- A thread moves on and leaves the marks of all blocks that are not its own. -/
theorem Logged.of_leaves {thread : Nat} {point : Point} {info : Ptr → Option AllocInfo}
    {log : List FreeMeta} {live : List Ptr} (logged : Logged w) (sound : Sound w g)
    (leaves : Leaves w after thread point info log live) (distinct : Distinct log)
    (dead : ∀ record ∈ log, record.ptr ∉ live)
    (newPoint : ∀ entry, point ≠ .reregistering entry false)
    (arrives : ∀ entry, (entry ∈ live ∧ entry ∉ w.live ∨ point = .registering entry) →
      (info entry).map AllocInfo.magic = some allocMagic)
    (same : ∀ entry, (entry ∈ w.live ∧ entry ∈ live ∨
        entry ∉ w.live ∧ (w.threads thread).holds ≠ some entry) →
      (w.tracker.entries.info entry).isSome →
      (info entry).map AllocInfo.magic = (w.tracker.entries.info entry).map AllocInfo.magic) :
    Logged after where
  distinct := leaves.freeLog ▸ distinct
  dead := by rw [leaves.freeLog, leaves.live]; exact dead
  never := fun other entry => by
    rw [leaves.threads]
    by_cases mine : other = thread
    · subst mine
      rw [Function.update_self]
      exact newPoint entry
    · rw [Function.update_of_ne mine]
      exact logged.never other entry
  marked := by
    rw [leaves.info, leaves.live, leaves.threads]
    rintro entry (isLive | ⟨other, here⟩)
    · by_cases old : entry ∈ w.live
      · have marked := logged.marked entry (.inl old)
        obtain ⟨info', header, -⟩ := Option.map_eq_some_iff.mp marked
        rw [same entry (.inl ⟨old, isLive⟩) (by rw [header]; rfl)]
        exact marked
      · exact arrives entry (.inl ⟨isLive, old⟩)
    · by_cases mine : other = thread
      · subst mine
        rw [Function.update_self] at here
        exact arrives entry (.inr here)
      · rw [Function.update_of_ne mine] at here
        have holds : (w.threads other).holds = some entry := by rw [here]; rfl
        obtain ⟨isSome, notHas⟩ := sound.holding.there other entry holds
        have notMine : (w.threads thread).holds ≠ some entry := fun holds' =>
          mine (sound.holding.apart other thread entry holds holds')
        have notLive : entry ∉ w.live := fun isLive => notHas ((sound.live entry).mp isLive)
        rw [same entry (.inr ⟨notLive, notMine⟩) isSome]
        exact logged.marked entry (.inr ⟨other, here⟩)

/-- A thread moves on and no header is touched. -/
theorem Logged.passes {thread : Nat} {point : Point} {log : List FreeMeta} (logged : Logged w)
    (sound : Sound w g) (leaves : Leaves w after thread point w.tracker.entries.info log w.live)
    (distinct : Distinct log) (dead : ∀ record ∈ log, record.ptr ∉ w.live)
    (newPoint : ∀ entry, point ≠ .reregistering entry false)
    (notArrives : ∀ entry, point ≠ .registering entry) : Logged after := by
  apply logged.of_leaves sound leaves distinct dead newPoint
  · rintro entry (⟨new, old⟩ | arrives)
    · exact absurd new old
    · exact absurd arrives (notArrives entry)
  · exact fun _ _ _ => rfl

/-- A thread gives up the block it holds. -/
theorem Logged.erased {thread : Nat} {entry : Ptr} {point : Point} (logged : Logged w)
    (sound : Sound w g) (mine : (w.threads thread).holds = some entry)
    (newPoint : ∀ node, point ≠ .reregistering node false)
    (notArrives : ∀ node, point ≠ .registering node)
    (leaves : Leaves w after thread point (w.infoWith entry none) w.tracker.freeLog w.live) :
    Logged after := by
  apply logged.of_leaves sound leaves logged.distinct logged.dead newPoint
  · rintro node (⟨new, old⟩ | arrives)
    · exact absurd new old
    · exact absurd arrives (notArrives node)
  · intro node known _
    have different : node ≠ entry := by
      rintro rfl
      rcases known with ⟨isLive, -⟩ | ⟨-, notMine⟩
      · exact (sound.holding.there thread node mine).2 ((sound.live node).mp isLive)
      · exact notMine mine
    rw [World.infoWith, Function.update_of_ne different]

theorem ne_of_known {thread : Nat} {ptr entry : Ptr} (sound : Sound w g) (isLive : ptr ∈ w.live)
    (known : entry ∈ w.live ∧ entry ∈ w.live.erase ptr ∨
      entry ∉ w.live ∧ (w.threads thread).holds ≠ some entry) : entry ≠ ptr := by
  rintro rfl
  rcases known with ⟨-, stays⟩ | ⟨gone, -⟩
  · exact (sound.nodup.mem_erase_iff.mp stays).1 rfl
  · exact gone isLive

theorem Logged.start : Logged (World.start freePool) where
  distinct := List.Pairwise.nil
  dead := fun _ member => absurd member List.not_mem_nil
  marked := by
    rintro entry (isLive | ⟨thread, here⟩)
    · exact absurd isLive List.not_mem_nil
    · cases here
  never := fun _ _ here => by cases here

theorem Logged.step (logged : Logged w) (sound : Sound w g) (inOrder : InOrder w action)
    (effect : Effect config w g action after g') : Logged after := by
  cases effect with
  | nothing notReset => exact logged
  | @allocates thread op size file line address _ notReset idle free asked room leaves =>
      apply logged.of_leaves sound leaves logged.distinct logged.dead (fun _ => by simp)
      · rintro entry (⟨new, old⟩ | arrives)
        · exact absurd new old
        · obtain rfl := Point.registering.inj arrives
          simp [World.infoWith, AllocInfo.init]
      · intro entry _ isSome
        have different : entry ≠ address := by
          rintro rfl
          simp [free] at isSome
        rw [World.infoWith, Function.update_of_ne different]
  | @registers thread op entry info _ notReset here header leaves =>
      have registering : w.threads thread = .registering entry :=
        here.resolve_right (logged.never thread entry)
      have marked := logged.marked entry (.inr ⟨thread, registering⟩)
      rw [header] at marked
      apply logged.of_leaves sound leaves (distinct_remove logged.distinct) ?_ (fun _ => by simp)
      · rintro node (⟨new, old⟩ | arrives)
        · obtain rfl := (List.mem_cons.mp new).resolve_right old
          simpa [World.infoWith] using marked
        · cases arrives
      · intro node _ _
        by_cases same : node = entry
        · subst same
          simp [World.infoWith, header]
        · rw [World.infoWith, Function.update_of_ne same]
      · intro record member isLive
        obtain ⟨old, different⟩ := mem_remove logged.distinct member
        exact (List.mem_cons.mp isLive).elim different (logged.dead record old)
  | @takes thread ptr size freeOnFailure file line info _ idle isLive header magic leaves =>
      apply logged.of_leaves sound leaves logged.distinct
      · exact fun record member stays =>
          logged.dead record member (List.mem_of_mem_erase stays)
      · intro entry
        split <;> simp
      · rintro entry (⟨new, old⟩ | here)
        · exact absurd (List.mem_of_mem_erase new) old
        · split at here <;> cases here
      · intro entry known _
        rw [World.infoWith, Function.update_of_ne (ne_of_known sound isLive known)]
  | @frees thread ptr file line info _ idle isLive header magic leaves =>
      apply logged.of_leaves sound leaves (distinct_insert logged.distinct) ?_ (fun _ => by simp)
      · rintro entry (⟨new, old⟩ | arrives)
        · exact absurd (List.mem_of_mem_erase new) old
        · cases arrives
      · intro entry known _
        rw [World.infoWith, Function.update_of_ne (ne_of_known sound isLive known)]
      · intro record member stays
        rcases mem_insert member with rfl | old
        · exact (sound.nodup.mem_erase_iff.mp stays).1 rfl
        · exact logged.dead record old (List.mem_of_mem_erase stays)
  | @moves thread address old size freeOnFailure info _ here header free room leaves =>
      have mine : (w.threads thread).holds = some old.ptr := by rw [here]; rfl
      have notLive : old.ptr ∉ w.live := fun isLive =>
        (sound.holding.there thread _ mine).2 ((sound.live _).mp isLive)
      apply logged.of_leaves sound leaves logged.distinct logged.dead (fun _ => by simp)
      · rintro entry (⟨new, gone⟩ | arrives)
        · exact absurd new gone
        · obtain rfl := Point.registering.inj arrives
          simp [AllocInfo.init]
      · intro entry known isSome
        have notOld : entry ≠ old.ptr := by
          rintro rfl
          exact known.elim (fun both => notLive both.1) (fun other => other.2 mine)
        have notNew : entry ≠ address := by
          rintro rfl
          rcases free with same | free
          · exact notOld same
          · simp [free] at isSome
        rw [Function.update_of_ne notNew, World.infoWith, Function.update_of_ne notOld]
  | @fails thread old size _ here leaves =>
      exact logged.erased sound (by rw [here]; rfl) (fun _ => by simp) (fun _ => by simp) leaves
  | keeps here leaves =>
      simp [InOrder, here] at inOrder
  | @logsFailed thread old _ here leaves =>
      simp only [InOrder, here] at inOrder
      apply logged.passes sound leaves (distinct_insert logged.distinct) ?_ (fun _ => by simp)
        (fun _ => by simp)
      intro record member
      rcases mem_insert member with rfl | older
      · exact inOrder.2
      · exact logged.dead record older
  | @logsFree thread old freeOnFailure _ here leaves =>
      have mine : (w.threads thread).holds = some old.ptr := by rw [here]; rfl
      apply logged.passes sound leaves (distinct_insert logged.distinct) ?_ (fun _ => by simp)
        (fun _ => by simp)
      intro record member
      rcases mem_insert member with rfl | older
      · exact fun isLive => (sound.holding.there thread _ mine).2 ((sound.live _).mp isLive)
      · exact logged.dead record older
  | @releases thread entry freeOnFailure _ here leaves =>
      apply logged.erased sound (by rw [here]; rfl) ?_ ?_ leaves
      · intro node; split <;> simp
      · intro node; split <;> simp
  | pushes idle leaves =>
      exact logged.passes sound leaves logged.distinct logged.dead (fun _ => by simp)
        (fun _ => by simp)
  | reports idle calm leaves =>
      exact logged.passes sound leaves logged.distinct logged.dead (fun _ => by simp)
        (fun _ => by simp)
  | pops isPop free above leaves =>
      apply logged.of_leaves sound leaves logged.distinct logged.dead (fun _ => by simp)
      · rintro entry (⟨new, gone⟩ | arrives)
        · exact absurd new gone
        · cases arrives
      · intro entry _ _
        rw [Entries.raised]
        split
        · rw [Option.map_map]; rfl
        · rfl
  | resets idle leaves =>
      exact logged.passes sound leaves List.Pairwise.nil
        (fun _ member => absurd member List.not_mem_nil) (fun _ => by simp) (fun _ => by simp)

theorem logged_of_run
    (run : Lib.Reaches (Memdbg.step config) InOrder (World.start freePool) w) :
    ∃ g, Sound w g ∧ Logged w := by
  apply run.invariant ⟨_, .start freePool, .start⟩
  rintro before action after ⟨g, sound, logged⟩ inOrder stepped
  obtain ⟨g', effect, kept⟩ := sound.step inOrder.1 stepped
  exact ⟨g', kept, logged.step sound inOrder effect⟩

/-- The critical section of `ucb_free_debug` frees a live block. -/
theorem Logged.exists_free {entry : Ptr} (logged : Logged w) (sound : Sound w g)
    (isLive : entry ∈ w.live) (file : String) (line : Int) :
    ∃ t, freeLocked config w.tracker entry file line = some (t, .free) := by
  have notLogged : freeTableFindLocked w.tracker entry = none :=
    find_eq_none fun record member same => logged.dead record member (same ▸ isLive)
  have has := (sound.live entry).mp isLive
  have marked : ∀ node, g.Has node →
      (w.tracker.entries.info node).map AllocInfo.magic = some allocMagic :=
    fun node inList => logged.marked node (.inl ((sound.live node).mpr inList))
  obtain ⟨t, dropped⟩ := sound.refines.exists_unregister has marked
  obtain ⟨info, header, magic⟩ := Option.map_eq_some_iff.mp (marked entry has)
  obtain ⟨found, lookup, rfl⟩ := Option.map_eq_some_iff.mp header
  exact ⟨_, by simp only [freeLocked, notLogged, lookup, Option.bind_eq_bind, Option.bind_some,
    magic, if_true, dropped]; rfl⟩

/-- In every run of steps in order no live block is in the free log, and
`ucb_free_debug` of a live block frees it. -/
theorem no_false_double_free {entry : Ptr}
    (run : Lib.Reaches (Memdbg.step config) InOrder (World.start freePool) w)
    (isLive : entry ∈ w.live) :
    freeTableFindLocked w.tracker entry = none ∧
      ∀ file line, ∃ t, freeLocked config w.tracker entry file line = some (t, .free) := by
  obtain ⟨g, sound, logged⟩ := logged_of_run run
  exact ⟨find_eq_none fun record member same => logged.dead record member (same ▸ isLive),
    logged.exists_free sound isLive⟩

end Runs

/-- A block is moved, and another thread is given the address it had. -/
def reusedAddress : List Action :=
  [⟨0, .malloc 8 "a.c" 1 16⟩, ⟨0, .register⟩, ⟨0, .realloc2 16 64 true "a.c" 2⟩,
    ⟨0, .reallocated (some 128)⟩, ⟨1, .malloc 8 "b.c" 1 16⟩, ⟨0, .register⟩, ⟨1, .register⟩,
    ⟨0, .free 128 "a.c" 3⟩, ⟨0, .release⟩]

theorem no_false_double_free_reusedAddress : ∃ w,
    Lib.replay (step defaultConfig) (World.start true) reusedAddress = some w ∧
      freeTableFindLocked w.tracker 16 = none := by
  obtain ⟨w, replayed⟩ : ∃ w,
    Lib.replay (step defaultConfig) (World.start true) reusedAddress = some w := ⟨_, rfl⟩
  have inOrder : Lib.MeetsAll (step defaultConfig) InOrder (World.start true) reusedAddress := by
    decide +kernel
  have live : (Lib.replay (step defaultConfig) (World.start true) reusedAddress).map World.live =
      some [16] := by decide +kernel
  rw [replayed] at live
  have isLive : 16 ∈ w.live := by simp [Option.some.inj live]
  exact ⟨w, replayed, (no_false_double_free (.of_replay replayed inOrder) isLive).1⟩

/-- The address of a block that a failed `ucb_realloc2` has freed is given to another
thread before the free is logged. -/
def lateRecord : List Action :=
  [⟨0, .malloc 8 "a.c" 1 16⟩, ⟨0, .register⟩, ⟨0, .realloc2 16 64 true "a.c" 2⟩,
    ⟨0, .reallocated none⟩, ⟨1, .malloc 8 "b.c" 1 16⟩, ⟨1, .register⟩, ⟨0, .record⟩]

/-- Freeing the live block of the other thread is a double free to the tracker, and
leaks it. -/
theorem false_double_free : ∃ w,
    Lib.Reaches (step defaultConfig) Lib.Always (World.start true) w ∧ 16 ∈ w.live ∧
      ∃ t, freeLocked defaultConfig w.tracker 16 "b.c" 2 = some (t, .doubleFree "a.c" 2) := by
  obtain ⟨w, replayed⟩ : ∃ w,
    Lib.replay (step defaultConfig) (World.start true) lateRecord = some w := ⟨_, rfl⟩
  have facts : (Lib.replay (step defaultConfig) (World.start true) lateRecord).map
      (fun w => (w.live, (freeLocked defaultConfig w.tracker 16 "b.c" 2).map Prod.snd)) =
        some ([16], some (.doubleFree "a.c" 2)) := by decide +kernel
  rw [replayed] at facts
  simp only [Option.map_some, Option.some.injEq, Prod.mk.injEq] at facts
  obtain ⟨live, outcome⟩ := facts
  obtain ⟨⟨t, _⟩, freed, rfl⟩ := Option.map_eq_some_iff.mp outcome
  exact ⟨w, .of_replay replayed (Lib.meetsAll_always _ _), by simp [live], t, freed⟩

end Ucb.Memdbg
