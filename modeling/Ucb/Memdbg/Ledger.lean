import Ucb.Memdbg.Tracker

/-!
Contract: what the tracker keeps, without its memory.

Owns:
- `Ledger`, the blocks and the metrics of each level, and what registering,
  freeing and the tracepoints do to it;
- `Refines`, that the memory of a tracker holds a ledger;
- that every critical section does to the memory what it does to the ledger.

A block of a ledger is in one list, that of the level in its header, and the
links of the headers are those of the lists.
-/

namespace Ucb.Memdbg

/-- The levels in use, each with its blocks, the newest first, and its metrics. -/
structure Ledger where
  level : Nat
  lists : Nat → List Ptr
  metrics : Nat → Metrics

def Ledger.start : Ledger where
  level := 0
  lists := fun _ => []
  metrics := fun _ => .zero

def Ledger.register (g : Ledger) (entry : Ptr) (size : UInt64) : Ledger :=
  { g with
    lists := Function.update g.lists g.level (entry :: g.lists g.level)
    metrics := Function.update g.metrics g.level ((g.metrics g.level).gain size) }

/-- A block of level `home` goes, at the expense of the current level. -/
def Ledger.unregister (g : Ledger) (entry : Ptr) (home : Nat) (size : UInt64) : Ledger :=
  { g with
    lists := Function.update g.lists home ((g.lists home).erase entry)
    metrics := Function.update g.metrics g.level ((g.metrics g.level).lose size) }

def Ledger.push (g : Ledger) : Ledger where
  level := g.level + 1
  lists := Function.update g.lists (g.level + 1) []
  metrics := Function.update g.metrics (g.level + 1) .zero

def Ledger.pop (g : Ledger) : Ledger where
  level := g.level - 1
  lists := Function.update g.lists (g.level - 1)
    ((g.lists g.level).reverse ++ g.lists (g.level - 1))
  metrics := Function.update g.metrics (g.level - 1)
    ((g.metrics (g.level - 1)).merge (g.metrics g.level))

def Ledger.reset (g : Ledger) : Ledger :=
  { g with metrics := fun level => (g.metrics level).reset }

/-- A block is in the list of a level in use. -/
def Ledger.Has (g : Ledger) (entry : Ptr) : Prop :=
  ∃ level ≤ g.level, entry ∈ g.lists level

def Ledger.heads (g : Ledger) (level : Nat) : Option Ptr :=
  (g.lists level).head?

/-- The levels have a tracepoint each, with these metrics and heads. -/
structure Points (t : Tracker) (level : Nat) (metrics : Nat → Metrics)
    (heads : Nat → Option Ptr) : Prop where
  found : ∀ l ≤ level, ∃ address, t.tracePoints l = some address ∧
    t.tracepoints address = some ⟨metrics l, heads l⟩
  apart : ∀ l ≤ level, ∀ k ≤ level, t.tracePoints l = t.tracePoints k → l = k

structure Refines (t : Tracker) (g : Ledger) : Prop where
  level : t.traceLevel = g.level
  points : Points t g.level g.metrics g.heads
  chain : ∀ level ≤ g.level, Lib.Chain t.entries.links (g.lists level)
  owned : ∀ level ≤ g.level, ∀ entry ∈ g.lists level,
    (t.entries.info entry).map AllocInfo.level = some level

theorem Refines.start (freePool : Bool) : Refines (ucbMemTrackingEnable freePool) .start where
  level := rfl
  points := {
    found := fun level inUse => by
      obtain rfl : level = 0 := Nat.le_zero.mp inUse
      exact ⟨0, rfl, rfl⟩
    apart := fun first firstIn second secondIn _ =>
      (Nat.le_zero.mp firstIn).trans (Nat.le_zero.mp secondIn).symm }
  chain := fun _ _ => .nil
  owned := fun _ _ _ member => absurd member List.not_mem_nil

/-! ## The tracepoints -/

section Points

variable {t : Tracker} {level : Nat} {metrics : Nat → Metrics} {heads : Nat → Option Ptr}

theorem Points.get {l : Nat} {address : TracepointPtr} (points : Points t level metrics heads)
    (inUse : l ≤ level) (here : t.tracePoints l = some address) :
    t.tracepoints address = some ⟨metrics l, heads l⟩ := by
  obtain ⟨same, here', there⟩ := points.found l inUse
  obtain rfl := Option.some.inj (here.symm.trans here')
  exact there

/-- Writing to the tracepoint of a level changes that level only. -/
theorem Points.set {l : Nat} {address : TracepointPtr} (points : Points t level metrics heads)
    (inUse : l ≤ level) (here : t.tracePoints l = some address) (m : Metrics)
    (head : Option Ptr) :
    Points (t.setTracepoint address ⟨m, head⟩) level (Function.update metrics l m)
      (Function.update heads l head) where
  found := fun k kInUse => by
    obtain ⟨other, there, pointee⟩ := points.found k kInUse
    refine ⟨other, there, ?_⟩
    by_cases same : k = l
    · subst same
      obtain rfl := Option.some.inj (here.symm.trans there)
      simp [Tracker.setTracepoint]
    · have different : other ≠ address := by
        rintro rfl
        exact same (points.apart k kInUse l inUse (there.trans here.symm))
      simp [Tracker.setTracepoint, same, different, pointee]
  apart := points.apart

theorem Points.dropHead {t' : Tracker} {found : AllocMeta}
    (points : Points t level metrics heads) (inUse : found.level ≤ level)
    (ran : t.dropHead found = some t') :
    Points t' level metrics (Function.update heads found.level
        (Lib.headWithout found.toLink (heads found.level))) ∧
      t'.traceLevel = t.traceLevel ∧ t'.freePool = t.freePool ∧ t'.freeLog = t.freeLog := by
  unfold Tracker.dropHead at ran
  split at ran
  next prev here =>
    obtain rfl := Option.some.inj ran
    have same : Lib.headWithout found.toLink (heads found.level) = heads found.level := by
      simp [Lib.headWithout, here]
    rw [same, Function.update_eq_self]
    exact ⟨points, rfl, rfl, rfl⟩
  next here =>
    simp only [Option.bind_eq_bind, Option.bind_eq_some_iff, Option.some.injEq] at ran
    obtain ⟨address, point, tp, pointee, rfl⟩ := ran
    obtain rfl := Option.some.inj (pointee.symm.trans (points.get inUse point))
    have same : Lib.headWithout found.toLink (heads found.level) = found.next := by
      simp [Lib.headWithout, here]
    have written := points.set inUse point (metrics found.level) found.next
    rw [Function.update_eq_self] at written
    rw [same]
    exact ⟨written, rfl, rfl, rfl⟩

theorem heads_update (lists : Nat → List Ptr) (l : Nat) (nodes : List Ptr) :
    (fun k => (Function.update lists l nodes k).head?) =
      Function.update (fun k => (lists k).head?) l nodes.head? := by
  funext k
  by_cases same : k = l
  · subst same; simp
  · simp [same]

end Points

/-! ## The memory of the headers -/

section Entries

variable {entries after : Entries} {target other : Option Ptr}

@[simp]
theorem links_insert (entry : Ptr) (found : AllocMeta) :
    Entries.links (entries.insert entry found) =
      Function.update (Entries.links entries) entry (some found.toLink) := by
  funext node
  by_cases same : node = entry
  · subst same; simp [Entries.links, Finmap.lookup_insert]
  · simp [Entries.links, Finmap.lookup_insert_of_ne _ same, same]

@[simp]
theorem info_insert (entry : Ptr) (found : AllocMeta) :
    Entries.info (entries.insert entry found) =
      Function.update (Entries.info entries) entry (some found.toAllocInfo) := by
  funext node
  by_cases same : node = entry
  · subst same; simp [Entries.info, Finmap.lookup_insert]
  · simp [Entries.info, Finmap.lookup_insert_of_ne _ same, same]

@[simp]
theorem links_erase (entry : Ptr) :
    Entries.links (entries.erase entry) =
      Function.update (Entries.links entries) entry none := by
  funext node
  by_cases same : node = entry
  · subst same; simp [Entries.links, Finmap.lookup_erase]
  · simp [Entries.links, Finmap.lookup_erase_ne same, same]

@[simp]
theorem info_erase (entry : Ptr) :
    Entries.info (entries.erase entry) =
      Function.update (Entries.info entries) entry none := by
  funext node
  by_cases same : node = entry
  · subst same; simp [Entries.info, Finmap.lookup_erase]
  · simp [Entries.info, Finmap.lookup_erase_ne same, same]

theorem links_of_lookup {entry : Ptr} {found : AllocMeta}
    (here : entries.lookup entry = some found) : entries.links entry = some found.toLink := by
  rw [Entries.links, here]; rfl

theorem info_of_lookup {entry : Ptr} {found : AllocMeta}
    (here : entries.lookup entry = some found) : entries.info entry = some found.toAllocInfo := by
  rw [Entries.info, here]; rfl

theorem setPrev_links (ran : entries.setPrev target other = some after) :
    after.links = Lib.setPrev entries.links target other ∧ after.info = entries.info := by
  cases target with
  | none =>
      obtain rfl := Option.some.inj ran
      exact ⟨by funext node; simp [Lib.setPrev], rfl⟩
  | some entry =>
      obtain ⟨found, here, rfl⟩ := Option.map_eq_some_iff.mp ran
      rw [links_insert, info_insert]
      refine ⟨?_, Function.update_eq_self_iff.mpr (info_of_lookup here).symm⟩
      funext node
      by_cases same : node = entry
      · subst same; simp [links_of_lookup here]
      · simp [Lib.setPrev, same, Ne.symm same]

theorem exists_setPrev (prev : Option Ptr) (there : ∀ node ∈ target, (entries.links node).isSome) :
    ∃ after, entries.setPrev target prev = some after := by
  cases target with
  | none => exact ⟨entries, rfl⟩
  | some node =>
      have present : (entries.lookup node).isSome := by
        simpa [Entries.links] using there node rfl
      obtain ⟨found, here⟩ := Option.isSome_iff_exists.mp present
      exact ⟨_, congrArg (Option.map _) here⟩

theorem setNext_links (ran : entries.setNext target other = some after) :
    after.links = Lib.setNext entries.links target other ∧ after.info = entries.info := by
  cases target with
  | none =>
      obtain rfl := Option.some.inj ran
      exact ⟨by funext node; simp [Lib.setNext], rfl⟩
  | some entry =>
      obtain ⟨found, here, rfl⟩ := Option.map_eq_some_iff.mp ran
      rw [links_insert, info_insert]
      refine ⟨?_, Function.update_eq_self_iff.mpr (info_of_lookup here).symm⟩
      funext node
      by_cases same : node = entry
      · subst same; simp [links_of_lookup here]
      · simp [Lib.setNext, same, Ne.symm same]

theorem exists_setNext (next : Option Ptr) (there : ∀ node ∈ target, (entries.links node).isSome) :
    ∃ after, entries.setNext target next = some after := by
  cases target with
  | none => exact ⟨entries, rfl⟩
  | some node =>
      have present : (entries.lookup node).isSome := by
        simpa [Entries.links] using there node rfl
      obtain ⟨found, here⟩ := Option.isSome_iff_exists.mp present
      exact ⟨_, congrArg (Option.map _) here⟩

end Entries

/-! ## Levels are apart -/

section Apart

variable {t t' : Tracker} {g : Ledger} {entry : Ptr}

theorem Refines.same_level {first second : Nat} (refines : Refines t g) (firstIn : first ≤ g.level)
    (secondIn : second ≤ g.level) (inFirst : entry ∈ g.lists first)
    (inSecond : entry ∈ g.lists second) : first = second :=
  Option.some.inj ((refines.owned first firstIn entry inFirst).symm.trans
    (refines.owned second secondIn entry inSecond))

theorem Refines.head_ne {first second : Nat} (refines : Refines t g) (firstIn : first ≤ g.level)
    (secondIn : second ≤ g.level) (different : first ≠ second) (inFirst : entry ∈ g.lists first) :
    (g.lists second).head? ≠ some entry := fun isHead =>
  different (refines.same_level firstIn secondIn inFirst (List.mem_of_mem_head? isHead))

/-- Headers of other blocks may change. -/
theorem Refines.frame {entries : Entries} (refines : Refines t g)
    (sameLinks : ∀ node, g.Has node → entries.links node = t.entries.links node)
    (sameInfo : ∀ node, g.Has node → entries.info node = t.entries.info node) :
    Refines { t with entries := entries } g where
  level := refines.level
  points := ⟨refines.points.found, refines.points.apart⟩
  chain := fun level inUse =>
    (refines.chain level inUse).congr fun node member => sameLinks node ⟨level, inUse, member⟩
  owned := fun level inUse node member => by
    rw [sameInfo node ⟨level, inUse, member⟩]
    exact refines.owned level inUse node member

theorem Refines.freeLog {log : List FreeMeta} (refines : Refines t g) :
    Refines { t with freeLog := log } g :=
  ⟨refines.level, ⟨refines.points.found, refines.points.apart⟩, refines.chain, refines.owned⟩

end Apart

/-! ## Registering -/

section Register

variable {t t' : Tracker} {g : Ledger} {entry : Ptr}

theorem registerAlloc_eq_some : registerAlloc t entry = some t' ↔
    ∃ address tp found entries, t.tracePoints t.traceLevel = some address ∧
      t.tracepoints address = some tp ∧ t.entries.lookup entry = some found ∧
      Entries.isAlloc (t.entries.insert entry
        { found with level := t.traceLevel, next := tp.alloc, prev := none }) tp.alloc ∧
      Entries.setPrev (t.entries.insert entry
        { found with level := t.traceLevel, next := tp.alloc, prev := none }) tp.alloc
        (some entry) = some entries ∧
      { t.setTracepoint address ⟨tp.gain found.size, some entry⟩ with
        entries := entries
        freeLog := freeTableRemoveLocked t.freeLog entry } = t' := by
  simp only [registerAlloc, Option.bind_eq_bind, Option.bind_eq_some_iff, Option.guard_eq_some',
    Option.some.injEq, exists_and_left, exists_const]

theorem register_heads (size : UInt64) :
    (g.register entry size).heads = Function.update g.heads g.level (some entry) :=
  heads_update g.lists g.level (entry :: g.lists g.level)

/-- What `register_alloc` does. -/
theorem Refines.register (refines : Refines t g) (fresh : ¬ g.Has entry)
    (ran : registerAlloc t entry = some t') :
    ∃ info, t.entries.info entry = some info ∧ Refines t' (g.register entry info.size) ∧
      t'.entries.info = Function.update t.entries.info entry
        (some { info with level := g.level }) ∧
      t'.freePool = t.freePool ∧ t'.freeLog = freeTableRemoveLocked t.freeLog entry := by
  obtain ⟨address, tp, found, entries, point, pointee, header, -, linked, rfl⟩ :=
    registerAlloc_eq_some.mp ran
  rw [refines.level] at point
  obtain rfl := Option.some.inj (pointee.symm.trans (refines.points.get (Nat.le_refl _) point))
  obtain ⟨links, infos⟩ := setPrev_links linked
  replace links : entries.links = Lib.linkFront t.entries.links entry (g.heads g.level) := by
    rw [links, links_insert]; rfl
  rw [info_insert, refines.level] at infos
  refine ⟨found.toAllocInfo, info_of_lookup header, ⟨refines.level, ?_, ?_, ?_⟩, infos, rfl, rfl⟩
  · have points := refines.points.set (Nat.le_refl _) point
      ((g.metrics g.level).gain found.size) (some entry)
    rw [register_heads]
    exact ⟨points.found, points.apart⟩
  · intro level inUse
    change Lib.Chain entries.links _
    rw [links]
    by_cases current : level = g.level
    · subst current
      simp only [Ledger.register, Function.update_self]
      exact (refines.chain _ inUse).push fun member => fresh ⟨_, inUse, member⟩
    · simp only [Ledger.register, Function.update_of_ne current]
      apply (refines.chain level inUse).congr
      intro node member
      have notEntry : node ≠ entry := by
        rintro rfl
        exact fresh ⟨level, inUse, member⟩
      apply Lib.linkFront_of_notMem notEntry
      exact refines.head_ne inUse (Nat.le_refl _) current member
  · intro level inUse node member
    change (entries.info node).map AllocInfo.level = some level
    rw [infos]
    by_cases same : node = entry
    · subst same
      have current : level = g.level := by
        by_contra other
        simp only [Ledger.register, Function.update_of_ne other] at member
        exact fresh ⟨level, inUse, member⟩
      simp [current]
    · rw [Function.update_of_ne same]
      apply refines.owned level inUse
      by_cases current : level = g.level
      · subst current
        simpa [Ledger.register, same] using member
      · simpa [Ledger.register, current] using member

theorem unregisterAlloc_eq_some : unregisterAllocLocked t entry = some t' ↔
    ∃ found, t.entries.lookup entry = some found ∧ found.magic = allocMagic ∧
      ∃ address, t.tracePoints t.traceLevel = some address ∧
        ∃ tp, t.tracepoints address = some tp ∧
          Entries.isAlloc (t.entries.insert entry { found with magic := deallocMagic })
            found.prev ∧
          ∃ middle, Entries.setNext (t.entries.insert entry { found with magic := deallocMagic })
              found.prev found.next = some middle ∧
            ∃ first, (t.setTracepoint address
                { tp with toMetrics := tp.lose found.size }).dropHead found = some first ∧
              middle.isAlloc found.next ∧
              ∃ entries, middle.setPrev found.next found.prev = some entries ∧
                { first with entries := entries } = t' := by
  simp only [unregisterAllocLocked, Option.bind_eq_bind, Option.bind_eq_some_iff,
    Option.guard_eq_some', exists_const, Option.some.injEq]

/-- What `unregister_alloc_locked` does: the block leaves the list of its own level, the metrics
of the current one pay for it. -/
theorem Refines.unregister (refines : Refines t g) (has : g.Has entry)
    (ran : unregisterAllocLocked t entry = some t') :
    ∃ info, t.entries.info entry = some info ∧ info.magic = allocMagic ∧
      Refines t' (g.unregister entry info.level info.size) ∧
      t'.entries.info = Function.update t.entries.info entry
        (some { info with magic := deallocMagic }) ∧
      t'.freePool = t.freePool ∧ t'.freeLog = t.freeLog := by
  obtain ⟨found, header, magic, address, point, tp, pointee, -, middle, forth, first, dropped, -,
    entries, back, rfl⟩ := unregisterAlloc_eq_some.mp ran
  obtain ⟨home, homeIn, member⟩ := has
  have atHome : found.level = home := by
    have owned := refines.owned home homeIn entry member
    rw [info_of_lookup header] at owned
    exact Option.some.inj owned
  rw [refines.level] at point
  obtain rfl := Option.some.inj (pointee.symm.trans (refines.points.get (Nat.le_refl _) point))
  obtain ⟨forthLinks, forthInfos⟩ := setNext_links forth
  obtain ⟨links, infos⟩ := setPrev_links back
  rw [links_insert, Function.update_eq_self_iff.mpr (links_of_lookup header).symm] at forthLinks
  replace links : entries.links = Lib.unlink t.entries.links found.toLink := by
    rw [links, forthLinks]; rfl
  rw [forthInfos, info_insert] at infos
  obtain ⟨shorter, newHead⟩ :=
    (refines.chain home homeIn).unlink member (links_of_lookup header)
  have points := refines.points.set (Nat.le_refl _) point
    ((g.metrics g.level).lose found.size) (g.heads g.level)
  rw [Function.update_eq_self] at points
  obtain ⟨points, level, pool, log⟩ := points.dropHead (atHome ▸ homeIn) dropped
  refine ⟨found.toAllocInfo, info_of_lookup header, magic,
    ⟨level.trans refines.level, ?_, ?_, ?_⟩, infos, pool, log⟩
  · have heads : (g.unregister entry found.level found.size).heads =
        Function.update g.heads found.level
          (Lib.headWithout found.toLink (g.heads found.level)) := by
      rw [atHome]
      exact (heads_update g.lists home _).trans (congrArg _ newHead)
    rw [heads]
    exact ⟨points.found, points.apart⟩
  · intro l inUse
    change Lib.Chain entries.links _
    rw [links]
    by_cases same : l = home
    · subst same
      simp only [Ledger.unregister, atHome, Function.update_self]
      exact shorter
    · simp only [Ledger.unregister, atHome, Function.update_of_ne same]
      apply (refines.chain l inUse).congr
      intro node inList
      have apart : ∀ other, found.prev = some other ∨ found.next = some other → other ≠ node := by
        rintro other next rfl
        have inHome :=
          (refines.chain home homeIn).neighbour_mem member (links_of_lookup header) next
        exact same (refines.same_level inUse homeIn inList inHome)
      exact Lib.unlink_of_ne (fun isPrev => apart node (.inl isPrev) rfl)
        (fun isNext => apart node (.inr isNext) rfl)
  · intro l inUse node inList
    change (entries.info node).map AllocInfo.level = some l
    have wasIn : node ∈ g.lists l := by
      by_cases same : l = home
      · subst same
        simp only [Ledger.unregister, atHome, Function.update_self] at inList
        exact List.mem_of_mem_erase inList
      · simpa only [Ledger.unregister, atHome, Function.update_of_ne same] using inList
    rw [infos]
    by_cases same : node = entry
    · subst same
      have owned := refines.owned l inUse node wasIn
      rw [info_of_lookup header] at owned
      simpa using owned
    · rw [Function.update_of_ne same]
      exact refines.owned l inUse node wasIn

/-- A tracked block whose neighbours are still marked as allocated can be unregistered. -/
theorem Refines.exists_unregister (refines : Refines t g) (has : g.Has entry)
    (marked : ∀ node, g.Has node → (t.entries.info node).map AllocInfo.magic = some allocMagic) :
    ∃ t', unregisterAllocLocked t entry = some t' := by
  have here := Nat.le_refl g.level
  obtain ⟨home, homeIn, member⟩ := id has
  obtain ⟨link, linked⟩ :=
    Option.isSome_iff_exists.mp ((refines.chain home homeIn).mem_isSome member)
  obtain ⟨found, header, rfl⟩ := Option.map_eq_some_iff.mp linked
  have magic : found.magic = allocMagic := by
    have marked := marked entry has
    rw [info_of_lookup header] at marked
    exact Option.some.inj marked
  have atHome : found.level = home := by
    have owned := refines.owned home homeIn entry member
    rw [info_of_lookup header] at owned
    exact Option.some.inj owned
  -- The neighbours are other blocks of the list.
  have neighbour : ∀ other, found.prev = some other ∨ found.next = some other →
      g.Has other ∧ other ≠ entry := fun other next =>
    ⟨⟨home, homeIn, (refines.chain home homeIn).neighbour_mem member linked next⟩,
      (refines.chain home homeIn).neighbour_ne member linked next⟩
  have isMarked : ∀ other, found.prev = some other ∨ found.next = some other →
      (Entries.info (t.entries.insert entry { found with magic := deallocMagic }) other).map
        AllocInfo.magic = some allocMagic := by
    intro other next
    rw [info_insert, Function.update_of_ne (neighbour other next).2]
    exact marked other (neighbour other next).1
  have present : ∀ other, found.prev = some other ∨ found.next = some other →
      (Entries.links (t.entries.insert entry
        { found with magic := deallocMagic }) other).isSome := by
    intro other next
    rw [links_insert, Function.update_of_ne (neighbour other next).2]
    obtain ⟨⟨level, inUse, inList⟩, -⟩ := neighbour other next
    exact (refines.chain level inUse).mem_isSome inList
  obtain ⟨address, point, pointee⟩ := refines.points.found g.level here
  have points := refines.points.set here point ((g.metrics g.level).lose found.size)
    (g.heads g.level)
  obtain ⟨middle, forth⟩ := exists_setNext found.next
    fun other isPrev => present other (.inl isPrev)
  obtain ⟨forthLinks, forthInfo⟩ := setNext_links forth
  have stillPresent : ∀ other ∈ found.next, (middle.links other).isSome := by
    intro other isNext
    rw [forthLinks, Lib.setNext]
    split
    · simpa using present other (.inr isNext)
    · exact present other (.inr isNext)
  obtain ⟨entries, back⟩ := exists_setPrev found.prev stillPresent
  obtain ⟨first, dropped⟩ : ∃ first, (t.setTracepoint address
      ⟨(g.metrics g.level).lose found.size, g.heads g.level⟩).dropHead found = some first := by
    unfold Tracker.dropHead
    split
    · exact ⟨_, rfl⟩
    · obtain ⟨other, there, read⟩ := points.found found.level (atHome ▸ homeIn)
      exact ⟨_, by simp [there, read]; rfl⟩
  refine ⟨_, unregisterAlloc_eq_some.mpr ⟨found, header, magic, address, refines.level ▸ point, _,
    pointee, fun other isPrev => isMarked other (.inl isPrev), middle, forth, first, dropped, ?_,
    entries, back, rfl⟩⟩
  intro other isNext
  rw [forthInfo]
  exact isMarked other (.inr isNext)

end Register

/-! ## Popping -/

section Pop

variable {t t' : Tracker} {g : Ledger}

theorem Entries.mem_keys_of_links {entries : Entries} {node : Ptr}
    (there : (entries.links node).isSome) : node ∈ entries.keys := by
  rw [Finmap.mem_keys, ← Finmap.lookup_isSome]
  simpa [Entries.links] using there

/-- The headers after the blocks of a list have been moved to another level. -/
def Entries.raised (entries : Entries) (rest : List Ptr) (levelUp : Nat) (node : Ptr) :
    Option AllocInfo :=
  if node ∈ rest then (entries.info node).map fun info => { info with level := levelUp }
  else entries.info node

/-- The loop moves the blocks of a list one by one in front of another one. -/
theorem moveEntries_spec (level levelUp : Nat) : ∀ (rest : List Ptr) (fuel : Nat)
    (entries : Entries) (nodes : List Ptr), rest.length ≤ fuel →
    Lib.Forward entries.links rest → rest.Nodup → Lib.Chain entries.links nodes →
    List.Disjoint rest nodes →
    (∀ node ∈ rest, (entries.info node).map AllocInfo.level = some level) →
    ∃ after, moveEntries level levelUp fuel entries nodes.head? rest.head? =
        some (after, (rest.reverse ++ nodes).head?) ∧
      Lib.Chain after.links (rest.reverse ++ nodes) ∧
      (∀ other, other ∉ rest → other ∉ nodes → after.links other = entries.links other) ∧
      after.info = entries.raised rest levelUp := by
  intro rest
  induction rest with
  | nil =>
      intro fuel entries nodes _ _ _ chain _ _
      refine ⟨entries, ?_, chain, fun _ _ _ => rfl, ?_⟩
      · cases fuel <;> rfl
      · funext node; simp [Entries.raised]
  | cons node rest inductionHypothesis =>
      intro fuel entries nodes enough forward nodup chain disjoint atLevel
      obtain ⟨fuel, rfl⟩ : ∃ less, fuel = less + 1 :=
        ⟨fuel - 1, by simp only [List.length_cons] at enough; omega⟩
      obtain ⟨⟨prev, linked⟩, forward⟩ := forward
      obtain ⟨notRest, nodup⟩ := List.nodup_cons.mp nodup
      have fresh : node ∉ nodes := fun member => disjoint (by simp) member
      obtain ⟨found, header, links⟩ := Option.map_eq_some_iff.mp linked
      have atLevel' := atLevel node (by simp)
      rw [info_of_lookup header] at atLevel'
      -- The header is written, then the first block of the other list.
      have present : ∀ head ∈ nodes.head?, (Entries.links (entries.insert node
          { found with level := levelUp, prev := none, next := nodes.head? }) head).isSome := by
        intro head isHead
        have member := List.mem_of_mem_head? isHead
        have other : head ≠ node := by rintro rfl; exact fresh member
        rw [links_insert, Function.update_of_ne other]
        exact chain.mem_isSome member
      obtain ⟨middle, ran⟩ := exists_setPrev (some node) present
      obtain ⟨newLinks, newInfo⟩ := setPrev_links ran
      replace newLinks : middle.links = Lib.linkFront entries.links node nodes.head? := by
        rw [newLinks, links_insert]; rfl
      rw [info_insert] at newInfo
      have kept : ∀ other ∈ rest, middle.links other = entries.links other := by
        intro other member
        rw [newLinks]
        apply Lib.linkFront_of_notMem
        · rintro rfl; exact notRest member
        · intro isHead
          exact disjoint (List.mem_cons_of_mem _ member) (List.mem_of_mem_head? isHead)
      have apart : List.Disjoint rest (node :: nodes) := by
        intro other member inNodes
        rcases List.mem_cons.mp inNodes with rfl | old
        · exact notRest member
        · exact disjoint (List.mem_cons_of_mem _ member) old
      have stillAtLevel : ∀ other ∈ rest,
          (middle.info other).map AllocInfo.level = some level := by
        intro other member
        have different : other ≠ node := by rintro rfl; exact notRest member
        rw [newInfo, Function.update_of_ne different]
        exact atLevel other (List.mem_cons_of_mem _ member)
      obtain ⟨after, moved, whole, elsewhere, infos⟩ := inductionHypothesis fuel middle
        (node :: nodes) (by simpa using enough) (forward.congr kept) nodup
        (newLinks ▸ chain.push fresh) apart stillAtLevel
      refine ⟨after, ?_, by simpa using whole, ?_, ?_⟩
      · rw [List.reverse_cons, List.append_assoc, List.singleton_append, ← moved,
          List.head?_cons, List.head?_cons, moveEntries, header]
        have next : found.next = rest.head? := congrArg Lib.Link.next links
        simp [Option.some.inj atLevel', ran, next]
      · intro other notMoved notThere
        obtain ⟨notNode, notLater⟩ := not_or.mp (fun member => notMoved (List.mem_cons.mpr member))
        rw [elsewhere other notLater (by simp [notNode, notThere]), newLinks]
        exact Lib.linkFront_of_notMem notNode fun isHead =>
          notThere (List.mem_of_mem_head? isHead)
      · funext other
        rw [infos]
        by_cases same : other = node
        · subst same
          simp [Entries.raised, notRest, newInfo, info_of_lookup header]
        · simp [Entries.raised, same, newInfo]

theorem popLocked_eq_some {address : TracepointPtr} {entry : Option Ptr} :
    popLocked t address entry = some t' ↔ 0 < t.traceLevel ∧
      ∃ addressUp, t.tracePoints (t.traceLevel - 1) = some addressUp ∧
      ∃ up, t.tracepoints addressUp = some up ∧
      ∃ moved, moveEntries t.traceLevel (t.traceLevel - 1) t.entries.keys.card t.entries up.alloc
          entry = some moved ∧
      ∃ tp, (t.setTracepoint addressUp { up with alloc := moved.2 }).tracepoints address =
          some tp ∧
      ∃ merged, ((t.setTracepoint addressUp { up with alloc := moved.2 }).setTracepoint address
          { tp with alloc := none }).tracepoints addressUp = some merged ∧
      { t with
        entries := moved.1
        tracepoints := Function.update
          (((t.setTracepoint addressUp { up with alloc := moved.2 }).setTracepoint address
            { tp with alloc := none }).setTracepoint addressUp
              { merged with toMetrics := merged.merge tp.toMetrics }).tracepoints address none
        tracePoints := Function.update t.tracePoints t.traceLevel none
        traceLevel := t.traceLevel - 1 } = t' := by
  simp only [popLocked, Option.bind_eq_bind, Option.bind_eq_some_iff, Option.guard_eq_some',
    exists_const, Option.some.injEq, Prod.exists]
  rfl

/-- What the end of `ucb_mem_tracking_pop` does when the current tracepoint and
its list are still those read at its beginning. -/
theorem Refines.pop {address : TracepointPtr} (refines : Refines t g) (above : 0 < g.level)
    (point : t.tracePoints g.level = some address) :
    ∃ t', popLocked t address (g.heads g.level) = some t' ∧ Refines t' g.pop ∧
      t'.entries.info = t.entries.raised (g.lists g.level) (g.level - 1) ∧
      t'.freePool = t.freePool ∧ t'.freeLog = t.freeLog := by
  have below : g.level - 1 ≤ g.level := by omega
  have here := Nat.le_refl g.level
  have different : g.level - 1 ≠ g.level := by omega
  obtain ⟨addressUp, pointUp, pointeeUp⟩ := refines.points.found (g.level - 1) below
  have enough : (g.lists g.level).length ≤ t.entries.keys.card :=
    (refines.chain g.level here).length_le_card fun node => Entries.mem_keys_of_links
  have disjoint : List.Disjoint (g.lists g.level) (g.lists (g.level - 1)) := fun node upper lower =>
    different (refines.same_level below here lower upper)
  obtain ⟨entries, moved, whole, elsewhere, infos⟩ := moveEntries_spec g.level (g.level - 1)
    (g.lists g.level) t.entries.keys.card t.entries (g.lists (g.level - 1)) enough
    (refines.chain _ here).forward (refines.chain _ here).nodup (refines.chain _ below) disjoint
    (refines.owned _ here)
  generalize headIs : ((g.lists g.level).reverse ++ g.lists (g.level - 1)).head? = head at moved
  -- The three writes to the tracepoints, and what is read between them.
  have first := refines.points.set below pointUp (g.metrics (g.level - 1)) head
  have read := first.get here point
  rw [Function.update_of_ne different.symm, Function.update_of_ne different.symm] at read
  have second := first.set here point (g.metrics g.level) none
  have readUp := second.get below pointUp
  rw [Function.update_of_ne different, Function.update_of_ne different, Function.update_self,
    Function.update_self] at readUp
  have third := second.set below pointUp
    ((g.metrics (g.level - 1)).merge (g.metrics g.level)) head
  have popped : popLocked t address (g.heads g.level) = some _ := popLocked_eq_some.mpr
    ⟨by rwa [refines.level], addressUp, by rwa [refines.level], _, pointeeUp, (entries, head),
      by rw [refines.level]; exact moved, _, read, _, readUp, rfl⟩
  refine ⟨_, popped, ⟨?_, ⟨?_, ?_⟩, ?_, ?_⟩, infos, rfl, rfl⟩
  · exact congrArg (· - 1) refines.level
  · intro level inUse
    replace inUse : level ≤ g.level - 1 := inUse
    have notTop : level ≠ g.level := by omega
    obtain ⟨other, there, pointee⟩ := third.found level (by omega)
    have notPopped : other ≠ address := by
      rintro rfl
      exact notTop (refines.points.apart level (by omega) g.level here (there.trans point.symm))
    refine ⟨other, ?_, ?_⟩
    · simp only [refines.level, Function.update_of_ne notTop]
      exact there
    · simp only [Function.update_of_ne notPopped]
      refine pointee.trans ?_
      by_cases parent : level = g.level - 1
      · subst parent
        simp [Ledger.pop, Ledger.heads, ← headIs]
      · simp [Ledger.pop, Ledger.heads, parent, notTop]
  · intro first firstIn second secondIn same
    replace firstIn : first ≤ g.level - 1 := firstIn
    replace secondIn : second ≤ g.level - 1 := secondIn
    simp only [refines.level] at same
    rw [Function.update_of_ne (by omega), Function.update_of_ne (by omega)] at same
    exact refines.points.apart first (by omega) second (by omega) same
  · intro level inUse
    replace inUse : level ≤ g.level - 1 := inUse
    change Lib.Chain entries.links _
    by_cases parent : level = g.level - 1
    · subst parent
      simpa only [Ledger.pop, Function.update_self] using whole
    · simp only [Ledger.pop, Function.update_of_ne parent]
      apply (refines.chain level (by omega)).congr
      intro node member
      apply elsewhere
      · intro top
        have := refines.same_level (by omega) here member top
        omega
      · intro up
        exact parent (refines.same_level (by omega) below member up)
  · intro level inUse node member
    replace inUse : level ≤ g.level - 1 := inUse
    change (entries.info node).map AllocInfo.level = some level
    have old : node ∈ g.lists g.level ∧ level = g.level - 1 ∨ node ∈ g.lists level := by
      by_cases parent : level = g.level - 1
      · subst parent
        simp only [Ledger.pop, Function.update_self, List.mem_append, List.mem_reverse] at member
        exact member.imp_left fun top => ⟨top, rfl⟩
      · simp only [Ledger.pop, Function.update_of_ne parent] at member
        exact .inr member
    rw [infos, Entries.raised]
    rcases old with ⟨top, parent⟩ | stays
    · obtain ⟨info, found, -⟩ := Option.map_eq_some_iff.mp (refines.owned g.level here node top)
      rw [if_pos top, found]
      exact congrArg some parent.symm
    · have notTop : node ∉ g.lists g.level := by
        intro top
        have := refines.same_level (by omega) here stays top
        omega
      rw [if_neg notTop]
      exact refines.owned level (by omega) node stays

theorem Refines.tracepointAt {level : Nat} (refines : Refines t g) (inUse : level ≤ g.level) :
    t.tracepointAt level = some ⟨g.metrics level, g.heads level⟩ := by
  obtain ⟨address, here, there⟩ := refines.points.found level inUse
  rw [Tracker.tracepointAt, here]
  exact there

/-- Reading the list of a level gives the blocks of the ledger. -/
theorem Refines.allocs {level : Nat} (refines : Refines t g) (inUse : level ≤ g.level) :
    t.allocs level = g.lists level := by
  rw [Tracker.allocs, refines.tracepointAt inUse]
  apply (refines.chain level inUse).walk
  exact (refines.chain level inUse).length_le_card fun node => Entries.mem_keys_of_links

end Pop

/-! ## Pushing and resetting -/

section Push

variable {t t' : Tracker} {g : Ledger}

/-- What `ucb_mem_tracking_push_name` does below the limit. -/
theorem Refines.push {config : Config} {address : TracepointPtr} (refines : Refines t g)
    (free : t.tracepoints address = none) (room : g.level + 1 < config.maxTracepoints) :
    Refines (ucbMemTrackingPushName config t address) g.push := by
  rw [ucbMemTrackingPushName, refines.level, if_pos room]
  refine ⟨rfl, ⟨?_, ?_⟩, ?_, ?_⟩
  · intro level inUse
    by_cases new : level = g.level + 1
    · subst new
      exact ⟨address, by simp, by simp [Tracker.setTracepoint, Ledger.push, Ledger.heads,
        Tracepoint.empty]⟩
    · replace inUse : level ≤ g.level + 1 := inUse
      obtain ⟨other, there, pointee⟩ := refines.points.found level (by omega)
      have different : other ≠ address := by
        rintro rfl
        exact Option.some_ne_none _ (pointee.symm.trans free)
      exact ⟨other, by simpa [new] using there,
        by simpa [Tracker.setTracepoint, Ledger.push, Ledger.heads, new, different] using pointee⟩
  · -- The address of the new tracepoint is not that of another one.
    have old : ∀ level ≤ g.level, t.tracePoints level ≠ some address := by
      intro level inUse here
      exact Option.some_ne_none _ ((refines.points.get inUse here).symm.trans free)
    intro first firstIn second secondIn same
    replace firstIn : first ≤ g.level + 1 := firstIn
    replace secondIn : second ≤ g.level + 1 := secondIn
    by_cases firstNew : first = g.level + 1 <;> by_cases secondNew : second = g.level + 1
    · omega
    · simp only [firstNew, Function.update_self, Function.update_of_ne secondNew] at same
      exact absurd same.symm (old second (by omega))
    · simp only [secondNew, Function.update_self, Function.update_of_ne firstNew] at same
      exact absurd same (old first (by omega))
    · simp only [Function.update_of_ne firstNew, Function.update_of_ne secondNew] at same
      exact refines.points.apart first (by omega) second (by omega) same
  · intro level inUse
    replace inUse : level ≤ g.level + 1 := inUse
    by_cases new : level = g.level + 1
    · subst new
      simpa only [Ledger.push, Function.update_self] using Lib.Chain.nil
    · simp only [Ledger.push, Function.update_of_ne new]
      exact refines.chain level (by omega)
  · intro level inUse node member
    replace inUse : level ≤ g.level + 1 := inUse
    by_cases new : level = g.level + 1
    · subst new
      simp [Ledger.push] at member
    · simp only [Ledger.push, Function.update_of_ne new] at member
      exact refines.owned level (by omega) node member

theorem push_ignored {config : Config} {address : TracepointPtr} (refines : Refines t g)
    (full : ¬ g.level + 1 < config.maxTracepoints) :
    ucbMemTrackingPushName config t address = t := by
  rw [ucbMemTrackingPushName, refines.level, if_neg full]

theorem resetLevels_spec (refines : Refines t g) : ∀ (count : Nat) (t' : Tracker),
    count ≤ g.level + 1 → resetLevels t count = some t' →
    Points t' g.level (fun l => if l < count then (g.metrics l).reset else g.metrics l) g.heads ∧
      t'.entries = t.entries ∧ t'.traceLevel = t.traceLevel ∧ t'.freePool = t.freePool := by
  intro count
  induction count with
  | zero =>
      intro t' _ ran
      obtain rfl := Option.some.inj ran
      exact ⟨by simpa using refines.points, rfl, rfl, rfl⟩
  | succ count inductionHypothesis =>
      intro t' inUse ran
      simp only [resetLevels, Option.bind_eq_bind, Option.bind_eq_some_iff,
        Option.some.injEq] at ran
      obtain ⟨middle, earlier, address, point, tp, pointee, rfl⟩ := ran
      obtain ⟨points, entries, level, pool⟩ := inductionHypothesis middle (by omega) earlier
      have inUse' : count ≤ g.level := by omega
      obtain rfl := Option.some.inj (pointee.symm.trans (points.get inUse' point))
      have written := points.set inUse' point (g.metrics count).reset (g.heads count)
      rw [Function.update_eq_self] at written
      have same : Function.update
          (fun l => if l < count then (g.metrics l).reset else g.metrics l) count
            (g.metrics count).reset =
          fun l => if l < count + 1 then (g.metrics l).reset else g.metrics l := by
        funext l
        by_cases here : l = count
        · subst here; simp
        · rw [Function.update_of_ne here]
          exact if_congr (by omega) rfl rfl
      rw [same] at written
      refine ⟨?_, entries, level, pool⟩
      simpa using written

theorem Refines.reset (refines : Refines t g) (ran : ucbMemTrackingReset t = some t') :
    Refines t' g.reset ∧ t'.entries = t.entries ∧ t'.freePool = t.freePool ∧
      t'.freeLog = [] := by
  obtain ⟨middle, looped, rfl⟩ := Option.map_eq_some_iff.mp ran
  rw [refines.level] at looped
  obtain ⟨points, entries, level, pool⟩ :=
    resetLevels_spec refines (g.level + 1) middle (Nat.le_refl _) looped
  refine ⟨⟨level.trans refines.level, ⟨?_, points.apart⟩, ?_, ?_⟩, entries, pool, rfl⟩
  · intro l inUse
    obtain ⟨address, here, there⟩ := points.found l inUse
    refine ⟨address, here, there.trans ?_⟩
    have counted : l < g.level + 1 := Nat.lt_succ_of_le inUse
    rw [if_pos counted]
    rfl
  · intro l inUse
    change Lib.Chain middle.entries.links _
    rw [entries]
    exact refines.chain l inUse
  · intro l inUse node member
    change (middle.entries.info node).map AllocInfo.level = some l
    rw [entries]
    exact refines.owned l inUse node member

end Push

end Ucb.Memdbg
