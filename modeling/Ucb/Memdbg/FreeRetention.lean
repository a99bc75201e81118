import Ucb.Memdbg.FreeIndex

/-!
Contract: the free log over any sequence of insertions, removals and clears.

Owns:
- that the table does with its records what the functions of `Ucb.Memdbg.Tracker` do,
  and these what a bounded log of `Ucb.Lib.RecencyLog` does;
- how a sequence of operations leaves the table, and the record it finds.
-/

namespace Ucb.Memdbg

open Ucb.Lib

def FreeMeta.address (record : FreeMeta) : Ptr :=
  record.ptr

/-! ## Records -/

section Records

variable {log : List FreeMeta} {record : FreeMeta} {ptr : Ptr} {config : Config}

theorem remove_eq (distinct : Distinct log) :
    freeTableRemoveLocked log ptr = withoutKey FreeMeta.address log ptr := by
  induction log with
  | nil => rfl
  | cons first rest inductionHypothesis =>
      obtain ⟨others, distinct⟩ := List.pairwise_cons.mp distinct
      unfold freeTableRemoveLocked withoutKey at inductionHypothesis ⊢
      rw [List.filter_cons]
      by_cases same : first.ptr = ptr
      · have all : ∀ other ∈ rest, decide (FreeMeta.address other ≠ ptr) = true := by
          intro other member
          exact decide_eq_true fun again => others other member (same.trans again.symm)
        rw [List.eraseP_cons_of_pos (by simpa using same), List.filter_eq_self.mpr all,
          if_neg (by simp [FreeMeta.address, same])]
      · rw [List.eraseP_cons_of_neg (by simpa using same), inductionHypothesis distinct,
          if_pos (by simp [FreeMeta.address, same])]

theorem insert_eq (distinct : Distinct log) (bounded : log.length ≤ config.freeCapacity) :
    freeTableInsertLocked config true log record =
      (logEvent FreeMeta.address log (.insert record)).take config.freeCapacity := by
  have fewer : (withoutKey FreeMeta.address log record.ptr).length ≤ config.freeCapacity :=
    (List.length_filter_le ..).trans bounded
  simp only [freeTableInsertLocked, ↓reduceIte, remove_eq distinct, logEvent]
  change _ = (record :: withoutKey FreeMeta.address log record.ptr).take config.freeCapacity
  generalize withoutKey FreeMeta.address log record.ptr = rest at fewer
  split
  next room => rw [List.take_of_length_le (by simpa using Nat.succ_le_of_lt room)]
  next full =>
    have size : config.freeCapacity = rest.length := by omega
    rw [size]
    cases rest with
    | nil => rfl
    | cons first rest =>
        rw [if_neg (by simp), List.length_cons, List.take_succ_cons, List.dropLast_eq_take]
        rfl

end Records

namespace FreeTable

/-! ## Operations -/

section Operations

variable {capacity : Nat} {t t' : FreeTable capacity} {slots slots' log log' : List (Fin capacity)}
  {ptr : Ptr} {record : FreeMeta}

theorem Indexed.of_perm (indexed : Indexed t slots log) (linked : Linked t' slots' log')
    (perm : (slots' ++ log').Perm (slots ++ log)) : Indexed t' slots' log' where
  toLinked := linked
  once := fun node => (perm.count_eq node).trans (indexed.once node)

theorem Indexed.length (indexed : Indexed t slots log) :
    slots.length + log.length = capacity := by
  have all : (slots ++ log).Perm (List.finRange capacity) := List.perm_iff_count.mpr fun node => by
    rw [indexed.once, List.count_eq_one_of_mem (List.nodup_finRange _) (List.mem_finRange node)]
  rw [← List.length_append, all.length_eq, List.length_finRange]

/-- Removing a pointer puts its node into the slots. -/
theorem Indexed.remove (indexed : Indexed t slots log) (ptr : Ptr) :
    ∃ t' slots' log', t.removeLocked ptr = some t' ∧ Indexed t' slots' log' ∧
      t'.records log' = freeTableRemoveLocked (t.records log) ptr := by
  have erased : freeTableRemoveLocked (t.records log) ptr =
      t.records (log.eraseP fun node => (t.nodes node).ptr = ptr) := by
    rw [freeTableRemoveLocked, records, List.eraseP_map]
    rfl
  rw [erased]
  cases found : log.find? fun node => (t.nodes node).ptr = ptr with
  | none =>
      refine ⟨t, slots, log, ?_, indexed, ?_⟩
      · simp only [removeLocked, indexed.find, found]
        rfl
      · rw [List.eraseP_of_forall_not (List.find?_eq_none.mp found)]
  | some node =>
      obtain ⟨here, before, after, rfl, earlier⟩ := List.find?_eq_some_iff_append.mp found
      obtain ⟨t', detached, linked, recorded⟩ := indexed.toLinked.detach
      have perm :
          (node :: slots ++ (before ++ after)).Perm (slots ++ (before ++ node :: after)) := by
        grind
      have outside : node ∉ slots ++ (before ++ after) :=
        (List.nodup_cons.mp (perm.nodup_iff.mpr indexed.apart)).1
      refine ⟨t'.slotReturnLocked node, node :: slots, before ++ after, ?_,
        indexed.of_perm (linked.slotReturn outside) perm, ?_⟩
      · simp only [removeLocked, indexed.find, found]
        change (t.detachLocked node).bind _ = _
        rw [detached]
        rfl
      · have notEarly : ∀ other ∈ before, ¬ decide ((t.nodes other).ptr = ptr) = true :=
          fun other member => by simpa using earlier other member
        rw [List.eraseP_append_right _ notEarly, List.eraseP_cons_of_pos (by simpa using here),
          records_congr fun other _ => slotReturnLocked_toFreeMeta other,
          records_congr fun other _ => recorded other]

/-- The rebuilt slots are the nodes added so far, the last one first. -/
theorem Linked.rebuild (linked : Linked t slots []) (todo : List (Fin capacity))
    (fresh : (todo ++ slots).Nodup) :
    Linked (todo.foldl slotReturnLocked t) (todo.reverse ++ slots) [] := by
  induction todo generalizing t slots with
  | nil => exact linked
  | cons node todo inductionHypothesis =>
      have moved : (todo ++ node :: slots).Nodup := List.nodup_middle.mpr fresh
      have outside : node ∉ slots ++ [] := by
        rw [List.append_nil]
        exact fun member => (List.nodup_cons.mp fresh).1 (List.mem_append_right _ member)
      rw [List.reverse_cons, List.append_assoc]
      exact inductionHypothesis (linked.slotReturn outside) moved

theorem Indexed.clear (pool : t.pool = true) :
    Indexed t.clearLocked (List.finRange capacity).reverse [] := by
  have empty : Linked { t with
      buckets := fun _ => none
      newest := none
      oldest := none
      slots := none } [] [] := {
    pool := pool
    slotList := rfl
    bucketList := fun _ => rfl
    ageList := .nil
    newest := rfl
    oldest := rfl
    apart := List.nodup_nil
    distinct := List.Pairwise.nil }
  have rebuilt := empty.rebuild (List.finRange capacity)
    (by simpa using List.nodup_finRange capacity)
  rw [List.append_nil] at rebuilt
  refine { toLinked := ?_, once := fun node => ?_ }
  · rw [clearLocked, if_pos pool]
    exact rebuilt
  · rw [List.append_nil]
    exact List.count_eq_one_of_mem (List.nodup_reverse.mpr (List.nodup_finRange _)) (by simp)

end Operations

section Insert

variable {config : Config} {t : FreeTable config.freeCapacity}
  {slots log : List (Fin config.freeCapacity)} {record : FreeMeta}

/-- Inserting takes a slot for the record, or the node of the oldest one. -/
theorem Indexed.insert (config : Config) {t : FreeTable config.freeCapacity}
    {slots log : List (Fin config.freeCapacity)} (indexed : Indexed t slots log)
    (record : FreeMeta) :
    ∃ t' slots' log', t.insertLocked record = some t' ∧ Indexed t' slots' log' ∧
      t'.records log' = freeTableInsertLocked config true (t.records log) record := by
  obtain ⟨t₁, slots₁, log₁, removed, indexed₁, recorded₁⟩ := indexed.remove record.ptr
  have new : ∀ other ∈ t₁.records log₁, record.ptr ≠ other.ptr := fun other member =>
    (mem_remove indexed.distinct (recorded₁ ▸ member)).2.symm
  have size := indexed₁.length
  have count : (t₁.records log₁).length = log₁.length := List.length_map ..
  simp only [insertLocked, indexed.pool, ↓reduceIte, removed, Option.bind_eq_bind,
    Option.bind_some, freeTableInsertLocked, ← recorded₁, count]
  cases slots₁ with
  | cons slot rest =>
      have first : t₁.slots = some slot := indexed₁.slotList.start_eq
      have perm : (rest ++ slot :: log₁).Perm (slot :: rest ++ log₁) := List.perm_middle
      obtain ⟨linked, recorded⟩ := indexed₁.takeSlot.fill record
        (List.nodup_cons.mp indexed₁.apart).1 new
      refine ⟨_, rest, slot :: log₁, by rw [first]; rfl, indexed₁.of_perm linked perm, ?_⟩
      rw [recorded, if_pos (by simp only [List.length_cons] at size; omega)]
      rfl
  | nil =>
      have full : ¬ log₁.length < config.freeCapacity := by
        simp only [List.length_nil] at size
        omega
      rw [if_neg full]
      have empty : t₁.slots = none := indexed₁.slotList.start_eq
      have oldest := indexed₁.oldest
      rcases List.eq_nil_or_concat' log₁ with rfl | ⟨front, last, rfl⟩
      · exact ⟨t₁, [], [], by rw [empty, oldest]; rfl, indexed₁, rfl⟩
      · rw [List.getLast?_concat] at oldest
        obtain ⟨t₂, detached, linked₂, recorded₂⟩ := indexed₁.toLinked.detach
        rw [List.append_nil] at linked₂
        have perm : (last :: front).Perm (front ++ [last]) := (List.perm_append_singleton ..).symm
        have outside : last ∉ front :=
          (List.nodup_cons.mp (perm.nodup_iff.mpr indexed₁.apart)).1
        have kept : t₂.records front = t₁.records front :=
          records_congr fun other _ => recorded₂ other
        obtain ⟨linked, recorded⟩ := linked₂.fill record outside
          (fun other member => new other (by
            rw [kept] at member
            simp only [records, List.map_append]
            exact List.mem_append_left _ member))
        refine ⟨t₂.fill last record, [], last :: front, ?_,
          indexed₁.of_perm linked perm, ?_⟩
        · rw [empty, oldest]
          change (t₁.detachLocked last).bind _ = _
          rw [detached]
          rfl
        · rw [recorded, kept, if_neg (by simp [records])]
          simp [records]

end Insert

/-! ## Sequences of operations -/

section Sequences

variable {capacity : Nat} {t : FreeTable capacity} {slots log : List (Fin capacity)}
  {events : List (LogEvent FreeMeta Ptr)}

/-- One operation does with the records what a bounded log does. -/
theorem Indexed.step (indexed : Indexed t slots log) (event : LogEvent FreeMeta Ptr) :
    ∃ t' slots' log', t.step event = some t' ∧ Indexed t' slots' log' ∧
      t'.records log' = (logEvent FreeMeta.address (t.records log) event).take capacity := by
  have bounded : (t.records log).length ≤ capacity := by
    have size := indexed.length
    rw [records, List.length_map]
    omega
  cases event with
  | insert record =>
      obtain ⟨t', slots', log', done, after, recorded⟩ :=
        Indexed.insert ⟨0, capacity⟩ indexed record
      refine ⟨t', slots', log', done, after, recorded.trans ?_⟩
      exact insert_eq indexed.distinct bounded
  | remove ptr =>
      obtain ⟨t', slots', log', done, after, recorded⟩ := indexed.remove ptr
      refine ⟨t', slots', log', done, after, ?_⟩
      rw [recorded, remove_eq indexed.distinct]
      exact (List.take_of_length_le ((List.length_filter_le ..).trans bounded)).symm
  | clear =>
      exact ⟨t.clearLocked, _, [], rfl, Indexed.clear indexed.pool,
        by simp [logEvent, records]⟩

theorem run_kept (capacity : Nat) (events : List (LogEvent FreeMeta Ptr)) :
    ∃ t slots log, (enable capacity true).run events = some t ∧
    Indexed t slots log ∧ t.records log = kept FreeMeta.address capacity events := by
  induction events using List.reverseRecOn with
  | nil => exact ⟨enable capacity true, _, [], rfl, Indexed.clear rfl, rfl⟩
  | append_singleton events event inductionHypothesis =>
      obtain ⟨t, slots, log, ran, indexed, recorded⟩ := inductionHypothesis
      obtain ⟨t', slots', log', stepped, after, recorded'⟩ := indexed.step event
      refine ⟨t', slots', log', ?_, after, ?_⟩
      · rw [run] at ran ⊢
        rw [List.foldlM_append, ran]
        change (t.step event).bind _ = _
        rw [stepped]
        rfl
      · rw [recorded', recorded, kept_append_one]

/-- The node found for a pointer has the record of that pointer in the log. -/
theorem Linked.find_record (linked : Linked t slots log) (ptr : Ptr) (record : FreeMeta) :
    ∃ found, t.findLocked ptr = some found ∧
      (found.map (fun node => (t.nodes node).toFreeMeta) = some record ↔
        record ∈ t.records log ∧ record.ptr = ptr) := by
  refine ⟨_, linked.find, ?_⟩
  have inLog : ∀ {node}, (log.find? fun node => (t.nodes node).ptr = ptr) = some node →
      (t.nodes node).toFreeMeta ∈ t.records log ∧ (t.nodes node).ptr = ptr := fun found =>
    ⟨List.mem_map_of_mem (List.mem_of_find?_eq_some found),
      by simpa using List.find?_some found⟩
  constructor
  · intro found
    obtain ⟨node, here, rfl⟩ := Option.map_eq_some_iff.mp found
    exact inLog here
  · rintro ⟨member, rfl⟩
    cases here : log.find? fun node => (t.nodes node).ptr = record.ptr with
    | none =>
        obtain ⟨node, logged, rfl⟩ := List.mem_map.mp member
        exact absurd (decide_eq_true rfl) (List.find?_eq_none.mp here node logged)
    | some node =>
        obtain ⟨other, same⟩ := inLog here
        have addresses : ((t.records log).map FreeMeta.address).Nodup :=
          List.pairwise_map.mpr linked.distinct
        exact congrArg some (List.inj_on_of_nodup_map addresses other member same)

end Sequences

/-- After any sequence of operations every node is linked where it should be, and a
pointer is found with the record of its last insertion exactly when that is
retained. -/
theorem run_finds_retained (capacity : Nat) (events : List (LogEvent FreeMeta Ptr)) :
    ∃ t slots log, (enable capacity true).run events = some t ∧ Indexed t slots log ∧
      ∀ ptr, ∃ found, t.findLocked ptr = some found ∧
        ∀ record, found.map (fun node => (t.nodes node).toFreeMeta) = some record ↔
          record.ptr = ptr ∧ Retained FreeMeta.address capacity events record := by
  obtain ⟨t, slots, log, ran, indexed, recorded⟩ := run_kept capacity events
  refine ⟨t, slots, log, ran, indexed, fun ptr => ⟨_, indexed.find, fun record => ?_⟩⟩
  obtain ⟨found, here, iff⟩ := indexed.find_record ptr record
  obtain rfl := Option.some.inj (here.symm.trans indexed.find)
  rw [iff, recorded, mem_kept_iff, and_comm]

end FreeTable

end Ucb.Memdbg
