import Mathlib.Data.Finset.Card
import Mathlib.Data.List.Infix
import Mathlib.Data.List.Nodup

/-!
Contract: a log of the most recent records, at most so many of them and at most
one for each key.

Owns:
- `logged`, the log of a history of events without a bound, and `kept`, with one;
- `Retained`, the histories after which a bounded log still has a record;
- that these are the ones.

A log is a list, newest record first.
-/

namespace Ucb.Lib

universe u v

variable {Record : Type u} {Key : Type v}

inductive LogEvent (Record : Type u) (Key : Type v) where
  | insert (record : Record)
  | remove (key : Key)
  | clear
deriving DecidableEq, Repr

def LogEvent.About (key : Record → Key) (about : Key) : LogEvent Record Key → Prop
  | .insert record => key record = about
  | .remove gone => gone = about
  | .clear => True

variable [DecidableEq Key]

/-- The records without the one of a key. -/
def withoutKey (key : Record → Key) (log : List Record) (gone : Key) : List Record :=
  log.filter fun record => key record ≠ gone

/-- One event of a log without a bound. -/
def logEvent (key : Record → Key) (log : List Record) : LogEvent Record Key → List Record
  | .insert record => record :: withoutKey key log (key record)
  | .remove gone => withoutKey key log gone
  | .clear => []

def logged (key : Record → Key) (events : List (LogEvent Record Key)) : List Record :=
  events.foldl (logEvent key) []

/-- The log of at most `capacity` records, where the oldest one makes room. -/
def kept (key : Record → Key) (capacity : Nat) (events : List (LogEvent Record Key)) :
    List Record :=
  events.foldl (fun log event => (logEvent key log event).take capacity) []

/-- The keys whose last event is an insertion. -/
def insertedKeys (key : Record → Key) (events : List (LogEvent Record Key)) : Finset Key :=
  events.foldl (fun keys event =>
    match event with
    | .insert record => insert (key record) keys
    | .remove gone => keys.erase gone
    | .clear => ∅) ∅

/-- The record was inserted and there has been no event about its key since, nor ever
so many other keys inserted after it that it had to make room. -/
def Retained (key : Record → Key) (capacity : Nat) (events : List (LogEvent Record Key))
    (record : Record) : Prop :=
  ∃ before after, events = before ++ .insert record :: after ∧
    (∀ event ∈ after, ¬ event.About key (key record)) ∧
    ∀ front, front <+: after → (insertedKeys key front).card < capacity

variable {key : Record → Key} {capacity : Nat} {record other : Record}
  {events before after : List (LogEvent Record Key)} {event : LogEvent Record Key}
  {log newer older : List Record}

theorem logged_append_one :
    logged key (events ++ [event]) = logEvent key (logged key events) event := by
  simp [logged]

theorem kept_append_one : kept key capacity (events ++ [event]) =
    (logEvent key (kept key capacity events) event).take capacity := by
  simp [kept]

theorem mem_withoutKey {gone : Key} :
    record ∈ withoutKey key log gone ↔ record ∈ log ∧ key record ≠ gone := by
  simp [withoutKey]

theorem mem_logEvent (member : record ∈ logEvent key log event) :
    event = .insert record ∨ record ∈ log ∧ ¬ event.About key (key record) := by
  cases event with
  | insert new =>
      rcases List.mem_cons.mp member with same | old
      · exact .inl (congrArg _ same.symm)
      · obtain ⟨inLog, differs⟩ := mem_withoutKey.mp old
        exact .inr ⟨inLog, differs.symm⟩
  | remove gone =>
      obtain ⟨inLog, differs⟩ := mem_withoutKey.mp member
      exact .inr ⟨inLog, differs.symm⟩
  | clear => cases member

/-! ## Without a bound -/

theorem logged_keys_nodup : ((logged key events).map key).Nodup := by
  induction events using List.reverseRecOn with
  | nil => exact List.nodup_nil
  | append_singleton events event inductionHypothesis =>
      have fewer : ∀ gone, ((withoutKey key (logged key events) gone).map key).Nodup :=
        fun gone => inductionHypothesis.sublist (List.filter_sublist.map key)
      rw [logged_append_one]
      cases event with
      | insert record =>
          refine List.nodup_cons.mpr ⟨fun again => ?_, fewer (key record)⟩
          obtain ⟨old, inLog, same⟩ := List.mem_map.mp again
          exact (mem_withoutKey.mp inLog).2 same
      | remove gone => exact fewer gone
      | clear => exact List.nodup_nil

theorem logged_keys : ((logged key events).map key).toFinset = insertedKeys key events := by
  induction events using List.reverseRecOn with
  | nil => rfl
  | append_singleton events event inductionHypothesis =>
      have keysWithout : ∀ gone, ((withoutKey key (logged key events) gone).map key).toFinset =
          (insertedKeys key events).erase gone := by
        intro gone
        rw [← inductionHypothesis]
        ext name
        simp only [List.mem_toFinset, List.mem_map, mem_withoutKey, Finset.mem_erase]
        grind
      have one : insertedKeys key (events ++ [event]) = match event with
          | .insert record => insert (key record) (insertedKeys key events)
          | .remove gone => (insertedKeys key events).erase gone
          | .clear => ∅ := by
        cases event <;> simp [insertedKeys]
      rw [logged_append_one, one]
      cases event with
      | insert record =>
          simp only [logEvent, List.map_cons, List.toFinset_cons, keysWithout]
          ext name
          by_cases same : name = key record <;> simp [same]
      | remove gone => exact keysWithout gone
      | clear => rfl

theorem logged_length : (logged key events).length = (insertedKeys key events).card := by
  rw [← logged_keys, List.toFinset_card_of_nodup logged_keys_nodup, List.length_map]

/-- A record of the log was inserted. -/
theorem insert_mem_of_mem_logged (member : record ∈ logged key events) :
    .insert record ∈ events := by
  induction events using List.reverseRecOn with
  | nil => cases member
  | append_singleton events event inductionHypothesis =>
      rw [logged_append_one] at member
      rcases mem_logEvent member with rfl | ⟨old, -⟩
      · simp
      · exact List.mem_append_left _ (inductionHypothesis old)

/-! ## With a bound -/

/-- An event about another key leaves a record where it is, behind what the event
does to the newer ones. -/
theorem logEvent_split (newer older : List Record) (elsewhere : ¬ event.About key (key record)) :
    ∃ older', logEvent key (newer ++ record :: older) event =
      logEvent key newer event ++ record :: older' := by
  cases event with
  | insert new =>
      have stays : key record ≠ key new := fun same => elsewhere same.symm
      exact ⟨withoutKey key older (key new), by simp [logEvent, withoutKey, stays]⟩
  | remove gone =>
      have stays : key record ≠ gone := fun same => elsewhere same.symm
      exact ⟨withoutKey key older gone, by simp [logEvent, withoutKey, stays]⟩
  | clear => exact (elsewhere trivial).elim

theorem take_split (newer : List Record) (record : Record) (older : List Record)
    (room : newer.length < capacity) :
    ∃ older', (newer ++ record :: older).take capacity = newer ++ record :: older' := by
  obtain ⟨spare, rfl⟩ : ∃ spare, capacity = newer.length + (spare + 1) :=
    ⟨capacity - newer.length - 1, by omega⟩
  exact ⟨older.take spare, by rw [List.take_length_add_append, List.take_succ_cons]⟩

theorem logged_length_lt {front : List (LogEvent Record Key)}
    (room : ∀ front, front <+: after → (insertedKeys key front).card < capacity)
    (isPrefix : front <+: after) : (logged key front).length < capacity := by
  rw [logged_length]
  exact room front isPrefix

/-- A retained record is in the log, behind those of the keys inserted since. -/
theorem kept_split (before : List (LogEvent Record Key))
    (elsewhere : ∀ event ∈ after, ¬ event.About key (key record))
    (room : ∀ front, front <+: after → (insertedKeys key front).card < capacity) :
    ∃ older, kept key capacity (before ++ .insert record :: after) =
      logged key after ++ record :: older := by
  induction after using List.reverseRecOn with
  | nil =>
      rw [kept_append_one]
      exact take_split [] _ _ (logged_length_lt room (List.prefix_refl []))
  | append_singleton after event inductionHypothesis =>
      obtain ⟨older, split⟩ := inductionHypothesis
        (fun event member => elsewhere event (List.mem_append_left _ member))
        (fun front isPrefix => room front (isPrefix.trans (List.prefix_append ..)))
      obtain ⟨older', moved⟩ := logEvent_split (logged key after) older
        (elsewhere event (by simp))
      rw [← List.cons_append, ← List.append_assoc, kept_append_one, split, moved,
        ← logged_append_one]
      exact take_split _ _ _ (logged_length_lt room (List.prefix_refl _))

/-- A record of the log is retained. -/
theorem retained_of_mem_kept (member : record ∈ kept key capacity events) :
    Retained key capacity events record := by
  induction events using List.reverseRecOn with
  | nil => cases member
  | append_singleton events event inductionHypothesis =>
      rw [kept_append_one] at member
      rcases mem_logEvent (List.mem_of_mem_take member) with rfl | ⟨old, elsewhere⟩
      · refine ⟨events, [], rfl, fun _ member => absurd member List.not_mem_nil,
          fun front isPrefix => ?_⟩
        rw [List.prefix_nil.mp isPrefix]
        exact Nat.pos_of_ne_zero fun nothing => by simp [nothing] at member
      · obtain ⟨before, after, rfl, quiet, room⟩ := inductionHypothesis old
        have quiet' : ∀ other ∈ after ++ [event], ¬ other.About key (key record) := by
          intro other new
          rcases List.mem_append.mp new with early | late
          · exact quiet other early
          · rwa [List.mem_singleton.mp late]
        refine ⟨before, after ++ [event], by simp, quiet', fun front isPrefix => ?_⟩
        rcases List.prefix_concat_iff.mp isPrefix with rfl | early
        · -- With so many newer records, this one would have made room.
          rw [← logged_length]
          by_contra full
          obtain ⟨older, split⟩ := kept_split before quiet room
          obtain ⟨older', moved⟩ := logEvent_split (logged key after) older
            elsewhere
          rw [split, moved, ← logged_append_one,
            List.take_append_of_le_length (Nat.le_of_not_lt full)] at member
          exact quiet' _ (insert_mem_of_mem_logged (List.mem_of_mem_take member)) rfl
        · exact room front early

/-- A bounded log has exactly the retained records. -/
theorem mem_kept_iff : record ∈ kept key capacity events ↔ Retained key capacity events record := by
  refine ⟨retained_of_mem_kept, fun ⟨before, after, split, elsewhere, room⟩ => ?_⟩
  obtain ⟨older, kept⟩ := kept_split before elsewhere room
  rw [split, kept]
  simp

end Ucb.Lib
