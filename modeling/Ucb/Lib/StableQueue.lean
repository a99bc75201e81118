import Mathlib.Order.Lattice
import Mathlib.Data.List.Count
import Mathlib.Data.List.Induction

/-!
Contract: queues that give out the earliest of the entries with the highest priority.

Owns:
- a queue as the list of its entries in the order in which they were put in;
- the entry that comes out first, what is left, and the order in which all come out;
- `popOrder_put`, the place of a new entry in that order;
- lists kept in that order while entries are put in and taken out.
-/

namespace Ucb.Lib.StableQueue

universe u v

variable {Priority : Type u} {Item : Type v} [LinearOrder Priority]

/-- No entry has a higher priority than this one. -/
def tops (entries : List (Priority × Item)) (entry : Priority × Item) : Bool :=
  entries.all fun other => decide (other.1 ≤ entry.1)

/-- The entry that comes out first. -/
def first (entries : List (Priority × Item)) : Option (Priority × Item) :=
  entries.find? (tops entries)

/-- What is left without it. -/
def others (entries : List (Priority × Item)) : List (Priority × Item) :=
  entries.eraseP (tops entries)

/-- The entries that come out first. -/
def takeOut : Nat → List (Priority × Item) → List (Priority × Item)
  | 0, _ => []
  | count + 1, entries =>
      match first entries with
      | none => []
      | some entry => entry :: takeOut count (others entries)

/-- All entries in the order in which they come out. -/
def popOrder (entries : List (Priority × Item)) : List (Priority × Item) :=
  takeOut entries.length entries

/-- How many entries come out before one that is put in now. -/
def position (entries : List (Priority × Item)) (priority : Priority) : Nat :=
  entries.countP fun other => decide (priority ≤ other.1)

def atPriority (priority : Priority) (entries : List (Priority × Item)) : List (Priority × Item) :=
  entries.filter fun entry => decide (entry.1 = priority)

/-- The entries in descending order, those of each priority as they were put in. -/
structure Sorted (sorted entries : List (Priority × Item)) : Prop where
  perm : sorted.Perm entries
  descending : sorted.Pairwise fun before after => after.1 ≤ before.1
  stable : ∀ priority, atPriority priority sorted = atPriority priority entries

theorem Sorted.nil : Sorted ([] : List (Priority × Item)) [] where
  perm := .refl _
  descending := .nil
  stable := fun _ => rfl

variable {sorted entries front back : List (Priority × Item)} {entry : Priority × Item}
  {priority : Priority} {item : Item}

/-! ## Putting in -/

theorem atPriority_append (front back : List (Priority × Item)) :
    atPriority priority (front ++ back) = atPriority priority front ++ atPriority priority back :=
  List.filter_append ..

/-- One entry more, of this or of another priority. -/
theorem atPriority_cons (level : Priority) (entry : Priority × Item)
    (entries : List (Priority × Item)) :
    atPriority level (entry :: entries) =
      if entry.1 = level then entry :: atPriority level entries else atPriority level entries := by
  rw [atPriority, List.filter_cons]
  simp only [decide_eq_true_eq, atPriority]

theorem atPriority_eq_nil (none : ∀ entry ∈ entries, entry.1 ≠ priority) :
    atPriority priority entries = [] := by
  rw [atPriority, List.filter_eq_nil_iff]
  intro entry member
  simpa using none entry member

/-- An entry belongs behind those of its priority or a higher one. -/
theorem Sorted.put (ordered : Sorted (front ++ back) entries)
    (before : ∀ other ∈ front, priority ≤ other.1) (behind : ∀ other ∈ back, other.1 < priority) :
    Sorted (front ++ (priority, item) :: back) (entries ++ [(priority, item)]) where
  perm := by
    have last := (List.perm_append_singleton (priority, item) (front ++ back)).symm
    exact List.perm_middle.trans (last.trans (ordered.perm.append_right _))
  descending := by
    obtain ⟨inFront, inBack, across⟩ := List.pairwise_append.mp ordered.descending
    refine List.pairwise_append.mpr ⟨inFront, List.pairwise_cons.mpr ⟨?_, inBack⟩, ?_⟩
    · exact fun other member => le_of_lt (behind other member)
    · intro other member later isLater
      rcases List.mem_cons.mp isLater with rfl | isLater
      · exact before other member
      · exact across other member later isLater
  stable := by
    intro level
    rw [atPriority_append, atPriority_append, ← ordered.stable level, atPriority_append,
      atPriority_cons, atPriority_cons]
    by_cases same : priority = level
    · have none : atPriority level back = [] :=
        atPriority_eq_nil fun other member => ne_of_lt (same ▸ behind other member)
      rw [if_pos same, if_pos same, none, List.append_nil]
      rfl
    · rw [if_neg same, if_neg same]
      exact (List.append_nil _).symm

/-- As many entries come out before a new one as stand before it. -/
theorem Sorted.position_eq (ordered : Sorted (front ++ back) entries)
    (before : ∀ other ∈ front, priority ≤ other.1) (behind : ∀ other ∈ back, other.1 < priority) :
    position entries priority = front.length := by
  have all : front.countP (fun other => decide (priority ≤ other.1)) = front.length :=
    List.countP_eq_length.mpr fun other member => decide_eq_true (before other member)
  have none : back.countP (fun other => decide (priority ≤ other.1)) = 0 :=
    List.countP_eq_zero.mpr fun other member => by simpa using behind other member
  rw [position, ← ordered.perm.countP_eq, List.countP_append, all, none, Nat.add_zero]

/-! ## Taking out -/

/-- Only entries of the highest priority are not exceeded. -/
theorem tops_eq (ordered : Sorted (entry :: sorted) entries) {other : Priority × Item}
    (member : other ∈ entries) : tops entries other = decide (other.1 = entry.1) := by
  have among {some : Priority × Item} (within : some ∈ entries) : some.1 ≤ entry.1 := by
    rcases List.mem_cons.mp (ordered.perm.mem_iff.mpr within) with rfl | later
    · exact le_refl _
    · exact (List.pairwise_cons.mp ordered.descending).1 some later
  have here : entry ∈ entries := ordered.perm.mem_iff.mp (List.mem_cons_self ..)
  rw [tops, Bool.eq_iff_iff, List.all_eq_true, decide_eq_true_iff]
  constructor
  · intro all
    exact le_antisymm (among member) (of_decide_eq_true (all entry here))
  · intro same some within
    rw [decide_eq_true_iff, same]
    exact among within

/-- The first of the sorted entries comes out first. -/
theorem Sorted.first_eq (ordered : Sorted (entry :: sorted) entries) :
    first entries = some entry := by
  have level := ordered.stable entry.1
  have same : entries.filter (tops entries) = atPriority entry.1 entries :=
    List.filter_congr fun other member => tops_eq ordered member
  rw [first, ← List.head?_filter, same, ← level]
  simp [atPriority]

/-- The entry that comes out is taken from between the others, behind others of lower
priority only. -/
theorem Sorted.split (ordered : Sorted (entry :: sorted) entries) :
    ∃ before after, entries = before ++ entry :: after ∧ others entries = before ++ after ∧
      ∀ other ∈ before, other.1 ≠ entry.1 := by
  obtain ⟨top, before, after, rfl, below⟩ := List.find?_eq_some_iff_append.mp ordered.first_eq
  refine ⟨before, after, rfl, ?_, ?_⟩
  · rw [others, List.eraseP_append_right _ (fun other member => by simpa using below other member),
      List.eraseP_cons_of_pos top]
  · intro other member same
    have differs := below other member
    rw [tops_eq ordered (List.mem_append_left _ member), decide_eq_true same] at differs
    cases differs

/-- The others stay sorted. -/
theorem Sorted.tail (ordered : Sorted (entry :: sorted) entries) :
    Sorted sorted (others entries) := by
  obtain ⟨before, after, rfl, left, below⟩ := ordered.split
  rw [left]
  refine ⟨(ordered.perm.trans List.perm_middle).cons_inv,
    (List.pairwise_cons.mp ordered.descending).2, ?_⟩
  intro level
  have same := ordered.stable level
  rw [atPriority_append, atPriority_cons, atPriority_cons] at same
  rw [atPriority_append]
  by_cases here : entry.1 = level
  · have none : atPriority level before = [] :=
      atPriority_eq_nil fun other member => here ▸ below other member
    rw [if_pos here, if_pos here, none] at same
    rw [none]
    exact List.tail_eq_of_cons_eq same
  · rwa [if_neg here, if_neg here] at same

/-- Sorted entries are in the order in which they come out. -/
theorem Sorted.popOrder_eq (ordered : Sorted sorted entries) : popOrder entries = sorted := by
  rw [popOrder, ← ordered.perm.length_eq]
  induction sorted generalizing entries with
  | nil => rfl
  | cons entry sorted inductionHypothesis =>
      rw [List.length_cons, takeOut, ordered.first_eq]
      exact congrArg (entry :: ·) (inductionHypothesis ordered.tail)

/-- Sorted entries fall apart into those a new one comes behind and those it comes before. -/
theorem Sorted.divide (ordered : Sorted sorted entries) (priority : Priority) :
    ∃ front back, sorted = front ++ back ∧ (∀ other ∈ front, priority ≤ other.1) ∧
      ∀ other ∈ back, other.1 < priority := by
  have descending := ordered.descending
  clear ordered
  induction sorted with
  | nil => exact ⟨[], [], rfl, by simp, by simp⟩
  | cons entry sorted inductionHypothesis =>
      obtain ⟨below, rest⟩ := List.pairwise_cons.mp descending
      by_cases before : priority ≤ entry.1
      · obtain ⟨front, back, rfl, high, low⟩ := inductionHypothesis rest
        exact ⟨entry :: front, back, rfl, List.forall_mem_cons.mpr ⟨before, high⟩, low⟩
      · have lower : entry.1 < priority := lt_of_not_ge before
        refine ⟨[], entry :: sorted, rfl, by simp, List.forall_mem_cons.mpr ⟨lower, ?_⟩⟩
        intro other member
        exact lt_of_le_of_lt (below other member) lower

theorem exists_sorted (entries : List (Priority × Item)) : ∃ sorted, Sorted sorted entries := by
  induction entries using List.reverseRecOn with
  | nil => exact ⟨[], .nil⟩
  | append_singleton entries entry inductionHypothesis =>
      obtain ⟨sorted, ordered⟩ := inductionHypothesis
      obtain ⟨front, back, rfl, before, behind⟩ := ordered.divide entry.1
      exact ⟨_, ordered.put before behind⟩

/-- A new entry comes out behind the first `position` others, and before the rest. -/
theorem popOrder_put (entries : List (Priority × Item)) (priority : Priority) (item : Item) :
    ∃ front back, popOrder entries = front ++ back ∧
      popOrder (entries ++ [(priority, item)]) = front ++ (priority, item) :: back ∧
      position entries priority = front.length := by
  obtain ⟨sorted, ordered⟩ := exists_sorted entries
  obtain ⟨front, back, rfl, before, behind⟩ := ordered.divide priority
  exact ⟨front, back, ordered.popOrder_eq, (ordered.put before behind).popOrder_eq,
    ordered.position_eq before behind⟩

theorem Sorted.entries_nil (ordered : Sorted [] entries) : entries = [] :=
  ordered.perm.nil_eq.symm

end Ucb.Lib.StableQueue
